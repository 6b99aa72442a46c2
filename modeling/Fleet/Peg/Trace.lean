import Fleet.Peg.Matcher
/-!
What happens while the matcher is at work, in order: the expressions that are tried, what could not
be matched, what actions say and what fails behind a commit. A trace keeps its own account of the
rules being matched and of the lookaheads around, and asks the matcher for its answers only.
-/

namespace Fleet.Peg
open Fleet.Text

/-- The rules `within` are those being matched, innermost first. -/
inductive Happening (ι ν ε : Type) where
  | tried (e : Expr ι) (k : Cursor)
  /-- A literal, a class, a wildcard or a lookahead has failed. -/
  | missed (within : List Frame) (k : Cursor) (kind : Failure.Kind) (expected : String)
  /-- The action of the rule was asked about a match that begins at `k`. -/
  | acted (id : ι) (k : Cursor) (answer : Except ε (List ν))
  /-- An element of a sequence has failed behind a commit. -/
  | cut (within : List Frame) (f : Failure)

/-- Happenings, each with the number of lookaheads around it. -/
abbrev Trace (ι ν ε : Type) := List (Nat × Happening ι ν ε)

/-- The names of the rules, outermost first. -/
def pathOf (within : List Frame) : List String := (within.map Frame.name).reverse

namespace Happening
variable {ι ν ε : Type}

def missed? : Happening ι ν ε → Option Failure
  | missed within k kind expected => some (.single (pathOf within) k kind expected)
  | _ => none

/-- An action's refusal, as the journal tells it. -/
def refused? (g : Grammar ι ν ε) : Happening ι ν ε → Option (Rejection ε)
  | acted id k (.error error) => some ⟨(g.rule id).name, k.pos.line, error⟩
  | _ => none

/-- A refusal by an action and a failure behind a commit: the end of all that happens outside
lookaheads. -/
def isFinal : Happening ι ν ε → Bool
  | acted _ _ (.error _) | cut _ _ => true
  | _ => false

end Happening

namespace Trace
variable {ι ν ε : Type}

/-- What happens outside every lookahead. -/
def outside (tr : Trace ι ν ε) : List (Happening ι ν ε) :=
  tr.filterMap fun h => if h.1 = 0 then some h.2 else none

/-- The failures outside every lookahead. -/
def misses (tr : Trace ι ν ε) : List Failure := tr.outside.filterMap Happening.missed?

/-- The refusals by actions, in lookaheads or not. -/
def refusals (g : Grammar ι ν ε) (tr : Trace ι ν ε) : List (Rejection ε) :=
  tr.filterMap fun h => h.2.refused? g

/-- The trace with one lookahead more around it. -/
def deeper (tr : Trace ι ν ε) : Trace ι ν ε := tr.map fun h => (h.1 + 1, h.2)

/-- Nothing outside lookaheads is final. -/
def Quiet (tr : Trace ι ν ε) : Prop := ∀ h ∈ tr.outside, h.isFinal = false

@[simp] theorem outside_nil : outside ([] : Trace ι ν ε) = [] := rfl

@[simp] theorem outside_cons (h : Happening ι ν ε) (tr : Trace ι ν ε) :
    outside ((0, h) :: tr) = h :: tr.outside := rfl

@[simp] theorem outside_append (tr tr' : Trace ι ν ε) :
    outside (tr ++ tr') = tr.outside ++ tr'.outside := List.filterMap_append ..

/-- Inside a lookahead nothing happens outside of it. -/
@[simp] theorem outside_deeper (tr : Trace ι ν ε) : tr.deeper.outside = [] := by
  simp [outside, deeper, List.filterMap_map]

@[simp] theorem misses_append (tr tr' : Trace ι ν ε) :
    misses (tr ++ tr') = tr.misses ++ tr'.misses := by
  simp [misses]

@[simp] theorem misses_deeper (tr : Trace ι ν ε) : tr.deeper.misses = [] := by
  simp [misses]

@[simp] theorem refusals_append (g : Grammar ι ν ε) (tr tr' : Trace ι ν ε) :
    refusals g (tr ++ tr') = tr.refusals g ++ tr'.refusals g := List.filterMap_append ..

@[simp] theorem refusals_deeper (g : Grammar ι ν ε) (tr : Trace ι ν ε) :
    tr.deeper.refusals g = tr.refusals g := List.filterMap_map

theorem quiet_nil : Quiet ([] : Trace ι ν ε) := nofun

theorem quiet_deeper (tr : Trace ι ν ε) : tr.deeper.Quiet := by
  simp [Quiet]

theorem quiet_singleton {h : Happening ι ν ε} (hh : h.isFinal = false) : Quiet [(0, h)] := by
  simpa [Quiet] using hh

theorem Quiet.append {tr tr' : Trace ι ν ε} (h : tr.Quiet) (h' : tr'.Quiet) :
    Quiet (tr ++ tr') := by
  intro x hx
  rw [outside_append, List.mem_append] at hx
  exact hx.elim (h x) (h' x)

end Trace

variable {ι ν ε : Type} [BEq ι]

mutual

/-- What happens when `eval` matches the expression at `k` in the rules `within`. -/
def trace (g : Grammar ι ν ε) :
    Nat → List Frame → Expr ι → Cursor → State ν ε → Trace ι ν ε
  | 0, _, _, _, _ => []
  | steps + 1, within, e, k, s =>
    let missedIf (b : Bool) (kind : Failure.Kind) : Trace ι ν ε :=
      if b then [(0, .missed within k kind (g.describe e))] else []
    (0, .tried e k) :: match e with
    | .literal text => missedIf (k.strip? text.toList).isNone .literal
    | .oneOf cls => missedIf (!k.next?.any (cls.contains ·.1)) .charClass
    | .any => missedIf k.next?.isNone .endOfText
    | .seq items => traceSeq g steps within items false k s
    | .choice items => traceChoice g steps within items k s
    | .oneOrMore inner | .zeroOrMore inner => traceMany g steps within inner k s
    | .optional inner | .ignore inner | .capture _ inner => trace g steps within inner k s
    | .not inner =>
      (trace g steps within inner k s.lookAhead).deeper ++
        missedIf ((eval g steps inner k s.lookAhead).any (·.1.isMatch)) .lookahead
    | .commit => []
    | .rule id => traceRule g steps within id k s

/-- An element is tried where the one before it has matched. -/
def traceSeq (g : Grammar ι ν ε) :
    Nat → List Frame → List (Expr ι) → Bool → Cursor → State ν ε → Trace ι ν ε
  | 0, _, _, _, _, _ => []
  | _ + 1, _, [], _, _, _ => []
  | steps + 1, within, .commit :: items, _, k, s => traceSeq g steps within items true k s
  | steps + 1, within, e :: items, committed, k, s =>
    trace g steps within e k s ++ match eval g steps e k s with
      | some (.matched rest _, s) => traceSeq g steps within items committed rest s
      | some (.failed f, _) => if committed then [(0, .cut within f)] else []
      | _ => []

/-- An alternative is tried where the one before it has failed. -/
def traceChoice (g : Grammar ι ν ε) :
    Nat → List Frame → List (Expr ι) → Cursor → State ν ε → Trace ι ν ε
  | 0, _, _, _, _ => []
  | _ + 1, _, [], _, _ => []
  | steps + 1, within, e :: items, k, s =>
    trace g steps within e k s ++ match eval g steps e k s with
      | some (.failed _, s) => traceChoice g steps within items k s
      | _ => []

def traceMany (g : Grammar ι ν ε) :
    Nat → List Frame → Expr ι → Cursor → State ν ε → Trace ι ν ε
  | 0, _, _, _, _ => []
  | steps + 1, within, e, k, s =>
    trace g steps within e k s ++ match eval g steps e k s with
      | some (.matched rest _, s) =>
        if k.offset < rest.offset then traceMany g steps within e rest s else []
      | _ => []

/-- An action is asked where its rule's body has matched. -/
def traceRule (g : Grammar ι ν ε) :
    Nat → List Frame → ι → Cursor → State ν ε → Trace ι ν ε
  | 0, _, _, _, _ => []
  | steps + 1, within, id, k, s =>
    let rule := g.rule id
    let within := ⟨rule.name, k.pos⟩ :: within
    let inside := s.enter rule.name k.pos
    match rule.action with
    | none => trace g steps within rule.body k inside
    | some action =>
      trace g steps within rule.body k inside.openScope ++
        match eval g steps rule.body k inside.openScope with
        | some (.matched .., s) => [(0, .acted id k (action s.scope))]
        | _ => []

end

/-- What happens when a rule is matched against the whole of a text, with as many steps as a run
has. -/
def Grammar.trace (g : Grammar ι ν ε) (id : ι) (text : String) : Trace ι ν ε :=
  Peg.trace g (g.budget text.toList.length) [] (.rule id) (.ofText text) .start

theorem traceSeq_cons (g : Grammar ι ν ε) (n : Nat) {e : Expr ι} (he : e ≠ .commit)
    (within : List Frame) (es : List (Expr ι)) (c : Bool) (k : Cursor) (s : State ν ε) :
    traceSeq g (n + 1) within (e :: es) c k s =
      trace g n within e k s ++ match eval g n e k s with
        | some (.matched l _, t) => traceSeq g n within es c l t
        | some (.failed f, _) => if c then [(0, .cut within f)] else []
        | _ => [] := by
  rw [traceSeq]
  exact he

end Fleet.Peg
