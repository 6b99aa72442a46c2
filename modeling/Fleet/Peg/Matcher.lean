import Fleet.Peg.State
/-!
Matching with ordered choice, greedy repetition, lookahead, commit points and actions. `eval`
takes a number of steps it may nest and gives `none` when they do not suffice; more steps never
change an answer that fewer have given.
-/

namespace Fleet.Peg
open Fleet.Text

variable {ι ν ε : Type} [BEq ι]

mutual

/-- Matches one expression at `k`. Where it does not match, nothing stays captured. -/
def eval (g : Grammar ι ν ε) :
    Nat → Expr ι → Cursor → State ν ε → Option (Outcome ν × State ν ε)
  | 0, _, _, _ => none
  | steps + 1, e, k, s =>
    Option.map (State.unwind s.scope.mark) <| match e with
    | .literal text =>
      match k.strip? text.toList with
      | some rest => some (.matched rest [.text text], s)
      | none => some (s.fail k .literal (e.describe g.number))
    | .oneOf cls =>
      match k.next? with
      | some (c, rest) =>
        if cls.contains c then some (.matched rest [.text c.toString], s)
        else some (s.fail k .charClass (e.describe g.number))
      | none => some (s.fail k .charClass (e.describe g.number))
    | .any =>
      match k.next? with
      | some (c, rest) => some (.matched rest [.text c.toString], s)
      | none => some (s.fail k .endOfText (e.describe g.number))
    | .seq items => evalSeq g steps items false k s
    | .choice items => evalChoice g steps items none k s
    | .oneOrMore inner => evalMany g steps inner true k s
    | .zeroOrMore inner => evalMany g steps inner false k s
    | .optional inner =>
      match eval g steps inner k s with
      | some (.failed _, s) => some (.matched k [], s)
      | other => other
    | .not inner =>
      match eval g steps inner k s.lookAhead with
      | none => none
      | some (.matched _ _, t) =>
        some ((t.lookBack s.scope.mark).fail k .lookahead (g.describe e))
      | some (_, t) => some (.matched k [], (t.lookBack s.scope.mark).clearRejection)
    | .commit => some (.matched k [], s)
    | .ignore inner =>
      match eval g steps inner k s with
      | some (.matched rest _, s) => some (.matched rest [], s)
      | other => other
    | .capture name inner =>
      match eval g steps inner k s with
      | some (.matched rest items, s) => some (.matched rest items, s.capture name items)
      | other => other
    | .rule id => evalRule g steps id k s

/-- Matches the elements one after the other. Once a commit has been passed, the failure of an
element aborts the match instead of giving it back to a choice. -/
def evalSeq (g : Grammar ι ν ε) :
    Nat → List (Expr ι) → Bool → Cursor → State ν ε → Option (Outcome ν × State ν ε)
  | 0, _, _, _, _ => none
  | _ + 1, [], _, k, s => some (.matched k [], s)
  | steps + 1, .commit :: items, _, k, s => evalSeq g steps items true k s
  | steps + 1, e :: items, committed, k, s =>
    match eval g steps e k s with
    | some (.matched rest first, s) =>
      match evalSeq g steps items committed rest s with
      | some (.matched rest more, s) => some (.matched rest (first ++ more), s)
      | other => other
    | some (.failed f, s) => some (if committed then .aborted (s.anchored f) else .failed f, s)
    | other => other

/-- Takes the first alternative that does not fail; `best` is the furthest failure before. -/
def evalChoice (g : Grammar ι ν ε) :
    Nat → List (Expr ι) → Option Failure → Cursor → State ν ε → Option (Outcome ν × State ν ε)
  | 0, _, _, _, _ => none
  | _ + 1, [], best, k, s =>
    some (.failed (best.getD (.single s.path k .alternatives "an alternative")), s)
  | steps + 1, e :: items, best, k, s =>
    match eval g steps e k s with
    | some (.failed f, s) => evalChoice g steps items (some (Failure.join best f)) k s
    | other => other

/-- Matches as often as possible, and at least once if `required`. A match that consumes nothing
is the last one, so every text comes to an end. -/
def evalMany (g : Grammar ι ν ε) :
    Nat → Expr ι → Bool → Cursor → State ν ε → Option (Outcome ν × State ν ε)
  | 0, _, _, _, _ => none
  | steps + 1, e, required, k, s =>
    match eval g steps e k s with
    | some (.matched rest first, s) =>
      if k.offset < rest.offset then
        match evalMany g steps e false rest s with
        | some (.matched rest more, s) => some (.matched rest (first ++ more), s)
        | other => other
      else some (.matched rest first, s)
    | some (.failed f, s) => some (if required then .failed f else .matched k [], s)
    | other => other

/-- Matches a rule's body and lets its action decide what it yields. A match that the action
refuses aborts. -/
def evalRule (g : Grammar ι ν ε) :
    Nat → ι → Cursor → State ν ε → Option (Outcome ν × State ν ε)
  | 0, _, _, _ => none
  | steps + 1, id, k, s =>
    let rule := g.rule id
    let inside := s.enter rule.name k.pos
    match rule.action with
    | none => (eval g steps rule.body k inside).map fun (o, s) => (o, s.leave)
    | some action =>
      (eval g steps rule.body k inside.openScope).map fun (o, s) =>
        let around := s.closeScope.leave
        match o with
        | .matched rest _ =>
          match action s.scope with
          | .ok nodes => (.matched rest (nodes.map .node), around)
          | .error error =>
            let refused := Failure.single [rule.name] k .action s!"a valid {rule.name}"
            (.aborted refused, around.reject rule.name k.pos.line error)
        | o => (o, around)

end

theorem evalSeq_cons (g : Grammar ι ν ε) (n : Nat) {e : Expr ι} (he : e ≠ .commit)
    (es : List (Expr ι)) (c : Bool) (k : Cursor) (s : State ν ε) :
    evalSeq g (n + 1) (e :: es) c k s =
      match eval g n e k s with
      | some (.matched l first, t) => (evalSeq g n es c l t).map fun (o, u) => (o.after first, u)
      | some (.failed f, t) => some (if c then .aborted (t.anchored f) else .failed f, t)
      | other => other := by
  rw [evalSeq]
  case x_5 => exact he
  cases eval g n e k s with
  | none => rfl
  | some a =>
    obtain ⟨_ | _ | _, t⟩ := a <;> try rfl
    next l first =>
      dsimp only
      rcases evalSeq g n es c l t with _ | ⟨_ | _ | _, u⟩ <;> rfl

theorem evalMany_succ (g : Grammar ι ν ε) (n : Nat) (e : Expr ι) (required : Bool) (k : Cursor)
    (s : State ν ε) :
    evalMany g (n + 1) e required k s =
      match eval g n e k s with
      | some (.matched l first, t) =>
        if k.offset < l.offset then
          (evalMany g n e false l t).map fun (o, u) => (o.after first, u)
        else some (.matched l first, t)
      | some (.failed f, t) => some (if required then .failed f else .matched k [], t)
      | other => other := by
  rw [evalMany]
  cases eval g n e k s with
  | none => rfl
  | some a =>
    obtain ⟨_ | _ | _, t⟩ := a <;> try rfl
    next l first =>
      dsimp only
      rcases evalMany g n e false l t with _ | ⟨_ | _ | _, u⟩ <;> rfl

/-- Why a text was not accepted. -/
inductive Refusal (ε : Type) where
  | malformed (e : Failure)
  | rejected (error : ε)
  /-- The steps allowed did not suffice. -/
  | unfinished
deriving DecidableEq, Repr

/-- The answer to a whole text, with the rejections on the way to it in the order they came. -/
structure Verdict (ν ε : Type) where
  result : Except (Refusal ε) (List ν)
  rejections : List (Rejection ε)

/-- What the end of a run means for the whole text. An action's rejection comes first. Text left
over is a failure like any other, and of the failures that did not abort the furthest is told. -/
def conclude : Outcome ν × State ν ε → Except (Refusal ε) (List ν)
  | (o, s) =>
    match s.rejection, o with
    | some error, _ => .error (.rejected error)
    | none, .matched rest items =>
      if rest.atEnd then .ok (items.filterMap Item.node?)
      else
        let e := Failure.single s.path rest .endOfText "end of input"
        .error (.malformed (Failure.join (s.record e).furthest e))
    | none, .failed e => .error (.malformed (Failure.join s.furthest e))
    | none, .aborted e => .error (.malformed e)

/-- Matches a rule against the whole of a text. -/
def Grammar.run (g : Grammar ι ν ε) (id : ι) (text : String) : Verdict ν ε :=
  let k := Cursor.ofText text
  match eval g (g.budget k.rest.length) (.rule id) k .start with
  | none => ⟨.error .unfinished, []⟩
  | some (o, s) => ⟨conclude (o, s), s.rejections.reverse⟩

end Fleet.Peg
