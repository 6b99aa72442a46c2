import Fleet.Proofs.Peg.Account
/-!
Failures may be merged in any grouping (`furthest_regroups`). A choice merges what its alternatives
fail with, choices among them have merged theirs before, and the matcher notes one failure after the
other: all come to the same, since merging is associative.
-/

namespace Fleet.Peg
open Fleet.Text

/-! ## Merging -/

theorem poolExpected_snoc (old new : List String) (x : String) :
    poolExpected old (new ++ [x]) =
      if x ∈ poolExpected old new then poolExpected old new else poolExpected old new ++ [x] := by
  induction new generalizing old with
  | nil => rfl
  | cons y new ih =>
    simp only [List.cons_append, poolExpected]
    split <;> exact ih _

theorem poolExpected_assoc (xs ys zs : List String) :
    poolExpected (poolExpected xs ys) zs = poolExpected xs (poolExpected ys zs) := by
  induction zs generalizing ys with
  | nil => rfl
  | cons z zs ih =>
    rw [poolExpected, poolExpected]
    by_cases hz : z ∈ ys
    · rw [if_pos hz, if_pos (mem_poolExpected.2 (.inr hz)), ih]
    · rw [if_neg hz, ← ih, poolExpected_snoc]
      split <;> rfl

namespace Failure
variable {e f : Failure} {fs : List Failure}

/-- It is the furthest of the three that is kept, whichever two are merged first. -/
theorem furthest_assoc (a b c : Failure) :
    (a.furthest b).furthest c = a.furthest (b.furthest c) := by
  rcases Nat.lt_trichotomy a.offset b.offset with hab | hab | hab
  · have hlt : a.offset < (b.furthest c).offset :=
      b.offset_furthest c ▸ Nat.lt_of_lt_of_le hab (Nat.le_max_left ..)
    rw [furthest_of_lt hab, furthest_of_lt hlt]
  · have hoffset : (a.furthest b).offset = a.offset := by rw [offset_furthest, hab, Nat.max_self]
    rcases Nat.lt_trichotomy b.offset c.offset with hbc | hbc | hbc
    · have hac : a.offset < c.offset := hab.symm ▸ hbc
      rw [furthest_of_lt hbc, furthest_of_lt hac, furthest_of_lt (hoffset.symm ▸ hac)]
    · have hc : (b.furthest c).offset = a.offset := by
        rw [offset_furthest, ← hbc, hab, Nat.max_self]
      rw [furthest_of_eq (hbc.symm.trans (hab.symm.trans hoffset.symm)), furthest_of_eq hc,
        furthest_of_eq hab.symm, furthest_of_eq hbc.symm, poolExpected_assoc]
    · rw [furthest_of_gt hbc, furthest_of_gt (hoffset.symm ▸ hab.symm ▸ hbc)]
  · have hle : (b.furthest c).offset = max b.offset c.offset := offset_furthest b c
    rw [furthest_of_gt hab]
    rcases Nat.lt_or_ge b.offset c.offset with hbc | hbc
    · rw [furthest_of_lt hbc]
    · rw [furthest_of_gt (Nat.lt_of_le_of_lt hbc hab), furthest_of_gt]
      rwa [hle, Nat.max_eq_left hbc]

instance : Std.Associative furthest := ⟨furthest_assoc⟩

theorem furthest_self (e : Failure) : e.furthest e = e :=
  furthest_of_covers (.inr ⟨rfl, List.Subset.refl _⟩)

theorem noteAll_append (noted : Option Failure) (fs fs' : List Failure) :
    noteAll noted (fs ++ fs') = noteAll (noteAll noted fs) fs' :=
  List.foldl_append

/-- To note what a group of failures comes to is to note each of them. -/
theorem noteAll_of_group (h : noteAll none fs = some f) (noted : Option Failure) :
    noteAll noted fs = some (join noted f) := by
  cases noted with
  | none => exact h
  | some e =>
    cases fs with
    | nil => cases h
    | cons x fs =>
      have hf : noteAll none (x :: fs) = some (fs.foldl furthest x) := noteAll_some x fs
      rw [hf] at h
      cases h
      rw [noteAll_some, List.foldl_cons, List.foldl_assoc]
      rfl

end Failure

/-! ## Alternatives that fail -/

variable {ι ν ε : Type}

mutual

/-- The alternatives that there are where choices are no choice of their own: those of a choice in
its place. -/
def Expr.alternatives : Expr ι → List (Expr ι)
  | .choice (e :: items) => Expr.alternatives e ++ Expr.alternativesAll items
  | e => [e]

def Expr.alternativesAll : List (Expr ι) → List (Expr ι)
  | [] => []
  | e :: items => Expr.alternatives e ++ Expr.alternativesAll items

end

theorem State.record_record (s : State ν ε) (e f : Failure) :
    (s.record e).record f = s.record (e.furthest f) := by
  by_cases h : s.lookahead = 0
  · simp only [record, if_pos h]
    cases s.furthest with
    | none => rfl
    | some m => simp only [Failure.join, Failure.furthest_assoc]
  · simp only [record, if_neg h]

/-- To note failures one by one is to note what they are merged to. -/
theorem State.foldl_record (s : State ν ε) (f : Failure) (fs : List Failure) :
    (f :: fs).foldl record s = s.record (fs.foldl Failure.furthest f) := by
  induction fs generalizing f with
  | nil => rfl
  | cons e fs ih =>
    rw [List.foldl_cons, List.foldl_cons, record_record]
    exact ih (f.furthest e)

variable [BEq ι] {g : Grammar ι ν ε} {n : Nat} {e : Expr ι} {es es' : List (Expr ι)} {k : Cursor}
  {s t u : State ν ε} {f best : Failure} {fs fs' : List Failure}

/-- The expressions fail at `k` one after the other, each with one of the failures. -/
inductive FailInTurn (g : Grammar ι ν ε) (k : Cursor) :
    State ν ε → List (Expr ι) → List Failure → State ν ε → Prop where
  | nil (s : State ν ε) : FailInTurn g k s [] [] s
  | cons {n : Nat} {e : Expr ι} {es : List (Expr ι)} {f : Failure} {fs : List Failure}
      {s t u : State ν ε} (h : eval g n e k s = some (.failed f, t))
      (hs : FailInTurn g k t es fs u) : FailInTurn g k s (e :: es) (f :: fs) u

/-- Where the expression fails, it has noted what it fails with and nothing else. -/
def Tells (g : Grammar ι ν ε) (e : Expr ι) : Prop :=
  ∀ n k s f t, eval g n e k s = some (.failed f, t) → t = s.record f

theorem tells_literal (g : Grammar ι ν ε) (text : String) : Tells g (.literal text) := by
  intro n k s f t h
  cases n with
  | zero => cases h
  | succ n =>
    rw [eval_literal] at h
    cases hk : k.strip? text.toList with
    | some l => simp [hk] at h
    | none =>
      rw [hk] at h
      cases h
      rfl

theorem scope_of_failed (h : eval g n e k s = some (.failed f, t)) : t.scope = s.scope := by
  obtain ⟨_, -, -, hkeeps⟩ := reads_of_eval h
  exact hkeeps rfl

namespace FailInTurn

theorem single (h : eval g n e k s = some (.failed f, t)) : FailInTurn g k s [e] [f] t :=
  .cons h (.nil t)

theorem append (h : FailInTurn g k s es fs t) (h' : FailInTurn g k t es' fs' u) :
    FailInTurn g k s (es ++ es') (fs ++ fs') u := by
  induction h with
  | nil => exact h'
  | cons h _ ih => exact .cons h (ih h')

theorem scope (h : FailInTurn g k s es fs t) : t.scope = s.scope := by
  induction h with
  | nil => rfl
  | cons h _ ih => exact ih.trans (scope_of_failed h)

/-- What failures of which each was noted have made of the state. -/
theorem noted (h : FailInTurn g k s es fs t) (ht : ∀ e ∈ es, Tells g e) :
    t = fs.foldl State.record s := by
  induction h with
  | nil => rfl
  | cons h _ ih =>
    rw [List.foldl_cons, ← ht _ List.mem_cons_self _ _ _ _ _ h]
    exact ih fun e he => ht e (List.mem_cons_of_mem _ he)

/-- The rest of a choice merges what comes to what has been. -/
theorem of_evalChoice (h : evalChoice g n es (some best) k s = some (.failed f, t)) :
    ∃ fs, FailInTurn g k s es fs t ∧ f = fs.foldl Failure.furthest best := by
  induction es generalizing n best s with
  | nil =>
    cases n with
    | zero => cases h
    | succ n =>
      rw [evalChoice] at h
      cases h
      exact ⟨[], .nil _, rfl⟩
  | cons e es ih =>
    cases n with
    | zero => cases h
    | succ n =>
      rw [evalChoice] at h
      cases he : eval g n e k s with
      | none => simp [he] at h
      | some a =>
        obtain ⟨o, u⟩ := a
        rw [he] at h
        cases o with
        | failed e' =>
          obtain ⟨fs, hfs, hf⟩ := ih h
          exact ⟨e' :: fs, .cons he hfs, hf⟩
        | matched | aborted => cases h

/-- A choice fails where all of its alternatives have, with their failures merged. -/
theorem of_choice (h : eval g n (.choice (e :: es)) k s = some (.failed f, t)) :
    ∃ fs, FailInTurn g k s (e :: es) fs t ∧ Failure.noteAll none fs = some f := by
  obtain _ | _ | n := n
  · cases h
  · cases h
  rw [eval_choice] at h
  obtain ⟨⟨o, u⟩, hchoice, hu⟩ := Option.map_eq_some_iff.1 h
  rw [evalChoice] at hchoice
  cases he : eval g n e k s with
  | none => simp [he] at hchoice
  | some a =>
    obtain ⟨o', v⟩ := a
    rw [he] at hchoice
    cases o' with
    | matched | aborted => cases hchoice; cases hu
    | failed first =>
      cases o with
      | matched | aborted => cases hu
      | failed f' =>
        obtain ⟨fs, hfs, rfl⟩ := of_evalChoice hchoice
        have hall : FailInTurn g k s (e :: es) (first :: fs) u := .cons he hfs
        cases hu
        rw [State.resetScope_mark hall.scope]
        exact ⟨first :: fs, hall, Failure.noteAll_some first fs⟩

end FailInTurn

mutual

/-- A failure is what those of all alternatives are merged to, choice by choice or at once. -/
theorem FailInTurn.of_failed {n : Nat} {k : Cursor} {s t : State ν ε} {f : Failure} :
    ∀ e : Expr ι, eval g n e k s = some (.failed f, t) →
      ∃ fs, FailInTurn g k s e.alternatives fs t ∧ Failure.noteAll none fs = some f
  | .choice (e :: items), h => by
    obtain ⟨fs, hfs, hf⟩ := FailInTurn.of_choice h
    obtain ⟨gs, hgs, hall⟩ := FailInTurn.flatten (e :: items) hfs
    exact ⟨gs, hgs, (hall none).trans hf⟩
  | .choice [], h | .literal _, h | .oneOf _, h | .any, h | .seq _, h | .oneOrMore _, h
  | .zeroOrMore _, h | .optional _, h | .not _, h | .commit, h | .ignore _, h | .capture _ _, h
  | .rule _, h => ⟨[f], .single h, rfl⟩

theorem FailInTurn.flatten {k : Cursor} {s t : State ν ε} {fs : List Failure} :
    ∀ es : List (Expr ι), FailInTurn g k s es fs t →
      ∃ gs, FailInTurn g k s (Expr.alternativesAll es) gs t ∧
        ∀ noted, Failure.noteAll noted gs = Failure.noteAll noted fs
  | [], h => by
    cases h
    exact ⟨[], .nil s, fun _ => rfl⟩
  | e :: es, h => by
    cases h with
    | cons h hs =>
      obtain ⟨gs, hgs, hf⟩ := FailInTurn.of_failed e h
      obtain ⟨gs', hgs', hfs⟩ := FailInTurn.flatten es hs
      refine ⟨gs ++ gs', hgs.append hgs', fun noted => ?_⟩
      rw [Failure.noteAll_append, Failure.noteAll_of_group hf, hfs]
      rfl

end

/-- Merging is associative, and a failure merged with itself is itself. A list of failures merged
from left to right comes to the first of those furthest into the text, with what all at that place
expected, each once and in the order in which it came first. So it does not matter how alternatives
are grouped into choices: an expression fails with what all of its alternatives failed with in turn,
merged one by one, and to note them one by one is to note the failure that it ends with. Where they
note what they fail with and nothing else, that is what the matcher has noted. -/
theorem furthest_regroups (g : Grammar ι ν ε) :
    (∀ a b c : Failure, (a.furthest b).furthest c = a.furthest (b.furthest c)) ∧
      (∀ a : Failure, a.furthest a = a) ∧
      (∀ (f : Failure) (fs : List Failure), (∀ x ∈ f :: fs, x.expected.Nodup) →
        Failure.Sums (f :: fs) (fs.foldl Failure.furthest f)) ∧
      ∀ (n : Nat) (e : Expr ι) (k : Cursor) (s t : State ν ε) (f : Failure),
        eval g n e k s = some (.failed f, t) →
        ∃ first others, FailInTurn g k s e.alternatives (first :: others) t ∧
          f = others.foldl Failure.furthest first ∧
          (first :: others).foldl State.record s = s.record f ∧
          ((∀ x ∈ e.alternatives, Tells g x) → t = s.record f) := by
  refine ⟨Failure.furthest_assoc, Failure.furthest_self, fun f fs h => ?_, ?_⟩
  · exact Failure.sums_foldl (h f (by simp)) fun x hx => h x (by simp [hx])
  · intro n e k s t f h
    obtain ⟨fs, hfs, hf⟩ := FailInTurn.of_failed e h
    cases fs with
    | nil => cases hf
    | cons first others =>
      have hmerged : Failure.noteAll none (first :: others) =
          some (others.foldl Failure.furthest first) := Failure.noteAll_some first others
      rw [hmerged] at hf
      cases hf
      refine ⟨first, others, hfs, rfl, s.foldl_record first others, fun ht => ?_⟩
      rw [hfs.noted ht, s.foldl_record]

/-- Alternatives in a choice within a choice, one of them for the second time, and failures at two
places of which the second expects in part what the third does. -/
theorem furthest_regroups_letters :
    let g : Grammar Unit Unit Unit := ⟨[()], fun _ => .transparent "any" .any, by simp⟩
    let e : Expr Unit := .choice [.literal "a", .choice [.literal "b", .literal "a"], .literal "c"]
    let f : Failure := ⟨[], ⟨['x'], .start⟩, .literal, ["\"a\"", "\"b\"", "\"c\""], none⟩
    let k : Cursor := ⟨['y'], ⟨4, 2, 1⟩⟩
    let x : Failure := ⟨["key"], k, .charClass, ["letter", "dash"], none⟩
    let y : Failure := ⟨["pair"], k, .literal, ["colon", "letter"], some ⟨"pair", 1, 1⟩⟩
    (∃ t first others, eval g 10 e (.ofText "x") .start = some (.failed f, t) ∧
        FailInTurn g (.ofText "x") .start e.alternatives (first :: others) t ∧
        f = others.foldl Failure.furthest first ∧ t = State.start.record f) ∧
      Failure.Sums [f, x, y] { x with expected := ["letter", "dash", "colon"] } := by
  intro g e f k x y
  have hrun : (eval g 10 e (.ofText "x") .start).map Prod.fst = some (.failed f) := by
    decide +kernel
  obtain ⟨⟨_, t⟩, h, rfl⟩ := Option.map_eq_some_iff.1 hrun
  have htells : ∀ e' ∈ e.alternatives, Tells g e' := by
    simp [e, Expr.alternatives, Expr.alternativesAll, tells_literal]
  have hmerged : [x, y].foldl Failure.furthest f =
      { x with expected := ["letter", "dash", "colon"] } := by decide +kernel
  obtain ⟨-, -, hsums, hgroups⟩ := furthest_regroups g
  obtain ⟨first, others, hturn, hf, -, hnoted⟩ := hgroups 10 e (.ofText "x") .start t f h
  refine ⟨⟨t, first, others, h, hturn, hf, hnoted htells⟩, ?_⟩
  rw [← hmerged]
  exact hsums f [x, y] (by decide)

end Fleet.Peg
