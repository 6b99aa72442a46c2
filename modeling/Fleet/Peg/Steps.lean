import Fleet.Peg.Runs
/-!
The number of steps only decides whether there is an answer: `eval_mono` says that an answer stays
the same with more of them, and `eval_unique` that no two numbers give different ones.
-/

namespace Fleet.Peg
open Fleet.Text

variable {ι ν ε : Type} [BEq ι] {g : Grammar ι ν ε}

/-- Each way to an answer is there with one more step, too. -/
theorem Runs.succ {n : Nat} {t : Task ι} {k : Cursor} {s : State ν ε}
    {a : Outcome ν × State ν ε} :
    Runs g n t k s a → Runs g (n + 1) t k s a
  | .literal h => .literal h
  | .literal_failed h => .literal_failed h
  | .oneOf h hc => .oneOf h hc
  | .oneOf_failed h => .oneOf_failed h
  | .any h => .any h
  | .any_failed h => .any_failed h
  | .commit => .commit
  | .optional h ha => .optional h.succ ha
  | .optional_absent h => .optional_absent h.succ
  | .not_failed h => .not_failed h.succ
  | .not h ho => .not h.succ ho
  | .ignore h => .ignore h.succ
  | .ignore_unmatched h ha => .ignore_unmatched h.succ ha
  | .capture h => .capture h.succ
  | .capture_unmatched h ha => .capture_unmatched h.succ ha
  | .seq h => .seq h.succ
  | .choice h => .choice h.succ
  | .oneOrMore h => .oneOrMore h.succ
  | .zeroOrMore h => .zeroOrMore h.succ
  | .rule h => .rule h.succ
  | .seq_nil => .seq_nil
  | .seq_commit h => .seq_commit h.succ
  | .seq_cons hc h hr => .seq_cons hc h.succ hr.succ
  | .seq_failed hc h => .seq_failed hc h.succ
  | .seq_committed hc h => .seq_committed hc h.succ
  | .seq_aborted hc h => .seq_aborted hc h.succ
  | .choice_none => .choice_none
  | .choice_taken h ha => .choice_taken h.succ ha
  | .choice_next h hr => .choice_next h.succ hr.succ
  | .many_more h hl hr => .many_more h.succ hl hr.succ
  | .many_idle h hl => .many_idle h.succ hl
  | .many_done h => .many_done h.succ
  | .many_missing h => .many_missing h.succ
  | .many_aborted h => .many_aborted h.succ
  | .transparent ha h => .transparent ha h.succ
  | .acting ha h hn => .acting ha h.succ hn
  | .acting_rejected ha h he => .acting_rejected ha h.succ he
  | .acting_unmatched ha h ho => .acting_unmatched ha h.succ ho

variable {n m : Nat} {k : Cursor} {s : State ν ε} {r t : Outcome ν × State ν ε}

theorem Runs.mono {task : Task ι} (hnm : n ≤ m) (h : Runs g n task k s r) :
    Runs g m task k s r := by
  induction hnm with
  | refl => exact h
  | step _ ih => exact ih.succ

theorem eval_mono (hnm : n ≤ m) {e : Expr ι} (h : eval g n e k s = some r) :
    eval g m e k s = some r :=
  ((runs_of_answer (t := .expr e) h).mono hnm).eval_eq

theorem eval_unique {e : Expr ι} (hr : eval g n e k s = some r) (ht : eval g m e k s = some t) :
    r = t := by
  have h := eval_mono (Nat.le_max_left n m) hr
  rw [eval_mono (Nat.le_max_right n m) ht] at h
  exact (Option.some.inj h).symm

end Fleet.Peg
