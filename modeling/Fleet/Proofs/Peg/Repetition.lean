import Fleet.Proofs.Peg.Soundness
/-!
How often a repetition matches what it repeats: each time but the last takes a character at least,
so there are no more such matches than characters left, and one more (`rounds_of_evalMany`).
-/

namespace Fleet.Peg
open Fleet.Text

variable {ι ν ε : Type} [BEq ι] {g : Grammar ι ν ε}

/-- The number of matches of `e` that a repetition of it at `k` makes, if the steps suffice. -/
def rounds (g : Grammar ι ν ε) : Nat → Expr ι → Cursor → State ν ε → Option Nat
  | 0, _, _, _ => none
  | steps + 1, e, k, s =>
    match eval g steps e k s with
    | none => none
    | some (.matched rest _, s) =>
      if k.offset < rest.offset then (rounds g steps e rest s).map (· + 1) else some 1
    | some _ => some 0

/-- A repetition that comes to an answer makes one match more than there are characters left, at
most. -/
theorem rounds_of_evalMany {n : Nat} {e : Expr ι} {required : Bool} {k : Cursor} {s : State ν ε}
    {a : Outcome ν × State ν ε} (h : evalMany g n e required k s = some a) :
    ∃ m, rounds g n e k s = some m ∧ m ≤ k.rest.length + 1 := by
  induction n generalizing required k s a with
  | zero => cases h
  | succ n ih =>
    rw [evalMany_succ] at h
    rw [rounds]
    cases he : eval g n e k s with
    | none =>
      rw [he] at h
      cases h
    | some b =>
      obtain ⟨o, t⟩ := b
      cases o with
      | failed | aborted => exact ⟨0, rfl, Nat.zero_le _⟩
      | matched l items =>
        dsimp only
        by_cases hlt : k.offset < l.offset
        · simp only [he, if_pos hlt, Option.map_eq_some_iff] at h
          obtain ⟨b, hb, -⟩ := h
          obtain ⟨m, hm, hle⟩ := ih hb
          obtain ⟨r, -, hag, -⟩ := reads_of_eval he
          have hshorter : l.rest.length < k.rest.length := by
            cases hag with
            | matched hk => exact hk.shorter hlt
          exact ⟨m + 1, by rw [if_pos hlt, hm]; rfl, by omega⟩
        · exact ⟨1, if_neg hlt, by omega⟩

end Fleet.Peg
