import Fleet.Peg.Failure
import Mathlib.Data.List.Induction
/-!
What failures that are merged one after the other come to (`sums_foldl`): the first of those that
are furthest into the text, with what all of them at that place expected. A failure of which this
tells all already adds nothing to it (`furthest_of_covers`).
-/

namespace Fleet.Peg

theorem mem_poolExpected {x : String} {old new : List String} :
    x ∈ poolExpected old new ↔ x ∈ old ∨ x ∈ new := by
  induction new generalizing old with
  | nil => simp [poolExpected]
  | cons y new ih =>
    rw [poolExpected]
    split
    · next hy =>
      rw [ih, List.mem_cons]
      refine or_congr_right' fun hx => (or_iff_right ?_).symm
      rintro rfl
      exact hx hy
    · rw [ih, List.mem_append, List.mem_singleton, List.mem_cons, or_assoc]

theorem poolExpected_of_subset {old new : List String} (h : new ⊆ old) :
    poolExpected old new = old := by
  induction new with
  | nil => rfl
  | cons x new ih =>
    obtain ⟨hx, hnew⟩ := List.cons_subset.1 h
    rw [poolExpected, if_pos hx, ih hnew]

theorem eraseDups_snoc (xs : List String) (x : String) :
    (xs ++ [x]).eraseDups = if x ∈ xs then xs.eraseDups else xs.eraseDups ++ [x] := by
  rw [List.eraseDups_append]
  by_cases hx : x ∈ xs <;> simp [List.removeAll, List.eraseDups_cons, hx]

/-- Of what is pooled each is kept where it came first. -/
theorem poolExpected_eraseDups (old new : List String) :
    poolExpected old.eraseDups new = (old ++ new).eraseDups := by
  induction new generalizing old with
  | nil => rw [poolExpected, List.append_nil]
  | cons x new ih =>
    have hsplit : old ++ x :: new = (old ++ [x]) ++ new := by simp
    rw [poolExpected, hsplit, ← ih, eraseDups_snoc]
    simp only [List.mem_eraseDups]
    split <;> rfl

theorem eraseDups_of_nodup {xs : List String} (h : xs.Nodup) : xs.eraseDups = xs := by
  induction xs with
  | nil => rfl
  | cons x xs ih =>
    obtain ⟨hx, hxs⟩ := List.nodup_cons.1 h
    have hkeep : xs.filter (fun y => !y == x) = xs := by
      refine List.filter_eq_self.2 fun y hy => ?_
      have hne : y ≠ x := fun he => hx (he ▸ hy)
      simpa using hne
    rw [List.eraseDups_cons, hkeep, ih hxs]

namespace Failure
variable {e f m x : Failure} {fs : List Failure}

theorem furthest_of_lt (h : e.offset < f.offset) : e.furthest f = f := if_pos h

theorem furthest_of_gt (h : f.offset < e.offset) : e.furthest f = e := by
  rw [furthest, if_neg (Nat.lt_asymm h), if_pos h]

theorem furthest_of_eq (h : f.offset = e.offset) :
    e.furthest f = { e with expected := poolExpected e.expected f.expected } := by
  rw [furthest, if_neg (by omega), if_neg (by omega)]

theorem offset_furthest (e f : Failure) : (e.furthest f).offset = max e.offset f.offset := by
  rcases Nat.lt_trichotomy e.offset f.offset with h | h | h
  · rw [furthest_of_lt h, Nat.max_eq_right (Nat.le_of_lt h)]
  · rw [furthest_of_eq h.symm, h, Nat.max_self]
    exact h
  · rw [furthest_of_gt h, Nat.max_eq_left (Nat.le_of_lt h)]

/-! ## Failures that add nothing -/

/-- The failure is as far into the text as another, and tells what this expected there. -/
def Covers (e f : Failure) : Prop :=
  f.offset < e.offset ∨ f.offset = e.offset ∧ f.expected ⊆ e.expected

theorem furthest_of_covers (h : e.Covers f) : e.furthest f = e := by
  rcases h with h | ⟨h, hsub⟩
  · exact furthest_of_gt h
  · rw [furthest_of_eq h, poolExpected_of_subset hsub]

theorem covers_furthest_right (e f : Failure) : (e.furthest f).Covers f := by
  rcases Nat.lt_trichotomy e.offset f.offset with h | h | h
  · rw [furthest_of_lt h]
    exact .inr ⟨rfl, List.Subset.refl _⟩
  · rw [furthest_of_eq h.symm]
    exact .inr ⟨h.symm, fun _ hx => mem_poolExpected.2 (.inr hx)⟩
  · rw [furthest_of_gt h]
    exact .inl h

theorem Covers.furthest_left (h : e.Covers f) (x : Failure) : (e.furthest x).Covers f := by
  rcases Nat.lt_trichotomy e.offset x.offset with hx | hx | hx
  · rw [furthest_of_lt hx]
    rcases h with h | ⟨h, -⟩
    · exact .inl (Nat.lt_trans h hx)
    · exact .inl (h ▸ hx)
  · rw [furthest_of_eq hx.symm]
    rcases h with h | ⟨h, hsub⟩
    · exact .inl h
    · exact .inr ⟨h, fun _ hd => mem_poolExpected.2 (.inl (hsub hd))⟩
  · rw [furthest_of_gt hx]
    exact h

/-- What tells of two failures tells of the two merged. -/
theorem Covers.furthest (h : m.Covers e) (h' : m.Covers f) : m.Covers (e.furthest f) := by
  rcases Nat.lt_trichotomy e.offset f.offset with hf | hf | hf
  · rwa [furthest_of_lt hf]
  · rw [furthest_of_eq hf.symm]
    rcases h with h | ⟨h, hsub⟩
    · exact .inl h
    · obtain ⟨-, hsub'⟩ := h'.resolve_left (by omega)
      exact .inr ⟨h, fun _ hd => (mem_poolExpected.1 hd).elim (hsub ·) (hsub' ·)⟩
  · rwa [furthest_of_gt hf]

/-! ## Merging a list -/

/-- What the failures at a place expected, each once, in the order in which it came first. -/
def expectedAt (offset : Nat) (fs : List Failure) : List String :=
  ((fs.filter fun x => x.offset == offset).flatMap expected).eraseDups

/-- The failure is the first of those in the list that are furthest, but that it tells what all of
them at its place expected. -/
def Sums (fs : List Failure) (m : Failure) : Prop :=
  ∃ before first after, fs = before ++ first :: after ∧
    (∀ x ∈ before, x.offset < first.offset) ∧ (∀ x ∈ after, x.offset ≤ first.offset) ∧
    m = { first with expected := expectedAt first.offset fs }

theorem expectedAt_snoc (offset : Nat) (fs : List Failure) (x : Failure) :
    expectedAt offset (fs ++ [x]) =
      if x.offset = offset then poolExpected (expectedAt offset fs) x.expected
      else expectedAt offset fs := by
  unfold expectedAt
  rw [poolExpected_eraseDups]
  split <;> simp_all

theorem sums_singleton (hf : f.expected.Nodup) : Sums [f] f := by
  refine ⟨[], f, [], rfl, nofun, nofun, ?_⟩
  have h : expectedAt f.offset [f] = f.expected := by
    simp [expectedAt, eraseDups_of_nodup hf]
  rw [h]

/-- One failure more is merged. -/
theorem Sums.snoc (h : Sums fs m) (hx : x.expected.Nodup) : Sums (fs ++ [x]) (m.furthest x) := by
  obtain ⟨before, first, after, hfs, hbefore, hafter, hm⟩ := h
  have hoffset : m.offset = first.offset := by rw [hm]; rfl
  rcases Nat.lt_trichotomy first.offset x.offset with hlt | heq | hgt
  · -- The new one is alone at its place.
    have hall : ∀ y ∈ fs, y.offset < x.offset := by
      intro y hy
      rw [hfs, List.mem_append, List.mem_cons] at hy
      rcases hy with hy | rfl | hy
      · exact Nat.lt_trans (hbefore y hy) hlt
      · exact hlt
      · exact Nat.lt_of_le_of_lt (hafter y hy) hlt
    have hnone : fs.filter (fun y => y.offset == x.offset) = [] := by
      rw [List.filter_eq_nil_iff]
      intro y hy
      simpa using Nat.ne_of_lt (hall y hy)
    have hexpected : expectedAt x.offset (fs ++ [x]) = x.expected := by
      simp [expectedAt, hnone, eraseDups_of_nodup hx]
    refine ⟨fs, x, [], rfl, hall, nofun, ?_⟩
    rw [furthest_of_lt (hoffset ▸ hlt), hexpected]
  · refine ⟨before, first, after ++ [x], by simp [hfs], hbefore, ?_, ?_⟩
    · simpa [or_imp, forall_and, heq] using hafter
    · rw [furthest_of_eq (heq.symm.trans hoffset.symm), expectedAt_snoc, if_pos heq.symm, hm]
  · refine ⟨before, first, after ++ [x], by simp [hfs], hbefore, ?_, ?_⟩
    · simpa [or_imp, forall_and, Nat.le_of_lt hgt] using hafter
    · rw [furthest_of_gt (hoffset ▸ hgt), expectedAt_snoc, if_neg (Nat.ne_of_lt hgt), hm]

/-- Merging from left to right comes to the furthest failure. -/
theorem sums_foldl (hf : f.expected.Nodup) (hfs : ∀ x ∈ fs, x.expected.Nodup) :
    Sums (f :: fs) (fs.foldl furthest f) := by
  induction fs using List.reverseRecOn with
  | nil => exact sums_singleton hf
  | append_singleton fs x ih =>
    rw [List.foldl_append, ← List.cons_append]
    exact (ih fun y hy => hfs y (by simp [hy])).snoc (hfs x (by simp))

end Failure

end Fleet.Peg
