import Fleet.Proofs.Formation.Fixpoints
/-!
Defaults in layers. Only keys decide what is shadowed, and a merged sequence has the keys of both
(`keys_withDefaults`), so it is all the same which layers are merged first (`withDefaults_assoc`)
and a layer that is there already adds nothing.
-/

namespace Fleet

namespace Sequence

def keys (s : Sequence) : Finset String := (s.map Pair.key).toFinset

theorem defines_iff {s : Sequence} {key : String} : s.defines key = true ↔ key ∈ s.keys := by
  simp [defines, keys]

theorem defines_eq_decide (s : Sequence) (key : String) : s.defines key = decide (key ∈ s.keys) := by
  rw [Bool.eq_iff_iff, decide_eq_true_iff, defines_iff]

/-- What is inherited are the pairs that no own one shadows, and the own ones come after them. -/
theorem withDefaults_eq (own defaults : Sequence) :
    own.withDefaults defaults = (defaults.filter fun p => p.key ∉ own.keys) ++ own := by
  simp [withDefaults, defines_eq_decide]

theorem keys_withDefaults (own defaults : Sequence) :
    (own.withDefaults defaults).keys = own.keys ∪ defaults.keys := by
  ext key
  rw [← defines_iff, defines_withDefaults, Bool.or_eq_true, defines_iff, defines_iff,
    Finset.mem_union, or_comm]

@[simp] theorem withDefaults_nil (own : Sequence) : own.withDefaults [] = own := rfl

@[simp] theorem nil_withDefaults (defaults : Sequence) :
    withDefaults [] defaults = defaults := by
  simp [withDefaults, defines]

/-- A sequence has no defaults of its own to add. -/
theorem withDefaults_self (s : Sequence) : s.withDefaults s = s := by
  have h := withDefaults_withDefaults [] s
  rwa [nil_withDefaults] at h

/-- A default of the outer layer is shadowed by the block or by the layer between, in whichever
order it meets them. -/
theorem withDefaults_assoc (own inner outer : Sequence) :
    (own.withDefaults inner).withDefaults outer = own.withDefaults (inner.withDefaults outer) := by
  have hkeys : ∀ p : Pair, decide (p.key ∉ (own.withDefaults inner).keys) =
      (decide (p.key ∉ own.keys) && decide (p.key ∉ inner.keys)) := by
    simp [keys_withDefaults]
  calc (own.withDefaults inner).withDefaults outer
      = (outer.filter fun p => p.key ∉ (own.withDefaults inner).keys) ++
          ((inner.filter fun p => p.key ∉ own.keys) ++ own) := by
        rw [withDefaults_eq, withDefaults_eq own inner]
    _ = ((outer.filter fun p => p.key ∉ inner.keys).filter fun p => p.key ∉ own.keys) ++
          ((inner.filter fun p => p.key ∉ own.keys) ++ own) := by
        simp only [hkeys, List.filter_filter]
    _ = own.withDefaults (inner.withDefaults outer) := by
        rw [withDefaults_eq own, withDefaults_eq inner, List.filter_append, List.append_assoc]

end Sequence

namespace Formation

/-- Merged defaults are not merged again. -/
theorem applyDefaults_iterate (f : Formation) (n : ℕ) :
    applyDefaults^[n] f.applyDefaults = f.applyDefaults :=
  Function.IsFixedPt.iterate (applyDefaults_applyDefaults f) n

end Formation

/-- Layering is associative and idempotent, with the empty sequence neutral on both sides. A layer
adds the pairs with keys that are not there yet, in their order and before all others. So the
defaults of a formation can be merged any number of times, and it comes to merging them once. -/
theorem Sequence.withDefaults_layers (own inner outer : Sequence) :
    (own.withDefaults inner).withDefaults outer = own.withDefaults (inner.withDefaults outer) ∧
      (own.withDefaults inner).withDefaults inner = own.withDefaults inner ∧
      own.withDefaults own = own ∧
      own.withDefaults [] = own ∧ withDefaults [] own = own ∧
      own.withDefaults inner = (inner.filter fun p => p.key ∉ own.keys) ++ own ∧
      (own.withDefaults inner).keys = own.keys ∪ inner.keys ∧
      ∀ (n : ℕ) (f : Formation), Formation.applyDefaults^[n + 1] f = f.applyDefaults :=
  ⟨own.withDefaults_assoc inner outer, own.withDefaults_withDefaults inner, own.withDefaults_self,
    own.withDefaults_nil, own.nil_withDefaults, own.withDefaults_eq inner,
    own.keys_withDefaults inner, fun n f => f.applyDefaults_iterate n⟩

end Fleet
