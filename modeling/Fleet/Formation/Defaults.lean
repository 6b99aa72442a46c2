import Fleet.Formation.Basic
/-!
Defaults: pairs that every block has unless it says otherwise. A block's own pairs shadow the
defaults with their key. The defaults that stay come first, and each list keeps its order.
-/

namespace Fleet

namespace Sequence

/-- Some pair of the sequence has the key. -/
def defines (s : Sequence) (key : String) : Bool := s.any fun p => p.key == key

def withDefaults (own defaults : Sequence) : Sequence :=
  (defaults.filter fun p => !own.defines p.key) ++ own

theorem defines_withDefaults (own defaults : Sequence) (key : String) :
    (own.withDefaults defaults).defines key = (defaults.defines key || own.defines key) := by
  simp only [withDefaults, defines, List.any_append, List.any_filter]
  rw [Bool.eq_iff_iff]
  simp only [Bool.or_eq_true, List.any_eq_true, Bool.and_eq_true, Bool.not_eq_true',
    List.any_eq_false, beq_iff_eq]
  constructor
  · intro hx
    rcases hx with ⟨p, hp, _, hk⟩ | h
    · exact .inl ⟨p, hp, hk⟩
    · exact .inr h
  · intro hx
    rcases hx with ⟨p, hp, hk⟩ | h
    · by_cases ho : ∃ q ∈ own, q.key = key
      · exact .inr ho
      · exact .inl ⟨p, hp, fun q hq he => ho ⟨q, hq, he.trans hk⟩, hk⟩
    · exact .inr h

end Sequence

/-- Layers the defaults section under every block. -/
def Formation.applyDefaults (f : Formation) : Formation :=
  f.mapSequences fun s => s.withDefaults f.defaults

end Fleet
