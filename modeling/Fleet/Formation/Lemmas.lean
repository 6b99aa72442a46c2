import Fleet.Formation.Basic
/-!
Putting sequences into the blocks of a formation. The main statements are that what was put there
is read back (`sequences_withSequences`) and that no block changes its owner
(`owners_withSequences`, `owners_mapSequences`).
-/

namespace Fleet

section Refill
variable {α β γ : Type} {put : α → β → α}

theorem length_refill (as : List α) (bs : List β) : (refill put as bs).length = as.length := by
  induction as generalizing bs with
  | nil => simp [refill]
  | cons a as ih => cases bs <;> simp [refill, ih]

theorem map_refill {get : α → β} (h : ∀ a b, get (put a b) = b) {as : List α} {bs : List β}
    (hl : as.length ≤ bs.length) : (refill put as bs).map get = bs.take as.length := by
  induction as generalizing bs with
  | nil => simp [refill]
  | cons a as ih =>
    cases bs with
    | nil => simp at hl
    | cons b bs => simp [refill, h, ih (Nat.le_of_succ_le_succ hl)]

theorem map_refill_of_eq {f : α → γ} (h : ∀ a b, f (put a b) = f a) (as : List α)
    (bs : List β) : (refill put as bs).map f = as.map f := by
  induction as generalizing bs with
  | nil => simp [refill]
  | cons a as ih => cases bs <;> simp [refill, h, ih]

end Refill

namespace Formation

theorem sequences_eq (f : Formation) :
    f.sequences = f.loadBalancer.toList.map Block.sequence ++ f.pools.map (·.sequence) ++
      f.boxes.map Block.sequence := by
  simp [sequences, owned, Function.comp_def]

theorem owners_eq (f : Formation) :
    f.owners = (f.loadBalancer.toList.map fun b => Owner.loadBalancer b.spec.name) ++
      f.pools.map Pool.owner ++ f.boxes.map fun b => Owner.box b.spec.name := by
  simp [owners, owned, Function.comp_def]

theorem owned_eq_zip (f : Formation) : f.owned = f.owners.zip f.sequences := by
  rw [owners, sequences, List.zip_map', List.map_id']

theorem isResolved_iff (f : Formation) :
    f.isResolved = true ↔ ∀ s ∈ f.sequences, s.hasIncludes = false := by
  simp only [isResolved, sequences, List.all_eq_true, List.mem_map, Bool.not_eq_true']
  constructor
  · intro h _ hp
    obtain ⟨o, ho, rfl⟩ := hp
    exact h o ho
  · exact fun h o ho => h _ ⟨o, ho, rfl⟩

theorem toList_withSequences (f : Formation) (new : List Sequence) :
    (f.withSequences new).loadBalancer.toList =
      refill Block.withSequence f.loadBalancer.toList new := by
  unfold withSequences
  cases f.loadBalancer <;> cases new <;> simp [refill]

theorem sequences_withSequences {f : Formation} {new : List Sequence}
    (h : new.length = f.sequences.length) : (f.withSequences new).sequences = new := by
  have hb : ∀ (b : Block) (s : Sequence), (b.withSequence s).sequence = s := fun _ _ => rfl
  have hp : ∀ (p : Pool) (s : Sequence), (p.withSequence s).sequence = s := fun _ _ => rfl
  rw [sequences_eq] at h
  simp only [List.length_append, List.length_map] at h
  rw [sequences_eq, toList_withSequences]
  simp only [withSequences]
  rw [map_refill hb (by omega), map_refill hp (by simp; omega), map_refill hb (by simp; omega),
    ← List.take_add, ← List.take_add, List.take_of_length_le (by omega)]

theorem owners_withSequences (f : Formation) (new : List Sequence) :
    (f.withSequences new).owners = f.owners := by
  rw [owners_eq, owners_eq, toList_withSequences]
  have hb : ∀ (o : String → Owner) (bs : List Block) (ss : List Sequence),
      (refill Block.withSequence bs ss).map (fun b => o b.spec.name) =
        bs.map fun b => o b.spec.name := fun _ => map_refill_of_eq fun _ _ => rfl
  have hp : ∀ (ps : List Pool) (ss : List Sequence),
      (refill Pool.withSequence ps ss).map Pool.owner = ps.map Pool.owner :=
    map_refill_of_eq fun _ _ => rfl
  simp only [withSequences, hb, hp]

theorem sequences_mapSequences (g : Sequence → Sequence) (f : Formation) :
    (f.mapSequences g).sequences = f.sequences.map g := by
  rw [sequences_eq, sequences_eq]
  cases h : f.loadBalancer <;>
    simp [mapSequences, h, Block.withSequence, Pool.withSequence, Function.comp_def]

theorem owners_mapSequences (g : Sequence → Sequence) (f : Formation) :
    (f.mapSequences g).owners = f.owners := by
  rw [owners_eq, owners_eq]
  cases h : f.loadBalancer <;>
    simp [mapSequences, h, Block.withSequence, Pool.withSequence, Pool.owner, Function.comp_def]

end Formation

end Fleet
