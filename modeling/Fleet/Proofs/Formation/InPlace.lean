import Fleet.Formation.InPlace
import Fleet.Proofs.Formation.Merging
import Fleet.Proofs.Formation.Reports
/-!
Passes over a formation that stays where it is. To write from place to place comes to the same as
to build the formation anew (`perform_resolve`, `perform_applyDefaults`), a failing pass has written
nothing yet, and what is no block's sequence is never written (`Formation.SameFrame`).
-/

namespace Fleet

variable {f f' : Formation}

/-! ## Places -/

namespace Formation

theorem map_ownedAt? (f : Formation) : f.places.map f.ownedAt? = f.owned.map some := by
  have hrange {α β : Type} (as : List α) (g : α → β) :
      (List.range as.length).map (fun i => as[i]?.map g) = as.map fun a => some (g a) := by
    refine List.ext_getElem (by simp) fun i hi hi' => ?_
    simp only [List.length_map, List.length_range] at hi
    simp [hi]
  simp only [places, owned, List.map_append, List.map_map, Function.comp_def, ownedAt?, hrange]
  cases f.loadBalancer <;> rfl

/-- No place is written twice. -/
theorem nodup_places (f : Formation) : f.places.Nodup := by
  have hpools : ((List.range f.pools.length).map Place.pool).Nodup :=
    List.nodup_range.map fun _ _ h => Place.pool.inj h
  have hboxes : ((List.range f.boxes.length).map Place.box).Nodup :=
    List.nodup_range.map fun _ _ h => Place.box.inj h
  rw [places, List.append_assoc]
  refine List.nodup_append.2 ⟨?_, List.nodup_append.2 ⟨hpools, hboxes, ?_⟩, ?_⟩
  · cases f.loadBalancer <;> simp
  · simp
  · cases f.loadBalancer with
    | none => simp
    | some b =>
      simp only [Option.toList_some, List.map_cons, List.map_nil, List.mem_singleton]
      rintro _ rfl _ hm rfl
      simp at hm

/-- Every block has a place that is written. -/
theorem mem_places_iff {place : Place} : place ∈ f.places ↔ (f.ownedAt? place).isSome = true := by
  cases place with
  | loadBalancer => cases h : f.loadBalancer <;> simp [places, ownedAt?, h]
  | pool i => simp [places, ownedAt?]
  | box i => simp [places, ownedAt?]

end Formation

/-! ## Writing from place to place -/

/-- Altering each member of a list at its index, as far as both lists go. -/
theorem foldl_modify {α β : Type} (put : α → β → α) (done as : List α) (bs : List β) :
    (((List.range' done.length as.length).zip bs).foldl
      (fun l x => l.modify x.1 (put · x.2)) (done ++ as)) = done ++ refill put as bs := by
  induction as generalizing done bs with
  | nil => simp [refill]
  | cons a as ih =>
    cases bs with
    | nil => simp [refill]
    | cons b bs =>
      have hmodify : (done ++ a :: as).modify done.length (put · b) = (done ++ [put a b]) ++ as := by
        simp [List.modify_eq_take_cons_drop]
      have hrest := ih (done ++ [put a b]) bs
      rw [List.length_append, List.length_singleton] at hrest
      rw [List.length_cons, List.range'_succ, List.zip_cons_cons, List.foldl_cons, hmodify, hrest,
        List.append_assoc]
      rfl

theorem zip_append_left {α β : Type} (as as' : List α) (bs : List β) :
    (as ++ as').zip bs = as.zip bs ++ as'.zip (bs.drop as.length) := by
  induction as generalizing bs with
  | nil => rfl
  | cons a as ih => cases bs <;> simp [ih]

namespace Formation

section
variable {β : Type} (put : β → Sequence → Sequence) (f : Formation) (bs : List β)

theorem foldl_alter_loadBalancer :
    ((f.loadBalancer.toList.map fun _ => Place.loadBalancer).zip bs).foldl
        (fun f x => f.alter (put x.2) x.1) f =
      { f with loadBalancer := (refill (fun b y => b.withSequence (put y b.sequence))
          f.loadBalancer.toList bs).head? } := by
  obtain ⟨defaults, declarations, lb, pools, boxes⟩ := f
  cases lb <;> cases bs <;> simp [refill, alter]

theorem foldl_alter_pools :
    (((List.range f.pools.length).map Place.pool).zip bs).foldl
        (fun f x => f.alter (put x.2) x.1) f =
      { f with pools := refill (fun p y => p.withSequence (put y p.sequence)) f.pools bs } := by
  have hpools := foldl_modify (fun (p : Pool) y => p.withSequence (put y p.sequence)) [] f.pools bs
  rw [List.nil_append, List.nil_append] at hpools
  rw [List.zip_map_left, List.foldl_map, List.range_eq_range', ← hpools]
  refine List.foldl_hom (fun pools => { f with pools }) ?_
  exact fun _ _ => rfl

theorem foldl_alter_boxes :
    (((List.range f.boxes.length).map Place.box).zip bs).foldl
        (fun f x => f.alter (put x.2) x.1) f =
      { f with boxes := refill (fun b y => b.withSequence (put y b.sequence)) f.boxes bs } := by
  have hboxes := foldl_modify (fun (b : Block) y => b.withSequence (put y b.sequence)) [] f.boxes bs
  rw [List.nil_append, List.nil_append] at hboxes
  rw [List.zip_map_left, List.foldl_map, List.range_eq_range', ← hboxes]
  refine List.foldl_hom (fun boxes => { f with boxes }) ?_
  exact fun _ _ => rfl

/-- Writing through the places, with one member of a list for each. -/
theorem foldl_alter :
    (f.places.zip bs).foldl (fun f x => f.alter (put x.2) x.1) f =
      { f with
        loadBalancer := (refill (fun b y => b.withSequence (put y b.sequence))
          f.loadBalancer.toList bs).head?
        pools := refill (fun p y => p.withSequence (put y p.sequence)) f.pools
          (bs.drop f.loadBalancer.toList.length)
        boxes := refill (fun b y => b.withSequence (put y b.sequence)) f.boxes
          (bs.drop (f.loadBalancer.toList.length + f.pools.length)) } := by
  have hlb := f.foldl_alter_loadBalancer put bs
  have hpools := foldl_alter_pools put
    { f with loadBalancer := (refill (fun b y => b.withSequence (put y b.sequence))
        f.loadBalancer.toList bs).head? } (bs.drop f.loadBalancer.toList.length)
  have hboxes := foldl_alter_boxes put
    { f with
      loadBalancer := (refill (fun b y => b.withSequence (put y b.sequence))
        f.loadBalancer.toList bs).head?
      pools := refill (fun p y => p.withSequence (put y p.sequence)) f.pools
        (bs.drop f.loadBalancer.toList.length) }
    (bs.drop (f.loadBalancer.toList.length + f.pools.length))
  rw [places, zip_append_left, zip_append_left, List.foldl_append, List.foldl_append]
  simp only [List.length_append, List.length_map, List.length_range]
  rw [hlb, hpools, hboxes]

end

theorem refill_replicate {α : Type} {put : α → Unit → α} (as : List α) {n : Nat}
    (h : as.length ≤ n) : refill put as (List.replicate n ()) = as.map (put · ()) := by
  induction as generalizing n with
  | nil => simp [refill]
  | cons a as ih =>
    cases n with
    | zero => simp at h
    | succ n => simp [List.replicate_succ, refill, ih (Nat.le_of_succ_le_succ h)]

/-- Altering all places in the same way. -/
theorem foldl_alter_all (g : Sequence → Sequence) (f : Formation) :
    f.places.foldl (fun f place => f.alter g place) f = f.mapSequences g := by
  have hlength : f.places.length =
      f.loadBalancer.toList.length + f.pools.length + f.boxes.length := by
    simp [places, Nat.add_assoc]
  have hplaces : (f.places.zip (List.replicate f.places.length ())).map Prod.fst = f.places :=
    List.map_fst_zip (by simp)
  have h := foldl_alter (fun (_ : Unit) => g) f (List.replicate f.places.length ())
  rw [← hplaces, List.foldl_map, h, List.drop_replicate, List.drop_replicate,
    refill_replicate _ (by omega), refill_replicate _ (by omega), refill_replicate _ (by omega),
    mapSequences]
  cases f.loadBalancer <;> rfl

end Formation

/-! ## Passes -/

namespace Rewrite
open Formation

theorem perform_forM {β : Type} (g : β → Formation → Formation) (xs : List β) (f : Formation) :
    perform (xs.forM fun x => modify (g x)) f = (.ok (), xs.foldl (fun f x => g x f) f) := by
  induction xs generalizing f with
  | nil => rfl
  | cons x xs ih => exact ih (g x f)

/-- A fault ends the pass and leaves the formation as it is by then. -/
theorem perform_liftExcept_bind {α β : Type} (x : Except Fault α) (k : α → Rewrite β)
    (f : Formation) :
    perform (liftExcept x >>= k) f = match x with
      | .ok a => perform (k a) f
      | .error e => (.error e, f) := by
  cases x <;> rfl

/-- Either the formation is replaced by the one that resolving it gives, or nothing is written. -/
theorem perform_resolve (f : Formation) :
    perform resolve f = match f.resolve.outcome with
      | .ok f' => (.ok (), f')
      | .error e => (.error e, f) := by
  have hsteps : perform resolve f =
      perform (liftExcept (expansions f.declarations).outcome >>= fun table =>
        liftExcept (expandOwned table f.owned).outcome >>= fun new =>
          (f.places.zip new).forM fun x => modify fun f => f.alter (fun _ => x.2) x.1) f := rfl
  rw [hsteps, perform_liftExcept_bind]
  cases ht : (expansions f.declarations).outcome with
  | error e => rw [resolve_eq_error.2 (.inl ht)]
  | ok table =>
    dsimp only
    rw [perform_liftExcept_bind]
    cases hn : (expandOwned table f.owned).outcome with
    | error e => rw [resolve_eq_error.2 (.inr ⟨table, ht, hn⟩)]
    | ok new =>
      rw [resolve_eq_ok.2 ⟨table, new, ht, hn, rfl⟩]
      dsimp only
      have hput := perform_forM (fun (x : Place × Sequence) f => f.alter (fun _ => x.2) x.1)
        (f.places.zip new) f
      exact hput.trans (congrArg (Prod.mk _) (foldl_alter (fun s _ => s) f new))

theorem perform_applyDefaults (f : Formation) :
    perform applyDefaults f = (.ok (), f.applyDefaults) := by
  rw [Formation.applyDefaults, ← foldl_alter_all]
  exact perform_forM (fun place f' => f'.alter (·.withDefaults f.defaults) place) f.places f

end Rewrite

/-- The formations are the same but for the sequences of their blocks. -/
structure Formation.SameFrame (f f' : Formation) : Prop where
  defaults : f'.defaults = f.defaults
  declarations : f'.declarations = f.declarations
  loadBalancer : (f'.loadBalancer.map fun b => (b.spec, b.flavor)) =
    f.loadBalancer.map fun b => (b.spec, b.flavor)
  pools : (f'.pools.map fun p => (p.spec, p.flavor, p.listeners)) =
    f.pools.map fun p => (p.spec, p.flavor, p.listeners)
  boxes : (f'.boxes.map fun b => (b.spec, b.flavor)) = f.boxes.map fun b => (b.spec, b.flavor)

namespace Formation

theorem sameFrame_withSequences (f : Formation) (new : List Sequence) :
    f.SameFrame (f.withSequences new) := by
  refine ⟨rfl, rfl, ?_, ?_, ?_⟩
  · cases hf : f.loadBalancer <;> cases new <;> simp [withSequences, refill, hf, Block.withSequence]
  · refine map_refill_of_eq ?_ _ _
    exact fun _ _ => rfl
  · refine map_refill_of_eq ?_ _ _
    exact fun _ _ => rfl

theorem sameFrame_mapSequences (g : Sequence → Sequence) (f : Formation) :
    f.SameFrame (f.mapSequences g) := by
  refine ⟨rfl, rfl, ?_, ?_, ?_⟩ <;>
    simp [mapSequences, Function.comp_def, Block.withSequence, Pool.withSequence]

theorem forall₂_zip_map {α β γ : Type} {R : α → β → Prop} {as : List α} {bs : List β}
    (h : List.Forall₂ R as bs) (key : α → γ) :
    List.Forall₂ (fun a c => c.1 = key a ∧ R a c.2) as ((as.map key).zip bs) := by
  induction h with
  | nil => exact .nil
  | cons hr _ ih => exact .cons ⟨rfl, hr⟩ ih

/-- Block by block, with the owner it had, there is the expansion of the sequence it had. -/
theorem resolve_owned {f f' : Formation} (h : f.resolve.outcome = .ok f') :
    ∃ table, (expansions f.declarations).outcome = .ok table ∧
      List.Forall₂ (fun o o' => o'.1 = o.1 ∧ (expand o.1 table o.2).outcome = .ok o'.2)
        f.owned f'.owned := by
  obtain ⟨table, new, ht, hn, rfl⟩ := resolve_eq_ok.1 h
  have hnew := expandOwned_eq_ok.1 hn
  have hlength : new.length = f.sequences.length := by
    rw [sequences, List.length_map, hnew.length_eq]
  refine ⟨table, ht, ?_⟩
  rw [owned_eq_zip (f.withSequences new), owners_withSequences, sequences_withSequences hlength]
  exact forall₂_zip_map hnew Prod.fst

end Formation

/-- Reading and writing go through the same blocks in the same order: every block has one place, and
what is read there is its sequence. So resolving in place, when it succeeds, and merging the
defaults in place give each block what is made of its own sequence, and change nothing else; and
resolving that fails changes nothing at all. -/
theorem Formation.passes_rewrite_sequences (f : Formation) :
    (f.places.Nodup ∧ (∀ place, place ∈ f.places ↔ (f.ownedAt? place).isSome = true) ∧
        f.places.map f.ownedAt? = f.owned.map some) ∧
      (∀ f', f.resolve.outcome = .ok f' →
        Rewrite.resolve.perform f = (.ok (), f') ∧ f.SameFrame f' ∧
          ∃ table, (expansions f.declarations).outcome = .ok table ∧
            List.Forall₂ (fun o o' => o'.1 = o.1 ∧ (expand o.1 table o.2).outcome = .ok o'.2)
              f.owned f'.owned) ∧
      (∀ e, f.resolve.outcome = .error e → Rewrite.resolve.perform f = (.error e, f)) ∧
      Rewrite.applyDefaults.perform f = (.ok (), f.applyDefaults) ∧
      f.SameFrame f.applyDefaults ∧
      f.applyDefaults.owned = f.owned.map fun o => (o.1, o.2.withDefaults f.defaults) := by
  refine ⟨⟨f.nodup_places, fun _ => mem_places_iff, f.map_ownedAt?⟩, fun f' h => ?_, fun e h => ?_,
    Rewrite.perform_applyDefaults f, f.sameFrame_mapSequences _, f.owned_applyDefaults⟩
  · obtain ⟨_, new, -, -, rfl⟩ := resolve_eq_ok.1 h
    exact ⟨by rw [Rewrite.perform_resolve, h], f.sameFrame_withSequences new, resolve_owned h⟩
  · rw [Rewrite.perform_resolve, h]

end Fleet
