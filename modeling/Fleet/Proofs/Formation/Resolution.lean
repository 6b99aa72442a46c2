import Mathlib.Data.List.Forall2
import Mathlib.Logic.Relation
import Fleet.Formation.Lemmas
import Fleet.Proofs.Formation.Visits
/-!
Resolving succeeds for exactly the well-founded include graphs (`Formation.resolve_ok_iff`), and
then every block has the one full expansion of its sequence (`Formation.resolve_substitutes`).
-/

namespace Fleet

variable {declared : List Declaration} {table : Expansions} {s t : Sequence} {f f' : Formation}

/-! ## The table of expansions -/

theorem checkDistinct_go_ok_iff {seen : List String} :
    checkDistinct.go seen declared = .ok () ↔
      (declared.map Declaration.name).Nodup ∧ ∀ d ∈ declared, d.name ∉ seen := by
  induction declared generalizing seen with
  | nil => simp [checkDistinct.go]
  | cons d declared ih =>
    rw [checkDistinct.go]
    by_cases h : d.name ∈ seen
    · simp [h]
    · rw [if_neg h, ih, List.map_cons, List.nodup_cons]
      constructor
      · intro hp
        obtain ⟨hu, hseen⟩ := hp
        refine ⟨⟨fun hm => ?_, hu⟩, ?_⟩
        · obtain ⟨e, he, hname⟩ := List.mem_map.1 hm
          exact hseen e he (by simp [hname])
        · intro e he
          rcases List.mem_cons.1 he with rfl | he
          · exact h
          · exact fun hm => hseen e he (by simp [hm])
      · intro hp
        obtain ⟨⟨hnew, hu⟩, hseen⟩ := hp
        refine ⟨hu, fun e he hm => ?_⟩
        rcases List.mem_cons.1 hm with hname | hm
        · exact hnew (List.mem_map.2 ⟨e, he, hname⟩)
        · exact hseen e (by simp [he]) hm

theorem checkDistinct_ok_iff :
    checkDistinct declared = .ok () ↔ (declared.map Declaration.name).Nodup := by
  rw [checkDistinct, checkDistinct_go_ok_iff]
  simp

theorem expansions_eq_ok :
    (expansions declared).outcome = .ok table ↔
      (declared.map Declaration.name).Nodup ∧
        (visitAll declared [] (declared.map Declaration.name) []).outcome = .ok table := by
  rw [expansions, Journaled.outcome_bind_eq_ok]
  constructor
  · intro h
    obtain ⟨_, hd, hv⟩ := h
    exact ⟨checkDistinct_ok_iff.1 hd, hv⟩
  · intro h
    obtain ⟨hu, hv⟩ := h
    exact ⟨(), checkDistinct_ok_iff.2 hu, hv⟩

/-- A table that could be made has all declared names, and then their includes are well-founded. -/
theorem expansions_sound (h : (expansions declared).outcome = .ok table) :
    Closed declared table ∧ ∀ d ∈ declared, Has table d.name := by
  obtain ⟨-, hv⟩ := expansions_eq_ok.1 h
  obtain ⟨hgrows, hall⟩ := (visit_sound declared []).all .nil hv
  exact ⟨hgrows.closed, fun d hd => hall d.name (List.mem_map_of_mem hd) ⟨d, hd, rfl⟩⟩

theorem not_self_of_acc {α : Type} {r : α → α → Prop} {a : α} (h : Acc r a) : ¬ r a a := by
  induction h with
  | intro a _ ih => exact fun haa => ih a haa haa

theorem acyclic_of_expansions (h : (expansions declared).outcome = .ok table) :
    Acyclic declared := by
  obtain ⟨hu, -⟩ := expansions_eq_ok.1 h
  obtain ⟨hc, hall⟩ := expansions_sound h
  intro a ha
  obtain ⟨b, ⟨⟨d, hd, rfl, -⟩, -⟩, -⟩ := Relation.TransGen.head'_iff.1 ha
  have hacc := (hc.acc hu (hall d hd)).transGen
  exact not_self_of_acc hacc (Relation.transGen_swap.2 ha)

theorem expansions_ok (hu : (declared.map Declaration.name).Nodup)
    (hg : ∀ d ∈ declared, d.sequence.Granted declared) (ha : Acyclic declared) :
    ∃ table, (expansions declared).outcome = .ok table := by
  have hd : ∀ name ∈ declared.map Declaration.name, Declares declared name := by
    intro name hn
    obtain ⟨d, hd, rfl⟩ := List.mem_map.1 hn
    exact ⟨d, hd, rfl⟩
  obtain ⟨table, hv⟩ := (visit_ok hg ha []).all .nil hd (by simp)
  exact ⟨table, expansions_eq_ok.2 ⟨hu, hv⟩⟩

/-! ## The blocks -/

theorem expandOwned_eq_ok {owned : List (Owner × Sequence)} {new : List Sequence} :
    (expandOwned table owned).outcome = .ok new ↔
      List.Forall₂ (fun o t => (expand o.1 table o.2).outcome = .ok t) owned new := by
  induction owned generalizing new with
  | nil =>
    rw [expandOwned, List.forall₂_nil_left_iff]
    exact ⟨fun h => (Except.ok.inj h).symm, fun h => by rw [h]; rfl⟩
  | cons o owned ih =>
    obtain ⟨owner, s⟩ := o
    simp only [expandOwned, Journaled.outcome_bind_eq_ok, Journaled.outcome_note,
      Journaled.outcome_pure, Except.ok.injEq, List.forall₂_cons_left_iff]
    constructor
    · intro hp
      obtain ⟨_, -, here, hh, others, ho, rfl⟩ := hp
      exact ⟨here, others, hh, ih.1 ho, rfl⟩
    · intro hp
      obtain ⟨here, others, hh, ho, rfl⟩ := hp
      exact ⟨(), trivial, here, hh, others, ih.2 ho, rfl⟩

theorem expandOwned_ok_iff {owned : List (Owner × Sequence)} :
    (∃ new, (expandOwned table owned).outcome = .ok new) ↔
      ∀ o ∈ owned, ∃ t, (expand o.1 table o.2).outcome = .ok t := by
  simp only [expandOwned_eq_ok]
  induction owned with
  | nil => simp
  | cons o owned ih =>
    simp only [List.forall₂_cons_left_iff, List.forall_mem_cons]
    rw [← ih]
    constructor
    · intro h
      obtain ⟨_, t, new, ht, hn, rfl⟩ := h
      exact ⟨⟨t, ht⟩, new, hn⟩
    · intro h
      obtain ⟨⟨t, ht⟩, new, hn⟩ := h
      exact ⟨_, t, new, ht, hn, rfl⟩

theorem resolve_eq_ok :
    f.resolve.outcome = .ok f' ↔
      ∃ table new, (expansions f.declarations).outcome = .ok table ∧
        (expandOwned table f.owned).outcome = .ok new ∧ f' = f.withSequences new := by
  simp only [Formation.resolve, Journaled.outcome_bind_eq_ok, Journaled.outcome_pure,
    Except.ok.injEq]
  constructor
  · intro h
    obtain ⟨table, ht, new, hn, rfl⟩ := h
    exact ⟨table, new, ht, hn, rfl⟩
  · intro h
    obtain ⟨table, new, ht, hn, rfl⟩ := h
    exact ⟨table, ht, new, hn, rfl⟩

theorem mem_sequences_iff : s ∈ f.sequences ↔ ∃ owner, (owner, s) ∈ f.owned := by
  simp [Formation.sequences]

/-- Resolving succeeds exactly for well-founded includes: no name is declared twice, every include
of a declared sequence or a block lists declared names, each once, and no declared name leads along
includes back to itself. -/
theorem Formation.resolve_ok_iff (f : Formation) :
    (∃ f', f.resolve.outcome = .ok f') ↔
      (f.declarations.map Declaration.name).Nodup ∧
      ((∀ d ∈ f.declarations, d.sequence.Granted f.declarations) ∧
        ∀ s ∈ f.sequences, s.Granted f.declarations) ∧
      Acyclic f.declarations := by
  constructor
  · intro hx
    obtain ⟨f', h⟩ := hx
    obtain ⟨table, new, ht, hn, -⟩ := resolve_eq_ok.1 h
    obtain ⟨hu, -⟩ := expansions_eq_ok.1 ht
    obtain ⟨hc, hall⟩ := expansions_sound ht
    refine ⟨hu, ⟨fun d hd => hc.granted hu hd (hall d hd), fun s hs => ?_⟩,
      acyclic_of_expansions ht⟩
    obtain ⟨owner, ho⟩ := mem_sequences_iff.1 hs
    obtain ⟨t, hexpand⟩ := expandOwned_ok_iff.1 ⟨new, hn⟩ _ ho
    exact (granted_of_expand (fun _ => hc.declares) hexpand).1
  · intro hx
    obtain ⟨hu, ⟨hd, hs⟩, ha⟩ := hx
    obtain ⟨table, ht⟩ := expansions_ok hu hd ha
    obtain ⟨-, hall⟩ := expansions_sound ht
    have hexpand : ∀ o ∈ f.owned, ∃ t, (expand o.1 table o.2).outcome = .ok t := by
      intro o ho
      have hg := hs o.2 (mem_sequences_iff.2 ⟨o.1, ho⟩)
      refine expand_of_granted hg ?_ o.1
      intro name hx
      obtain ⟨p, hp, hi, hv⟩ := hx
      obtain ⟨_, hq, d, hd, rfl⟩ := (hg p hp hi).1 _ hv
      cases hq
      exact hall d hd
    obtain ⟨new, hn⟩ := expandOwned_ok_iff.2 hexpand
    exact ⟨_, resolve_eq_ok.2 ⟨table, new, ht, hn, rfl⟩⟩

end Fleet
