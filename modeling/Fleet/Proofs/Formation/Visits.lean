import Mathlib.Data.List.Nodup
import Fleet.Proofs.Formation.Expansion
/-!
The search for expansions. What it has finished is closed under includes (`Closed`), every visit
leaves it so (`visit_sound`), and a visit fails only where a request cannot be granted or names
include each other in a circle (`visit_ok`).
-/

namespace Fleet

variable {declared : List Declaration} {chain names : List String} {name : String}
  {table table' : Expansions} {s : Sequence}

theorem mem_targets_iff : name ∈ s.targets ↔ s.Includes name := by
  simp only [Sequence.targets, List.mem_flatMap, List.mem_filter, List.mem_filterMap,
    Sequence.Includes]
  constructor
  · intro h
    obtain ⟨p, ⟨hp, hi⟩, v, hv, hq⟩ := h
    cases v with
    | quoted text =>
      obtain rfl : text = name := by simpa [Value.quoted?] using hq
      exact ⟨p, hp, hi, hv⟩
    | integer n => cases hq
  · intro h
    obtain ⟨p, hp, hi, hv⟩ := h
    exact ⟨p, ⟨hp, hi⟩, _, hv, rfl⟩

theorem lookup_snoc (table : Expansions) (other : String) (s : Sequence) (name : String) :
    (table ++ [(other, s)]).lookup name =
      (table.lookup name).or (if name = other then some s else none) := by
  rw [List.lookup_append, List.lookup_cons, List.lookup_nil]
  by_cases h : name = other
  · rw [if_pos h, beq_iff_eq.2 h]
  · rw [if_neg h, beq_eq_false_iff_ne.2 h]

theorem has_append_iff {other : String} :
    Has (table ++ [(other, s)]) name ↔ Has table name ∨ name = other := by
  simp only [Has, lookup_snoc]
  by_cases h : name = other <;> cases table.lookup name <;> simp [h]

theorem Has.mono (h : Has table name) (hp : table <+: table') : Has table' name := by
  obtain ⟨s, hs⟩ := h
  exact ⟨s, hp.lookup_eq_some hs⟩

theorem not_declares_of_find?_eq_none
    (h : declared.find? (fun d => d.name == name) = none) : ¬ Declares declared name := by
  intro hp
  obtain ⟨d, hd, rfl⟩ := hp
  simpa using List.find?_eq_none.1 h d hd

theorem find?_eq_some {d : Declaration} (h : declared.find? (fun d => d.name == name) = some d) :
    d ∈ declared ∧ d.name = name :=
  ⟨List.mem_of_find?_eq_some h, by simpa using List.find?_some h⟩

/-! ## What is finished -/

/-- Expansions made one after the other, each of a declaration whose includes list only names that
have theirs already. -/
inductive Closed (declared : List Declaration) : Expansions → Prop where
  | nil : Closed declared []
  | snoc {table : Expansions} {d : Declaration} {s : Sequence} (h : Closed declared table)
      (hd : d ∈ declared) (hnew : ¬ Has table d.name) (hg : d.sequence.Granted declared)
      (hi : ∀ name, d.sequence.Includes name → Has table name)
      (hs : Expands declared d.sequence s) : Closed declared (table ++ [(d.name, s)])

namespace Closed

theorem sound (h : Closed declared table) : Sound declared table := by
  induction h with
  | nil => intro name s hs; cases hs
  | @snoc table d s _ hd hnew _ _ he ih =>
    intro name s' hs'
    rw [lookup_snoc, Option.or_eq_some_iff] at hs'
    rcases hs' with hs' | ⟨-, hs'⟩
    · exact ih name s' hs'
    · split at hs'
      · next hn =>
        cases hs'
        exact ⟨d, hd, hn.symm, he⟩
      · cases hs'

theorem declares (h : Closed declared table) (hn : Has table name) : Declares declared name := by
  obtain ⟨s, hs⟩ := hn
  obtain ⟨d, hd, hname, -⟩ := h.sound name s hs
  exact ⟨d, hd, hname⟩

/-- The includes of whatever has an expansion can be granted, if no name is declared twice. -/
theorem granted (h : Closed declared table) (hu : (declared.map Declaration.name).Nodup)
    {d : Declaration} (hd : d ∈ declared) (hn : Has table d.name) :
    d.sequence.Granted declared := by
  induction h with
  | nil => obtain ⟨s, hs⟩ := hn; cases hs
  | @snoc table e s _ he _ hg _ _ ih =>
    rcases has_append_iff.1 hn with hn | hn
    · exact ih hn
    · obtain rfl := List.inj_on_of_nodup_map hu hd he hn
      exact hg

/-- From a name that has an expansion no path of includes goes on forever. -/
theorem acc (h : Closed declared table) (hu : (declared.map Declaration.name).Nodup)
    (hn : Has table name) : Acc (fun a b => Edge declared b a) name := by
  induction h generalizing name with
  | nil => obtain ⟨s, hs⟩ := hn; cases hs
  | @snoc table d s _ hd _ _ hi _ ih =>
    rcases has_append_iff.1 hn with hn | rfl
    · exact ih hn
    · refine .intro _ ?_
      intro b hp
      obtain ⟨⟨e, he, hname, hb⟩, -⟩ := hp
      obtain rfl := List.inj_on_of_nodup_map hu he hd hname
      exact ih (hi b hb)

end Closed

/-! ## Visits that succeed -/

/-- What a visit does to the table: it keeps all entries and adds none of a name in the chain. -/
structure Grows (declared : List Declaration) (chain : List String) (table table' : Expansions) :
    Prop where
  closed : Closed declared table'
  keeps : table <+: table'
  fresh : ∀ name, Has table' name → Has table name ∨ name ∉ chain

theorem Grows.refl (h : Closed declared table) : Grows declared chain table table :=
  ⟨h, List.prefix_refl _, fun _ => .inl⟩

theorem Grows.trans {table'' : Expansions} (h : Grows declared chain table table')
    (h' : Grows declared chain table' table'') : Grows declared chain table table'' :=
  ⟨h'.closed, h.keeps.trans h'.keeps, fun name hn => (h'.fresh name hn).elim (h.fresh name) .inr⟩

/-- Every visit with this chain that succeeds grows the table, by the name at least. -/
def VisitsSoundly (declared : List Declaration) (chain : List String) : Prop :=
  ∀ name table table', Closed declared table →
    (visit declared chain name table).outcome = .ok table' →
    Grows declared chain table table' ∧ (Declares declared name → Has table' name)

theorem VisitsSoundly.all (h : VisitsSoundly declared chain) (hc : Closed declared table)
    (hv : (visitAll declared chain names table).outcome = .ok table') :
    Grows declared chain table table' ∧
      ∀ name ∈ names, Declares declared name → Has table' name := by
  induction names generalizing table with
  | nil =>
    rw [visitAll] at hv
    obtain rfl : table = table' := Except.ok.inj hv
    exact ⟨.refl hc, by simp⟩
  | cons name names ih =>
    rw [visitAll] at hv
    obtain ⟨mid, hm, hv⟩ := Journaled.outcome_bind_eq_ok.1 hv
    obtain ⟨hgrows, hhas⟩ := h name table mid hc hm
    obtain ⟨hrest, hall⟩ := ih hgrows.closed hv
    refine ⟨hgrows.trans hrest, fun n hn hd => ?_⟩
    rcases List.mem_cons.1 hn with rfl | hn
    · exact (hhas hd).mono hrest.keeps
    · exact hall n hn hd

theorem visit_of_has (h : Has table name) : visit declared chain name table = pure table := by
  rw [visit, if_pos (Option.isSome_iff_exists.2 h)]

theorem visit_of_undeclared (hc : name ∉ chain) (hd : ¬ Declares declared name) :
    visit declared chain name table = pure table := by
  rw [visit, dif_neg hc]
  split
  · rfl
  · split
    · rfl
    · next d hfind =>
      obtain ⟨hmem, hname⟩ := find?_eq_some hfind
      exact absurd ⟨d, hmem, hname⟩ hd

/-- A declared name is visited after all that its sequence includes. -/
theorem visit_of_declared (hn : ¬ Has table name) (hc : name ∉ chain) {d : Declaration}
    (hd : declared.find? (fun d => d.name == name) = some d) :
    visit declared chain name table =
      visitAll declared (chain ++ [name]) d.sequence.targets table >>= fun table =>
        expand (.declaration name) table d.sequence >>= fun s => pure (table ++ [(name, s)]) := by
  rw [visit, if_neg fun h => hn (Option.isSome_iff_exists.1 h), dif_neg hc]
  split
  · next h => rw [hd] at h; cases h
  · next e h =>
    rw [hd] at h
    cases h
    rfl

theorem visit_of_mem (hn : ¬ Has table name) (hc : name ∈ chain) :
    (visit declared chain name table).outcome =
      .error (.cyclicInclude (chain.dropWhile (· != name) ++ [name])) := by
  rw [visit, if_neg fun h => hn (Option.isSome_iff_exists.1 h), dif_pos hc]
  rfl

theorem visit_sound (declared : List Declaration) (chain : List String) :
    VisitsSoundly declared chain := by
  induction hn : openDeclarations declared chain using Nat.strongRecOn generalizing chain with
  | ind n ih =>
    intro name table table' hc hv
    by_cases hhas : Has table name
    · rw [visit_of_has hhas] at hv
      obtain rfl : table = table' := Except.ok.inj hv
      exact ⟨.refl hc, fun _ => hhas⟩
    by_cases hchain : name ∈ chain
    · rw [visit_of_mem hhas hchain] at hv
      cases hv
    cases hfind : declared.find? fun d => d.name == name with
    | none =>
      have hd := not_declares_of_find?_eq_none hfind
      rw [visit_of_undeclared hchain hd] at hv
      obtain rfl : table = table' := Except.ok.inj hv
      exact ⟨.refl hc, fun h => absurd h hd⟩
    | some d =>
      rw [visit_of_declared hhas hchain hfind] at hv
      obtain ⟨mid, hm, hv⟩ := Journaled.outcome_bind_eq_ok.1 hv
      obtain ⟨s, hs, hv⟩ := Journaled.outcome_bind_eq_ok.1 hv
      obtain rfl : mid ++ [(name, s)] = table' := Except.ok.inj hv
      have hlt := openDeclarations_lt hchain hfind
      obtain ⟨hgrows, -⟩ := (ih _ (hn ▸ hlt) _ rfl).all hc hm
      obtain ⟨hd, rfl⟩ := find?_eq_some hfind
      have hnew : ¬ Has mid d.name := fun h => (hgrows.fresh _ h).elim hhas (by simp)
      obtain ⟨hg, hi⟩ := granted_of_expand (fun _ => hgrows.closed.declares) hs
      refine ⟨⟨hgrows.closed.snoc hd hnew hg hi (hgrows.closed.sound.expands hs),
        hgrows.keeps.trans (List.prefix_append _ _), fun other ho => ?_⟩,
        fun _ => has_append_iff.2 (.inr rfl)⟩
      rcases has_append_iff.1 ho with ho | rfl
      · exact (hgrows.fresh other ho).imp_right fun h hmem => h (by simp [hmem])
      · exact .inr hchain

/-! ## Visits that have to succeed -/

/-- Every visit of a declared name succeeds if all in the chain lead to it. -/
def VisitsSucceed (declared : List Declaration) (chain : List String) : Prop :=
  ∀ name table, Closed declared table → Declares declared name →
    (∀ c ∈ chain, Relation.TransGen (Edge declared) c name) →
    ∃ table', (visit declared chain name table).outcome = .ok table'

theorem VisitsSucceed.all (h : VisitsSucceed declared chain) (hc : Closed declared table)
    (hd : ∀ name ∈ names, Declares declared name)
    (hchain : ∀ c ∈ chain, ∀ name ∈ names, Relation.TransGen (Edge declared) c name) :
    ∃ table', (visitAll declared chain names table).outcome = .ok table' := by
  induction names generalizing table with
  | nil => exact ⟨table, by rw [visitAll]; rfl⟩
  | cons name names ih =>
    obtain ⟨mid, hm⟩ := h name table hc (hd name (by simp)) fun c hcm => hchain c hcm name (by simp)
    have hgrows := (visit_sound declared chain name table mid hc hm).1
    obtain ⟨table', hv⟩ := ih hgrows.closed (fun n hn => hd n (by simp [hn]))
      fun c hcm n hn => hchain c hcm n (by simp [hn])
    refine ⟨table', ?_⟩
    rw [visitAll]
    exact Journaled.outcome_bind_eq_ok.2 ⟨mid, hm, hv⟩

theorem visit_ok (hg : ∀ d ∈ declared, d.sequence.Granted declared) (ha : Acyclic declared)
    (chain : List String) : VisitsSucceed declared chain := by
  induction hn : openDeclarations declared chain using Nat.strongRecOn generalizing chain with
  | ind n ih =>
    intro name table hc hd hchain
    by_cases hhas : Has table name
    · exact ⟨table, by rw [visit_of_has hhas]; rfl⟩
    have hnot : name ∉ chain := fun h => ha name (hchain name h)
    cases hfind : declared.find? fun d => d.name == name with
    | none => exact absurd hd (not_declares_of_find?_eq_none hfind)
    | some d =>
      have hlt := openDeclarations_lt hnot hfind
      obtain ⟨hmem, hname⟩ := find?_eq_some hfind
      have hedge : ∀ b ∈ d.sequence.targets, Edge declared name b := by
        intro b hb
        obtain ⟨p, hp, hi, hv⟩ := mem_targets_iff.1 hb
        obtain ⟨b', hq, hb'⟩ := (hg d hmem p hp hi).1 _ hv
        cases hq
        exact ⟨⟨d, hmem, hname, p, hp, hi, hv⟩, hb'⟩
      obtain ⟨mid, hm⟩ := (ih _ (hn ▸ hlt) _ rfl).all hc (fun b hb => (hedge b hb).2)
        fun c hcm b hb => by
          rcases List.mem_append.1 hcm with hcm | hcm
          · exact (hchain c hcm).tail (hedge b hb)
          · obtain rfl := List.mem_singleton.1 hcm
            exact .single (hedge b hb)
      obtain ⟨-, hall⟩ := (visit_sound declared (chain ++ [name])).all hc hm
      obtain ⟨s, hs⟩ := expand_of_granted (hg d hmem) (fun b hb =>
        hall b (mem_targets_iff.2 hb) (hedge b (mem_targets_iff.2 hb)).2) (.declaration name)
      refine ⟨mid ++ [(name, s)], ?_⟩
      rw [visit_of_declared hhas hnot hfind]
      exact Journaled.outcome_bind_eq_ok.2 ⟨mid, hm, Journaled.outcome_bind_eq_ok.2 ⟨s, hs, rfl⟩⟩

end Fleet
