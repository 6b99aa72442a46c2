import Fleet.Formation.Check
import Fleet.Proofs.Accepted.Documents
import Fleet.Proofs.Document.Rendering
import Fleet.Proofs.Formation.Faults
import Fleet.Proofs.Formation.Substitution
/-!
What is compiled passes every check: a check asks for a complete formation (`check_ok_iff`), a text
that is parsed gives one but for its includes, and resolving keeps what it has
(`resolve_representable`).
-/

namespace Fleet
open Document

variable {declared : List Declaration} {s t : Sequence} {f f' : Formation}

/-! ## Checks -/

/-- A formation that can be provisioned. -/
structure Formation.Complete (f : Formation) : Prop where
  machines : (f.loadBalancer.isSome = true ∧ f.pools ≠ []) ∨ f.boxes ≠ []
  distinct : (f.declarations.map Declaration.name).Nodup
  listeners : ∀ p ∈ f.pools, p.listeners.isEmpty = false
  sequences : ∀ s ∈ f.sequences, s ≠ [] ∧ (∀ p ∈ s, p.values ≠ []) ∧ s.hasIncludes = false

theorem both_ok_iff {x y : Except Fault Unit} :
    (x >>= fun _ => y) = .ok () ↔ x = .ok () ∧ y = .ok () := by
  cases x <;> simp [bind, Except.bind]

theorem forM_ok_iff {α : Type} {as : List α} {g : α → Except Fault Unit} :
    as.forM g = .ok () ↔ ∀ a ∈ as, g a = .ok () := by
  induction as with
  | nil => exact ⟨fun _ => by simp, fun _ => rfl⟩
  | cons a as ih =>
    have hcons : (a :: as).forM g = g a >>= fun _ => as.forM g := rfl
    rw [hcons, both_ok_iff, List.forall_mem_cons, ← ih]

theorem checkOwned_ok_iff {owner : Owner} :
    checkOwned owner s = .ok () ↔
      s ≠ [] ∧ (∀ p ∈ s, p.values ≠ []) ∧ s.hasIncludes = false := by
  unfold checkOwned
  by_cases hs : s = []
  · simp [hs]
  · rw [if_neg (by simpa using hs)]
    cases hfind : s.find? fun p => p.values.isEmpty with
    | some p =>
      have hp : p ∈ s ∧ p.values = [] := ⟨List.mem_of_find?_eq_some hfind, by
        simpa using List.find?_some hfind⟩
      simp only [reduceCtorEq, false_iff]
      intro h
      obtain ⟨-, hvalues, -⟩ := h
      exact hvalues p hp.1 hp.2
    | none =>
      have hvalues : ∀ p ∈ s, p.values ≠ [] := by
        simpa using List.find?_eq_none.1 hfind
      cases hi : s.hasIncludes with
      | true => simp
      | false => simpa [hs] using hvalues

theorem hasMachines_iff :
    f.hasMachines = true ↔ (f.loadBalancer.isSome = true ∧ f.pools ≠ []) ∨ f.boxes ≠ [] := by
  simp [Formation.hasMachines]

theorem checkListeners_ok_iff {p : Pool} :
    p.checkListeners = .ok () ↔ p.listeners.isEmpty = false := by
  unfold Pool.checkListeners
  cases p.listeners.isEmpty <;> simp

/-- The checks one after the other. -/
theorem check_eq : f.check =
    (if f.hasMachines then .ok () else .error .emptyFormation) >>= fun _ =>
      checkDistinct f.declarations >>= fun _ => f.pools.forM Pool.checkListeners >>= fun _ =>
        f.owned.forM fun o => checkOwned o.1 o.2 := by
  unfold Formation.check
  cases f.hasMachines <;> rfl

/-- Checking accepts the complete formations and no others. -/
theorem check_ok_iff : f.check = .ok () ↔ f.Complete := by
  have hmachines : (if f.hasMachines then .ok () else .error .emptyFormation :
      Except Fault Unit) = .ok () ↔ f.hasMachines = true := by
    cases f.hasMachines <;> simp
  rw [check_eq]
  simp only [both_ok_iff, forM_ok_iff, checkOwned_ok_iff, checkListeners_ok_iff,
    checkDistinct_ok_iff, hmachines]
  constructor
  · intro h
    obtain ⟨hm, hd, hl, ho⟩ := h
    refine ⟨hasMachines_iff.1 hm, hd, hl, fun s hs => ?_⟩
    obtain ⟨owner, hs⟩ := mem_sequences_iff.1 hs
    exact ho _ hs
  · intro h
    obtain ⟨hm, hd, hl, hs⟩ := h
    exact ⟨hasMachines_iff.2 hm, hd, hl, fun o ho => hs o.2 (mem_sequences_iff.2 ⟨o.1, ho⟩)⟩

/-! ## Expansions of what can be written -/

mutual

theorem Expands.writable (hd : ∀ d ∈ declared, d.sequence.Representable) {s t : Sequence} :
    Expands declared s t → s.Writable → t.Writable ∧ (s ≠ [] → t ≠ [])
  | .nil, _ => ⟨by simp [Sequence.Writable], fun h => absurd rfl h⟩
  | .keep _ h, hs => by
    obtain ⟨ht, -⟩ := h.writable hd fun p hp => hs p (by simp [hp])
    exact ⟨List.forall_mem_cons.2 ⟨hs _ (by simp), ht⟩, by simp⟩
  | .replace _ hi h, hs => by
    obtain ⟨hincluded, hne⟩ := hi.writable hd
    obtain ⟨ht, -⟩ := h.writable hd fun p hp => hs p (by simp [hp])
    refine ⟨List.forall_mem_append.2 ⟨hincluded, ht⟩, fun _ hnil => ?_⟩
    exact hne (hs _ (by simp)).2.1 (List.append_eq_nil_iff.1 hnil).1

theorem ExpandsRequest.writable (hd : ∀ d ∈ declared, d.sequence.Representable)
    {values : List Value} {t : Sequence} :
    ExpandsRequest declared values t → t.Writable ∧ (values ≠ [] → t ≠ [])
  | .nil => ⟨by simp [Sequence.Writable], fun h => absurd rfl h⟩
  | .cons hm hs ht => by
    obtain ⟨hne, hwritable⟩ := hd _ hm
    obtain ⟨hfirst, hfilled⟩ := hs.writable hd hwritable
    obtain ⟨hothers, -⟩ := ht.writable hd
    refine ⟨List.forall_mem_append.2 ⟨hfirst, hothers⟩, fun _ hnil => ?_⟩
    exact hfilled hne (List.append_eq_nil_iff.1 hnil).1

end

theorem IsExpansion.representable (hd : ∀ d ∈ declared, d.sequence.Representable)
    (h : IsExpansion declared s t) (hs : s.Representable) : t.Representable := by
  have ht : Expands declared s t := (h t).2 rfl
  obtain ⟨hwritable, hne⟩ := ht.writable hd hs.2
  exact ⟨hne hs.1, hwritable⟩

/-! ## Resolving -/

theorem resolve_declarations (h : f.resolve.outcome = .ok f') :
    f'.declarations = f.declarations := by
  obtain ⟨_, _, -, -, rfl⟩ := resolve_eq_ok.1 h
  rfl

/-- Resolving takes no block away and adds none. -/
theorem resolve_blocks_iff (h : f.resolve.outcome = .ok f') :
    (f'.loadBalancer.isSome = true ↔ f.loadBalancer.isSome = true) ∧
      (f'.pools ≠ [] ↔ f.pools ≠ []) ∧ (f'.boxes ≠ [] ↔ f.boxes ≠ []) := by
  obtain ⟨_, new, -, -, rfl⟩ := resolve_eq_ok.1 h
  have hlb := congrArg List.length (f.toList_withSequences new)
  rw [length_refill] at hlb
  refine ⟨?_, ?_, ?_⟩
  · cases hf : f.loadBalancer <;> cases hn : (f.withSequences new).loadBalancer <;>
      simp [hf, hn] at hlb ⊢
  · simp only [Formation.withSequences, ← List.length_pos_iff, length_refill]
  · simp only [Formation.withSequences, ← List.length_pos_iff, length_refill]

/-- What can be written can still be written when its includes are resolved. -/
theorem resolve_representable (hf : f.Representable) (h : f.resolve.outcome = .ok f') :
    f'.Representable := by
  obtain ⟨hlb, hp, hb⟩ := resolve_blocks_iff h
  have hbalanced : f'.loadBalancer.isSome ↔ f'.pools ≠ [] := by
    rw [hlb, hp]
    exact hf.balanced
  obtain ⟨new, rfl, hnew⟩ := resolve_expansions h
  have hd : ∀ d ∈ f.declarations, d.sequence.Representable :=
    fun d hd => (hf.declarations d hd).2
  obtain ⟨hlb, hpools, hboxes⟩ :=
    Formation.withSequences_blocks (hnew.imp fun _ _ h => h.representable hd)
  refine ⟨hf.defaults, hf.declarations, fun b' hb' => ?_, fun p' hp' => ?_, fun b' hb' => ?_,
    hbalanced⟩
  · obtain ⟨b, hb, t, rfl, ht⟩ := forall₂_mem_right hlb (Option.mem_toList.2 hb')
    obtain ⟨hspec, hflavor, hs⟩ := hf.loadBalancer b (Option.mem_toList.1 hb)
    exact ⟨hspec, hflavor, ht hs⟩
  · obtain ⟨p, hp, t, rfl, ht⟩ := forall₂_mem_right hpools hp'
    obtain ⟨⟨hspec, hflavor, hs⟩, hlisteners⟩ := hf.pools p hp
    exact ⟨⟨hspec, hflavor, ht hs⟩, hlisteners⟩
  · obtain ⟨b, hb, t, rfl, ht⟩ := forall₂_mem_right hboxes hb'
    obtain ⟨hspec, hflavor, hs⟩ := hf.boxes b hb
    exact ⟨hspec, hflavor, ht hs⟩

theorem Listeners.Representable.isEmpty {l : Listeners} (h : l.Representable) :
    l.isEmpty = false := by
  cases l with
  | http services => simpa [Listeners.isEmpty] using h.1
  | tcp ports => simpa [Listeners.isEmpty] using h.1

/-- Every block's sequence of a formation that can be written can be written. -/
theorem Formation.Representable.sequences (hf : f.Representable) :
    ∀ s ∈ f.sequences, s.Representable := by
  intro s hs
  rw [Formation.sequences_eq, List.mem_append, List.mem_append] at hs
  rcases hs with (hs | hs) | hs
  · obtain ⟨b, hb, rfl⟩ := List.mem_map.1 hs
    exact (hf.loadBalancer b (Option.mem_toList.1 hb)).2.2
  · obtain ⟨p, hp, rfl⟩ := List.mem_map.1 hs
    exact (hf.pools p hp).1.2.2
  · obtain ⟨b, hb, rfl⟩ := List.mem_map.1 hs
    exact (hf.boxes b hb).2.2

/-- A formation of an accepted text is complete once its includes are resolved. -/
theorem complete_of_resolve {source text : String}
    (hf : (Formation.parse source text).outcome = .ok f) (h : f.resolve.outcome = .ok f') :
    f'.Representable ∧ f'.Complete := by
  obtain ⟨hrep, -, hmachines⟩ := document_of_parse hf
  have hrep' := resolve_representable hrep h
  have hresolved := f'.isResolved_iff.1 (resolve_isResolved h)
  obtain ⟨hlb, hp, hb⟩ := resolve_blocks_iff h
  refine ⟨hrep', ?_, ?_, ?_, ?_⟩
  · rw [hlb, hp, hb]
    rcases hmachines with hlb | hboxes
    · exact .inl ⟨hlb, hrep.balanced.1 hlb⟩
    · exact .inr hboxes
  · obtain ⟨table, _, ht, -, -⟩ := resolve_eq_ok.1 h
    rw [resolve_declarations h]
    exact (expansions_eq_ok.1 ht).1
  · exact fun p hp => (hrep'.pools p hp).2.isEmpty
  · intro s hs
    obtain ⟨hne, hwritable⟩ := hrep'.sequences s hs
    exact ⟨hne, fun p hp => (hwritable p hp).2.1, hresolved s hs⟩

/-! ## Compiling -/

theorem compile_eq_ok {source text : String} :
    (Formation.compile source text).outcome = .ok f' ↔
      ∃ f, (Formation.parse source text).outcome = .ok f ∧ f.resolve.outcome = .ok f' ∧
        f'.check = .ok () := by
  simp only [Formation.compile, Journaled.outcome_bind_eq_ok, Journaled.outcome_ofExcept,
    Journaled.outcome_note, Journaled.outcome_pure, Except.ok.injEq]
  constructor
  · intro hp
    obtain ⟨f, hf, f', h, _, hc, _, -, rfl⟩ := hp
    exact ⟨f, hf, h, hc⟩
  · intro hp
    obtain ⟨f, hf, h, hc⟩ := hp
    exact ⟨f, hf, f', h, (), hc, (), trivial, rfl⟩

/-- To compile the canonical text of a formation is to resolve the formation. -/
theorem compile_render (hf : f.Representable) (hne : f.loadBalancer.isSome = true ∨ f.boxes ≠ [])
    (source : String) : (Formation.compile source f.render).outcome = f.resolve.outcome := by
  have hparse : (Formation.parse source f.render).outcome = .ok f :=
    parse_ok_of_document hf (render_document hf) hne
  rw [Formation.compile, Journaled.outcome_bind, hparse]
  simp only [Except.bind, Journaled.outcome_bind]
  cases h : f.resolve.outcome with
  | error e => rfl
  | ok f' => simp [check_ok_iff.2 (complete_of_resolve hparse h).2]

/-- Checking never refuses what was parsed and resolved. Hence a text compiles exactly if it can be
parsed and its includes resolved, no include is ever found unresolved, and every formation that was
compiled is complete, with values for all of its pairs. -/
theorem Formation.compile_checked (source text : String) :
    (∀ f f' : Formation, (Formation.parse source text).outcome = .ok f →
        f.resolve.outcome = .ok f' → f'.check = .ok () ∧ f'.isResolved = true) ∧
      (∀ f' : Formation, (Formation.compile source text).outcome = .ok f' ↔
        ∃ f : Formation, (Formation.parse source text).outcome = .ok f ∧
          f.resolve.outcome = .ok f') ∧
      (∀ owner, (Formation.compile source text).outcome ≠ .error (.unresolvedInclude owner)) ∧
      ∀ f' : Formation, (Formation.compile source text).outcome = .ok f' →
        f'.Complete ∧ (∀ p ∈ f'.defaults, p.values ≠ []) ∧
          ∀ d ∈ f'.declarations, ∀ p ∈ d.sequence, p.values ≠ [] := by
  have hcheck : ∀ f f' : Formation, (Formation.parse source text).outcome = .ok f →
      f.resolve.outcome = .ok f' → f'.check = .ok () :=
    fun f f' hf h => check_ok_iff.2 (complete_of_resolve hf h).2
  refine ⟨fun f f' hf h => ⟨hcheck f f' hf h, resolve_isResolved h⟩, fun f' => ?_, ?_, ?_⟩
  · rw [compile_eq_ok]
    constructor
    · intro hx
      obtain ⟨f, hf, h, -⟩ := hx
      exact ⟨f, hf, h⟩
    · intro hx
      obtain ⟨f, hf, h⟩ := hx
      exact ⟨f, hf, h, hcheck f f' hf h⟩
  · intro owner herror
    rw [Formation.compile, Journaled.outcome_bind] at herror
    cases hf : (Formation.parse source text).outcome with
    | error e =>
      rw [hf] at herror
      obtain rfl := Except.error.inj herror
      rcases parse_faultsIn source text _ hf with h | h | ⟨_, h⟩ <;> cases h
    | ok f =>
      rw [hf] at herror
      simp only [Except.bind, Journaled.outcome_bind] at herror
      cases h : f.resolve.outcome with
      | error e =>
        rw [h] at herror
        obtain rfl := Except.error.inj herror
        cases resolve_faultsIn f _ h
      | ok f' => simp [h, hcheck f f' hf h] at herror
  · intro f' hcompile
    obtain ⟨f, hf, h, -⟩ := compile_eq_ok.1 hcompile
    obtain ⟨hrep, hcomplete⟩ := complete_of_resolve hf h
    exact ⟨hcomplete, fun p hp => (hrep.defaults p hp).2.1, fun d hd p hp =>
      ((hrep.declarations d hd).2.2 p hp).2.1⟩

end Fleet
