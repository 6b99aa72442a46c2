import Fleet.Command.Execution
import Fleet.Proofs.Formation.Checking
import Mathlib
/-!
What merging the defaults makes of a formation that was compiled. Nothing resolves the defaults
themselves, so an include among them comes into every block again; without one the formation is as
complete as it was (`Formation.applyDefaults_compiled`).
-/

namespace Fleet
open Document

variable {f : Formation} {source source' text : String}

/-! ## Merged sequences -/

theorem Sequence.hasIncludes_withDefaults (own defaults : Sequence) :
    (own.withDefaults defaults).hasIncludes = (defaults.hasIncludes || own.hasIncludes) :=
  defines_withDefaults own defaults "include"

theorem Sequence.mem_withDefaults {own defaults : Sequence} {p : Pair}
    (h : p ∈ own.withDefaults defaults) : p ∈ defaults ∨ p ∈ own := by
  rcases List.mem_append.1 h with h | h
  · exact .inl (List.mem_filter.1 h).1
  · exact .inr h

/-! ## Merged formations -/

namespace Formation

theorem sequences_applyDefaults (f : Formation) :
    f.applyDefaults.sequences = f.sequences.map fun s => s.withDefaults f.defaults :=
  sequences_mapSequences _ f

/-- Every block keeps its owner. -/
theorem owned_applyDefaults (f : Formation) :
    f.applyDefaults.owned = f.owned.map fun o => (o.1, o.2.withDefaults f.defaults) := by
  unfold applyDefaults
  rw [owned_eq_zip, owners_mapSequences, sequences_mapSequences, List.zip_map_right,
    ← owned_eq_zip]
  rfl

namespace Complete

/-- There is a block to merge into. -/
theorem exists_owned (hf : f.Complete) : ∃ o os, f.owned = o :: os := by
  refine List.exists_cons_of_ne_nil fun hnil => ?_
  simp only [owned, List.append_eq_nil_iff, List.map_eq_nil_iff, Option.toList_eq_nil_iff] at hnil
  obtain ⟨⟨hlb, -⟩, hboxes⟩ := hnil
  rcases hf.machines with ⟨h, -⟩ | h
  · rw [hlb] at h
    cases h
  · exact h hboxes

theorem machines_applyDefaults (hf : f.Complete) :
    (f.applyDefaults.loadBalancer.isSome = true ∧ f.applyDefaults.pools ≠ []) ∨
      f.applyDefaults.boxes ≠ [] := by
  simpa [Formation.applyDefaults, mapSequences] using hf.machines

theorem listeners_applyDefaults (hf : f.Complete) :
    ∀ p ∈ f.applyDefaults.pools, p.listeners.isEmpty = false := by
  intro p hp
  obtain ⟨q, hq, rfl⟩ := List.mem_map.1 hp
  exact hf.listeners q hq

/-- Merging takes no pair away from a block and brings in none without values. -/
theorem withDefaults (hf : f.Complete) (hd : ∀ p ∈ f.defaults, p.values ≠ []) {s : Sequence}
    (hs : s ∈ f.sequences) :
    s.withDefaults f.defaults ≠ [] ∧ (∀ p ∈ s.withDefaults f.defaults, p.values ≠ []) ∧
      (s.withDefaults f.defaults).hasIncludes = f.defaults.hasIncludes := by
  obtain ⟨hne, hvalues, hincludes⟩ := hf.sequences s hs
  refine ⟨fun hnil => hne (List.append_eq_nil_iff.1 hnil).2, fun p hp => ?_, ?_⟩
  · exact (Sequence.mem_withDefaults hp).elim (hd p) (hvalues p)
  · rw [Sequence.hasIncludes_withDefaults, hincludes, Bool.or_false]

/-- Merging leaves a formation complete if it brings in no include. -/
theorem applyDefaults (hf : f.Complete) (hd : ∀ p ∈ f.defaults, p.values ≠ [])
    (hi : f.defaults.hasIncludes = false) : f.applyDefaults.Complete := by
  refine ⟨hf.machines_applyDefaults, hf.distinct, hf.listeners_applyDefaults, ?_⟩
  intro s hs
  rw [sequences_applyDefaults] at hs
  obtain ⟨t, ht, rfl⟩ := List.mem_map.1 hs
  obtain ⟨hne, hvalues, hincludes⟩ := hf.withDefaults hd ht
  exact ⟨hne, hvalues, hincludes.trans hi⟩

theorem isResolved_applyDefaults (hf : f.Complete) (hd : ∀ p ∈ f.defaults, p.values ≠ []) :
    f.applyDefaults.isResolved = true ↔ f.defaults.hasIncludes = false := by
  constructor
  · intro hr
    obtain ⟨⟨owner, s⟩, os, ho⟩ := hf.exists_owned
    have hs : s ∈ f.sequences := mem_sequences_iff.2 ⟨owner, by simp [ho]⟩
    obtain ⟨-, -, hincludes⟩ := hf.withDefaults hd hs
    rw [← hincludes]
    refine f.applyDefaults.isResolved_iff.1 hr _ ?_
    rw [sequences_applyDefaults]
    exact List.mem_map_of_mem hs
  · intro hi
    exact f.applyDefaults.isResolved_iff.2 fun s hs =>
      ((hf.applyDefaults hd hi).sequences s hs).2.2

/-- An include among the defaults is found in the first block once they are merged. -/
theorem check_applyDefaults (hf : f.Complete) (hd : ∀ p ∈ f.defaults, p.values ≠ [])
    (hi : f.defaults.hasIncludes = true) :
    ∃ owner ∈ f.owners.head?, f.applyDefaults.check = .error (.unresolvedInclude owner) := by
  obtain ⟨⟨owner, s⟩, os, ho⟩ := hf.exists_owned
  have hs : s ∈ f.sequences := mem_sequences_iff.2 ⟨owner, by simp [ho]⟩
  obtain ⟨hne, hvalues, hincludes⟩ := hf.withDefaults hd hs
  have hfirst : checkOwned owner (s.withDefaults f.defaults) =
      .error (.unresolvedInclude owner) := by
    have hfind : (s.withDefaults f.defaults).find? (fun p => p.values.isEmpty) = none :=
      List.find?_eq_none.2 fun p hp => by simpa using hvalues p hp
    simp [checkOwned, hne, hfind, hincludes, hi]
  refine ⟨owner, by simp [owners, ho], ?_⟩
  have hdistinct : checkDistinct f.applyDefaults.declarations = .ok () :=
    checkDistinct_ok_iff.2 hf.distinct
  have hlisteners : f.applyDefaults.pools.forM Pool.checkListeners = .ok () :=
    forM_ok_iff.2 fun p hp => checkListeners_ok_iff.2 (hf.listeners_applyDefaults p hp)
  rw [check_eq, if_pos (hasMachines_iff.2 hf.machines_applyDefaults), hdistinct, hlisteners,
    owned_applyDefaults, ho]
  show (checkOwned owner (s.withDefaults f.defaults) >>= fun _ => _) = _
  rw [hfirst]
  rfl

end Complete

/-! ## Compiled formations -/

/-- What a text is called plays no part in what it is parsed as. -/
theorem parse_of_source (h : (Formation.parse source text).outcome = .ok f) :
    (Formation.parse source' text).outcome = .ok f := by
  rw [outcome_parse] at h ⊢
  cases hrun : (grammar.run .start text).result with
  | error e =>
    rw [hrun] at h
    cases h
  | ok nodes =>
    rw [hrun] at h
    exact h

/-- The tree of a text that compiles, its defaults merged last. -/
theorem outcome_compile_merged {options : Command.ParseTree}
    (h : (Formation.compile source text).outcome = .ok f) (hu : options.unresolved = false)
    (ha : options.applyDefaults = true) :
    (options.compile text).outcome = .ok f.applyDefaults := by
  obtain ⟨parsed, hparsed, hresolved, hcheck⟩ := compile_eq_ok.1 h
  simp [Command.ParseTree.compile, hu, ha, parse_of_source hparsed, hresolved, hcheck, Except.bind]

/-- With its defaults merged a compiled formation is still resolved, and passes the check still,
just where no default is an include. Otherwise the check finds an include in the first block. The
same holds of the tree that is printed with the defaults merged, which is not checked again. -/
theorem applyDefaults_compiled {source text : String} {f : Formation}
    (h : (Formation.compile source text).outcome = .ok f) :
    (f.applyDefaults.isResolved = true ↔ f.defaults.hasIncludes = false) ∧
      (f.defaults.hasIncludes = false → f.applyDefaults.check = .ok ()) ∧
      (f.defaults.hasIncludes = true → ∃ owner ∈ f.owners.head?,
        f.applyDefaults.check = .error (.unresolvedInclude owner)) ∧
      ∀ options : Command.ParseTree, options.unresolved = false →
        options.applyDefaults = true → (options.compile text).outcome = .ok f.applyDefaults := by
  obtain ⟨parsed, hparsed, hresolved, -⟩ := compile_eq_ok.1 h
  obtain ⟨hrep, hf⟩ := complete_of_resolve hparsed hresolved
  have hd : ∀ p ∈ f.defaults, p.values ≠ [] := fun p hp => (hrep.defaults p hp).2.1
  exact ⟨hf.isResolved_applyDefaults hd,
    fun hi => check_ok_iff.2 (hf.applyDefaults hd hi), hf.check_applyDefaults hd,
    fun options => outcome_compile_merged h⟩

theorem applyDefaults_compiled_region :
    ∃ text f, text = "defaults:\n" ++ "  region: 'eu'\n" ++ "\n" ++
        "box: 'web', 1 instance with 'debian'\n" ++ "  vm-flavor: 'small'\n" ++
        "  bootstrap-sequence:\n" ++ "    file: 'motd'\n" ∧
      (Formation.compile "" text).outcome = .ok f ∧
      f.applyDefaults.isResolved = true ∧ f.applyDefaults.check = .ok () := by
  let f : Formation := ⟨[⟨"region", [.quoted "eu"]⟩], [], none, [],
    [⟨⟨"web", 1, "debian"⟩, "small", [⟨"file", [.quoted "motd"]⟩]⟩]⟩
  have hregion : IsKey "region" := .of_letters (by decide) rfl
  have hfile : IsKey "file" := .of_letters (by decide) rfl
  have hf : f.Representable := by
    refine ⟨?_, ?_, ?_, ?_, ?_, ?_⟩ <;>
      simp [f, Sequence.Writable, Pair.Representable, Value.Representable, IsQuotable, hregion,
        hfile, Block.Representable, VmSpec.Representable, Sequence.Representable]
  have hcompile : (Formation.compile "" f.render).outcome = .ok f :=
    (compile_render hf (.inr (by simp [f])) "").trans (by cbv)
  have hmerged := applyDefaults_compiled hcompile
  exact ⟨f.render, f, by decide +kernel, hcompile, hmerged.1.2 rfl, hmerged.2.1 rfl⟩

/-- A default that asks for a declared sequence still asks for it in the merged block. -/
theorem applyDefaults_unresolved :
    ∃ text f, text = "defaults:\n" ++ "  include: 'base'\n" ++ "\n" ++
        "bootstrap-sequence: 'base'\n" ++ "  git: 'repo'\n" ++ "\n" ++
        "box: 'web', 1 instance with 'debian'\n" ++ "  vm-flavor: 'small'\n" ++
        "  bootstrap-sequence:\n" ++ "    file: 'motd'\n" ∧
      (Formation.compile "" text).outcome = .ok f ∧
      f.isResolved = true ∧ f.check = .ok () ∧ f.applyDefaults.isResolved = false ∧
      f.applyDefaults.check = .error (.unresolvedInclude (.box "web")) := by
  let f : Formation := ⟨[⟨"include", [.quoted "base"]⟩], [⟨"base", [⟨"git", [.quoted "repo"]⟩]⟩],
    none, [], [⟨⟨"web", 1, "debian"⟩, "small", [⟨"file", [.quoted "motd"]⟩]⟩]⟩
  have hinclude : IsKey "include" := .of_letters (by decide) rfl
  have hgit : IsKey "git" := .of_letters (by decide) rfl
  have hfile : IsKey "file" := .of_letters (by decide) rfl
  have hf : f.Representable := by
    refine ⟨?_, ?_, ?_, ?_, ?_, ?_⟩ <;>
      simp [f, Sequence.Writable, Pair.Representable, Value.Representable, IsQuotable, hinclude,
        hgit, hfile, Block.Representable, VmSpec.Representable, Sequence.Representable,
        Declaration.Representable]
  have hcompile : (Formation.compile "" f.render).outcome = .ok f :=
    (compile_render hf (.inr (by simp [f])) "").trans (by cbv)
  exact ⟨f.render, f, by decide +kernel, hcompile, rfl, rfl, rfl, rfl⟩

end Formation

end Fleet
