import Fleet.Proofs.Formation.Substitution
import Mathlib
/-!
The search for expansions on any graph (`visits_stay_shallow`). Every call of it comes to an end:
the chain has names of declarations only, none of them twice and none that is finished, so that it
runs out of names.
-/

namespace Fleet

variable {declared : List Declaration} {chain names : List String} {name : String}
  {table table' : Expansions} {s : Sequence}

/-- The calls of `visit` that there are when the expansions of all declarations are made. -/
inductive Called (declared : List Declaration) : List String → String → Expansions → Prop where
  | top {before after : List String} {name : String} {table : Expansions}
      (hn : declared.map Declaration.name = before ++ name :: after)
      (hb : (visitAll declared [] before []).outcome = .ok table) : Called declared [] name table
  /-- The call for a name makes one for each target in turn, as long as those before succeed. -/
  | inner {chain before after : List String} {name target : String} {table mid : Expansions}
      {d : Declaration} (h : Called declared chain name table) (hn : ¬ Has table name)
      (hc : name ∉ chain) (hd : declared.find? (fun d => d.name == name) = some d)
      (ht : d.sequence.targets = before ++ target :: after)
      (hb : (visitAll declared (chain ++ [name]) before table).outcome = .ok mid) :
      Called declared (chain ++ [name]) target mid

mutual

/-- A call for a name comes to an end, and with such an outcome. The calls that it makes have come
to an end before, and that is all that there is to it: nothing is counted down. -/
inductive Returns (declared : List Declaration) :
    List String → String → Expansions → Except Fault Expansions → Prop where
  | finished {chain : List String} {name : String} {table : Expansions} (hn : Has table name) :
      Returns declared chain name table (.ok table)
  | circle {chain : List String} {name : String} {table : Expansions} (hn : ¬ Has table name)
      (hc : name ∈ chain) :
      Returns declared chain name table
        (.error (.cyclicInclude (chain.dropWhile (· != name) ++ [name])))
  | undeclared {chain : List String} {name : String} {table : Expansions} (hn : ¬ Has table name)
      (hc : name ∉ chain) (hd : ¬ Declares declared name) :
      Returns declared chain name table (.ok table)
  | failed {chain : List String} {name : String} {table : Expansions} {d : Declaration} {e : Fault}
      (hn : ¬ Has table name) (hc : name ∉ chain)
      (hd : declared.find? (fun d => d.name == name) = some d)
      (h : ReturnsAll declared (chain ++ [name]) d.sequence.targets table (.error e)) :
      Returns declared chain name table (.error e)
  | expanded {chain : List String} {name : String} {table mid : Expansions} {d : Declaration}
      (hn : ¬ Has table name) (hc : name ∉ chain)
      (hd : declared.find? (fun d => d.name == name) = some d)
      (h : ReturnsAll declared (chain ++ [name]) d.sequence.targets table (.ok mid)) :
      Returns declared chain name table
        ((expand (.declaration name) mid d.sequence).outcome.map fun s => mid ++ [(name, s)])

/-- The calls for names in turn come to an end. -/
inductive ReturnsAll (declared : List Declaration) :
    List String → List String → Expansions → Except Fault Expansions → Prop where
  | nil {chain : List String} {table : Expansions} : ReturnsAll declared chain [] table (.ok table)
  | failed {chain names : List String} {name : String} {table : Expansions} {e : Fault}
      (h : Returns declared chain name table (.error e)) :
      ReturnsAll declared chain (name :: names) table (.error e)
  | next {chain names : List String} {name : String} {table mid : Expansions}
      {r : Except Fault Expansions} (h : Returns declared chain name table (.ok mid))
      (hs : ReturnsAll declared chain names mid r) :
      ReturnsAll declared chain (name :: names) table r

end

/-! ## Calls that return -/

theorem returnsAll_visitAll
    (h : ∀ name table, Returns declared chain name table (visit declared chain name table).outcome)
    (names : List String) (table : Expansions) :
    ReturnsAll declared chain names table (visitAll declared chain names table).outcome := by
  induction names generalizing table with
  | nil =>
    rw [visitAll]
    exact .nil
  | cons name names ih =>
    have hname := h name table
    rw [visitAll, Journaled.outcome_bind]
    cases hv : (visit declared chain name table).outcome with
    | error e => exact .failed (hv ▸ hname)
    | ok mid => exact .next (hv ▸ hname) (ih mid)

/-- Whatever the chain is, each call leaves one declaration less that may be expanded within it. -/
theorem returns_visit (declared : List Declaration) (chain : List String) (name : String)
    (table : Expansions) :
    Returns declared chain name table (visit declared chain name table).outcome := by
  induction hn : openDeclarations declared chain using Nat.strongRecOn
    generalizing chain name table with
  | ind n ih =>
    by_cases hhas : Has table name
    · rw [visit_of_has hhas]
      exact .finished hhas
    by_cases hchain : name ∈ chain
    · rw [visit_of_mem hhas hchain]
      exact .circle hhas hchain
    cases hfind : declared.find? fun d => d.name == name with
    | none =>
      have hd := not_declares_of_find?_eq_none hfind
      rw [visit_of_undeclared hchain hd]
      exact .undeclared hhas hchain hd
    | some d =>
      have hlt := openDeclarations_lt hchain hfind
      have hall := returnsAll_visitAll (fun name table => ih _ (hn ▸ hlt) _ name table rfl)
        d.sequence.targets table
      rw [visit_of_declared hhas hchain hfind, Journaled.outcome_bind]
      cases hv : (visitAll declared (chain ++ [name]) d.sequence.targets table).outcome with
      | error e => exact .failed hhas hchain hfind (hv ▸ hall)
      | ok mid =>
        have hexpanded := Returns.expanded hhas hchain hfind (hv ▸ hall)
        dsimp only [Except.bind]
        rw [Journaled.outcome_bind]
        cases hs : (expand (.declaration name) mid d.sequence).outcome <;>
          exact hs ▸ hexpanded

/-! ## Chains -/

/-- What is so whenever a call begins. -/
structure Shallow (declared : List Declaration) (chain : List String) (table : Expansions) :
    Prop where
  closed : Closed declared table
  declares : ∀ c ∈ chain, Declares declared c
  distinct : chain.Nodup
  unfinished : ∀ c ∈ chain, ¬ Has table c

namespace Shallow

theorem length_le (h : Shallow declared chain table) : chain.length ≤ declared.length := by
  have hsub : chain ⊆ declared.map Declaration.name := by
    intro c hc
    obtain ⟨d, hd, rfl⟩ := h.declares c hc
    exact List.mem_map_of_mem hd
  simpa using (h.distinct.subperm hsub).length_le

/-- A name is entered into the chain, and some of what it includes is expanded. -/
theorem next {d : Declaration} (h : Shallow declared chain table) (hn : ¬ Has table name)
    (hc : name ∉ chain) (hd : declared.find? (fun d => d.name == name) = some d)
    (hv : (visitAll declared (chain ++ [name]) names table).outcome = .ok table') :
    Shallow declared (chain ++ [name]) table' := by
  obtain ⟨hmem, rfl⟩ := find?_eq_some hd
  obtain ⟨hgrows, -⟩ := (visit_sound declared _).all h.closed hv
  refine ⟨hgrows.closed, ?_, ?_, ?_⟩
  · simp only [List.forall_mem_append, List.forall_mem_singleton]
    exact ⟨h.declares, d, hmem, rfl⟩
  · rw [← List.concat_eq_append]
    exact h.distinct.concat hc
  · intro c hm hhas
    have hopen : ¬ Has table c := by
      rcases List.mem_append.1 hm with hm | hm
      · exact h.unfinished c hm
      · exact List.mem_singleton.1 hm ▸ hn
    exact (hgrows.fresh c hhas).elim hopen fun hfresh => hfresh hm

end Shallow

/-- There is room for a name that is entered into the chain. -/
theorem Shallow.length_lt (h : Shallow declared chain table) (hn : ¬ Has table name)
    (hc : name ∉ chain) (hd : Declares declared name) : chain.length < declared.length := by
  cases hfind : declared.find? fun d => d.name == name with
  | none => exact absurd hd (not_declares_of_find?_eq_none hfind)
  | some d =>
    have hv : (visitAll declared (chain ++ [name]) [] table).outcome = .ok table := by
      rw [visitAll]
      rfl
    simpa [Nat.succ_le_iff] using (h.next hn hc hfind hv).length_le

theorem Called.shallow (h : Called declared chain name table) : Shallow declared chain table := by
  induction h with
  | top _ hb =>
    obtain ⟨hgrows, -⟩ := (visit_sound declared []).all .nil hb
    exact ⟨hgrows.closed, by simp, .nil, by simp⟩
  | inner _ hn hc hd _ hb ih => exact ih.next hn hc hd hb

/-- A call without a chain is for a declared name. -/
theorem Called.declares (h : Called declared [] name table) : Declares declared name := by
  generalize hchain : ([] : List String) = chain at h
  cases h with
  | top hn =>
    have hmem : name ∈ declared.map Declaration.name := by simp [hn]
    obtain ⟨d, hd, rfl⟩ := List.mem_map.1 hmem
    exact ⟨d, hd, rfl⟩
  | inner => simp at hchain

/-! ## What a table has -/

namespace Closed

theorem hasIncludes (h : Closed declared table) : ∀ e ∈ table, e.2.hasIncludes = false := by
  induction h with
  | nil => simp
  | snoc _ _ _ _ _ hs ih =>
    simp only [List.forall_mem_append, List.forall_mem_singleton]
    exact ⟨ih, hs.hasIncludes⟩

/-- No name has two entries. -/
theorem nodup (h : Closed declared table) : (table.map Prod.fst).Nodup := by
  induction h with
  | nil => simp
  | @snoc table d s _ _ hnew _ _ _ ih =>
    have hfresh : d.name ∉ table.map Prod.fst := by
      intro hm
      refine hnew (Option.isSome_iff_exists.1 ?_)
      simpa using hm
    rw [List.map_append, List.map_singleton, ← List.concat_eq_append]
    exact ih.concat hfresh

/-- Where a name has an entry, so have those that it lists. -/
theorem has_of_lists (h : Closed declared table) (hu : (declared.map Declaration.name).Nodup)
    {a b : String} (ha : Has table a) (hl : Lists declared a b) : Has table b := by
  induction h with
  | nil =>
    obtain ⟨s, hs⟩ := ha
    cases hs
  | @snoc table d s _ hd _ _ hi _ ih =>
    rcases has_append_iff.1 ha with ha | rfl
    · exact (ih ha).mono (List.prefix_append _ _)
    · obtain ⟨d', hd', hname, hb⟩ := hl
      obtain rfl := List.inj_on_of_nodup_map hu hd' hd hname
      exact (hi b hb).mono (List.prefix_append _ _)

theorem has_of_reachable (h : Closed declared table) (hu : (declared.map Declaration.name).Nodup)
    {a b : String} (ha : Has table a) (hr : Relation.ReflTransGen (Lists declared) a b) :
    Has table b := by
  induction hr with
  | refl => exact ha
  | tail _ hl ih => exact h.has_of_lists hu ih hl

end Closed

/-- Names may include themselves, each other in a circle, the same name twice or one that is not
declared. Whenever the search is called for a name, the chain has names of declarations only, each
once and none that the table has an entry for, so that it is never longer than there are
declarations, nor is it when the name is entered into it; and the call returns. If a call without a
chain succeeds, the table has an entry for the name and for every one that includes lead to from
it. No entry of it has an include, no name has two of them, and those that were there before are
there as they were. -/
theorem visits_stay_shallow (hu : (declared.map Declaration.name).Nodup) :
    (∀ chain name table, Called declared chain name table →
      (∀ c ∈ chain, Declares declared c ∧ ¬ Has table c) ∧ chain.Nodup ∧
        chain.length ≤ declared.length ∧
        (¬ Has table name → name ∉ chain → Declares declared name →
          chain.length < declared.length) ∧
        Returns declared chain name table (visit declared chain name table).outcome) ∧
      ∀ name table table', Called declared [] name table →
        (visit declared [] name table).outcome = .ok table' →
        Has table' name ∧ (∀ b, Relation.ReflTransGen (Lists declared) name b → Has table' b) ∧
          (∀ e ∈ table', e.2.hasIncludes = false) ∧ (table'.map Prod.fst).Nodup ∧
          table <+: table' := by
  constructor
  · intro chain name table h
    have hshallow := h.shallow
    exact ⟨fun c hc => ⟨hshallow.declares c hc, hshallow.unfinished c hc⟩, hshallow.distinct,
      hshallow.length_le, hshallow.length_lt, returns_visit declared chain name table⟩
  · intro name table table' h hv
    obtain ⟨hgrows, hhas⟩ := visit_sound declared [] name table table' h.shallow.closed hv
    have hname := hhas h.declares
    exact ⟨hname, fun b hr => hgrows.closed.has_of_reachable hu hname hr,
      hgrows.closed.hasIncludes, hgrows.closed.nodup, hgrows.keeps⟩

/-- A circle of one name, behind sequences of which two include a third. -/
theorem visits_stay_shallow_self :
    let git (repo : String) : Pair := ⟨"git", [.quoted repo]⟩
    let include' (names : List String) : Pair := ⟨"include", names.map Value.quoted⟩
    let declared : List Declaration :=
      [⟨"site", [include' ["web", "tools"]]⟩, ⟨"web", [git "web", include' ["base"]]⟩,
        ⟨"tools", [include' ["base"]]⟩, ⟨"base", [git "base"]⟩,
        ⟨"self", [include' ["web", "self", "absent"]]⟩]
    let table : Expansions :=
      [("base", [git "base"]), ("web", [git "web", git "base"]), ("tools", [git "base"]),
        ("site", [git "web", git "base", git "base"])]
    Called declared ["self"] "self" table ∧ ¬ Has table "self" ∧
      Returns declared ["self"] "self" table (.error (.cyclicInclude ["self", "self"])) ∧
      (visit declared [] "site" []).outcome = .ok table ∧
      (∀ b, Relation.ReflTransGen (Lists declared) "site" b → Has table b) ∧
      ∀ e ∈ table, e.2.hasIncludes = false := by
  intro git include' declared table
  have hu : (declared.map Declaration.name).Nodup := by decide
  have hnames : declared.map Declaration.name = ["site", "web", "tools", "base"] ++ ["self"] := rfl
  have htargets : (declared[4]).sequence.targets = ["web"] ++ ["self", "absent"] := rfl
  have hsite : Called declared [] "site" [] := .top (List.nil_append _).symm (by cbv)
  have hself : Called declared [] "self" table := .top hnames (by cbv)
  have hmissing : ¬ Has table "self" := by
    intro h
    obtain ⟨s, hs⟩ := h
    cases hs
  have hcall : Called declared ["self"] "self" table :=
    .inner hself hmissing (by simp) rfl htargets (by cbv)
  have hvisit : (visit declared [] "site" []).outcome = .ok table := by cbv
  obtain ⟨hcalls, htop⟩ := visits_stay_shallow hu
  obtain ⟨hchain, -, -, -, hreturns⟩ := hcalls ["self"] "self" table hcall
  obtain ⟨-, hreach, hplain, -⟩ := htop "site" [] table hsite hvisit
  rw [visit_of_mem hmissing (by simp)] at hreturns
  exact ⟨hcall, (hchain "self" (by simp)).2, hreturns, hvisit, hreach, hplain⟩

end Fleet
