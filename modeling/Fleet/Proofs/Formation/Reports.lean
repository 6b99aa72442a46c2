import Fleet.Proofs.Formation.Faults
import Fleet.Proofs.Formation.Substitution
import Mathlib
/-!
Why includes are refused. Whatever the search for expansions fails with is so (`visit_justified`):
the circle that it reports is one of the graph, and the values that it reports missing are those
that the first include at fault cannot be granted, although the table from which they are missing
was not yet complete. The main statements are `Formation.resolve_cyclicInclude` and
`Formation.resolve_missingSequences`.
-/

namespace Fleet

variable {declared : List Declaration} {chain names missing : List String} {name : String}
  {owner : Owner} {table : Expansions} {before values : List Value} {s : Sequence} {p : Pair}
  {e : Fault} {f : Formation}

/-! ## Values that are refused -/

theorem known_iff {v : Value} :
    v.Known declared ↔ ∃ name, v = .quoted name ∧ Declares declared name := by
  cases v <;> simp [Value.Known]

theorem refusedAfter_eq_nil_iff :
    refusedAfter declared before values = [] ↔
      (∀ v ∈ values, v.Known declared ∧ v ∉ before) ∧ values.Nodup := by
  induction values generalizing before with
  | nil => simp [refusedAfter]
  | cons v values ih =>
    rw [refusedAfter]
    split
    · next hv =>
      rw [ih, List.forall_mem_cons, List.nodup_cons]
      constructor
      · intro h
        obtain ⟨hall, hnodup⟩ := h
        refine ⟨⟨hv, fun w hw => ⟨(hall w hw).1, fun hb => (hall w hw).2 (by simp [hb])⟩⟩, ?_,
          hnodup⟩
        exact fun hm => (hall v hm).2 (by simp)
      · intro h
        obtain ⟨⟨-, hall⟩, hnew, hnodup⟩ := h
        refine ⟨fun w hw => ⟨(hall w hw).1, fun hb => ?_⟩, hnodup⟩
        rcases List.mem_append.1 hb with hb | hb
        · exact (hall w hw).2 hb
        · obtain rfl := List.mem_singleton.1 hb
          exact hnew hw
    · next hv => simp [hv]

/-- An include is granted where none of its values is refused. -/
theorem refused_eq_nil_iff : p.refused declared = [] ↔ p.Granted declared := by
  simp [Pair.refused, refusedAfter_eq_nil_iff, Pair.Granted, known_iff]

/-- A table that has the declared ones of the names asked for finds missing what is refused. -/
theorem sortRequests_missing {found : Expansions}
    (hk : ∀ name, .quoted name ∈ values → (Has table name ↔ Declares declared name))
    (hf : ∀ name, .quoted name ∈ values →
      (name ∈ found.map (·.1) ↔ .quoted name ∈ before ∧ Has table name)) :
    (sortRequests table found values).2 =
      (refusedAfter declared before values).map Value.name := by
  induction values generalizing found before with
  | nil => rfl
  | cons v values ih =>
    have hk' : ∀ name, .quoted name ∈ values → (Has table name ↔ Declares declared name) :=
      fun name hm => hk name (by simp [hm])
    rw [sortRequests, refusedAfter]
    cases hv : v.requested? table found with
    | some entry =>
      obtain ⟨rfl, hlookup, hnew⟩ := requested?_eq_some_iff.1 hv
      have hhas : Has table entry.1 := ⟨entry.2, hlookup⟩
      have hknown : (Value.quoted entry.1).Known declared := (hk entry.1 (by simp)).1 hhas
      have hfirst : .quoted entry.1 ∉ before := fun hb =>
        hnew ((hf entry.1 (by simp)).2 ⟨hb, hhas⟩)
      rw [if_pos ⟨hknown, hfirst⟩]
      refine ih hk' fun name hm => ?_
      by_cases hname : name = entry.1
      · subst hname
        simp [hhas]
      · rw [List.map_append, List.mem_append, List.mem_append, hf name (by simp [hm])]
        simp [hname]
    | none =>
      have hrefused : ¬ (v.Known declared ∧ v ∉ before) := by
        intro h
        obtain ⟨hknown, hfirst⟩ := h
        obtain ⟨name, rfl, hd⟩ := known_iff.1 hknown
        obtain ⟨t, ht⟩ := (hk name (by simp)).2 hd
        have hsome : (Value.quoted name).requested? table found = some (name, t) :=
          requested?_eq_some_iff.2 ⟨rfl, ht, fun hm => hfirst ((hf name (by simp)).1 hm).1⟩
        rw [hsome] at hv
        cases hv
      rw [if_neg hrefused, List.map_cons]
      refine congrArg (v.name :: ·) (ih hk' fun name hm => ?_)
      rw [hf name (by simp [hm]), List.mem_append, List.mem_singleton]
      constructor
      · exact fun h => ⟨.inl h.1, h.2⟩
      · intro h
        obtain ⟨hb | rfl, hhas⟩ := h
        · exact ⟨hb, hhas⟩
        · refine ⟨?_, hhas⟩
          by_contra hfirst
          exact hrefused ⟨(hk name (by simp)).1 hhas, hfirst⟩

/-! ## Sequences that are not expanded -/

theorem expandInclude_eq_error (h : (expandInclude owner table values).outcome = .error e) :
    (sortRequests table [] values).2 ≠ [] ∧
      e = .missingSequences owner (values.map Value.name) (sortRequests table [] values).2 := by
  unfold expandInclude at h
  split at h
  · cases h
  · next found missing hne heq =>
    rw [heq]
    exact ⟨hne, (Except.error.inj h).symm⟩

/-- It is the first include without an expansion that is reported. -/
theorem expand_eq_error (h : (expand owner table s).outcome = .error e) :
    ∃ (before : Sequence) (p : Pair) (after : Sequence), s = before ++ p :: after ∧
      (∃ t, (expand owner table before).outcome = .ok t) ∧ p.isInclude = true ∧
      (sortRequests table [] p.values).2 ≠ [] ∧
      e = .missingSequences owner (p.values.map Value.name) (sortRequests table [] p.values).2 := by
  induction s with
  | nil => cases h
  | cons p s ih =>
    rw [expand_cons, Journaled.outcome_bind_eq_error] at h
    rcases h with h | ⟨here, hhere, h⟩
    · cases hi : p.isInclude with
      | false => simp [hi] at h
      | true =>
        rw [if_pos hi] at h
        obtain ⟨hne, he⟩ := expandInclude_eq_error h
        exact ⟨[], p, s, rfl, ⟨[], rfl⟩, hi, hne, he⟩
    · rcases Journaled.outcome_bind_eq_error.1 h with h | ⟨_, -, h⟩
      · obtain ⟨before, q, after, rfl, ⟨t, ht⟩, hq⟩ := ih h
        exact ⟨p :: before, q, after, rfl,
          ⟨_, expand_cons_eq_ok.2 ⟨here, t, rfl, ht, hhere⟩⟩, hq⟩
      · cases h

/-- With a table of declared names that has all that the sequence includes, an include is at fault
by itself and not for what the table lacks. -/
theorem misses_of_expand (hd : ∀ name, Has table name → Declares declared name)
    (hi : ∀ name, s.Includes name → Declares declared name → Has table name)
    (h : (expand owner table s).outcome = .error e) :
    ∃ names missing, e = .missingSequences owner names missing ∧
      s.Misses declared names missing := by
  obtain ⟨before, p, after, rfl, ⟨t, ht⟩, hinc, hne, rfl⟩ := expand_eq_error h
  have hmissing : (sortRequests table [] p.values).2 = (p.refused declared).map Value.name := by
    refine sortRequests_missing (fun name hm => ⟨hd name, hi name ⟨p, by simp, hinc, hm⟩⟩) ?_
    simp
  rw [hmissing] at hne ⊢
  exact ⟨_, _, rfl, before, p, after, rfl, (granted_of_expand hd ht).1, hinc, rfl, rfl, hne⟩

/-- A sequence that misses something is not granted. -/
theorem Sequence.Misses.not_granted (h : s.Misses declared names missing) :
    ¬ s.Granted declared := by
  obtain ⟨before, p, after, rfl, -, hinc, -, rfl, hne⟩ := h
  intro hg
  rw [refused_eq_nil_iff.2 (hg p (by simp) hinc)] at hne
  exact hne rfl

/-! ## The search -/

/-- The names of the chain are being expanded, each for the one before it, and the last one asks
for `name`. -/
structure LeadsTo (declared : List Declaration) (chain : List String) (name : String) : Prop where
  distinct : chain.Nodup
  declares : ∀ c ∈ chain, Declares declared c
  lists : (chain ++ [name]).IsChain (Lists declared)

namespace LeadsTo

theorem nil (declared : List Declaration) (name : String) : LeadsTo declared [] name :=
  ⟨.nil, by simp, .singleton name⟩

theorem next {b : String} {d : Declaration} (h : LeadsTo declared chain d.name)
    (hc : d.name ∉ chain) (hd : d ∈ declared) (hb : d.sequence.Includes b) :
    LeadsTo declared (chain ++ [d.name]) b := by
  refine ⟨?_, ?_, ?_⟩
  · rw [← List.concat_eq_append]
    exact h.distinct.concat hc
  · intro c hm
    rcases List.mem_append.1 hm with hm | hm
    · exact h.declares c hm
    · exact ⟨d, hd, (List.mem_singleton.1 hm).symm⟩
  · refine h.lists.append (.singleton b) fun c hc c' hc' => ?_
    obtain rfl : d.name = c := by simpa using hc
    obtain rfl : b = c' := by simpa using hc'
    exact ⟨d, hd, rfl, hb⟩

/-- What led to the name before it came up for the first time is no part of the circle. -/
theorem circle (h : LeadsTo declared chain name) (hm : name ∈ chain) :
    IsCircle declared (chain.dropWhile (· != name) ++ [name]) := by
  obtain ⟨hdistinct, hdeclares, hlists⟩ := h
  obtain ⟨lead, rest, rfl⟩ := List.append_of_mem hm
  have hlead : name ∉ lead := fun hl =>
    (List.nodup_append.1 hdistinct).2.2 name hl name (by simp) rfl
  have hdrop : (lead ++ name :: rest).dropWhile (· != name) = name :: rest := by
    rw [List.dropWhile_append_of_pos fun c hc => by
      rw [bne_iff_ne]
      rintro rfl
      exact hlead hc]
    exact List.dropWhile_cons_of_neg (by simp)
  rw [hdrop]
  refine ⟨by simp, ?_, ?_, ?_, ?_⟩
  · rw [List.getLast?_concat]
    rfl
  · rw [List.dropLast_concat]
    exact (List.nodup_append.1 hdistinct).2.1
  · intro c hc
    rcases List.mem_append.1 hc with hc | hc
    · exact hdeclares c (List.mem_append_right _ hc)
    · exact hdeclares c (List.mem_singleton.1 hc ▸ hm)
  · exact hlists.suffix ⟨lead, by simp⟩

end LeadsTo

/-- A fault of the search that the declarations give reason for. -/
inductive Justified (declared : List Declaration) : Fault → Prop where
  | missing {d : Declaration} {names missing : List String} (hd : d ∈ declared)
      (h : d.sequence.Misses declared names missing) :
      Justified declared (.missingSequences (.declaration d.name) names missing)
  | circle {chain : List String} (h : IsCircle declared chain) :
      Justified declared (.cyclicInclude chain)

/-- Every visit that the chain leads to is justified in what it fails with. -/
def VisitsJustly (declared : List Declaration) (chain : List String) : Prop :=
  ∀ name table, Closed declared table → LeadsTo declared chain name →
    FaultsIn (Justified declared) (visit declared chain name table).outcome

theorem VisitsJustly.all (h : VisitsJustly declared chain) (hc : Closed declared table)
    (hl : ∀ name ∈ names, LeadsTo declared chain name) :
    FaultsIn (Justified declared) (visitAll declared chain names table).outcome := by
  induction names generalizing table with
  | nil =>
    rw [visitAll]
    exact .ok _
  | cons name names ih =>
    intro e he
    rw [visitAll, Journaled.outcome_bind_eq_error] at he
    rcases he with he | ⟨mid, hm, he⟩
    · exact h name table hc (hl name (by simp)) e he
    · have hclosed := (visit_sound declared chain name table mid hc hm).1.closed
      exact ih hclosed (fun n hn => hl n (by simp [hn])) e he

/-- Before a declared sequence is expanded all that it includes has been, so that what is missing
then is not declared at all. -/
theorem visit_justified (declared : List Declaration) (chain : List String) :
    VisitsJustly declared chain := by
  induction hn : openDeclarations declared chain using Nat.strongRecOn generalizing chain with
  | ind n ih =>
    intro name table hc hl e he
    by_cases hhas : Has table name
    · rw [visit_of_has hhas] at he
      cases he
    by_cases hchain : name ∈ chain
    · rw [visit_of_mem hhas hchain] at he
      obtain rfl := Except.error.inj he
      exact .circle (hl.circle hchain)
    cases hfind : declared.find? fun d => d.name == name with
    | none =>
      rw [visit_of_undeclared hchain (not_declares_of_find?_eq_none hfind)] at he
      cases he
    | some d =>
      have hlt := openDeclarations_lt hchain hfind
      rw [visit_of_declared hhas hchain hfind] at he
      obtain ⟨hd, rfl⟩ := find?_eq_some hfind
      rcases Journaled.outcome_bind_eq_error.1 he with he | ⟨mid, hm, he⟩
      · exact (ih _ (hn ▸ hlt) _ rfl).all hc
          (fun b hb => hl.next hchain hd (mem_targets_iff.1 hb)) e he
      · rcases Journaled.outcome_bind_eq_error.1 he with he | ⟨_, -, he⟩
        · obtain ⟨hgrows, hall⟩ := (visit_sound declared (chain ++ [d.name])).all hc hm
          obtain ⟨names, missing, rfl, hmisses⟩ := misses_of_expand
            (fun _ => hgrows.closed.declares)
            (fun b hb => hall b (mem_targets_iff.2 hb)) he
          exact .missing hd hmisses
        · cases he

theorem expansions_justified (h : (expansions declared).outcome = .error e) :
    (¬ (declared.map Declaration.name).Nodup ∧ ∃ name, e = .duplicateDeclaration name) ∨
      (declared.map Declaration.name).Nodup ∧ Justified declared e := by
  rw [expansions, Journaled.outcome_bind_eq_error] at h
  rcases h with h | ⟨_, hdistinct, h⟩
  · refine .inl ⟨fun hu => ?_, checkDistinct_faultsIn declared e h⟩
    rw [Journaled.outcome_ofExcept, checkDistinct_ok_iff.2 hu] at h
    cases h
  · exact .inr ⟨checkDistinct_ok_iff.1 hdistinct,
      (visit_justified declared []).all .nil (fun name _ => .nil declared name) e h⟩

/-! ## The blocks -/

/-- It is the first block without an expansion that is reported. -/
theorem expandOwned_eq_error {owned : List (Owner × Sequence)}
    (h : (expandOwned table owned).outcome = .error e) :
    ∃ before owner s after, owned = before ++ (owner, s) :: after ∧
      (∀ o ∈ before, ∃ t, (expand o.1 table o.2).outcome = .ok t) ∧
      (expand owner table s).outcome = .error e := by
  induction owned with
  | nil => cases h
  | cons o owned ih =>
    obtain ⟨owner, s⟩ := o
    rw [expandOwned, Journaled.outcome_bind_eq_error] at h
    rcases h with h | ⟨_, -, h⟩
    · cases h
    rcases Journaled.outcome_bind_eq_error.1 h with h | ⟨t, ht, h⟩
    · exact ⟨[], owner, s, owned, rfl, by simp, h⟩
    rcases Journaled.outcome_bind_eq_error.1 h with h | ⟨_, -, h⟩
    · obtain ⟨before, owner', s', after, rfl, hbefore, he⟩ := ih h
      exact ⟨(owner, s) :: before, owner', s', after, rfl,
        List.forall_mem_cons.2 ⟨⟨t, ht⟩, hbefore⟩, he⟩
    · cases h

theorem resolve_eq_error :
    f.resolve.outcome = .error e ↔
      (expansions f.declarations).outcome = .error e ∨
        ∃ table, (expansions f.declarations).outcome = .ok table ∧
          (expandOwned table f.owned).outcome = .error e := by
  simp only [Formation.resolve, Journaled.outcome_bind_eq_error, Journaled.outcome_pure,
    reduceCtorEq, and_false, exists_false, or_false]

/-- A circle that is reported is one: its names are declared, each lists the next, the last is the
first again and no other is met twice. And a circle is always reported where names are declared
once and nothing else is wrong with an include of a declared sequence. -/
theorem Formation.resolve_cyclicInclude (f : Formation) :
    (∀ chain, f.resolve.outcome = .error (.cyclicInclude chain) →
        (f.declarations.map Declaration.name).Nodup ∧ IsCircle f.declarations chain) ∧
      ((f.declarations.map Declaration.name).Nodup →
        (∃ a, Relation.TransGen (Edge f.declarations) a a) →
        (∀ d ∈ f.declarations, d.sequence.Granted f.declarations) →
        ∃ chain, f.resolve.outcome = .error (.cyclicInclude chain)) := by
  constructor
  · intro chain h
    rcases resolve_eq_error.1 h with h | ⟨table, ht, h⟩
    · rcases expansions_justified h with ⟨-, _, he⟩ | ⟨hu, he⟩
      · cases he
      · cases he with
        | circle hcircle => exact ⟨hu, hcircle⟩
    · obtain ⟨_, _, _, _, -, -, h⟩ := expandOwned_eq_error h
      obtain ⟨_, _, _, -, -, -, -, he⟩ := expand_eq_error h
      cases he
  · intro hu hcycle hg
    obtain ⟨a, ha⟩ := hcycle
    cases h : (expansions f.declarations).outcome with
    | ok table => exact absurd ha (acyclic_of_expansions h a)
    | error e =>
      rcases expansions_justified h with ⟨hn, -⟩ | ⟨-, he⟩
      · exact absurd hu hn
      · cases he with
        | circle => exact ⟨_, resolve_eq_error.2 (.inl h)⟩
        | missing hd hmisses => exact absurd (hg _ hd) hmisses.not_granted

/-- Two names lead to the circle and are no part of it. -/
theorem Formation.resolve_cyclicInclude_led :
    let declared : List Declaration :=
      [⟨"site", [⟨"include", [.quoted "web"]⟩]⟩, ⟨"web", [⟨"include", [.quoted "base"]⟩]⟩,
        ⟨"base", [⟨"git", [.quoted "repo"]⟩, ⟨"include", [.quoted "tools"]⟩]⟩,
        ⟨"tools", [⟨"include", [.quoted "base"]⟩]⟩]
    let f : Formation := ⟨[], declared, none, [], []⟩
    (f.resolve.outcome = .error (.cyclicInclude ["base", "tools", "base"]) ∧
        IsCircle declared ["base", "tools", "base"]) ∧
      (declared.map Declaration.name).Nodup ∧ (∃ a, Relation.TransGen (Edge declared) a a) ∧
      (∀ d ∈ declared, d.sequence.Granted declared) ∧
      ∃ chain, f.resolve.outcome = .error (.cyclicInclude chain) := by
  intro declared f
  have h : f.resolve.outcome = .error (.cyclicInclude ["base", "tools", "base"]) := by cbv
  have hu : (declared.map Declaration.name).Nodup := by decide
  have htools : Edge declared "base" "tools" := by
    simp [declared, Edge, Lists, Declares, Sequence.Includes, Pair.isInclude]
  have hbase : Edge declared "tools" "base" := by
    simp [declared, Edge, Lists, Declares, Sequence.Includes, Pair.isInclude]
  have hcycle : ∃ a, Relation.TransGen (Edge declared) a a := ⟨"base", .tail (.single htools) hbase⟩
  have hgranted : ∀ d ∈ declared, d.sequence.Granted declared := by
    simp [declared, Sequence.Granted, Pair.Granted, Declares, Pair.isInclude]
  exact ⟨⟨h, (f.resolve_cyclicInclude.1 _ h).2⟩, hu, hcycle, hgranted,
    f.resolve_cyclicInclude.2 hu hcycle hgranted⟩

/-- What is reported missing is exact. The sequence it is reported for is a declared one, or the
first of a block that has an include at fault; then all declared sequences have been expanded. Its
first include at fault has the names of the report, and it is the missing ones that it cannot be
granted. -/
theorem Formation.resolve_missingSequences {f : Formation} {owner : Owner}
    {names missing : List String}
    (h : f.resolve.outcome = .error (.missingSequences owner names missing)) :
    (∃ d ∈ f.declarations, owner = .declaration d.name ∧
        d.sequence.Misses f.declarations names missing) ∨
      ∃ before s after, f.owned = before ++ (owner, s) :: after ∧
        s.Misses f.declarations names missing ∧
        (∀ o ∈ before, o.2.Granted f.declarations) ∧
        ∃ table, (expansions f.declarations).outcome = .ok table ∧
          ∀ d ∈ f.declarations, ∃ t, table.lookup d.name = some t ∧
            IsExpansion f.declarations d.sequence t := by
  rcases resolve_eq_error.1 h with h | ⟨table, ht, h⟩
  · rcases expansions_justified h with ⟨-, _, he⟩ | ⟨-, he⟩
    · cases he
    · cases he with
      | missing hd hmisses => exact .inl ⟨_, hd, rfl, hmisses⟩
  · obtain ⟨hu, -⟩ := expansions_eq_ok.1 ht
    obtain ⟨hclosed, hall⟩ := expansions_sound ht
    obtain ⟨before, owner', s, after, ho, hbefore, he⟩ := expandOwned_eq_error h
    have hincluded : ∀ name, s.Includes name → Declares f.declarations name → Has table name := by
      intro name _ hd
      obtain ⟨d, hd, rfl⟩ := hd
      exact hall d hd
    obtain ⟨_, _, hfault, hmisses⟩ := misses_of_expand (fun _ => hclosed.declares) hincluded he
    cases hfault
    refine .inr ⟨before, s, after, ho, hmisses, fun o hm => ?_, table, ht, fun d hd => ?_⟩
    · obtain ⟨t, hexpand⟩ := hbefore o hm
      exact (granted_of_expand (fun _ => hclosed.declares) hexpand).1
    · obtain ⟨t, hlookup⟩ := hall d hd
      obtain ⟨d', hd', hname, hexpands⟩ := hclosed.sound d.name t hlookup
      obtain rfl := List.inj_on_of_nodup_map hu hd' hd hname
      exact ⟨t, hlookup, isExpansion_of_expands hu hexpands⟩

/-- A number, a name for the second time and one that nothing declares, in the second include of
the second box. -/
theorem Formation.resolve_missingSequences_second :
    let include' (values : List Value) : Pair := ⟨"include", values⟩
    let declared : List Declaration :=
      [⟨"web", [include' [.quoted "base"]]⟩, ⟨"base", [⟨"git", [.quoted "repo"]⟩]⟩]
    let fault := include' [.quoted "base", .integer 5, .quoted "base", .quoted "absent"]
    let f : Formation := ⟨[], declared, none, [],
      [⟨⟨"db", 1, "postgres"⟩, "small", [include' [.quoted "web"]]⟩,
        ⟨⟨"front", 1, "nginx"⟩, "small", [include' [.quoted "web", .quoted "base"], fault]⟩]⟩
    f.resolve.outcome = .error (.missingSequences (.box "front") ["base", "5", "base", "absent"]
        ["5", "base", "absent"]) ∧
      ∃ before s after, f.owned = before ++ (.box "front", s) :: after ∧
        s.Misses declared ["base", "5", "base", "absent"] ["5", "base", "absent"] ∧
        ∀ o ∈ before, o.2.Granted declared := by
  intro include' declared fault f
  have h : f.resolve.outcome = .error (.missingSequences (.box "front")
      ["base", "5", "base", "absent"] ["5", "base", "absent"]) := by cbv
  refine ⟨h, ?_⟩
  rcases Formation.resolve_missingSequences h with ⟨_, -, howner, -⟩ | hblock
  · cases howner
  · obtain ⟨before, s, after, ho, hmisses, hgranted, -⟩ := hblock
    exact ⟨before, s, after, ho, hmisses, hgranted⟩

end Fleet
