import Fleet.Formation.IncludeGraph
/-!
One sequence is expanded with a table exactly if the table can grant all of its includes
(`expand_ok_iff`), and then to what the table says of the names they list, in the order of the
request (`expand_eq_ok`).
-/

namespace Fleet

variable {declared : List Declaration} {owner : Owner} {table : Expansions} {values : List Value}
  {s t : Sequence}

/-! ## Requests -/

/-- The entry that a value asks for has its name, and was not asked for before. -/
theorem requested?_eq_some_iff {found : Expansions} {v : Value} {e : String × Sequence} :
    v.requested? table found = some e ↔
      v = .quoted e.1 ∧ table.lookup e.1 = some e.2 ∧ e.1 ∉ found.map (·.1) := by
  obtain ⟨name, s⟩ := e
  cases v with
  | integer n => simp [Value.requested?]
  | quoted text =>
    have hnone : ((found.lookup text).isSome = true) ↔ text ∈ found.map (·.1) := by
      simp
    simp only [Value.requested?, Value.quoted.injEq]
    split
    · next h =>
      refine ⟨fun h => (Option.some_ne_none _ h.symm).elim, ?_⟩
      intro hp
      obtain ⟨rfl, -, hn⟩ := hp
      exact absurd (hnone.1 h) hn
    · next h =>
      rw [Option.map_eq_some_iff]
      constructor
      · intro hp
        obtain ⟨s', hs', he⟩ := hp
        obtain ⟨rfl, rfl⟩ := Prod.mk.inj he
        exact ⟨rfl, hs', fun hm => h (hnone.2 hm)⟩
      · intro hp
        obtain ⟨rfl, hs', -⟩ := hp
        exact ⟨s, hs', rfl⟩

/-- The table has an entry for the name. -/
def Has (table : Expansions) (name : String) : Prop := ∃ s, table.lookup name = some s

/-- The values of an include name entries of a table, each of them once. -/
structure Asks (table : Expansions) (values : List Value) (found : Expansions) : Prop where
  values_eq : values = found.map fun e => .quoted e.1
  entry : ∀ e ∈ found, table.lookup e.1 = some e.2
  nodup : (found.map (·.1)).Nodup

theorem sortRequests_eq_iff {found all : Expansions} (hf : (found.map (·.1)).Nodup) :
    sortRequests table found values = (all, []) ↔
      ∃ more, all = found ++ more ∧ values = more.map (fun e => .quoted e.1) ∧
        (∀ e ∈ more, table.lookup e.1 = some e.2) ∧ (all.map (·.1)).Nodup := by
  induction values generalizing found with
  | nil =>
    constructor
    · intro h
      obtain ⟨rfl, -⟩ := Prod.mk.inj h
      exact ⟨[], by simp, rfl, by simp, hf⟩
    · intro hp
      obtain ⟨more, rfl, hm, -, -⟩ := hp
      obtain rfl : more = [] := by simpa using hm.symm
      simp [sortRequests]
  | cons v values ih =>
    have hadd {e : String × Sequence} (he : e.1 ∉ found.map (·.1)) :
        ((found ++ [e]).map (·.1)).Nodup := by
      rw [List.map_append, List.nodup_append]
      exact ⟨hf, by simp, by rintro a ha b hb rfl; exact he (by simp_all)⟩
    rw [sortRequests]
    constructor
    · intro h
      split at h
      · next e hv =>
        obtain ⟨rfl, hlookup, hnew⟩ := requested?_eq_some_iff.1 hv
        obtain ⟨more, rfl, rfl, hentry, hnodup⟩ := (ih (hadd hnew)).1 h
        exact ⟨e :: more, by simp, rfl, by simpa [hlookup] using hentry, hnodup⟩
      · cases h
    · intro hp
      obtain ⟨more, rfl, hvalues, hentry, hnodup⟩ := hp
      obtain ⟨e, more, rfl⟩ : ∃ e es, more = e :: es := by
        cases more with
        | nil => cases hvalues
        | cons e more => exact ⟨e, more, rfl⟩
      obtain ⟨rfl, hothers⟩ := List.cons.inj hvalues
      have hnew : e.1 ∉ found.map (·.1) := fun hm => by
        rw [List.map_append, List.nodup_append] at hnodup
        exact hnodup.2.2 e.1 hm e.1 (by simp) rfl
      have hv := requested?_eq_some_iff.2 ⟨rfl, hentry e (by simp), hnew⟩
      rw [hv]
      exact (ih (hadd hnew)).2 ⟨more, by simp, hothers, fun e' he' => hentry e' (by simp [he']),
        hnodup⟩

theorem sortRequests_eq_iff_asks {found : Expansions} :
    sortRequests table [] values = (found, []) ↔ Asks table values found := by
  rw [sortRequests_eq_iff (by simp)]
  constructor
  · intro h
    obtain ⟨more, he, hvalues, hentry, hnodup⟩ := h
    obtain rfl : found = more := he
    exact ⟨hvalues, hentry, hnodup⟩
  · intro h
    obtain ⟨hvalues, hentry, hnodup⟩ := h
    exact ⟨found, rfl, hvalues, hentry, hnodup⟩

theorem expandInclude_eq_ok {included : Sequence} :
    (expandInclude owner table values).outcome = .ok included ↔
      ∃ found, Asks table values found ∧ included = found.flatMap (·.2) := by
  unfold expandInclude
  constructor
  · intro h
    split at h
    · next found hs =>
      exact ⟨found, sortRequests_eq_iff_asks.1 hs, (Except.ok.inj h).symm⟩
    · cases h
  · intro hp
    obtain ⟨found, ha, rfl⟩ := hp
    rw [sortRequests_eq_iff_asks.2 ha]
    rfl

/-- A table can grant an include that lists names it has, each of them once. -/
theorem exists_asks_iff :
    (∃ found, Asks table values found) ↔
      (∀ v ∈ values, ∃ name, v = .quoted name ∧ Has table name) ∧ values.Nodup := by
  constructor
  · intro hp
    obtain ⟨found, rfl, hentry, hnodup⟩ := hp
    constructor
    · intro v hv
      obtain ⟨e, he, rfl⟩ := List.mem_map.1 hv
      exact ⟨e.1, rfl, e.2, hentry e he⟩
    · have h : ((found.map (·.1)).map Value.quoted).Nodup :=
        List.Pairwise.map Value.quoted (fun a b hab hv => hab (Value.quoted.inj hv)) hnodup
      rwa [List.map_map] at h
  · intro hp
    obtain ⟨hnames, hnodup⟩ := hp
    induction values with
    | nil => exact ⟨[], rfl, by simp, by simp⟩
    | cons v values ih =>
      obtain ⟨hv, hnodup⟩ := List.nodup_cons.1 hnodup
      obtain ⟨found, rfl, hentry, hfound⟩ := ih (fun w hw => hnames w (by simp [hw])) hnodup
      obtain ⟨name, rfl, s, hs⟩ := hnames v (by simp)
      refine ⟨(name, s) :: found, rfl, by simpa [hs] using hentry, List.nodup_cons.2 ⟨?_, hfound⟩⟩
      intro hm
      obtain ⟨e, he, rfl⟩ := List.mem_map.1 hm
      exact hv (List.mem_map.2 ⟨e, he, rfl⟩)

/-! ## Sequences -/

theorem expand_cons (owner : Owner) (table : Expansions) (p : Pair) (s : Sequence) :
    expand owner table (p :: s) =
      (if p.isInclude then expandInclude owner table p.values else pure [p]) >>= fun here =>
        expand owner table s >>= fun rest => pure (here ++ rest) := by
  rw [expand]
  split <;> rfl

theorem expand_cons_eq_ok {p : Pair} :
    (expand owner table (p :: s)).outcome = .ok t ↔
      ∃ here rest, t = here ++ rest ∧ (expand owner table s).outcome = .ok rest ∧
        (if p.isInclude then expandInclude owner table p.values else pure [p]).outcome =
          .ok here := by
  rw [expand_cons]
  simp only [Journaled.outcome_bind_eq_ok, Journaled.outcome_pure, Except.ok.injEq]
  constructor
  · intro h
    obtain ⟨here, hh, rest, hr, rfl⟩ := h
    exact ⟨here, rest, rfl, hr, hh⟩
  · intro h
    obtain ⟨here, rest, rfl, hr, hh⟩ := h
    exact ⟨here, hh, rest, hr, rfl⟩

theorem expand_ok_iff :
    (∃ t, (expand owner table s).outcome = .ok t) ↔
      ∀ p ∈ s, p.isInclude = true →
        (∀ v ∈ p.values, ∃ name, v = .quoted name ∧ Has table name) ∧ p.values.Nodup := by
  induction s with
  | nil => simp [expand]
  | cons p s ih =>
    constructor
    · intro hp
      obtain ⟨t, ht⟩ := hp
      obtain ⟨here, rest, rfl, hr, hh⟩ := expand_cons_eq_ok.1 ht
      intro q hq hi
      rcases List.mem_cons.1 hq with rfl | hq
      · rw [if_pos hi] at hh
        obtain ⟨found, ha, -⟩ := expandInclude_eq_ok.1 hh
        exact exists_asks_iff.1 ⟨found, ha⟩
      · exact ih.1 ⟨rest, hr⟩ q hq hi
    · intro h
      obtain ⟨rest, hr⟩ := ih.2 fun q hq => h q (by simp [hq])
      by_cases hi : p.isInclude = true
      · obtain ⟨found, ha⟩ := exists_asks_iff.2 (h p (by simp) hi)
        exact ⟨_, expand_cons_eq_ok.2 ⟨_, rest, rfl, hr, by
          rw [if_pos hi]
          exact expandInclude_eq_ok.2 ⟨found, ha, rfl⟩⟩⟩
      · exact ⟨_, expand_cons_eq_ok.2 ⟨[p], rest, rfl, hr, by rw [if_neg hi]; rfl⟩⟩

/-- What a table of declared names expands can be granted, from the table. -/
theorem granted_of_expand (hd : ∀ name, Has table name → Declares declared name)
    (h : (expand owner table s).outcome = .ok t) :
    s.Granted declared ∧ ∀ name, s.Includes name → Has table name := by
  have hs := expand_ok_iff.1 ⟨t, h⟩
  constructor
  · intro p hp hi
    obtain ⟨hnames, hnodup⟩ := hs p hp hi
    refine ⟨fun v hv => ?_, hnodup⟩
    obtain ⟨name, rfl, hn⟩ := hnames v hv
    exact ⟨name, rfl, hd name hn⟩
  · intro name hx
    obtain ⟨p, hp, hi, hv⟩ := hx
    obtain ⟨name', hq, hn⟩ := (hs p hp hi).1 _ hv
    cases hq
    exact hn

theorem expand_of_granted (h : s.Granted declared)
    (hi : ∀ name, s.Includes name → Has table name) (owner : Owner) :
    ∃ t, (expand owner table s).outcome = .ok t := by
  refine expand_ok_iff.2 fun p hp hinc => ⟨fun v hv => ?_, (h p hp hinc).2⟩
  obtain ⟨name, rfl, -⟩ := (h p hp hinc).1 v hv
  exact ⟨name, rfl, hi name ⟨p, hp, hinc, hv⟩⟩

/-- Every entry of the table is what the declared sequence of its name expands to. -/
def Sound (declared : List Declaration) (table : Expansions) : Prop :=
  ∀ name s, table.lookup name = some s →
    ∃ d ∈ declared, d.name = name ∧ Expands declared d.sequence s

theorem Sound.expandsRequest {found : Expansions} (h : Sound declared table)
    (ha : ∀ e ∈ found, table.lookup e.1 = some e.2) :
    ExpandsRequest declared (found.map fun e => .quoted e.1) (found.flatMap (·.2)) := by
  induction found with
  | nil => exact .nil
  | cons e found ih =>
    obtain ⟨d, hd, hname, he⟩ := h e.1 e.2 (ha e (by simp))
    have hrest := ih fun e' he' => ha e' (by simp [he'])
    rw [List.map_cons, List.flatMap_cons, ← hname]
    exact .cons hd he hrest

/-- With such a table a sequence is expanded to what it stands for. -/
theorem Sound.expands (h : Sound declared table) (ht : (expand owner table s).outcome = .ok t) :
    Expands declared s t := by
  induction s generalizing t with
  | nil =>
    obtain rfl : [] = t := Except.ok.inj ht
    exact .nil
  | cons p s ih =>
    obtain ⟨here, rest, rfl, hr, hh⟩ := expand_cons_eq_ok.1 ht
    by_cases hi : p.isInclude = true
    · rw [if_pos hi] at hh
      obtain ⟨found, ⟨hvalues, hentry, -⟩, rfl⟩ := expandInclude_eq_ok.1 hh
      exact .replace hi (hvalues ▸ h.expandsRequest hentry) (ih hr)
    · rw [if_neg hi] at hh
      obtain rfl : [p] = here := Except.ok.inj hh
      exact .keep (by simpa using hi) (ih hr)

end Fleet
