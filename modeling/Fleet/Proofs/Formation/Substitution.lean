import Fleet.Proofs.Formation.Resolution
/-!
Resolving is substitution: whatever table of expansions the search has made, every block ends up
with the one full expansion of its sequence (`Formation.resolve_substitutes`).
-/

namespace Fleet

variable {declared : List Declaration} {table : Expansions} {s t : Sequence} {f f' : Formation}

/-! ## Expansions -/

theorem ExpandsRequest.cons_inv {v : Value} {values : List Value}
    (h : ExpandsRequest declared (v :: values) t) :
    ∃ d ∈ declared, v = .quoted d.name ∧ ∃ first others, t = first ++ others ∧
      Expands declared d.sequence first ∧ ExpandsRequest declared values others := by
  cases h with
  | @cons d _ first others hd hs ht => exact ⟨d, hd, rfl, first, others, rfl, hs, ht⟩

mutual

/-- If no name is declared twice, a sequence has at most one expansion. -/
theorem Expands.unique (hu : (declared.map Declaration.name).Nodup) {s t t' : Sequence} :
    Expands declared s t → Expands declared s t' → t = t'
  | .nil, .nil => rfl
  | .keep _ h, .keep _ h' => congrArg _ (h.unique hu h')
  | .keep hp _, .replace hp' _ _ => absurd (hp.symm.trans hp') (by decide)
  | .replace hp _ _, .keep hp' _ => absurd (hp.symm.trans hp') (by decide)
  | .replace _ hi h, .replace _ hi' h' => congr (congrArg _ (hi.unique hu hi')) (h.unique hu h')

theorem ExpandsRequest.unique (hu : (declared.map Declaration.name).Nodup) {values : List Value}
    {t t' : Sequence} :
    ExpandsRequest declared values t → ExpandsRequest declared values t' → t = t'
  | .nil, .nil => rfl
  | .cons hd hs ht, h' => by
    obtain ⟨e, he, hname, first, others, rfl, hs', ht'⟩ := h'.cons_inv
    obtain rfl := List.inj_on_of_nodup_map hu hd he (Value.quoted.inj hname)
    rw [hs.unique hu hs', ht.unique hu ht']

end

mutual

/-- An expansion holds no include. -/
theorem Expands.hasIncludes {s t : Sequence} : Expands declared s t → t.hasIncludes = false
  | .nil => rfl
  | .keep hp h => by
    have := h.hasIncludes
    simp_all [Sequence.hasIncludes]
  | .replace _ hi h => by
    have := hi.hasIncludes
    have := h.hasIncludes
    simp_all [Sequence.hasIncludes]

theorem ExpandsRequest.hasIncludes {values : List Value} {t : Sequence} :
    ExpandsRequest declared values t → t.hasIncludes = false
  | .nil => rfl
  | .cons _ hs ht => by
    have := hs.hasIncludes
    have := ht.hasIncludes
    simp_all [Sequence.hasIncludes]

end

theorem isExpansion_of_expands (hu : (declared.map Declaration.name).Nodup)
    (h : Expands declared s t) : IsExpansion declared s t :=
  fun _ => ⟨fun h' => h'.unique hu h, fun he => he ▸ h⟩

/-! ## Blocks -/

section Lists

variable {α β : Type} {R : α → β → Prop} {put : α → β → α}

theorem forall₂_append_left {as as' : List α} {bs : List β} (h : List.Forall₂ R (as ++ as') bs) :
    ∃ b b', bs = b ++ b' ∧ List.Forall₂ R as b ∧ List.Forall₂ R as' b' := by
  induction as generalizing bs with
  | nil => exact ⟨[], bs, rfl, .nil, h⟩
  | cons a as ih =>
    cases h with
    | cons hr h =>
      obtain ⟨b, b', rfl, hb, hb'⟩ := ih h
      exact ⟨_ :: b, b', rfl, .cons hr hb, hb'⟩

theorem forall₂_mem_right {as : List α} {bs : List β} (h : List.Forall₂ R as bs) {b : β}
    (hb : b ∈ bs) : ∃ a ∈ as, R a b := by
  induction h with
  | nil => cases hb
  | cons hr _ ih =>
    rcases List.mem_cons.1 hb with rfl | hb
    · exact ⟨_, by simp, hr⟩
    · obtain ⟨a, ha, hab⟩ := ih hb
      exact ⟨a, by simp [ha], hab⟩

/-- What is put into a list is what its members are related to, as far as the list goes. -/
theorem forall₂_refill {as : List α} {bs : List β} (h : List.Forall₂ R as bs) (more : List β) :
    List.Forall₂ (fun a a' => ∃ b, a' = put a b ∧ R a b) as (refill put as (bs ++ more)) := by
  induction h with
  | nil => exact .nil
  | cons hr _ ih => exact .cons ⟨_, rfl, hr⟩ ih

end Lists

/-- Resolving puts the one full expansion of each sequence in its place. -/
theorem resolve_expansions (h : f.resolve.outcome = .ok f') :
    ∃ new, f' = f.withSequences new ∧
      List.Forall₂ (IsExpansion f.declarations) f.sequences new := by
  obtain ⟨table, new, ht, hn, rfl⟩ := resolve_eq_ok.1 h
  obtain ⟨hu, -⟩ := expansions_eq_ok.1 ht
  have hsound := (expansions_sound ht).1.sound
  refine ⟨new, rfl, ?_⟩
  rw [Formation.sequences, List.forall₂_map_left_iff]
  refine (expandOwned_eq_ok.1 hn).imp fun o t ht => ?_
  exact isExpansion_of_expands hu (hsound.expands ht)

theorem resolve_isResolved (h : f.resolve.outcome = .ok f') : f'.isResolved = true := by
  obtain ⟨new, rfl, hnew⟩ := resolve_expansions h
  rw [Formation.isResolved_iff, Formation.sequences_withSequences hnew.length_eq.symm]
  intro t ht
  obtain ⟨s, -, hs⟩ := forall₂_mem_right hnew ht
  exact ((hs t).2 rfl).hasIncludes

/-- What is put into a formation goes block by block. -/
theorem Formation.withSequences_blocks {R : Sequence → Sequence → Prop} {new : List Sequence}
    (h : List.Forall₂ R f.sequences new) :
    List.Forall₂ (fun b b' => ∃ t, b' = b.withSequence t ∧ R b.sequence t)
        f.loadBalancer.toList (f.withSequences new).loadBalancer.toList ∧
      List.Forall₂ (fun p p' => ∃ t, p' = p.withSequence t ∧ R p.sequence t)
        f.pools (f.withSequences new).pools ∧
      List.Forall₂ (fun b b' => ∃ t, b' = b.withSequence t ∧ R b.sequence t)
        f.boxes (f.withSequences new).boxes := by
  rw [Formation.sequences_eq, List.append_assoc] at h
  obtain ⟨lb, others, rfl, hlb, hothers⟩ := forall₂_append_left h
  obtain ⟨pools, boxes, rfl, hpools, hboxes⟩ := forall₂_append_left hothers
  rw [List.forall₂_map_left_iff] at hlb hpools hboxes
  refine ⟨?_, ?_, ?_⟩
  · rw [Formation.toList_withSequences]
    exact forall₂_refill hlb _
  · rw [Formation.withSequences, hlb.length_eq, List.drop_left]
    exact forall₂_refill hpools _
  · rw [Formation.withSequences, hlb.length_eq, hpools.length_eq, ← List.append_assoc,
      ← List.length_append, List.drop_left, ← List.append_nil boxes]
    exact forall₂_refill hboxes _

/-- After resolving, every load balancer, pool and box is the same but for its sequence, which is
the one full expansion of the old one: every include gone, every other pair in its place. -/
theorem Formation.resolve_substitutes (h : f.resolve.outcome = .ok f') :
    f'.defaults = f.defaults ∧ f'.declarations = f.declarations ∧
      List.Forall₂ (Block.Substituted f.declarations) f.loadBalancer.toList
        f'.loadBalancer.toList ∧
      List.Forall₂ (Pool.Substituted f.declarations) f.pools f'.pools ∧
      List.Forall₂ (Block.Substituted f.declarations) f.boxes f'.boxes ∧
      f'.isResolved = true := by
  have hresolved := resolve_isResolved h
  obtain ⟨new, rfl, hnew⟩ := resolve_expansions h
  obtain ⟨hlb, hpools, hboxes⟩ := Formation.withSequences_blocks hnew
  exact ⟨rfl, rfl, hlb, hpools, hboxes, hresolved⟩

/-- What two includes lead to is there once for each of them. -/
theorem Formation.resolve_substitutes_nested :
    let base : Pair := ⟨"inline", [.quoted "apt update"]⟩
    let declared : List Declaration :=
      [⟨"web", [⟨"include", [.quoted "base"]⟩, ⟨"upload", [.quoted "nginx.conf"]⟩]⟩,
        ⟨"base", [base]⟩]
    let box (s : Sequence) : Formation :=
      ⟨[], declared, none, [], [⟨⟨"db", 1, "postgres"⟩, "small", s⟩]⟩
    (box [⟨"include", [.quoted "base", .quoted "web"]⟩]).resolve.outcome =
        .ok (box [base, base, ⟨"upload", [.quoted "nginx.conf"]⟩]) ∧
      List.Forall₂ (Block.Substituted declared)
        (box [⟨"include", [.quoted "base", .quoted "web"]⟩]).boxes
        (box [base, base, ⟨"upload", [.quoted "nginx.conf"]⟩]).boxes := by
  intro base declared box
  have hempty (name : String) : ¬ Has [] name := by
    intro hp
    obtain ⟨_, h⟩ := hp
    cases h
  have hbase : (visit declared ["web"] "base" []).outcome = .ok [("base", [base])] := by
    rw [visit_of_declared (hempty _) (by simp) rfl]
    refine Journaled.outcome_bind_eq_ok.2 ⟨[], ?_, rfl⟩
    exact congrArg Journaled.outcome (visitAll.eq_1 ..)
  have hweb : (visit declared [] "web" []).outcome =
      .ok [("base", [base]), ("web", [base, ⟨"upload", [.quoted "nginx.conf"]⟩])] := by
    rw [visit_of_declared (hempty _) (by simp) rfl]
    refine Journaled.outcome_bind_eq_ok.2 ⟨[("base", [base])], ?_, rfl⟩
    have ht : Sequence.targets [⟨"include", [.quoted "base"]⟩,
      ⟨"upload", [.quoted "nginx.conf"]⟩] = ["base"] := rfl
    simp only [ht, visitAll]
    exact Journaled.outcome_bind_eq_ok.2 ⟨_, hbase, rfl⟩
  have htable : (expansions declared).outcome =
      .ok [("base", [base]), ("web", [base, ⟨"upload", [.quoted "nginx.conf"]⟩])] := by
    refine expansions_eq_ok.2 ⟨by decide, ?_⟩
    simp only [declared, List.map_cons, List.map_nil, visitAll]
    refine Journaled.outcome_bind_eq_ok.2 ⟨_, hweb, Journaled.outcome_bind_eq_ok.2 ⟨_, ?_, rfl⟩⟩
    rw [visit_of_has ⟨_, rfl⟩]
    rfl
  have h : (box [⟨"include", [.quoted "base", .quoted "web"]⟩]).resolve.outcome =
      .ok (box [base, base, ⟨"upload", [.quoted "nginx.conf"]⟩]) :=
    resolve_eq_ok.2 ⟨_, [_], htable, rfl, rfl⟩
  exact ⟨h, (Formation.resolve_substitutes h).2.2.2.2.1⟩

end Fleet
