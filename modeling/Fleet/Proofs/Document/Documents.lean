import Fleet.Document.Parse
import Fleet.Proofs.Document.Ranks
import Fleet.Proofs.Document.Sections
import Fleet.Proofs.Peg.Verdict
/-!
Every document of a formation is read as that formation (`parse_of_document`): each section finds
its own blocks at the head of what remains, or finds another's and is left out.
-/

namespace Fleet.Document
open Fleet.Peg Fleet.Text Layout

variable {rest t w : List Char} {bs : List Language} {f : Formation}

/-- What the sections of a document capture. -/
def captured (f : Formation) : List (String × List Node) :=
  (if f.defaults = [] then [] else [("defaults", [Node.defaults f.defaults])]) ++
    ((if f.declarations = [] then [] else [("named", [Node.declarations f.declarations])]) ++
    ((f.loadBalancer.toList.flatMap fun b =>
        [("load_balancer", [Node.loadBalancer b]), ("pools", [Node.pools f.pools])]) ++
      (if f.boxes = [] then [] else [("boxes", [Node.boxes f.boxes])])))

/-! ## Sections that are absent -/

theorem defaults_failed (h : Reads grammar (.literal "defaults:") t .failed) :
    Reads grammar (.rule .defaults) t .failed :=
  .acting_unmatched rfl (.seq_failed h) (.inl rfl)

theorem declaration_failed (h : Reads grammar (.literal "bootstrap-sequence: ") t .failed) :
    Reads grammar (.rule .declaration) t .failed :=
  .acting_unmatched rfl (.seq_failed h) (.inl rfl)

theorem loadBalancer_failed (h : Reads grammar (.literal "load-balancer: ") t .failed) :
    Reads grammar (.rule .loadBalancer) t .failed :=
  .acting_unmatched rfl (.seq_failed h) (.inl rfl)

theorem pool_failed (hh : Reads grammar (.literal "http") t .failed)
    (ht : Reads grammar (.literal "tcp") t .failed) : Reads grammar (.rule .pool) t .failed :=
  .acting_unmatched rfl (.seq_failed (.capture_unmatched
    (.choice_next hh (.choice_next ht (.choice_none _))) (.inl rfl))) (.inl rfl)

theorem box_failed (h : Reads grammar (.literal "box: ") t .failed) :
    Reads grammar (.rule .box) t .failed :=
  .acting_unmatched rfl (.seq_failed h) (.inl rfl)

/-! ## Sections -/

theorem boxes_section (hf : f.Representable) (h : Remains (f.boxes.map box) t) :
    ReadsOn [.optional (.capture "boxes" (.rule .boxList)), .rule .endOfInput] t
      (if f.boxes = [] then [] else [("boxes", [Node.boxes f.boxes])]) := by
  have hnone : OpenedBy [] [] := by simp [OpenedBy]
  have hend {rest} (hr : Remains [] rest) : Reads grammar (.rule .box) rest .failed :=
    box_failed (literal_failed_of_remains rfl hnone (by simp) hr)
  by_cases hne : f.boxes = []
  · rw [hne] at h
    rw [if_pos hne]
    exact ⟨_, .next (.optional_absent (.capture_unmatched (.listOf_failed rfl (hend h)) (.inl rfl)))
      (.next (takes_endOfInput (remains_nil.1 h)) .nil)⟩
  · have heach := reads_each_block (openedBy_boxes f.boxes) (by decide)
      fun b hb t rest => reads_box (hf.boxes b hb)
    rw [← List.append_nil (f.boxes.map box)] at h
    obtain ⟨rest, hr, hlist⟩ : ∃ rest, Following [] rest ∧ Reads grammar (.rule .boxList) t
        (.matched rest [.node (.boxes f.boxes)] []) :=
      list_of_remains heach rfl (listNode_map (f := Node.box) (fun _ => rfl) _ _ _) hne hnone
        (by simp) (fun rest => hend) h
    have htrailing : trailing rest := by simpa [Following] using hr
    rw [if_neg hne]
    exact ⟨_, .optional_capture (.of_node hlist) (.next (takes_endOfInput htrailing) .nil)⟩

/-- A load balancer comes with its pools, so that a pool list without one is never looked for. -/
theorem machines_section (hf : f.Representable)
    (h : Remains (f.loadBalancer.toList.map loadBalancer ++ (f.pools.map pool ++
      f.boxes.map box)) t) :
    ReadsOn [.optional (.seq [.capture "load_balancer" (.rule .loadBalancer),
        .oneOrMore Form.newline, .capture "pools" (.rule .poolList), .rule .sectionBreak]),
      .optional (.capture "boxes" (.rule .boxList)), .rule .endOfInput] t
      ((f.loadBalancer.toList.flatMap fun b =>
        [("load_balancer", [Node.loadBalancer b]), ("pools", [Node.pools f.pools])]) ++
        if f.boxes = [] then [] else [("boxes", [Node.boxes f.boxes])]) := by
  have hboxes := openedBy_boxes f.boxes
  have hpools := (openedBy_pools f.pools).append hboxes
  cases hlb : f.loadBalancer with
  | none =>
    have hnil : f.pools = [] := by
      have := hf.balanced
      simpa [hlb] using this
    have hr : Remains (f.boxes.map box) t := by simpa [hlb, hnil] using h
    exact .absent (loadBalancer_failed (literal_failed_of_remains rfl hboxes (by decide) hr))
      (boxes_section hf hr)
  | some b =>
    have hne : f.pools ≠ [] := hf.balanced.1 (by simp [hlb])
    rw [hlb, remains_append (by simp)] at h
    obtain ⟨u, r, rfl, hu, hr⟩ := h
    have hlb' : Reads grammar (.rule .loadBalancer) (u ++ r) _ :=
      reads_loadBalancer (hf.loadBalancer b hlb) hu (ends_of_following hr)
    obtain ⟨rest, hrest, hbreak⟩ : ∃ rest, Remains (f.pools.map pool ++ f.boxes.map box) rest ∧
        Takes grammar (.oneOrMore Form.newline) r rest [] := by
      rcases newlines_of_following hpools (by decide) hr with h | ⟨hnil, -⟩
      · exact h
      · simp [hne] at hnil
    have heach := reads_each_block (openedBy_pools f.pools) (by decide)
      fun p hp t rest => reads_pool (hf.pools p hp)
    obtain ⟨v, hv, hlist⟩ : ∃ v, Following (f.boxes.map box) v ∧
        Reads grammar (.rule .poolList) rest (.matched v [.node (.pools f.pools)] []) :=
      list_of_remains heach rfl (listNode_map (f := Node.pool) (fun _ => rfl) _ _ _) hne hboxes
        (by decide) (fun rest h => pool_failed (literal_failed_of_remains rfl hboxes (by decide) h)
          (literal_failed_of_remains rfl hboxes (by decide) h)) hrest
    obtain ⟨end_, hend, hlast⟩ := takes_sectionBreak hboxes (by decide) hv
    obtain ⟨nodes, hnext⟩ := boxes_section hf hend
    exact ⟨_, .optional (.capture (.of_node hlb') (.next hbreak (.capture (.of_node hlist)
      (.next hlast .nil)))) hnext⟩

theorem declarations_section {words : List String} {es : List (Expr Symbol)}
    {bound : List (String × List Node)} (hf : f.Representable) (hb : OpenedBy words bs)
    (hl : ∀ word ∈ words, word.toList.head?.any Char.isAlpha = true)
    (hc : ∀ word ∈ words, Clash word.toList "bootstrap-sequence: ".toList = true)
    (h : Remains (f.declarations.map declaration ++ bs) t)
    (hnext : ∀ rest, Remains bs rest → ReadsOn es rest bound) :
    ReadsOn (.optional (.seq [.capture "named" (.rule .declarationList), .rule .sectionBreak]) ::
        es) t
      ((if f.declarations = [] then [] else [("named", [Node.declarations f.declarations])]) ++
        bound) := by
  have hend {rest} (hr : Remains bs rest) : Reads grammar (.rule .declaration) rest .failed :=
    declaration_failed (literal_failed_of_remains rfl hb hc hr)
  by_cases hne : f.declarations = []
  · rw [if_pos hne]
    have hr : Remains bs t := by simpa [hne] using h
    exact .absent (.listOf_failed rfl (hend hr)) (hnext t hr)
  · have heach := reads_each_block (openedBy_declarations f.declarations) (by decide)
      fun d hd t rest => reads_declaration (hf.declarations d hd)
    obtain ⟨rest, hr, hlist⟩ : ∃ rest, Following bs rest ∧ Reads grammar (.rule .declarationList) t
        (.matched rest [.node (.declarations f.declarations)] []) :=
      list_of_remains heach rfl (listNode_map (f := Node.declaration) (fun _ => rfl) _ _ _) hne hb
        hl (fun rest => hend) h
    rw [if_neg hne]
    exact .present hlist hr hb hl hnext

theorem defaults_section {words : List String} {es : List (Expr Symbol)}
    {bound : List (String × List Node)} (hf : f.Representable) (hb : OpenedBy words bs)
    (hl : ∀ word ∈ words, word.toList.head?.any Char.isAlpha = true)
    (hc : ∀ word ∈ words, Clash word.toList "defaults:".toList = true)
    (h : Remains ((if f.defaults.isEmpty then [] else [defaults f.defaults]) ++ bs) t)
    (hnext : ∀ rest, Remains bs rest → ReadsOn es rest bound) :
    ReadsOn (.optional (.seq [.capture "defaults" (.rule .defaults), .rule .sectionBreak]) :: es) t
      ((if f.defaults = [] then [] else [("defaults", [Node.defaults f.defaults])]) ++ bound) := by
  by_cases hne : f.defaults = []
  · rw [if_pos hne]
    have hr : Remains bs t := by simpa [hne] using h
    exact .absent (defaults_failed (literal_failed_of_remains rfl hb hc hr)) (hnext t hr)
  · rw [if_neg (by simpa using hne), remains_append (by simp)] at h
    obtain ⟨u, rest, rfl, hu, hr⟩ := h
    rw [if_neg hne]
    exact .present (reads_defaults ⟨hne, hf.defaults⟩ hu (ends_of_following hr)) hr hb hl hnext

/-- A document is read as a whole, from its first section on. -/
theorem reads_document (hf : f.Representable) (ht : document gap f t) :
    ∃ items bs, Reads grammar Form.document t (.matched [] items bs) ∧ Binds bs (captured f) := by
  have hmachines := (openedBy_loadBalancer f.loadBalancer).append
    ((openedBy_pools f.pools).append (openedBy_boxes f.boxes))
  have hdeclared := (openedBy_declarations f.declarations).append hmachines
  have hall := (openedBy_defaults f.defaults).append hdeclared
  obtain ⟨w, _, rfl, hw, a, _, rfl, ha, e, _, rfl, he, rfl⟩ := ht
  simp only [blocks, List.append_assoc] at ha
  obtain ⟨rest, hr, first, hfirst, -⟩ := newlines_before hall (by decide) (star_newline_isBreak hw)
    ⟨a, e, rfl, ha, he⟩
  obtain ⟨nodes, items, bs, hseq, -, hb⟩ := defaults_section hf hdeclared (by decide) (by decide) hr
    fun rest hr => declarations_section hf hmachines (by decide) (by decide) hr
      fun rest hr => machines_section hf hr
  rw [List.append_nil]
  exact ⟨_, bs, .seq (.next hfirst hseq), hb⟩

theorem Action.formation_eq {bs : List (String × Item Node)} (hf : f.Representable)
    (hb : Binds bs (captured f)) :
    Action.formation ⟨bs⟩ =
      if f.loadBalancer.isNone && f.boxes.isEmpty then .error .emptyFormation
      else .ok [.formation f] := by
  have hdefaults : orElse ⟨bs⟩ "defaults" Node.defaults? [] = .ok f.defaults := by
    refine orElse_eq (n := .defaults f.defaults) ?_ fun _ => rfl
    cases h : f.loadBalancer <;> simp [hb.nodes, captured, h]
  have hnamed : orElse ⟨bs⟩ "named" Node.declarations? [] "named bootstrap sequences" =
      .ok f.declarations := by
    refine orElse_eq (n := .declarations f.declarations) ?_ fun _ => rfl
    cases h : f.loadBalancer <;> simp [hb.nodes, captured, h]
  have hlb : orElse ⟨bs⟩ "load_balancer" (fun n => n.loadBalancer?.map some) none "load balancer" =
      .ok f.loadBalancer := by
    cases h : f.loadBalancer with
    | none =>
      refine orElse_eq (n := .defaults []) ?_ fun h => absurd rfl h
      simp [hb.nodes, captured, h]
    | some b =>
      refine orElse_eq (n := .loadBalancer b) ?_ fun _ => rfl
      simp [hb.nodes, captured, h]
  have hpools : orElse ⟨bs⟩ "pools" Node.pools? [] "pool definitions" = .ok f.pools := by
    refine orElse_eq (n := .pools f.pools) ?_ fun _ => rfl
    have := hf.balanced
    cases h : f.loadBalancer <;> simp_all [hb.nodes, captured]
  have hboxes : orElse ⟨bs⟩ "boxes" Node.boxes? [] "box definitions" = .ok f.boxes := by
    refine orElse_eq (n := .boxes f.boxes) ?_ fun _ => rfl
    cases h : f.loadBalancer <;> simp [hb.nodes, captured, h]
  simp only [Action.formation, hdefaults, hnamed, hboxes, hpools, hlb]
  by_cases h : (f.loadBalancer.isNone && f.boxes.isEmpty) = true
  · rw [if_pos h]
    exact if_pos h
  · rw [if_neg h]
    exact if_neg h

/-- Which document of a formation it is makes no difference to what is parsed. -/
theorem parse_of_document {source text : String} (hf : f.Representable)
    (ht : document gap f text.toList) :
    (Formation.parse source text).outcome =
      if f.loadBalancer.isNone && f.boxes.isEmpty then .error .emptyFormation else .ok f := by
  obtain ⟨items, bs, hr, hb⟩ := reads_document hf ht
  have haction : (grammar.rule .start).action = some Action.formation := rfl
  rw [Formation.outcome_parse, run_result_of_reads grammar_notLeftRecursive haction hr,
    Action.formation_eq hf hb]
  split <;> rfl

/-- It is the formation, if there is anything to provision. -/
theorem parse_ok_of_document {source text : String} (hf : f.Representable)
    (ht : document gap f text.toList) (hne : f.loadBalancer.isSome = true ∨ f.boxes ≠ []) :
    (Formation.parse source text).outcome = .ok f := by
  refine (parse_of_document hf ht).trans (if_neg fun hnone => ?_)
  have h : ¬ (f.loadBalancer.isSome = true ∨ f.boxes ≠ []) := by simpa using hnone
  exact h hne

end Fleet.Document
