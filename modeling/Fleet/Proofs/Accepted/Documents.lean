import Fleet.Proofs.Accepted.Apart
import Fleet.Proofs.Document.Documents
/-!
A text that is parsed is a document of the formation that it is parsed as, and that formation can
be written (`document_of_parse`).
-/

namespace Fleet.Document
open Fleet.Peg Fleet.Text Layout Language

variable {c : Bool} {cs rest s t u v : List Char} {items : List (Item Node)}
  {bs : List (String × Item Node)} {ls : List Language}

/-! ## Ends of sections -/

/-- The end of the input is where only blanks and line ends are left. -/
theorem endOfInput_inv (h : Reads grammar (.rule .endOfInput) cs (.matched rest items bs)) :
    rest = [] ∧ trailing cs ∧ items.filterMap Item.node? = [] ∧ bs = [] := by
  have hspace : Accepts grammar (.choice [.oneOf blank, Form.newline])
      (Spelled fun t => ∀ c ∈ t, isBlank c ∨ isBreak c) := by
    refine .choice ?_
    simp only [List.forall_mem_cons]
    refine ⟨(Accepts.oneOf _).imp fun _ _ _ h => h.imp ?_,
      accepts_newline.imp fun _ _ _ h => h.imp ?_, by simp⟩
    · intro _ hp
      obtain ⟨c, hc, rfl⟩ := hp
      simpa using .inl ((contains_blank c).1 hc)
    · exact fun t ht c hc => .inr (newline_isBreak ht c hc)
  cases h.of_transparent rfl with
  | seq h =>
    obtain ⟨_, _, _, _, _, hmany, hs, rfl, rfl⟩ := ReadsSeq.cons_iff.1 h
    obtain ⟨_, _, _, _, _, hend, hnil, rfl, rfl⟩ := ReadsSeq.cons_iff.1 hs
    cases hnil
    obtain ⟨rfl, rfl, rfl, hnone⟩ := hend.of_not
    obtain ⟨t, rfl, ⟨ht, hn, rfl⟩, -⟩ := hspace.star hmany
    have hrest : rest = [] := by
      cases rest with
      | nil => rfl
      | cons c rest => exact absurd (.any c rest) (hnone _ _ _)
    rw [hrest, List.append_nil]
    exact ⟨rfl, ht.forall_mem fun _ h => h, by simpa using hn, rfl⟩

/-- A section ends with line ends or with the text. -/
def Break (s rest : List Char) : Prop := newlines s ∨ trailing s ∧ rest = []

theorem sectionBreak_inv (h : Reads grammar (.rule .sectionBreak) cs (.matched rest items bs)) :
    bs = [] ∧ items.filterMap Item.node? = [] ∧ ∃ s, cs = s ++ rest ∧ Break s rest := by
  obtain ⟨e, he, h⟩ := (h.of_transparent rfl).of_choice
  simp only [List.mem_cons, List.not_mem_nil, or_false] at he
  rcases he with rfl | rfl
  · obtain ⟨s, rfl, ⟨hs, hn, rfl⟩, -⟩ := accepts_newlines h
    exact ⟨rfl, hn, s, rfl, .inl hs⟩
  · obtain ⟨rfl, ht, hn, rfl⟩ := endOfInput_inv h
    exact ⟨rfl, hn, cs, by simp, .inr ⟨ht, rfl⟩⟩

/-! ## Sections -/

/-- Blocks are no empty text. -/
theorem eq_nil_of_remains_nil {words : List String} (hb : OpenedBy words ls)
    (hw : ∀ word ∈ words, Heading word) (h : Remains ls []) : ls = [] := by
  obtain ⟨a, e, he, ha, -⟩ := h
  obtain ⟨rfl, rfl⟩ := List.append_eq_nil_iff.1 he.symm
  cases ls with
  | nil => rfl
  | cons p ls =>
    rw [joined_cons] at ha
    obtain ⟨u, v, huv, hp, -⟩ := ha
    obtain ⟨rfl, rfl⟩ := List.append_eq_nil_iff.1 huv.symm
    obtain ⟨word, hmem, ho⟩ := hb p (by simp)
    obtain ⟨w, hw'⟩ := ho [] hp
    obtain ⟨key, -, rfl⟩ := hw word hmem
    simp at hw'

/-- What comes after a break begins with one of the words. -/
theorem exists_heading {words : List String} (hb : OpenedBy words ls)
    (hw : ∀ word ∈ words, Heading word) (hne : ls ≠ []) (h : Remains ls v) :
    ∃ text u, Heading text ∧ v = text.toList ++ u := by
  obtain ⟨p, ls, rfl⟩ := List.exists_cons_of_ne_nil hne
  obtain ⟨a, e, rfl, ha, -⟩ := h
  rw [joined_cons] at ha
  obtain ⟨t, m, rfl, hp, -⟩ := ha
  obtain ⟨word, hmem, ho⟩ := hb p (by simp)
  obtain ⟨u, rfl⟩ := ho t hp
  exact ⟨word, u ++ (m ++ e), hw word hmem, by simp⟩

/-- Blocks that end here, a break after them, and the blocks that come next. -/
theorem remains_append_intro {words : List String} {ks : List Language} (hk : ks ≠ [])
    (hu : joined gap ks u) (hover : Over (s ++ v)) (hs : Break s v) (hb : OpenedBy words ls)
    (hw : ∀ word ∈ words, Heading word) (hv : Remains ls v) : Remains (ks ++ ls) (u ++ (s ++ v)) := by
  rw [remains_append hk]
  refine append_intro hu ?_
  unfold Following
  by_cases hne : ls = []
  · subst hne
    rw [if_pos rfl]
    have hbreak : trailing s := by
      rcases hs with hs | ⟨hs, -⟩
      · exact fun c hc => .inr (newlines_isBreak hs c hc)
      · exact hs
    exact List.forall_mem_append.2 ⟨hbreak, remains_nil.1 hv⟩
  · rw [if_neg hne]
    rcases hs with hs | ⟨-, rfl⟩
    · obtain ⟨text, w, hhead, rfl⟩ := exists_heading hb hw hne hv
      exact append_intro (gap_of_over hhead hs hover) hv
    · exact absurd (eq_nil_of_remains_nil hb hw hv) hne

theorem section_inv {α : Type} {name : String} {e : Expr Symbol} {good : α → Prop}
    {node : α → Node} {lang : α → Language}
    (h : AcceptsFrom grammar (fun _ => True) e (Made good node lang) Over)
    (hr : Reads grammar (.optional (.seq [.capture name e, .rule .sectionBreak])) cs
      (.matched rest items bs)) :
    (rest = cs ∧ bs = []) ∨ ∃ a u s, cs = u ++ (s ++ rest) ∧ good a ∧ lang a u ∧ Over (s ++ rest) ∧
      Break s rest ∧ Binds bs [(name, [node a])] := by
  cases hr with
  | optional_absent => exact .inl ⟨rfl, rfl⟩
  | optional hr =>
    cases hr with
    | seq hr =>
      obtain ⟨_, _, _, _, _, hpart, hs, rfl, rfl⟩ := ReadsSeq.cons_iff.1 hr
      obtain ⟨_, _, _, _, _, hend, hnil, rfl, rfl⟩ := ReadsSeq.cons_iff.1 hs
      cases hnil
      obtain ⟨rfl, -, s, rfl, hbreak⟩ := sectionBreak_inv hend
      obtain ⟨hover, u, rfl, _, rfl, a, ha, hu, hn, rfl⟩ := h.capture trivial hpart
      exact .inr ⟨a, u, s, rfl, ha, hu, hover, hbreak, by simpa using Binds.single hn⟩

theorem defaults_remain {words : List String} (hb : OpenedBy words ls)
    (hw : ∀ word ∈ words, Heading word)
    (h : Reads grammar (.optional (.seq [.capture "defaults" (.rule .defaults),
      .rule .sectionBreak])) cs (.matched rest items bs)) (hrest : Remains ls rest) :
    ∃ d : Sequence, d.Writable ∧ Remains ((if d.isEmpty then [] else [defaults d]) ++ ls) cs ∧
      Binds bs (if d = [] then [] else [("defaults", [.defaults d])]) := by
  rcases section_inv (accepts_over accepts_defaults fun _ => defaults_over) h with
    ⟨rfl, rfl⟩ | ⟨d, u, s, rfl, hd, hu, hover, hs, hbinds⟩
  · exact ⟨[], by simp [Sequence.Writable], hrest, .nil⟩
  · refine ⟨d, hd.2, ?_, by rwa [if_neg hd.1]⟩
    rw [if_neg (by simpa using hd.1)]
    exact remains_append_intro (by simp) hu hover hs hb hw hrest

theorem declarations_remain {words : List String} (hb : OpenedBy words ls)
    (hw : ∀ word ∈ words, Heading word)
    (h : Reads grammar (.optional (.seq [.capture "named" (.rule .declarationList),
      .rule .sectionBreak])) cs (.matched rest items bs)) (hrest : Remains ls rest) :
    ∃ ds : List Declaration, (∀ d ∈ ds, d.Representable) ∧ Remains (ds.map declaration ++ ls) cs ∧
      Binds bs (if ds = [] then [] else [("named", [.declarations ds])]) := by
  rcases section_inv declarations_apart h with
    ⟨rfl, rfl⟩ | ⟨ds, u, s, rfl, hd, hu, hover, hs, hbinds⟩
  · exact ⟨[], by simp, hrest, .nil⟩
  · exact ⟨ds, hd.2, remains_append_intro (by simpa using hd.1) hu hover hs hb hw hrest,
      by rwa [if_neg hd.1]⟩

/-- A load balancer is never without pools, nor are pools without a load balancer. -/
theorem machines_remain {words : List String} (hb : OpenedBy words ls)
    (hw : ∀ word ∈ words, Heading word)
    (h : Reads grammar (.optional (.seq [.capture "load_balancer" (.rule .loadBalancer),
      .oneOrMore Form.newline, .capture "pools" (.rule .poolList), .rule .sectionBreak])) cs
      (.matched rest items bs)) (hrest : Remains ls rest) :
    ∃ (b : Option Block) (ps : List Pool), (∀ b' ∈ b, b'.Representable) ∧
      (∀ p ∈ ps, p.Representable) ∧ (b.isSome ↔ ps ≠ []) ∧
      Remains (b.toList.map loadBalancer ++ (ps.map pool ++ ls)) cs ∧
      Binds bs (b.toList.flatMap fun b =>
        [("load_balancer", [.loadBalancer b]), ("pools", [.pools ps])]) := by
  cases h with
  | optional_absent => exact ⟨none, [], by simp, by simp, by simp, hrest, .nil⟩
  | optional h =>
    cases h with
    | seq h =>
      obtain ⟨_, _, _, _, _, hfirst, hs, rfl, rfl⟩ := ReadsSeq.cons_iff.1 h
      obtain ⟨_, _, _, _, _, hbreak, hs', rfl, rfl⟩ := ReadsSeq.cons_iff.1 hs
      obtain ⟨_, _, _, _, _, hsecond, hs'', rfl, rfl⟩ := ReadsSeq.cons_iff.1 hs'
      obtain ⟨_, _, _, _, _, hend, hnil, rfl, rfl⟩ := ReadsSeq.cons_iff.1 hs''
      cases hnil
      obtain ⟨rfl, -, r, rfl, hr⟩ := sectionBreak_inv hend
      obtain ⟨n, rfl, ⟨hn, -, rfl⟩, -⟩ := accepts_newlines hbreak
      have hover := loadBalancer_over.capture hfirst
      obtain ⟨u, rfl, _, rfl, b, hb', hu, hi, rfl⟩ := accepts_loadBalancer.capture hfirst
      obtain ⟨hover', v, rfl, _, rfl, ps, hps, hv, hj, rfl⟩ := pools_apart.capture trivial hsecond
      have hpools := remains_append_intro (by simpa using hps.1) hv hover' hr hb hw hrest
      refine ⟨some b, ps, by simpa using hb', hps.2, by simpa using hps.1, ?_, ?_⟩
      · have hwords : ∀ word ∈ ["http-pool: ", "tcp-pool: "], Heading word :=
          fun word h => headings word (by grind)
        exact remains_append_intro (by simp) hu hover (.inl hn) ((openedBy_pools ps).append hb)
          (List.forall_mem_append.2 ⟨hwords, hw⟩) hpools
      · simpa using (Binds.single hi).append (.single hj)

theorem boxes_remain (h : Reads grammar (.optional (.capture "boxes" (.rule .boxList))) cs
      (.matched rest items bs)) (hrest : trailing rest) :
    ∃ boxes : List Block, (∀ b ∈ boxes, b.Representable) ∧ Remains (boxes.map box) cs ∧
      Binds bs (if boxes = [] then [] else [("boxes", [.boxes boxes])]) := by
  cases h with
  | optional_absent => exact ⟨[], by simp, remains_nil.2 hrest, .nil⟩
  | optional h =>
    obtain ⟨-, u, rfl, _, rfl, boxes, hboxes, hu, hi, rfl⟩ := boxes_apart.capture trivial h
    refine ⟨boxes, hboxes.2, ⟨u, rest, rfl, hu, hrest⟩, ?_⟩
    rw [if_neg hboxes.1]
    exact .single hi

/-- What the body of the start rule matches is a document, and what it captures are the parts. -/
theorem document_inv (h : Reads grammar Form.document cs (.matched rest items bs)) :
    rest = [] ∧
      ∃ f : Formation, f.Representable ∧ document gap f cs ∧ Binds bs (captured f) := by
  cases h with
  | seq h =>
    obtain ⟨_, _, _, _, _, hfirst, h₁, rfl, rfl⟩ := ReadsSeq.cons_iff.1 h
    obtain ⟨_, _, _, _, _, hdefaults, h₂, rfl, rfl⟩ := ReadsSeq.cons_iff.1 h₁
    obtain ⟨_, _, _, _, _, hdeclared, h₃, rfl, rfl⟩ := ReadsSeq.cons_iff.1 h₂
    obtain ⟨_, _, _, _, _, hmachines, h₄, rfl, rfl⟩ := ReadsSeq.cons_iff.1 h₃
    obtain ⟨_, _, _, _, _, hboxes, h₅, rfl, rfl⟩ := ReadsSeq.cons_iff.1 h₄
    obtain ⟨_, _, _, _, _, hend, hnil, rfl, rfl⟩ := ReadsSeq.cons_iff.1 h₅
    cases hnil
    obtain ⟨rfl, htrailing, -, rfl⟩ := endOfInput_inv hend
    obtain ⟨boxes, hbs, hleft, hb₁⟩ := boxes_remain hboxes htrailing
    have hopen := openedBy_boxes boxes
    have hwords : ∀ word ∈ ["box: "], Heading word := fun word h => headings word (by simp_all)
    obtain ⟨b, ps, hlb, hps, hbalanced, hleft, hb₂⟩ :=
      machines_remain hopen hwords hmachines hleft
    have hopen := (openedBy_loadBalancer b).append ((openedBy_pools ps).append hopen)
    have hwords : ∀ word ∈ ["load-balancer: "] ++ (["http-pool: ", "tcp-pool: "] ++ ["box: "]),
        Heading word := fun word h => headings word (List.mem_cons_of_mem _ h)
    obtain ⟨ds, hds, hleft, hb₃⟩ := declarations_remain hopen hwords hdeclared hleft
    have hopen := (openedBy_declarations ds).append hopen
    obtain ⟨d, hd, hleft, hb₄⟩ := defaults_remain hopen headings hdefaults hleft
    obtain ⟨w, rfl, ⟨hw, -, rfl⟩, -⟩ := accepts_newline.star hfirst
    refine ⟨rfl, ⟨d, ds, b, ps, boxes⟩, ⟨hd, hds, hlb, hps, hbs, hbalanced⟩, ?_, ?_⟩
    · refine append_intro hw ?_
      simpa [concat, blocks, Remains, List.append_assoc] using hleft
    · simpa [captured] using hb₄.append (hb₃.append (hb₂.append hb₁))

/-- The start rule makes one node of what it matches, which is all that there is. -/
theorem start_inv (h : Reads grammar (.rule .start) cs (.matched rest items bs)) :
    ∃ f : Formation, items.filterMap Item.node? = [.formation f] ∧ f.Representable ∧
      document gap f cs ∧ (f.loadBalancer.isSome = true ∨ f.boxes ≠ []) := by
  obtain ⟨rfl, i, b, made, hbody, hact, rfl⟩ := h.of_acting rfl
  obtain ⟨-, f, hf, hdocument, hb⟩ := document_inv hbody
  rw [Action.formation_eq hf hb] at hact
  split at hact
  · cases hact
  · next hnone =>
    cases hact
    refine ⟨f, rfl, hf, hdocument, ?_⟩
    cases hlb : f.loadBalancer with
    | none => exact .inr (by simpa [hlb] using hnone)
    | some b => exact .inl rfl

/-- Nodes for the whole of a text are one: the formation that the text is a document of. -/
theorem document_of_run {text : String} {nodes : List Node}
    (h : (grammar.run .start text).result = .ok nodes) :
    ∃ f : Formation, nodes = [.formation f] ∧ f.Representable ∧
      document gap f text.toList ∧ (f.loadBalancer.isSome = true ∨ f.boxes ≠ []) := by
  obtain ⟨items, bs, hr, rfl⟩ := reads_of_run_ok h
  exact start_inv hr

/-- What is parsed is a document of the formation that it is parsed as. -/
theorem document_of_parse {source text : String} {f : Formation}
    (h : (Formation.parse source text).outcome = .ok f) :
    f.Representable ∧ document gap f text.toList ∧
      (f.loadBalancer.isSome = true ∨ f.boxes ≠ []) := by
  rw [Formation.outcome_parse] at h
  cases hrun : (grammar.run .start text).result with
  | error e =>
    rw [hrun] at h
    cases h
  | ok nodes =>
    obtain ⟨f', rfl, hf, hdocument, hmachines⟩ := document_of_run hrun
    rw [hrun] at h
    obtain rfl : f' = f := Except.ok.inj h
    exact ⟨hf, hdocument, hmachines⟩

end Fleet.Document
