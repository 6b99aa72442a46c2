import Fleet.Proofs.Document.Blocks
/-!
The sections of a document, one after the other. `Remains bs` has the texts in which the blocks
`bs` are still to come: a section takes its own blocks and leaves such a text to the next.
-/

namespace Fleet.Document
open Fleet.Peg Fleet.Text Layout

variable {rest t w : List Char} {bs : List Language}

/-! ## What opens a block -/

/-- Every text of the language begins with the word. -/
def Opens (text : String) (p : Language) : Prop := ∀ t, p t → ∃ u, t = text.toList ++ u

/-- Each of the blocks is opened by one of the words. -/
def OpenedBy (words : List String) (bs : List Language) : Prop :=
  ∀ p ∈ bs, ∃ text ∈ words, Opens text p

theorem OpenedBy.append {words words' : List String} {bs' : List Language}
    (h : OpenedBy words bs) (h' : OpenedBy words' bs') :
    OpenedBy (words ++ words') (bs ++ bs') := by
  intro p hp
  rcases List.mem_append.1 hp with hp | hp
  · obtain ⟨text, ht, ho⟩ := h p hp
    exact ⟨text, by simp [ht], ho⟩
  · obtain ⟨text, ht, ho⟩ := h' p hp
    exact ⟨text, by simp [ht], ho⟩

theorem opens_block (header : String) (own : List Language) (b : Block) :
    Opens header (block header own b) := by
  intro t ht
  obtain ⟨v, n₁, f, n₂, m, rfl, -⟩ := block_parts ht
  exact ⟨_, rfl⟩

theorem openedBy_boxes (boxes : List Block) : OpenedBy ["box: "] (boxes.map box) := by
  intro p hp
  obtain ⟨b, -, rfl⟩ := List.mem_map.1 hp
  exact ⟨_, by simp, opens_block _ _ _⟩

theorem openedBy_pools (pools : List Pool) :
    OpenedBy ["http-pool: ", "tcp-pool: "] (pools.map pool) := by
  intro p hp
  obtain ⟨⟨b, l⟩, -, rfl⟩ := List.mem_map.1 hp
  cases l with
  | http ss => exact ⟨"http-pool: ", by simp, opens_block _ _ _⟩
  | tcp ns => exact ⟨"tcp-pool: ", by simp, opens_block _ _ _⟩

theorem openedBy_loadBalancer (b : Option Block) :
    OpenedBy ["load-balancer: "] (b.toList.map loadBalancer) := by
  intro p hp
  obtain ⟨b, -, rfl⟩ := List.mem_map.1 hp
  exact ⟨_, by simp, opens_block _ _ _⟩

theorem openedBy_declarations (ds : List Declaration) :
    OpenedBy ["bootstrap-sequence: "] (ds.map declaration) := by
  intro p hp
  obtain ⟨d, -, rfl⟩ := List.mem_map.1 hp
  refine ⟨"bootstrap-sequence: ", by simp, fun t ht => ?_⟩
  rw [declaration, lines, Language.joined_cons] at ht
  obtain ⟨_, u, rfl, ⟨_, v, rfl, rfl, -⟩, -⟩ := ht
  exact ⟨v ++ u, by simp⟩

theorem openedBy_defaults (s : Sequence) :
    OpenedBy ["defaults:"] (if s.isEmpty then [] else [defaults s]) := by
  intro p hp
  split at hp
  · cases hp
  · obtain rfl := List.mem_singleton.1 hp
    refine ⟨"defaults:", by simp, fun t ht => ?_⟩
    rw [defaults, lines, Language.joined_cons] at ht
    obtain ⟨_, u, rfl, rfl, -⟩ := ht
    exact ⟨u, rfl⟩

/-- The words differ before either ends. -/
def Clash : List Char → List Char → Bool
  | c :: cs, d :: ds => c != d || Clash cs ds
  | _, _ => false

theorem not_prefix_of_clash {a b : List Char} (h : Clash a b = true) (u : List Char) :
    ¬ b <+: a ++ u := by
  induction a generalizing b with
  | nil => cases h
  | cons c a ih =>
    cases b with
    | nil => cases h
    | cons d b =>
      intro hp
      obtain ⟨v, hv⟩ := hp
      obtain ⟨rfl, htail⟩ : d = c ∧ b ++ v = a ++ u := by simpa using hv
      exact ih (by simpa [Clash] using h) ⟨v, htail⟩

/-! ## What remains -/

/-- The texts in which these blocks are still to come. -/
def Remains (bs : List Language) : Language := (Language.joined gap bs).append trailing

theorem remains_nil : Remains [] t ↔ trailing t := by
  rw [Remains, Language.joined, Language.nothing_append]

/-- What follows a block that these blocks come after. -/
def Following (bs : List Language) : Language :=
  if bs = [] then trailing else gap.append (Remains bs)

theorem remains_append {xs : List Language} (hx : xs ≠ []) (bs : List Language) :
    Remains (xs ++ bs) = (Language.joined gap xs).append (Following bs) := by
  by_cases hb : bs = []
  · simp [Remains, Following, hb]
  · rw [Remains, Following, if_neg hb, Language.joined_append gap hx hb]
    simp only [Language.append_assoc]
    rfl

theorem ends_of_following (h : Following bs rest) : Ends rest := by
  rw [Following] at h
  split at h
  · exact ends_of_trailing h
  · obtain ⟨s, more, rfl, hs, -⟩ := h
    exact ends_of_gap hs more

/-- A word that no remaining block is opened by does not come next. -/
theorem literal_failed_of_remains {words : List String} {text : String}
    (hl : text.toList.head?.any Char.isAlpha = true) (hb : OpenedBy words bs)
    (hc : ∀ word ∈ words, Clash word.toList text.toList = true) (h : Remains bs t) :
    Reads grammar (.literal text) t .failed := by
  obtain ⟨a, r, rfl, ha, hr⟩ := h
  cases bs with
  | nil =>
    obtain rfl := ha
    obtain ⟨first, hfirst, halpha⟩ := (Option.any_eq_true _ _).1 hl
    refine literal_failed_of_ahead first hfirst fun c hmem he => ?_
    subst he
    rcases hr c (List.mem_of_mem_head? hmem) with (rfl | rfl) | (rfl | rfl) <;>
      exact absurd halpha (by decide)
  | cons p bs =>
    rw [Language.joined_cons] at ha
    obtain ⟨b, u, rfl, hp, -⟩ := ha
    obtain ⟨word, hw, ho⟩ := hb p (by simp)
    obtain ⟨v, rfl⟩ := ho b hp
    rw [List.append_assoc, List.append_assoc]
    exact .literal_failed (not_prefix_of_clash (hc word hw) _)

section Breaks

variable {words : List String}

theorem ahead_remains (hb : OpenedBy words bs)
    (hl : ∀ word ∈ words, word.toList.head?.any Char.isAlpha = true) (hne : bs ≠ [])
    (h : Remains bs t) : Ahead (·.isAlpha = true) t := by
  obtain ⟨p, bs, rfl⟩ := List.exists_cons_of_ne_nil hne
  obtain ⟨a, r, rfl, ha, -⟩ := h
  rw [Language.joined_cons] at ha
  obtain ⟨b, u, rfl, hp, -⟩ := ha
  obtain ⟨word, hw, ho⟩ := hb p (by simp)
  obtain ⟨v, rfl⟩ := ho b hp
  simp only [List.append_assoc]
  exact ahead_word (hl word hw)

theorem not_isBreak_of_isAlpha {c : Char} (h : c.isAlpha = true) : ¬ isBreak c := by
  rintro (rfl | rfl) <;> exact absurd h (by decide)

/-- The line ends after a block are taken up to the next block, or as far as they go. -/
theorem newlines_of_following (hb : OpenedBy words bs)
    (hl : ∀ word ∈ words, word.toList.head?.any Char.isAlpha = true) (h : Following bs t) :
    (∃ rest, Remains bs rest ∧ Takes grammar (.oneOrMore Form.newline) t rest []) ∨
      bs = [] ∧ trailing t ∧ Reads grammar (.oneOrMore Form.newline) t .failed := by
  rw [Following] at h
  split at h
  · next hnil =>
    subst hnil
    obtain ⟨w, rest, rfl, hw, hr⟩ := exists_run isBreak t
    cases w with
    | nil => exact .inr ⟨rfl, h, .oneOrMore (.missing (newline_failed hr))⟩
    | cons c w =>
      refine .inl ⟨rest, remains_nil.2 fun d hd => h d (by simp [hd]), ?_⟩
      exact takes_newlines_one (by simp) hw hr
  · next hne =>
    obtain ⟨s, rest, rfl, hs, hr⟩ := h
    refine .inl ⟨rest, hr, takes_newlines_one (newlines_ne_nil hs.1) (newlines_isBreak hs.1) ?_⟩
    exact (ahead_remains hb hl hne hr).imp fun _ => not_isBreak_of_isAlpha

/-- Line ends before the first block are taken up to it. -/
theorem newlines_before (hb : OpenedBy words bs)
    (hl : ∀ word ∈ words, word.toList.head?.any Char.isAlpha = true)
    (hw : ∀ c ∈ w, isBreak c) (h : Remains bs t) :
    ∃ rest, Remains bs rest ∧ Takes grammar (.zeroOrMore Form.newline) (w ++ t) rest [] := by
  by_cases hne : bs = []
  · subst hne
    have htrailing : trailing (w ++ t) := fun c hc => by
      rcases List.mem_append.1 hc with hc | hc
      · exact .inr (hw c hc)
      · exact remains_nil.1 h c hc
    obtain ⟨v, rest, he, hv, hr⟩ := exists_run isBreak (w ++ t)
    rw [he] at htrailing ⊢
    exact ⟨rest, remains_nil.2 fun c hc => htrailing c (by simp [hc]), takes_newlines hv hr⟩
  · exact ⟨t, h, takes_newlines hw
      ((ahead_remains hb hl hne h).imp fun _ => not_isBreak_of_isAlpha)⟩

/-- A list of blocks ends where its element is not what comes next. -/
theorem stops_of_following {element : Symbol} (hb : OpenedBy words bs)
    (hl : ∀ word ∈ words, word.toList.head?.any Char.isAlpha = true) (h : Following bs t)
    (hfail : ∀ rest, Remains bs rest → Reads grammar (.rule element) rest .failed) :
    Reads grammar (.seq [.ignore (.oneOrMore Form.newline), .rule element]) t .failed := by
  rcases newlines_of_following hb hl h with ⟨rest, hr, ht⟩ | ⟨-, -, hf⟩
  · exact stops_of_element ht (hfail rest hr)
  · exact stops_of_separator hf

/-- One blank or line end at a time is taken off the end of a text. -/
theorem takes_trailing {c : Char} {cs : List Char} (h : trailing (c :: cs)) :
    ∃ u, trailing u ∧ u.length < (c :: cs).length ∧
      Takes grammar (.choice [.oneOf blank, Form.newline]) (c :: cs) u [] := by
  by_cases hc : isBlank c
  · have hblank : Reads grammar (.oneOf blank) (c :: cs) _ :=
      .oneOf cs ((contains_blank c).2 hc)
    exact ⟨cs, fun d hd => h d (by simp [hd]), by simp, _, .choice_taken hblank (by simp), rfl⟩
  · obtain ⟨a, u, hcs, ha, hwhole⟩ := exists_newline ((h c (by simp)).resolve_left hc) cs
    have hlen : u.length < (c :: cs).length := by
      have := List.length_pos_iff.2 (newline_ne_nil ha)
      rw [hcs, List.length_append]
      omega
    obtain ⟨items, hi, hn⟩ := takes_newline ha hwhole
    rw [← hcs] at hi
    have hblank : Reads grammar (.oneOf blank) (c :: cs) .failed :=
      oneOf_failed_of_ahead (Ahead.cons.2 fun h => hc ((contains_blank c).1 h))
    exact ⟨u, fun d hd => h d (by simp [hcs, hd]), hlen, items,
      .choice_next hblank (.choice_taken hi (by simp)), hn⟩

theorem takes_endOfInput (h : trailing t) : Takes grammar (.rule .endOfInput) t [] [] := by
  have hmany : ∃ items, ReadsMany grammar false (.choice [.oneOf blank, Form.newline]) t
      (.matched [] items []) ∧ items.filterMap Item.node? = [] := by
    induction hn : t.length using Nat.strongRecOn generalizing t with
    | ind n ih =>
      cases t with
      | nil =>
        exact ⟨[], .done (.choice_next (.oneOf_failed rfl) (.choice_next (newline_failed .nil)
          (.choice_none _))), rfl⟩
      | cons c cs =>
        obtain ⟨u, hu, hlen, first, hf, hfirst⟩ := takes_trailing h
        obtain ⟨items, hi, hnodes⟩ := ih u.length (hn ▸ hlen) hu rfl
        refine ⟨_, .more hf hlen hi, ?_⟩
        rw [List.filterMap_append, hfirst, hnodes]
        rfl
  obtain ⟨items, hi, hn⟩ := hmany
  exact .transparent rfl (.seq (.next ⟨items, .zeroOrMore hi, hn⟩
    (.next ⟨[], .not .any_failed (.inl rfl), rfl⟩ .nil)))

/-- Between two sections the line ends go, and at the end of the text all that is left. -/
theorem takes_sectionBreak (hb : OpenedBy words bs)
    (hl : ∀ word ∈ words, word.toList.head?.any Char.isAlpha = true) (h : Following bs t) :
    ∃ rest, Remains bs rest ∧ Takes grammar (.rule .sectionBreak) t rest [] := by
  rcases newlines_of_following hb hl h with ⟨rest, hr, items, hi, hn⟩ | ⟨rfl, ht, hf⟩
  · exact ⟨rest, hr, items, .transparent rfl (.choice_taken hi (by simp)), hn⟩
  · obtain ⟨items, hi, hn⟩ := takes_endOfInput ht
    refine ⟨[], remains_nil.2 (by simp [trailing]), items, .transparent rfl (.choice_next hf
      (.choice_taken hi (by simp))), hn⟩

/-- Blocks of one kind are read one at a time, with an empty line between every two. -/
theorem reads_each_block {α : Type} {as : List α} {element : Symbol} {lang : α → Language}
    {node : α → Node} (ho : OpenedBy words (as.map lang))
    (hl : ∀ word ∈ words, word.toList.head?.any Char.isAlpha = true)
    (h : ∀ a ∈ as, ∀ t rest, lang a t → Ends rest →
      Reads grammar (.rule element) (t ++ rest) (.matched rest [.node (node a)] [])) :
    ReadsEach grammar element (.oneOrMore Form.newline) lang node gap Ends as where
  reads := h
  separates := by
    intro a ha s t rest hs ht
    obtain ⟨word, hw, hopens⟩ := ho (lang a) (List.mem_map_of_mem ha)
    obtain ⟨u, rfl⟩ := hopens t ht
    refine takes_newlines_one (newlines_ne_nil hs.1) (newlines_isBreak hs.1) ?_
    rw [List.append_assoc]
    exact (ahead_word (hl word hw)).imp fun _ => not_isBreak_of_isAlpha
  ne_nil s hs := newlines_ne_nil hs.1
  follow s rest hs := ends_of_gap hs rest

/-- A section that is a list of blocks is read up to what follows the last of them. -/
theorem list_of_remains {α : Type} {as : List α} {element id : Symbol} {lang : α → Language}
    {node : α → Node} {name : String} {make : List Node → Except Fault Node} {n : Node}
    (h : ReadsEach grammar element (.oneOrMore Form.newline) lang node gap Ends as)
    (hid : grammar.rule id = .listOf name element (.oneOrMore Form.newline) make)
    (hmake : make (as.map node) = .ok n) (hne : as ≠ []) (hb : OpenedBy words bs)
    (hl : ∀ word ∈ words, word.toList.head?.any Char.isAlpha = true)
    (hfail : ∀ rest, Remains bs rest → Reads grammar (.rule element) rest .failed)
    (ht : Remains (as.map lang ++ bs) t) :
    ∃ rest, Following bs rest ∧ Reads grammar (.rule id) t (.matched rest [.node n] []) := by
  rw [remains_append (by simpa using hne)] at ht
  obtain ⟨u, rest, rfl, hu, hr⟩ := ht
  exact ⟨rest, hr, h.list hid hmake hne (ends_of_following hr)
    (stops_of_following hb hl hr hfail) hu⟩

end Breaks

/-! ## Sections -/

/-- The rest of a document is read to its end, and captures these nodes. -/
def ReadsOn (es : List (Expr Symbol)) (t : List Char) (bound : List (String × List Node)) : Prop :=
  ∃ nodes, TakesSeq grammar false es t [] nodes bound

namespace ReadsOn

variable {words : List String} {es es' : List (Expr Symbol)} {bound : List (String × List Node)}
  {name : String} {id : Symbol} {n : Node}

theorem absent (h : Reads grammar (.rule id) t .failed) (hnext : ReadsOn es t bound) :
    ReadsOn (.optional (.seq (.capture name (.rule id) :: es')) :: es) t bound := by
  obtain ⟨nodes, hnext⟩ := hnext
  exact ⟨_, .next (.optional_absent (.seq_failed (.capture_unmatched h (.inl rfl)))) hnext⟩

theorem present (h : Reads grammar (.rule id) t (.matched rest [.node n] []))
    (hr : Following bs rest) (hb : OpenedBy words bs)
    (hl : ∀ word ∈ words, word.toList.head?.any Char.isAlpha = true)
    (hnext : ∀ rest, Remains bs rest → ReadsOn es rest bound) :
    ReadsOn (.optional (.seq [.capture name (.rule id), .rule .sectionBreak]) :: es) t
      ((name, [n]) :: bound) := by
  obtain ⟨more, hm, hbreak⟩ := takes_sectionBreak hb hl hr
  obtain ⟨nodes, hnext⟩ := hnext more hm
  exact ⟨_, .optional (.capture (.of_node h) (.next hbreak .nil)) hnext⟩

end ReadsOn

end Fleet.Document
