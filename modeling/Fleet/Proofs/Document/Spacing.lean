import Fleet.Proofs.Accepted.Apart
import Fleet.Proofs.Document.Answers
import Fleet.Proofs.Document.Rendering
/-!
What becomes of blocks by the number of line ends between them (`blocks_spaced`). With two or more
they are read as they were written. A single one goes to the list of pairs that a block ends in, and
so does the line after it that opens the next block: a declaration is then part of the one before
it, and of a pool or a box something is left over that is no pair.
-/

namespace Fleet.Document
open Fleet.Peg Fleet.Text Layout Language

variable {α : Type} {t w n rest : List Char} {ps qs : List Language} {s : Sequence}

/-- Blocks as they are written, but for the line feed that ends each of them, with a number of line
feeds before each. -/
def below (render : α → String) (blocks : List (Nat × α)) : List Char :=
  blocks.flatMap fun p => List.replicate p.1 '\n' ++ (render p.2).toList.dropLast

/-- A block and the blocks below it. -/
def spaced (render : α → String) (first : α) (others : List (Nat × α)) : String :=
  .ofList ((render first).toList.dropLast ++ below render others)

theorem below_cons (render : α → String) (k : Nat) (a : α) (others : List (Nat × α)) :
    below render ((k, a) :: others) =
      List.replicate k '\n' ++ ((render a).toList.dropLast ++ below render others) := by
  simp [below]

theorem gap_replicate {k : Nat} (h : 2 ≤ k) : gap (List.replicate k '\n') := by
  obtain ⟨k, rfl⟩ := Nat.exists_eq_add_of_le' h
  have hstar : Star newline (List.replicate (k + 1) '\n') :=
    star_newline_of_isBreak fun c hc => .inl (List.eq_of_mem_replicate hc)
  exact ⟨append_intro (a := ['\n']) (.inr (.inl rfl)) hstar, by simp [newline, List.replicate_succ]⟩

/-- One more block with an empty line or more below it. -/
theorem joined_gap_cons {lang : α → Language} {a : α} {as : List α} {k : Nat} (hk : 2 ≤ k)
    (ha : lang a t) (hne : as ≠ []) (hw : joined gap (as.map lang) w) :
    joined gap ((a :: as).map lang) (t ++ (List.replicate k '\n' ++ w)) := by
  rw [List.map_cons, joined_cons_of_ne_nil _ _ (by simpa using hne)]
  exact append_intro ha (append_intro (gap_replicate hk) hw)

/-! ## Lines after a block -/

theorem lines_append (hp : ps ≠ []) (hq : qs ≠ []) (ht : lines ps t) (hn : newline n)
    (hw : lines qs w) : lines (ps ++ qs) (t ++ (n ++ w)) := by
  rw [lines, joined_append _ hp hq]
  exact append_intro ht (append_intro hn hw)

/-- Lines like pairs after a declaration are pairs of it. -/
theorem declaration_append {d : Declaration} (hs : s ≠ []) (ht : declaration d t) (hn : newline n)
    (hw : lines (pairs s) w) : declaration ⟨d.name, d.sequence ++ s⟩ (t ++ (n ++ w)) := by
  have h := lines_append (by simp) (by simpa [pairs] using hs) ht hn hw
  rw [declaration, pairs, List.map_append]
  exact h

theorem block_append {header : String} {own : List Language} {b : Block} (hs : s ≠ [])
    (ht : block header own b t) (hn : newline n) (hw : lines (pairs s) w) :
    block header own { b with sequence := b.sequence ++ s } (t ++ (n ++ w)) := by
  have h := lines_append (by simp) (by simpa [pairs] using hs) ht hn hw
  simp only [List.cons_append, List.append_assoc, steps] at h
  rw [block, steps, pairs, List.map_append]
  exact h

/-! ## Lines that open a block -/

theorem pair_of_values {key : String} {vs : List Value} (ht : values vs t) :
    indented (pair ⟨key, vs⟩) ((key ++ ": ").toList ++ t) := by
  rw [String.toList_append, List.append_assoc]
  refine append_intro (a := []) (by simp [blanks]) (append_intro rfl (append_intro rfl ?_))
  rwa [concat_singleton]

/-- The line that opens a declaration, as a pair. -/
def openingPair (d : Declaration) : Pair := ⟨"bootstrap-sequence", [.quoted d.name]⟩

/-- A declaration is lines like pairs. -/
theorem pairs_of_declaration {d : Declaration} (ht : declaration d t) :
    lines (pairs (openingPair d :: d.sequence)) t := by
  rw [declaration, lines, joined_cons] at ht
  obtain ⟨_, u, rfl, ⟨_, _, rfl, rfl, q, _, rfl, hq, rfl⟩, hu⟩ := ht
  rw [lines, pairs, List.map_cons, joined_cons]
  refine append_intro ?_ hu
  rw [List.append_nil]
  show indented (pair (openingPair d)) (("bootstrap-sequence" ++ ": ").toList ++ q)
  exact pair_of_values hq

/-- The line that opens a block begins like a pair, up to the blank after a number. -/
theorem pair_of_block {key : String} {own : List Language} {b : Block}
    (ht : block (key ++ ": ") own b t) :
    ∃ u rest, t = u ++ ' ' :: rest ∧
      indented (pair ⟨key, [.quoted b.spec.name, .integer b.spec.count]⟩) u := by
  obtain ⟨v, n₁, f, n₂, m, rfl, hv, -⟩ := block_parts ht
  obtain ⟨q, _, rfl, hq, _, _, rfl, rfl, k, _, rfl, hk, i, v, rfl, hi, -⟩ := hv
  have hvalues : values [.quoted b.spec.name, .integer b.spec.count] (q ++ (", ".toList ++ k)) :=
    append_intro hq (append_intro rfl hk)
  obtain ⟨i, rfl⟩ : ∃ more, i = ' ' :: more := by
    rcases hi with rfl | rfl <;> exact ⟨_, rfl⟩
  refine ⟨_, i ++ (v ++ (n₁ ++ (f ++ (n₂ ++ m)))), ?_, pair_of_values hvalues⟩
  simp

/-- A block takes the beginning of one right below it for a pair. -/
theorem block_absorbs {header header' : String} {own own' : List Language} {b b' : Block}
    (hh : Heading header') (hb : b.Representable) (hb' : b'.Representable)
    (ht : block header own b t) (hw : block header' own' b' w) :
    ∃ p : Pair, ∃ u rest, t ++ '\n' :: w = u ++ ' ' :: rest ∧
      ({ b with sequence := b.sequence ++ [p] } : Block).Representable ∧
      block header own { b with sequence := b.sequence ++ [p] } u := by
  obtain ⟨key, hkey, rfl⟩ := hh
  obtain ⟨hspec, hflavor, -, hs⟩ := hb
  obtain ⟨⟨hname, hcount, -⟩, -⟩ := hb'
  obtain ⟨v, rest, rfl, hv⟩ := pair_of_block hw
  have hline : newline ['\n'] := .inr (.inl rfl)
  refine ⟨_, t ++ (['\n'] ++ v), rest, by simp, ⟨hspec, hflavor, by simp, ?_⟩,
    block_append (by simp) ht hline hv⟩
  refine List.forall_mem_append.2 ⟨hs, List.forall_mem_singleton.2 ⟨hkey, by simp, ?_⟩⟩
  simpa [Value.Representable] using ⟨hname, hcount⟩

/-! ## Lists of blocks -/

/-- What follows the blocks that a list rule takes. -/
theorem ends_of_blank (h : Ahead isBlank rest) :
    Ends rest ∧ Reads grammar (.oneOrMore Form.newline) rest .failed := by
  have hbreak : Ahead (¬ isBreak ·) rest := h.imp fun c hc => by
    rcases hc with rfl | rfl <;> simp [isBreak]
  exact ⟨⟨h.imp fun _ => .inl, stops_of_separator (newline_failed hbreak)⟩,
    .oneOrMore (.missing (newline_failed hbreak))⟩

/-- Blocks of a kind: how they are written, and that the list rule for them takes them where they
stand an empty line or more apart. -/
structure Listed (id : Symbol) (good : α → Prop) (lang : α → Language) (render : α → String)
    (all : List α → Node) : Prop where
  written : ∀ a, good a → Written [lang a] (render a)
  reads : ∀ as, (∀ a ∈ as, good a) → as ≠ [] → ∀ w rest, joined gap (as.map lang) w →
    Ahead isBlank rest → Reads grammar (.rule id) (w ++ rest) (.matched rest [.node (all as)] [])

theorem listed_of_reads {id element : Symbol} {good : α → Prop} {lang : α → Language}
    {render : α → String} {all : List α → Node} {node : α → Node} {words : List String}
    {name : String} {make : List Node → Except Fault Node}
    (hid : grammar.rule id = .listOf name element (.oneOrMore Form.newline) make)
    (hwritten : ∀ a, good a → Written [lang a] (render a))
    (ho : ∀ as : List α, OpenedBy words (as.map lang))
    (hl : ∀ word ∈ words, word.toList.head?.any Char.isAlpha = true)
    (h : ∀ a, good a → ∀ t rest, lang a t → Ends rest →
      Reads grammar (.rule element) (t ++ rest) (.matched rest [.node (node a)] []))
    (hmake : ∀ as, make (as.map node) = .ok (all as)) : Listed id good lang render all where
  written := hwritten
  reads as has hne w rest hw hrest := by
    obtain ⟨hends, hline⟩ := ends_of_blank hrest
    have heach : ReadsEach grammar element (.oneOrMore Form.newline) lang node gap Ends as :=
      reads_each_block (ho as) hl fun a ha => h a (has a ha)
    exact heach.list hid (hmake as) hne hends (stops_of_separator hline) hw

section Listed
variable {id : Symbol} {good : α → Prop} {lang : α → Language} {render : α → String}
  {all : List α → Node} {as : List α} {first : α} {others : List (Nat × α)} {source text : String}

theorem Listed.body (h : Listed id good lang render all) {a : α} (ha : good a) :
    lang a (render a).toList.dropLast := by
  obtain ⟨t, ht, hr⟩ := h.written a ha
  rw [hr, List.dropLast_concat]
  exact ht

theorem Listed.read_ok (h : Listed id good lang render all) (has : ∀ a ∈ as, good a) (hne : as ≠ [])
    (ht : joined gap (as.map lang) text.toList) :
    (grammar.read id source text).outcome = .ok [all as] := by
  have hread := h.reads as has hne text.toList [] ht .nil
  rw [List.append_nil] at hread
  exact read_ok_iff.2 ⟨_, _, hread, rfl⟩

theorem Listed.read_malformed (h : Listed id good lang render all) (has : ∀ a ∈ as, good a)
    (hne : as ≠ []) (ht : joined gap (as.map lang) t) (htext : text.toList = t ++ ' ' :: rest) :
    ∃ report, (grammar.read id source text).outcome = .error (.malformed report) := by
  have hread := h.reads as has hne t (' ' :: rest) ht (Ahead.cons.2 (.inl rfl))
  rw [← htext] at hread
  exact read_leftOver hread

/-- Where there are two line feeds or more before each block, an empty line is between every two. -/
theorem Listed.joined_below (h : Listed id good lang render all)
    (hgood : ∀ p ∈ others, good p.2) (hmany : ∀ p ∈ others, 2 ≤ p.1) (ht : lang first t) :
    joined gap ((first :: others.map Prod.snd).map lang) (t ++ below render others) := by
  induction others generalizing first t with
  | nil => simpa [below, joined] using ht
  | cons p others ih =>
    obtain ⟨k, a⟩ := p
    have ha : lang a (render a).toList.dropLast := h.body (hgood _ List.mem_cons_self)
    have hmore := ih (fun p hp => hgood p (by simp [hp])) (fun p hp => hmany p (by simp [hp])) ha
    rw [below_cons]
    exact joined_gap_cons (hmany _ List.mem_cons_self) ht (by simp) hmore

/-- Where a block is right below another one, the list is over in the line that opens it. -/
theorem Listed.exists_overrun (h : Listed id good lang render all)
    (habsorbs : ∀ a b t w, good a → good b → lang a t → lang b w →
      ∃ c u rest, t ++ '\n' :: w = u ++ ' ' :: rest ∧ good c ∧ lang c u)
    (hfirst : good first) (hgood : ∀ p ∈ others, good p.2) (hpos : ∀ p ∈ others, p.1 ≠ 0)
    (hone : ∃ p ∈ others, p.1 = 1) (ht : lang first t) :
    ∃ as u rest, t ++ below render others = u ++ ' ' :: rest ∧ as ≠ [] ∧ (∀ a ∈ as, good a) ∧
      joined gap (as.map lang) u := by
  induction others generalizing first t with
  | nil => simp at hone
  | cons p others ih =>
    obtain ⟨k, b⟩ := p
    have hb : good b := hgood _ List.mem_cons_self
    by_cases hk : k = 1
    · subst hk
      obtain ⟨c, u, rest, hu, hc, hlang⟩ := habsorbs first b t _ hfirst hb ht (h.body hb)
      refine ⟨[c], u, rest ++ below render others, ?_, by simp, by simpa using hc, hlang⟩
      have := congrArg (· ++ below render others) hu
      simpa [below_cons] using this
    · have hpos' : k ≠ 0 := hpos _ List.mem_cons_self
      obtain ⟨as, u, rest, hu, hne, has, hlang⟩ :=
        ih hb (fun p hp => hgood p (by simp [hp])) (fun p hp => hpos p (by simp [hp]))
          (by simpa [hk] using hone) (h.body hb)
      refine ⟨first :: as, t ++ (List.replicate k '\n' ++ u), rest, ?_, by simp,
        List.forall_mem_cons.2 ⟨hfirst, has⟩, joined_gap_cons (by omega) ht hne hlang⟩
      rw [below_cons, hu]
      simp

end Listed

theorem declarations_listed :
    Listed .declarationList Declaration.Representable declaration Declaration.render
      Node.declarations :=
  listed_of_reads rfl (fun _ => declaration_written) openedBy_declarations (by simp)
    (fun _ hd _ _ => reads_declaration hd) (listNode_map (f := Node.declaration) (fun _ => rfl) _ _)

theorem pools_listed : Listed .poolList Pool.Representable pool Pool.render Node.pools :=
  listed_of_reads rfl (fun _ => pool_written) openedBy_pools (by simp)
    (fun _ hp _ _ => reads_pool hp) (listNode_map (f := Node.pool) (fun _ => rfl) _ _)

theorem boxes_listed : Listed .boxList Block.Representable box Block.renderBox Node.boxes :=
  listed_of_reads rfl (fun _ => box_written) openedBy_boxes (by simp)
    (fun _ hb _ _ => reads_box hb) (listNode_map (f := Node.box) (fun _ => rfl) _ _)

/-! ## Declarations that run together -/

/-- The declarations that are read: one that is right below another is pairs of it. -/
def absorb (d : Declaration) : List (Nat × Declaration) → List Declaration
  | [] => [d]
  | (k, e) :: others =>
    if k = 1 then absorb ⟨d.name, d.sequence ++ openingPair e :: e.sequence⟩ others
    else d :: absorb e others

theorem absorb_ne_nil (d : Declaration) (others : List (Nat × Declaration)) :
    absorb d others ≠ [] := by
  induction others generalizing d with
  | nil => simp [absorb]
  | cons p others ih =>
    rw [absorb]
    split
    · exact ih _
    · simp

theorem length_absorb (d : Declaration) (others : List (Nat × Declaration)) :
    (absorb d others).length = (others.filter (·.1 ≠ 1)).length + 1 := by
  induction others generalizing d with
  | nil => rfl
  | cons p others ih =>
    rw [absorb]
    split
    · next hone => simp [ih, hone]
    · next hone => simp [ih, hone]

/-- All declarations are read as they are just if none is right below another. -/
theorem absorb_eq_iff {d : Declaration} {others : List (Nat × Declaration)} :
    absorb d others = d :: others.map Prod.snd ↔ ∀ p ∈ others, p.1 ≠ 1 := by
  constructor
  · intro h
    have hlength := congrArg List.length h
    rw [length_absorb] at hlength
    simpa using hlength
  · intro h
    induction others generalizing d with
    | nil => rfl
    | cons p others ih =>
      rw [absorb, if_neg (h p (by simp)), ih fun q hq => h q (by simp [hq])]
      rfl

theorem absorbed_representable {d e : Declaration} (hd : d.Representable) (he : e.Representable) :
    Declaration.Representable ⟨d.name, d.sequence ++ openingPair e :: e.sequence⟩ := by
  obtain ⟨hname, -, hs⟩ := hd
  obtain ⟨hname', -, hs'⟩ := he
  have hkey : IsKey "bootstrap-sequence" := .of_dashed "bootstrap" "sequence" rfl (by decide) rfl rfl
  have hopening : (openingPair e).Representable :=
    ⟨hkey, by simp [openingPair], by simpa [openingPair, Value.Representable] using hname'⟩
  exact ⟨hname, by simp, List.forall_mem_append.2 ⟨hs, List.forall_mem_cons.2 ⟨hopening, hs'⟩⟩⟩

theorem absorb_representable {d : Declaration} {others : List (Nat × Declaration)}
    (hd : d.Representable) (hothers : ∀ p ∈ others, p.2.Representable) :
    ∀ e ∈ absorb d others, e.Representable := by
  induction others generalizing d with
  | nil => simpa [absorb] using hd
  | cons p others ih =>
    have hp := hothers p (by simp)
    have hmore : ∀ q ∈ others, q.2.Representable := fun q hq => hothers q (by simp [hq])
    rw [absorb]
    split
    · exact ih (absorbed_representable hd hp) hmore
    · exact List.forall_mem_cons.2 ⟨hd, ih hp hmore⟩

theorem joined_absorb {d : Declaration} {others : List (Nat × Declaration)}
    (hothers : ∀ p ∈ others, p.2.Representable) (hpos : ∀ p ∈ others, p.1 ≠ 0)
    (ht : declaration d t) :
    joined gap ((absorb d others).map declaration) (t ++ below Declaration.render others) := by
  induction others generalizing d t with
  | nil => simpa [below, absorb, joined] using ht
  | cons p others ih =>
    obtain ⟨k, e⟩ := p
    have he : declaration e e.render.toList.dropLast :=
      declarations_listed.body (hothers _ List.mem_cons_self)
    have hmore {d : Declaration} {t : List Char} (ht : declaration d t) :=
      ih (fun q hq => hothers q (by simp [hq])) (fun q hq => hpos q (by simp [hq])) ht
    have hk : k ≠ 0 := hpos _ List.mem_cons_self
    rw [absorb, below_cons]
    split
    · next hone =>
      subst hone
      have hline : newline ['\n'] := .inr (.inl rfl)
      have hall := hmore (declaration_append (by simp) ht hline (pairs_of_declaration he))
      simpa using hall
    · next hone => exact joined_gap_cons (by omega) ht (absorb_ne_nil e others) (hmore he)

/-! ## By the number of line feeds -/

/-- Blocks of a kind are read as they were written just if no block is right below another. Else the
list is not all of the text. -/
def NeedsGaps (source : String) (id : Symbol) (good : α → Prop) (render : α → String)
    (all : List α → Node) : Prop :=
  ∀ first others, (∀ a ∈ first :: others.map Prod.snd, good a) → (∀ p ∈ others, p.1 ≠ 0) →
    ((grammar.read id source (spaced render first others)).outcome =
        .ok [all (first :: others.map Prod.snd)] ↔ ∀ p ∈ others, p.1 ≠ 1) ∧
    ((∃ p ∈ others, p.1 = 1) →
      ∃ report, (grammar.read id source (spaced render first others)).outcome =
        .error (.malformed report))

theorem Listed.needsGaps {id : Symbol} {good : α → Prop} {lang : α → Language}
    {render : α → String} {all : List α → Node} (h : Listed id good lang render all)
    (habsorbs : ∀ a b t w, good a → good b → lang a t → lang b w →
      ∃ c u rest, t ++ '\n' :: w = u ++ ' ' :: rest ∧ good c ∧ lang c u) (source : String) :
    NeedsGaps source id good render all := by
  intro first others hgood hpos
  have hfirst := hgood first (by simp)
  have hothers : ∀ p ∈ others, good p.2 := fun p hp =>
    hgood p.2 (List.mem_cons_of_mem _ (List.mem_map_of_mem hp))
  have hrefused : (∃ p ∈ others, p.1 = 1) →
      ∃ report, (grammar.read id source (spaced render first others)).outcome =
        .error (.malformed report) := by
    intro hone
    obtain ⟨as, u, rest, hu, hne, has, hlang⟩ :=
      h.exists_overrun habsorbs hfirst hothers hpos hone (h.body hfirst)
    exact h.read_malformed has hne hlang (by rw [spaced, String.toList_ofList, hu])
  refine ⟨⟨fun hok p hp hone => ?_, fun hno => ?_⟩, hrefused⟩
  · obtain ⟨report, hreport⟩ := hrefused ⟨p, hp, hone⟩
    cases hreport.symm.trans hok
  · have hmany : ∀ p ∈ others, 2 ≤ p.1 := fun p hp => by
      have := hpos p hp
      have := hno p hp
      omega
    refine h.read_ok hgood (by simp) ?_
    rw [spaced, String.toList_ofList]
    exact h.joined_below hothers hmany (h.body hfirst)

theorem pools_need_gaps (source : String) :
    NeedsGaps source .poolList Pool.Representable Pool.render Node.pools := by
  refine pools_listed.needsGaps ?_ source
  intro a b t w ha hb ht hw
  have hheading : Heading (b.listeners.protocol.tag ++ "-pool: ") := by
    cases b.listeners.protocol
    · exact headings "http-pool: " (by simp)
    · exact headings "tcp-pool: " (by simp)
  obtain ⟨p, u, rest, hu, hc, hlang⟩ := block_absorbs hheading ha.1 hb.1 ht hw
  exact ⟨{ a with sequence := a.sequence ++ [p] }, u, rest, hu, ⟨hc, ha.2⟩, hlang⟩

theorem boxes_need_gaps (source : String) :
    NeedsGaps source .boxList Block.Representable Block.renderBox Node.boxes := by
  refine boxes_listed.needsGaps ?_ source
  intro a b t w ha hb ht hw
  obtain ⟨p, u, rest, hu, hc, hlang⟩ :=
    block_absorbs (headings "box: " (by simp)) ha hb ht hw
  exact ⟨{ a with sequence := a.sequence ++ [p] }, u, rest, hu, hc, hlang⟩

/-- Declarations with line feeds between them are read as they were written but for those that are
right below another one, which are pairs of it. Pools and boxes are read as they were written if
none is right below another one, and otherwise not at all. -/
theorem blocks_spaced (source : String) :
    (∀ first (others : List (Nat × Declaration)),
        (∀ d ∈ first :: others.map Prod.snd, d.Representable) → (∀ p ∈ others, p.1 ≠ 0) →
        (grammar.read .declarationList source (spaced Declaration.render first others)).outcome =
            .ok [.declarations (absorb first others)] ∧
          (absorb first others = first :: others.map Prod.snd ↔ ∀ p ∈ others, p.1 ≠ 1)) ∧
      NeedsGaps source .poolList Pool.Representable Pool.render Node.pools ∧
      NeedsGaps source .boxList Block.Representable Block.renderBox Node.boxes := by
  refine ⟨fun first others hgood hpos => ⟨?_, absorb_eq_iff⟩, pools_need_gaps source,
    boxes_need_gaps source⟩
  have hfirst := hgood first (by simp)
  have hothers : ∀ p ∈ others, p.2.Representable := fun p hp =>
    hgood p.2 (List.mem_cons_of_mem _ (List.mem_map_of_mem hp))
  refine declarations_listed.read_ok (absorb_representable hfirst hothers)
    (absorb_ne_nil first others) ?_
  rw [spaced, String.toList_ofList]
  exact joined_absorb hothers hpos (declarations_listed.body hfirst)

/-- Three declarations, of which the second is right below the first, and two boxes. -/
theorem blocks_spaced_three :
    let a : Declaration := ⟨"a", [⟨"git", [.quoted "repo"]⟩]⟩
    let b : Declaration := ⟨"b", [⟨"file", [.integer 8]⟩]⟩
    let c : Declaration := ⟨"c", [⟨"git", [.quoted "repo"]⟩]⟩
    let web : Block := ⟨⟨"web", 1, "debian"⟩, "small", [⟨"git", [.quoted "repo"]⟩]⟩
    (∀ d ∈ [a, b, c], d.Representable) ∧ web.Representable ∧
      (grammar.read .declarationList "" (spaced Declaration.render a [(1, b), (3, c)])).outcome =
        .ok [.declarations [⟨"a", [⟨"git", [.quoted "repo"]⟩,
          ⟨"bootstrap-sequence", [.quoted "b"]⟩, ⟨"file", [.integer 8]⟩]⟩, c]] ∧
      (grammar.read .boxList "" (spaced Block.renderBox web [(2, web)])).outcome =
        .ok [.boxes [web, web]] ∧
      ∃ report, (grammar.read .boxList "" (spaced Block.renderBox web [(1, web)])).outcome =
        .error (.malformed report) := by
  intro a b c web
  have hgit : IsKey "git" := .of_letters (by decide) rfl
  have hfile : IsKey "file" := .of_letters (by decide) rfl
  have hall : ∀ d ∈ [a, b, c], d.Representable := by
    simp [a, b, c, Declaration.Representable, Sequence.Representable, Sequence.Writable,
      Pair.Representable, Value.Representable, IsQuotable, hgit, hfile]
  have hweb : web.Representable := by
    simp [web, Block.Representable, VmSpec.Representable, Sequence.Representable,
      Sequence.Writable, Pair.Representable, Value.Representable, IsQuotable, hgit]
  obtain ⟨hdeclarations, -, hboxes⟩ := blocks_spaced ""
  refine ⟨hall, hweb, (hdeclarations a [(1, b), (3, c)] hall (by simp)).1, ?_, ?_⟩
  · exact (hboxes web [(2, web)] (by simpa using hweb) (by simp)).1.2 (by simp)
  · exact (hboxes web [(1, web)] (by simpa using hweb) (by simp)).2 (by simp)

/-- Two declarations with one line feed between them are not what is read. -/
theorem declarations_run_together :
    let a : Declaration := ⟨"a", [⟨"k", [.quoted "v"]⟩]⟩
    let b : Declaration := ⟨"b", [⟨"k", [.quoted "v"]⟩]⟩
    let text := "bootstrap-sequence: 'a'\n  k: 'v'\nbootstrap-sequence: 'b'\n  k: 'v'"
    a.Representable ∧ b.Representable ∧ text = spaced Declaration.render a [(1, b)] ∧
      (grammar.read .declarationList "" text).outcome ≠ .ok [.declarations [a, b]] := by
  intro a b text
  have hk : IsKey "k" := .of_letters (by decide) rfl
  have hrepresentable : a.Representable ∧ b.Representable := by
    simp [a, b, Declaration.Representable, Sequence.Representable, Sequence.Writable,
      Pair.Representable, Value.Representable, IsQuotable, hk]
  exact ⟨hrepresentable.1, hrepresentable.2, by decide +kernel, by decide +kernel⟩

end Fleet.Document
