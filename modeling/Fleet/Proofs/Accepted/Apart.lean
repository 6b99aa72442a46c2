import Fleet.Proofs.Accepted.Blocks
import Fleet.Proofs.Document.Sections
import Fleet.Proofs.Peg.Pruning
/-!
How far apart the blocks of a text that is accepted stand. Every block ends in a list of pairs, and
the words that open the next one read like a pair too: after one line end the list would take them.
So the blocks that a list rule accepts have an empty line between every two (`blocks_apart`).
-/

namespace Fleet.Document
open Fleet.Peg Fleet.Text Layout Language

variable {cs rest s t u : List Char}

/-! ## Where a list of pairs is over -/

/-- No line end with a pair after it comes next. -/
def Over (rest : List Char) : Prop :=
  Reads grammar (.seq [.ignore Form.newline, .rule .pair]) rest .failed

theorem consumes_newline : Consumes grammar Form.newline := .rule (consumes_sound _ _ rfl)

theorem pairs_over : Leaves grammar (.rule .pairList) Over cs := by
  have hpart : Consumes grammar (.seq [.ignore Form.newline, .rule .pair]) :=
    .seq List.mem_cons_self (.ignore consumes_newline)
  exact .rule (.last rfl fun _ => (Leaves.zeroOrMore hpart).capture)

theorem steps_over : Leaves grammar (.rule .steps) Over cs := .rule (.last rfl fun _ => pairs_over)

theorem defaults_over : Leaves grammar (.rule .defaults) Over cs :=
  .rule (.last rfl fun _ => pairs_over.capture)

theorem declaration_over : Leaves grammar (.rule .declaration) Over cs :=
  .rule (.last rfl fun _ => pairs_over.capture)

theorem loadBalancer_over : Leaves grammar (.rule .loadBalancer) Over cs :=
  .rule (.last rfl fun _ => steps_over.capture)

theorem pool_over : Leaves grammar (.rule .pool) Over cs :=
  .rule (.last rfl fun _ => steps_over.capture)

theorem box_over : Leaves grammar (.rule .box) Over cs :=
  .rule (.last rfl fun _ => steps_over.capture)

/-! ## Words that read like a pair -/

/-- The word is a key and the colon after it. -/
def Heading (text : String) : Prop := ∃ key, IsKey key ∧ text = key ++ ": "

theorem headings : ∀ text ∈ ["bootstrap-sequence: ", "load-balancer: ", "http-pool: ",
    "tcp-pool: ", "box: "], Heading text := by
  simp only [List.forall_mem_cons]
  refine ⟨⟨"bootstrap-sequence", .of_dashed "bootstrap" "sequence" rfl (by decide) rfl rfl, rfl⟩,
    ⟨"load-balancer", .of_dashed "load" "balancer" rfl (by decide) rfl rfl, rfl⟩,
    ⟨"http-pool", .of_dashed "http" "pool" rfl (by decide) rfl rfl, rfl⟩,
    ⟨"tcp-pool", .of_dashed "tcp" "pool" rfl (by decide) rfl rfl, rfl⟩,
    ⟨"box", .of_letters (by decide) rfl, rfl⟩, by simp⟩

/-- After a key and its colon a pair may be wrong, but it is not something else. -/
theorem Heading.pair_not_failed {text : String} (h : Heading text) (u : List Char) :
    ¬ Reads grammar (.rule .pair) (text.toList ++ u) .failed := by
  obtain ⟨key, hkey, rfl⟩ := h
  have htext : (key ++ ": ").toList ++ u = key.toList ++ (": ".toList ++ u) := by simp
  rw [htext]
  intro hf
  have hahead : Ahead (·.isAlpha = true) (key.toList ++ (": ".toList ++ u)) := ahead_key hkey
  obtain ⟨_, hblanks, -⟩ := takes_indent (w := []) (by simp [blanks]) hahead
  have hread : Reads grammar (.rule .key) (key.toList ++ (": ".toList ++ u)) _ := reads_key hkey
  cases Reads.rule_failed_iff.1 hf with
  | seq hf =>
    have hcolon := (hf.failed_after hblanks).failed_after (.capture hread)
    exact (hcolon.failed_after (.literal ": " u)).of_commit.not_failed

/-- A list of pairs that ends before a block does so at an empty line. -/
theorem gap_of_over {text : String} (h : Heading text) (hs : newlines s)
    (ho : Over (s ++ (text.toList ++ u))) : gap s := by
  refine ⟨hs, fun hn => ?_⟩
  obtain ⟨key, hkey, htext⟩ := id h
  have hahead : Ahead (·.isAlpha = true) (text.toList ++ u) := by
    rw [htext, String.toList_append, List.append_assoc]
    exact ahead_key hkey
  obtain ⟨_, hline, -⟩ := takes_newline_before (w := []) hn (by simp [blanks]) hahead
  cases ho with
  | seq ho =>
    have hpair := Reads.seq (ho.failed_after (.ignore hline))
    exact h.pair_not_failed u (hpair.of_single (by simp) (.inl rfl))

/-! ## Lists of blocks -/

theorem accepts_newlines : Accepts grammar (.oneOrMore Form.newline) (Spelled newlines) :=
  accepts_newline.plus

theorem accepts_over {e : Expr Symbol}
    {P : List Char → List (Item Node) → List (String × Item Node) → Prop}
    (h : Accepts grammar e P) (ho : ∀ cs, Leaves grammar e Over cs) :
    AcceptsFrom grammar (fun _ => True) e P Over :=
  fun _ _ _ _ _ hr => ⟨ho _ hr, h hr⟩

section Lists
variable {α : Type} {id element : Symbol} {name : String} {make : List Node → Except Fault Node}
  {good : α → Prop} {node : α → Node} {lang : α → Language} {words : List String}

theorem block_apart (h : Accepts grammar (.rule element) (Made good node lang))
    (ho : ∀ cs, Leaves grammar (.rule element) Over cs)
    (hb : ∀ as : List α, OpenedBy words (as.map lang)) (hw : ∀ word ∈ words, Heading word) :
    AcceptsFrom grammar Over (.seq [.ignore (.oneOrMore Form.newline), .rule element])
      (Made good node fun a => gap.append (lang a)) Over := by
  intro cs rest items bs hcs hr
  have hrest : Over rest := Leaves.last rfl ho hr
  obtain ⟨_, rfl, a, ha, ⟨s, t, rfl, hs, ht⟩, hn, rfl⟩ := h.separated accepts_newlines.skip hr
  obtain ⟨word, hmem, hopens⟩ := hb [a] (lang a) (by simp)
  obtain ⟨u, rfl⟩ := hopens t ht
  refine ⟨hrest, _, rfl, a, ha,
    append_intro (gap_of_over (hw word hmem) hs (u := u ++ rest) ?_) ht, hn, rfl⟩
  simpa using hcs

/-- The blocks that a list rule accepts stand an empty line or more apart. -/
theorem blocks_apart {all : List α → Node}
    (hid : grammar.rule id = .listOf name element (.oneOrMore Form.newline) make)
    (h : Accepts grammar (.rule element) (Made good node lang))
    (ho : ∀ cs, Leaves grammar (.rule element) Over cs)
    (hb : ∀ as : List α, OpenedBy words (as.map lang)) (hw : ∀ word ∈ words, Heading word)
    (hmake : ∀ as, make (as.map node) = .ok (all as)) :
    AcceptsFrom grammar (fun _ => True) (.rule id)
      (Made (fun as => as ≠ [] ∧ ∀ a ∈ as, good a) all
        fun as : List α => joined gap (as.map lang)) Over :=
  (accepts_over h ho).list hid (block_apart h ho hb hw) hmake

end Lists

theorem declarations_apart :
    AcceptsFrom grammar (fun _ => True) (.rule .declarationList)
      (Made (fun ds => ds ≠ [] ∧ ∀ d ∈ ds, d.Representable) Node.declarations fun ds =>
        joined gap (ds.map declaration)) Over :=
  blocks_apart rfl accepts_declaration (fun _ => declaration_over) openedBy_declarations
    (fun word h => headings word (by simp_all))
    (listNode_map (f := Node.declaration) (fun _ => rfl) _ _)

theorem pools_apart :
    AcceptsFrom grammar (fun _ => True) (.rule .poolList)
      (Made (fun ps => ps ≠ [] ∧ ∀ p ∈ ps, p.Representable) Node.pools fun ps =>
        joined gap (ps.map pool)) Over :=
  blocks_apart rfl accepts_pool (fun _ => pool_over) openedBy_pools
    (fun word h => headings word (by grind)) (listNode_map (f := Node.pool) (fun _ => rfl) _ _)

theorem boxes_apart :
    AcceptsFrom grammar (fun _ => True) (.rule .boxList)
      (Made (fun bs => bs ≠ [] ∧ ∀ b ∈ bs, b.Representable) Node.boxes fun bs =>
        joined gap (bs.map box)) Over :=
  blocks_apart rfl accepts_box (fun _ => box_over) openedBy_boxes
    (fun word h => headings word (by simp_all)) (listNode_map (f := Node.box) (fun _ => rfl) _ _)

end Fleet.Document
