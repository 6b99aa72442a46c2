import Fleet.Proofs.Accepted.Documents
import Fleet.Proofs.Peg.Pruning
/-!
Where matching without commits cannot come to the end of a document. A rule that commits abort may
match without them, but then it leaves a text that begins with the line it was aborted at. `Stray`
says of such a text that the rules that might come next do not match it. Blocks are told apart by
the words that open them. A line like a pair may be opened by such a word, too, but no quoted text
follows there, which a block would need (`Headed.unmatched`).
-/

namespace Fleet.Document
open Fleet.Peg Fleet.Text Layout Language

variable {cs rest t u v w n : List Char} {e : Expr Symbol} {es : List (Expr Symbol)}
  {X Y : Symbol} {Xs Ys : List Symbol} {P : List Char → Prop} {r : Result Node}
  {g : Grammar Symbol Node Fault}

/-! ## Expressions without commits -/

/-- Rules that never abort. -/
def steadyRule : Symbol → Bool
  | .newline | .key | .endOfInput | .sectionBreak => true
  | _ => false

theorem grammar_steadyRules : grammar.SteadyRules steadyRule := by
  intro s hs
  cases s with
  | key => exact ⟨rfl, fun action ha c => by cases ha; exact ⟨_, rfl⟩⟩
  | newline | endOfInput | sectionBreak => exact ⟨rfl, fun action ha => by cases ha⟩
  | _ => cases hs

theorem grammar_settled : grammar.Settled := by
  refine fun s => grammar_steadyRules.settled ?_
  cases s <;> rfl

theorem uncommitted_notLeftRecursive : grammar.uncommitted.NotLeftRecursive := by
  refine ⟨Symbol.rank, Grammar.rankedBy_of_leads fun s => ?_⟩
  cases s <;> decide

/-- An expression that never aborts, nor does what its lookaheads look for. -/
def plain (e : Expr Symbol) : Bool :=
  e.steady steadyRule && e.lookaheads.all (·.steady steadyRule)

theorem steady_of_plain (he : plain e = true) : Steady grammar e :=
  grammar_steadyRules.steady (Bool.and_eq_true_iff.1 he).1

theorem settled_of_plain (he : plain e = true) : Settled grammar e :=
  grammar_steadyRules.settled (Bool.and_eq_true_iff.1 he).2

theorem final_of_plain (he : plain e = true) : Final grammar e :=
  (steady_of_plain he).prunes (settled_of_plain he)

theorem reads_of_plain (he : plain e = true)
    (h : Reads grammar.uncommitted e.uncommitted cs r) : Reads grammar e cs r :=
  ((steady_of_plain he).reads_iff grammar_settled grammar_notLeftRecursive
    (settled_of_plain he)).1 h

/-- Where a sequence is aborted, and fails without commits, what never aborts is not to blame. -/
theorem next_of_plain (he : plain e = true) (ha : ReadsSeq grammar false (e :: es) cs .aborted)
    (hf : Reads grammar.uncommitted (Expr.seq (e :: es)).uncommitted cs .failed) :
    ∃ mid items bs, Reads grammar e cs (.matched mid items bs) ∧
      ReadsSeq grammar false es mid .aborted ∧
      Reads grammar.uncommitted (Expr.seq es).uncommitted mid .failed :=
  ha.next_of_failed grammar_settled (steady_of_plain he) (settled_of_plain he)
    (by rintro rfl; cases he) hf

theorem unmatched_of_failed (h : Reads grammar (.rule X) cs .failed) :
    Unmatched grammar.uncommitted (.rule X) cs :=
  h.unmatched (e := .rule X) grammar_settled nofun

/-! ## Words that open a block -/

/-- The blocks of a document but the defaults, which are its first one if there are any. -/
def blockRules : List Symbol := [.declaration, .loadBalancer, .pool, .box]

/-- What a text begins with before which the block does not fail. -/
def openings : Symbol → List String
  | .defaults => ["defaults:"]
  | .declaration => ["bootstrap-sequence: "]
  | .loadBalancer => ["load-balancer: "]
  | .pool => ["http", "tcp"]
  | .box => ["box: "]
  | _ => []

theorem block_failed (hX : X ∈ Symbol.defaults :: blockRules)
    (h : ∀ word ∈ openings X, ¬ word.toList <+: cs) : Reads grammar (.rule X) cs .failed := by
  have hword {word : String} (hw : word ∈ openings X) : Reads grammar (.literal word) cs .failed :=
    .literal_failed (h word hw)
  simp only [blockRules, List.mem_cons, List.not_mem_nil, or_false] at hX
  rcases hX with rfl | rfl | rfl | rfl | rfl
  · exact defaults_failed (hword (by simp [openings]))
  · exact declaration_failed (hword (by simp [openings]))
  · exact loadBalancer_failed (hword (by simp [openings]))
  · exact pool_failed (hword (by simp [openings])) (hword (by simp [openings]))
  · exact box_failed (hword (by simp [openings]))

theorem exists_opening (hX : X ∈ Symbol.defaults :: blockRules)
    (h : ¬ Reads grammar (.rule X) cs .failed) :
    ∃ word ∈ openings X, ∃ u, cs = word.toList ++ u := by
  refine Classical.byContradiction fun hnone => h (block_failed hX fun word hw hp => ?_)
  obtain ⟨u, hu⟩ := hp
  exact hnone ⟨word, hw, u, hu.symm⟩

theorem openings_clash : ∀ X ∈ Symbol.defaults :: blockRules, ∀ Y ∈ blockRules, X ≠ Y →
    ∀ word ∈ openings X, ∀ word' ∈ openings Y, Clash word.toList word'.toList = true := by
  decide +kernel

theorem openings_letter : ∀ X ∈ Symbol.defaults :: blockRules, ∀ word ∈ openings X,
    word.toList.head?.any Char.isAlpha = true := by
  decide +kernel

/-- Where one block does not fail no other one matches. -/
theorem unmatched_of_other (hX : X ∈ Symbol.defaults :: blockRules) (hY : Y ∈ blockRules)
    (hne : X ≠ Y) (h : ¬ Reads grammar (.rule X) cs .failed) :
    Unmatched grammar.uncommitted (.rule Y) cs := by
  obtain ⟨word, hw, u, rfl⟩ := exists_opening hX h
  refine unmatched_of_failed (block_failed (List.mem_cons_of_mem _ hY) fun word' hw' => ?_)
  exact not_prefix_of_clash (openings_clash X hX Y hY hne word hw word' hw') u

/-! ## Headings -/

/-- The text begins with a word and a colon, and this comes after them. -/
def Headed (v cs : List Char) : Prop := ∃ w, cs = w ++ ':' :: ' ' :: v ∧ ':' ∉ w

namespace Headed

/-- The first colon is where it is, however a text is taken apart. -/
theorem unique (h : Headed v cs) (h' : Headed u cs) : u = v := by
  obtain ⟨a, rfl, ha⟩ := h
  obtain ⟨b, hb, hb'⟩ := h'
  induction a generalizing b with
  | nil =>
    cases b with
    | nil => simpa using hb.symm
    | cons c b => simp_all
  | cons c a ih =>
    cases b with
    | nil => simp_all
    | cons d b =>
      simp only [List.cons_append, List.cons.injEq] at hb
      exact ih (fun h => ha (by simp [h])) b hb.2 (fun h => hb' (by simp [h]))

/-- After a word without a colon the heading goes on. -/
theorem word {text : String} (h : Headed v cs) (ht : ':' ∉ text.toList) :
    Leaves g (.literal text) (Headed v) cs := by
  intro rest items bs hr
  obtain ⟨w, rfl, hw⟩ := h
  obtain ⟨_, hcs, ⟨rfl, -⟩, -⟩ := Accepts.literal text hr
  rcases List.append_eq_append_iff.1 hcs with ⟨a, hword, hrest⟩ | ⟨a, rfl, rfl⟩
  · cases a with
    | nil => exact ⟨[], by simpa using hrest.symm, by simp⟩
    | cons c a =>
      obtain rfl : ':' = c := by simpa using (List.cons.inj hrest).1
      exact absurd (by simp [hword]) ht
  · exact ⟨a, rfl, fun h => hw (List.mem_append_right _ h)⟩

/-- After a word with its colon comes what comes after the heading. -/
theorem value {text : String} (h : Headed v cs) (ht : text.toList = w ++ [':', ' '])
    (hw : ':' ∉ w) : Leaves g (.literal text) (· = v) cs := by
  intro rest items bs hr
  obtain ⟨_, hcs, ⟨hword, -⟩, -⟩ := Accepts.literal text hr
  exact h.unique ⟨w, by simp [hcs, show _ = text.toList from hword, ht], hw⟩

theorem opened {text : String} (h : Headed v cs) (ht : text.toList = w ++ [':', ' '])
    (hw : ':' ∉ w) (hes : Unmatched g (.seq es) v) :
    Unmatched g (.seq (.literal text :: es)) cs := by
  refine .seq_cons (h.value ht hw) fun rest hr => ?_
  subst hr
  exact hes

/-- A block has quoted text after its first colon. -/
theorem unmatched (h : Headed v cs) (hv : Unmatched grammar.uncommitted (.rule .quoted) v)
    (hX : X ∈ blockRules) : Unmatched grammar.uncommitted (.rule X) cs := by
  have hspec {es : List (Expr Symbol)} {name : String} :
      Unmatched grammar.uncommitted (.seq (.capture name (.rule .vmSpec) :: es)) v :=
    (Unmatched.rule hv.capture.seq).capture.seq
  simp only [blockRules, List.mem_cons, List.not_mem_nil, or_false] at hX
  rcases hX with rfl | rfl | rfl | rfl
  · exact .rule (h.opened (w := "bootstrap-sequence".toList) rfl (by decide) hv.capture.seq)
  · exact .rule (h.opened (w := "load-balancer".toList) rfl (by decide) hspec)
  · have hkind : Leaves grammar.uncommitted
        (.capture "pool_type" (.choice [.literal "http", .literal "tcp"])) (Headed v) cs := by
      refine .capture (.choice ?_)
      simp only [List.forall_mem_cons]
      exact ⟨h.word (by decide), h.word (by decide), by simp⟩
    refine .rule (.seq_cons hkind fun mid hm => ?_)
    exact hm.opened (w := "-pool".toList) rfl (by decide) hspec
  · exact .rule (h.opened (w := "box".toList) rfl (by decide) hspec)

end Headed

/-! ## Stray lines -/

/-- Rules that begin with a letter, indented or not. -/
def lineRules : List Symbol := [.pair, .service, .steps] ++ blockRules

theorem exists_letter {word : String} (hX : X ∈ Symbol.defaults :: blockRules)
    (hw : word ∈ openings X) : ∃ c u, word.toList = c :: u ∧ c.isAlpha = true := by
  have hletter := openings_letter X hX word hw
  cases h : word.toList with
  | nil => simp [h] at hletter
  | cons c u => exact ⟨c, u, rfl, by simpa [h] using hletter⟩

theorem line_failed (hX : X ∈ lineRules) (hb : Ahead (¬ isBlank ·) cs)
    (ha : Ahead (·.isAlpha ≠ true) cs) : Reads grammar (.rule X) cs .failed := by
  have hnil : blanks [] := by simp [blanks]
  have hword {text : String} (first : Char) (ht : text.toList.head? = some first)
      (hf : first.isAlpha = true) : Reads grammar (.literal text) cs .failed :=
    literal_failed_of_ahead first ht (ha.imp fun c hc he => hc (he ▸ hf))
  rcases List.mem_append.1 hX with hX | hX
  · simp only [List.mem_cons, List.not_mem_nil, or_false] at hX
    rcases hX with rfl | rfl | rfl
    · exact pair_failed hnil hb ha
    · exact indented_failed rfl hnil hb (hword 's' rfl rfl)
    · exact indented_failed rfl hnil hb (hword 'b' rfl rfl)
  · have hX := List.mem_cons_of_mem Symbol.defaults hX
    refine block_failed hX fun word hw hp => ?_
    obtain ⟨c, u, hcu, hc⟩ := exists_letter hX hw
    obtain ⟨rest, rfl⟩ := hp
    exact ha c (by simp [hcu]) hc

theorem not_isBreak_of_isBlank {c : Char} (h : isBlank c) : ¬ isBreak c := by
  rcases h with rfl | rfl <;> simp [isBreak]

/-- A text whose first line says something. -/
def Visible (cs : List Char) : Prop :=
  ∃ w c u, cs = w ++ c :: u ∧ blanks w ∧ ¬ isBlank c ∧ ¬ isBreak c

/-- Something is left to read, and after the line ends that come first, or after some of them, the
rules do not match it. -/
structure Stray (Xs : List Symbol) (cs : List Char) : Prop where
  visible : ∃ c ∈ cs, ¬ isBlank c ∧ ¬ isBreak c
  unmatched : ∀ n rest, cs = n ++ rest → (∀ c ∈ n, isBreak c) →
    ∀ X ∈ Xs, Unmatched grammar.uncommitted (.rule X) rest

namespace Stray

theorem mono (h : Stray Xs cs) (hs : ∀ Y ∈ Ys, Y ∈ Xs) : Stray Ys cs :=
  ⟨h.visible, fun n rest hcs hn Y hY => h.unmatched n rest hcs hn Y (hs Y hY)⟩

theorem here (h : Stray Xs cs) (hX : X ∈ Xs) : Unmatched grammar.uncommitted (.rule X) cs :=
  h.unmatched [] cs rfl (by simp) X hX

/-- Line ends do not matter, neither those that are taken nor those that are left. -/
theorem of_line (hn : ∀ c ∈ n, isBreak c) (hcs : Visible cs)
    (h : ∀ X ∈ Xs, X ∈ lineRules ∧ Unmatched grammar.uncommitted (.rule X) cs) :
    Stray Xs (n ++ cs) := by
  obtain ⟨w, c, u, rfl, hw, hblank, hbreak⟩ := hcs
  have hahead : Ahead (¬ isBreak ·) (w ++ c :: u) :=
    ahead_indented (fun _ => not_isBreak_of_isBlank) hw (Ahead.cons.2 hbreak)
  refine ⟨⟨c, by simp, hblank, hbreak⟩, fun m rest hm hmb X hX => ?_⟩
  obtain ⟨hline, hX⟩ := h X hX
  -- Either all the line ends are taken, and no more, or some are left, with which no line begins.
  rcases List.append_eq_append_iff.1 hm with ⟨a, rfl, ha⟩ | ⟨a, rfl, rfl⟩
  · cases a with
    | nil =>
      obtain rfl : w ++ c :: u = rest := ha
      exact hX
    | cons d a => exact absurd (hmb d (by simp)) (hahead d (by simp [ha]))
  · cases a with
    | nil => exact hX
    | cons d a =>
      have hd : isBreak d := hn d (by simp)
      refine unmatched_of_failed (line_failed hline (Ahead.cons.2 ?_) (Ahead.cons.2 ?_))
      · rcases hd with rfl | rfl <;> simp [isBlank]
      · rcases hd with rfl | rfl <;> decide

/-- A list goes on after a comma, and nothing else does. -/
theorem comma (u : List Char) : Stray lineRules (',' :: u) := by
  refine of_line (n := []) (by simp) ⟨[], ',', u, rfl, by simp [blanks], ?_⟩ fun X hX => ?_
  · simp [isBlank, isBreak]
  · refine ⟨hX, unmatched_of_failed (line_failed hX (Ahead.cons.2 ?_) (Ahead.cons.2 ?_))⟩
    · simp [isBlank]
    · decide

theorem breaks (h : Stray Xs (t ++ rest)) (ht : ∀ c ∈ t, isBreak c) : Stray Xs rest := by
  obtain ⟨c, hc, hv⟩ := h.visible
  refine ⟨⟨c, ?_, hv⟩, fun n more hrest hn => ?_⟩
  · exact (List.mem_append.1 hc).resolve_left fun hm => hv.2 (ht c hm)
  · refine h.unmatched (t ++ n) more (by simp [hrest]) fun c hc => ?_
    exact (List.mem_append.1 hc).elim (ht c) (hn c)

theorem separator {p : Language} (he : plain e = true) (ha : Accepts grammar e (Spelled p))
    (hp : ∀ t, p t → ∀ c ∈ t, isBreak c) (h : Stray Xs cs) :
    Leaves grammar.uncommitted e.uncommitted (Stray Xs) cs := by
  intro rest items bs hr
  obtain ⟨t, rfl, ⟨ht, -⟩, -⟩ := ha (reads_of_plain he hr)
  exact h.breaks (hp t ht)

theorem newline (h : Stray Xs cs) : Leaves grammar.uncommitted Form.newline (Stray Xs) cs :=
  separator (e := Form.newline) rfl accepts_newline (fun _ => newline_isBreak) h

theorem newlines (h : Stray Xs cs) :
    Leaves grammar.uncommitted (.oneOrMore Form.newline) (Stray Xs) cs :=
  separator (e := .oneOrMore Form.newline) rfl accepts_newlines (fun _ => newlines_isBreak) h

theorem not_trailing (h : Stray Xs cs) : ¬ trailing cs := by
  intro ht
  obtain ⟨c, hc, hblank, hbreak⟩ := h.visible
  exact (ht c hc).elim hblank hbreak

theorem endOfInput (h : Stray Xs cs) : Unmatched grammar.uncommitted (.rule .endOfInput) cs := by
  intro rest items bs hr
  obtain ⟨-, ht, -⟩ := endOfInput_inv (reads_of_plain (e := .rule .endOfInput) rfl hr)
  exact h.not_trailing ht

theorem sectionBreak (h : Stray Xs cs) :
    Leaves grammar.uncommitted (.rule .sectionBreak) (Stray Xs) cs := by
  intro rest items bs hr
  obtain ⟨-, -, s, rfl, hs | ⟨hs, rfl⟩⟩ :=
    sectionBreak_inv (reads_of_plain (e := .rule .sectionBreak) rfl hr)
  · exact h.breaks (newlines_isBreak hs)
  · exact absurd (by simpa using hs) h.not_trailing

end Stray

end Fleet.Document
