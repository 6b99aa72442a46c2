import Fleet.Document.Grammar
import Fleet.Document.Layout
import Fleet.Formation.Representable
import Fleet.Proofs.Peg.Derivation
/-!
The smallest parts of a document are read back from any layout of them: line ends, blanks, quoted
text, integers and keys. Each lemma says what must not follow, so that the match stops where the
part ends.
-/

namespace Fleet.Document
open Fleet.Peg Fleet.Text Layout

variable {cs rest t w : List Char}

/-! ## Characters -/

theorem contains_blank (c : Char) : blank.contains c = true ↔ isBlank c := by
  simp [CharClass.contains, blank, isBlank]

theorem contains_digit (c : Char) : digit.contains c = c.isDigit := by
  simp [CharClass.contains, digit, Char.isDigit, Char.le_def]

theorem contains_letter (c : Char) : letter.contains c = c.isAlpha := by
  have hupper : c.isUpper = decide ('A' ≤ c ∧ c ≤ 'Z') := rfl
  have hlower : c.isLower = (decide ('a' ≤ c) && decide (c ≤ 'z')) := rfl
  have halpha : c.isAlpha = (c.isUpper || c.isLower) := rfl
  simp [CharClass.contains, letter, halpha, hupper, hlower, Bool.or_comm]

theorem contains_keyJoiner (c : Char) : keyJoiner.contains c = true ↔ c = '-' ∨ c = ' ' := by
  simp [CharClass.contains, keyJoiner]

theorem contains_keyChar (c : Char) : keyChar.contains c = isKeyChar c := by
  have halnum : c.isAlphanum = (c.isAlpha || c.isDigit) := rfl
  rw [isKeyChar, halnum, ← contains_letter, ← contains_digit, Bool.eq_iff_iff]
  simp [CharClass.contains, keyChar, letter, digit]
  grind

theorem contains_nonZeroDigit {c : Char} (hd : c.isDigit = true) (h0 : c ≠ '0') :
    nonZeroDigit.contains c = true := by
  have hne : c.val.toNat ≠ '0'.val.toNat := fun he => h0 (Char.toNat_inj.1 he)
  simp only [Char.isDigit, Bool.and_eq_true, decide_eq_true_eq, ge_iff_le,
    UInt32.le_iff_toNat_le] at hd
  simp only [CharClass.contains, nonZeroDigit, List.contains_nil, Bool.false_or, List.any_cons,
    List.any_nil, Bool.or_false, Bool.and_eq_true, decide_eq_true_eq, Char.le_def,
    UInt32.le_iff_toNat_le]
  have : '0'.val.toNat = 48 := rfl
  have : '1'.val.toNat = 49 := rfl
  omega

/-! ## Line ends and blanks -/

theorem newline_ne_nil (h : newline t) : t ≠ [] := by
  rcases h with rfl | rfl | rfl <;> simp

theorem newline_isBreak (h : newline t) : ∀ c ∈ t, isBreak c := by
  rcases h with rfl | rfl | rfl <;> simp [isBreak]

theorem star_newline_isBreak (h : Language.Star newline t) : ∀ c ∈ t, isBreak c :=
  h.forall_mem fun _ => newline_isBreak

theorem star_newline_of_isBreak (h : ∀ c ∈ t, isBreak c) : Language.Star newline t := by
  induction t with
  | nil => exact .nil
  | cons c t ih =>
    have hc : newline [c] := by
      rcases h c (by simp) with rfl | rfl
      · exact .inr (.inl rfl)
      · exact .inr (.inr rfl)
    exact .cons hc (ih fun d hd => h d (by simp [hd]))

theorem newlines_isBreak (h : newlines t) : ∀ c ∈ t, isBreak c := by
  obtain ⟨a, b, rfl, ha, hb⟩ := h
  exact star_newline_isBreak (.cons ha hb)

theorem newlines_ne_nil (h : newlines t) : t ≠ [] := by
  obtain ⟨a, b, rfl, ha, -⟩ := h
  simp [newline_ne_nil ha]

/-- A line end is one where it stands if no line feed makes it a longer one. -/
def Whole (t rest : List Char) : Prop := t = ['\r'] → Ahead (· ≠ '\n') rest

theorem exists_newline {c : Char} (hc : isBreak c) (cs : List Char) :
    ∃ t rest, c :: cs = t ++ rest ∧ newline t ∧ Whole t rest := by
  rcases hc with rfl | rfl
  · exact ⟨['\n'], cs, rfl, .inr (.inl rfl), fun h => by simp at h⟩
  · by_cases h : cs.head? = some '\n'
    · obtain ⟨cs, rfl⟩ : ∃ more, cs = '\n' :: more := ⟨_, (List.head?_eq_some_iff.1 h).choose_spec⟩
      exact ⟨['\r', '\n'], cs, rfl, .inl rfl, fun h => by simp at h⟩
    · refine ⟨['\r'], cs, rfl, .inr (.inr rfl), fun _ d hd he => h ?_⟩
      rw [← he]
      exact hd

theorem takes_newline (ht : newline t) (hr : Whole t rest) :
    Takes grammar Form.newline (t ++ rest) rest [] := by
  have hbody : ∃ s, Reads grammar (.choice [.literal "\r\n", .literal "\n", .literal "\r"])
      (t ++ rest) (.matched rest [.text s] []) := by
    rcases ht with rfl | rfl | rfl
    · exact ⟨_, .choice_taken (.literal "\r\n" rest) (by simp)⟩
    · refine ⟨_, .choice_next ?_ (.choice_taken (.literal "\n" rest) (by simp))⟩
      exact literal_failed_of_ahead '\r' rfl (by simp)
    · refine ⟨_, .choice_next ?_ (.choice_next ?_ (.choice_taken (.literal "\r" rest) (by simp)))⟩
      · refine .literal_failed ?_
        intro h
        obtain ⟨more, hm⟩ := h
        obtain rfl : '\n' :: more = rest := by simpa using hm
        simpa using hr rfl
      · exact literal_failed_of_ahead '\n' rfl (by simp)
  obtain ⟨s, hs⟩ := hbody
  exact ⟨_, .transparent rfl hs, rfl⟩

theorem newline_failed (h : Ahead (¬ isBreak ·) cs) : Reads grammar Form.newline cs .failed := by
  have hcr : Ahead (· ≠ '\r') cs := h.imp fun c hc he => hc (.inr he)
  have hlf : Ahead (· ≠ '\n') cs := h.imp fun c hc he => hc (.inl he)
  exact .transparent rfl (.choice_next (literal_failed_of_ahead '\r' rfl hcr)
    (.choice_next (literal_failed_of_ahead '\n' rfl hlf)
      (.choice_next (literal_failed_of_ahead '\r' rfl hcr) (.choice_none _))))

/-- Line ends are taken as a whole, however they are told apart. -/
theorem many_newlines {q : Bool} (hq : q = true → w ≠ []) (hw : ∀ c ∈ w, isBreak c)
    (hr : Ahead (¬ isBreak ·) rest) :
    ∃ items, ReadsMany grammar q Form.newline (w ++ rest) (.matched rest items []) ∧
      items.filterMap Item.node? = [] := by
  induction hn : w.length using Nat.strongRecOn generalizing w q with
  | ind n ih =>
    cases w with
    | nil =>
      obtain rfl : q = false := by simpa using hq
      exact ⟨[], .done (newline_failed hr), rfl⟩
    | cons c cs =>
      obtain ⟨t, u, hcs, ht, hwhole⟩ := exists_newline (hw c (by simp)) cs
      rw [hcs] at hw hn ⊢
      have hlen : 0 < t.length := List.length_pos_iff.2 (newline_ne_nil ht)
      rw [List.length_append] at hn
      obtain ⟨others, ho, hon⟩ :=
        ih u.length (by omega) (q := false) (by simp) (fun d hd => hw d (by simp [hd])) rfl
      obtain ⟨items, hi, hin⟩ : Takes grammar Form.newline (t ++ (u ++ rest)) _ _ :=
        takes_newline ht fun h => (hwhole h).append (hr.imp fun c hc he => hc (.inl he))
      refine ⟨items ++ others, ?_, by simp [hin, hon]⟩
      rw [List.append_assoc]
      exact .more hi (by simp only [List.length_append]; omega) ho

theorem takes_newlines (hw : ∀ c ∈ w, isBreak c) (hr : Ahead (¬ isBreak ·) rest) :
    Takes grammar (.zeroOrMore Form.newline) (w ++ rest) rest [] := by
  obtain ⟨items, h, hn⟩ := many_newlines (q := false) (by simp) hw hr
  exact ⟨items, .zeroOrMore h, hn⟩

theorem takes_newlines_one (hne : w ≠ []) (hw : ∀ c ∈ w, isBreak c)
    (hr : Ahead (¬ isBreak ·) rest) :
    Takes grammar (.oneOrMore Form.newline) (w ++ rest) rest [] := by
  obtain ⟨items, h, hn⟩ := many_newlines (fun _ => hne) hw hr
  exact ⟨items, .oneOrMore h, hn⟩

theorem takes_blanks (hw : blanks w) (hr : Ahead (¬ isBlank ·) rest) :
    Takes grammar Form.blanks (w ++ rest) rest [] := by
  refine .of_text (reads_run (fun c hc => (contains_blank c).2 (hw c hc)) ?_)
  exact hr.imp fun c hc h => hc ((contains_blank c).1 h)

/-! ## Integers -/

theorem integer_digits {n : UInt64} (ht : integer n t) : ∀ c ∈ t, c.isDigit = true := by
  rw [show t = _ from ht]
  exact fun c => isDigit_of_mem_toString

theorem integer_ne_nil {n : UInt64} (ht : integer n t) : t ≠ [] := by
  rw [show t = _ from ht, toList_toString]
  exact Nat.toDigits_ne_nil

theorem ahead_integer {n : UInt64} (ht : integer n t) : Ahead (·.isDigit = true) (t ++ cs) := by
  obtain ⟨c, w, rfl⟩ := List.exists_cons_of_ne_nil (integer_ne_nil ht)
  simpa using integer_digits ht c (by simp)

theorem ahead_numeral (ht : IsNumeral t) : Ahead (·.isDigit = true) (t ++ cs) := by
  obtain ⟨c, w, rfl, -, hdigits⟩ := ht
  simpa using hdigits c (by simp)

/-- Digits are matched to the last, whatever number they spell. -/
theorem reads_digits (ht : IsNumeral t) (hr : Ahead (·.isDigit ≠ true) rest) :
    Reads grammar Form.integer (t ++ rest)
      (.matched rest (textItems t) ([] ++ (textItems t).map ("digits", ·))) := by
  obtain ⟨c, w, rfl, hzero, hdigits⟩ := ht
  have hrun : Reads grammar (.zeroOrMore (.oneOf digit)) (w ++ rest) _ :=
    reads_run (fun d hd => by rw [contains_digit]; exact hdigits d (by simp [hd]))
      (hr.imp fun d hd => by rwa [contains_digit])
  have hdigits : Reads grammar (.seq [.oneOf nonZeroDigit, .zeroOrMore (.oneOf digit)])
      (c :: w ++ rest) (.matched rest (textItems (c :: w)) []) := by
    have := contains_nonZeroDigit (hdigits c (by simp)) hzero
    simpa [textItems] using
      Reads.seq (.next (.oneOf _ this) (.next hrun (.nil false _)))
  exact .capture hdigits

theorem reads_integer {n : UInt64} (hn : n ≠ 0) (ht : integer n t)
    (hr : Ahead (·.isDigit ≠ true) rest) :
    Reads grammar (.rule .integer) (t ++ rest) (.matched rest [.node (.integer n)] []) := by
  obtain rfl : t = (toString n.toNat).toList := ht
  have hnumeral : IsNumeral (toString n.toNat).toList :=
    isNumeral_toString fun h => hn (UInt64.toNat_inj.1 h)
  have haction : (grammar.rule .integer).action = some Action.integer := rfl
  refine .node haction (reads_digits hnumeral hr) ?_
  simp only [Action.integer, List.nil_append, text_textItems, String.ofList_toList,
    readUInt64?_toString]

/-! ## Quoted text -/

variable {mark : String} {m : Char} {text : String}

theorem reads_mark (hm : mark.toList = [m]) :
    Reads grammar (.literal mark) (m :: cs) (.matched cs [.text mark] []) := by
  simpa [hm] using Reads.literal mark cs

/-- Text in quotes goes on up to the mark. -/
theorem reads_unquoted (hm : mark.toList = [m]) (hw : ∀ c ∈ w, c ≠ m ∧ ¬ isBreak c) :
    Reads grammar (.zeroOrMore (.seq [.not (.choice [.literal mark, Form.newline]), .any]))
      (w ++ m :: rest) (.matched (m :: rest) (textItems w) []) := by
  refine .zeroOrMore ?_
  induction w with
  | nil =>
    exact .done (.seq_failed (.not_failed (.choice_taken (reads_mark hm) (by simp))))
  | cons c w ih =>
    obtain ⟨hc, hb⟩ := hw c (by simp)
    have hnot : Reads grammar (.choice [.literal mark, Form.newline]) (c :: (w ++ m :: rest))
        .failed :=
      .choice_next (literal_failed_of_ahead m (by simp [hm]) (by simpa using hc))
        (.choice_next (newline_failed (by simpa using hb)) (.choice_none _))
    have hany : Reads grammar (.seq [.not (.choice [.literal mark, Form.newline]), .any])
        (c :: (w ++ m :: rest)) (.matched (w ++ m :: rest) [.text c.toString] []) :=
      .seq (.next (.not hnot (.inl rfl)) (.next (.any c _) (.nil _ _)))
    exact .more hany (by simp) (ih fun d hd => hw d (by simp [hd]))

theorem reads_quotedBy {id : Symbol} {name : String}
    (hid : grammar.rule id = .acting name (Form.quotedBy mark) Action.quoted)
    (hm : mark.toList = [m]) (hq : m ∉ text.toList) (hb : ∀ c ∈ text.toList, ¬ isBreak c) :
    Reads grammar (.rule id) (m :: (text.toList ++ m :: rest))
      (.matched rest [.node (.quoted text)] []) := by
  have htext : Reads grammar _ (text.toList ++ m :: rest) _ :=
    reads_unquoted hm fun c hc => ⟨fun h => hq (h ▸ hc), hb c hc⟩
  have hbody : Reads grammar (Form.quotedBy mark) (m :: (text.toList ++ m :: rest))
      (.matched rest _ _) :=
    .seq (.next (reads_mark hm) (.commit (.next (.capture htext)
      (.next (reads_mark hm) (.nil _ _)))))
  refine .node (congrArg Rule.action hid) (by rw [hid]; exact hbody) ?_
  simp [Action.quoted]

theorem quotedBy_failed {id : Symbol} {name : String}
    (hid : grammar.rule id = .acting name (Form.quotedBy mark) Action.quoted)
    (hm : mark.toList = [m]) (h : Ahead (· ≠ m) cs) : Reads grammar (.rule id) cs .failed := by
  refine .acting_unmatched (congrArg Rule.action hid) ?_ (.inl rfl)
  rw [hid]
  exact .seq_failed (literal_failed_of_ahead m (by simp [hm]) h)

theorem quoted_failed (hs : Ahead (· ≠ '\'') cs) (hd : Ahead (· ≠ '"') cs) :
    Reads grammar (.rule .quoted) cs .failed :=
  .transparent rfl (.choice_next (quotedBy_failed rfl rfl hs)
    (.choice_next (quotedBy_failed rfl rfl hd) (.choice_none _)))

theorem quoted_failed_of_digit (h : Ahead (·.isDigit = true) cs) :
    Reads grammar (.rule .quoted) cs .failed := by
  have hquote : ∀ q : Char, q.isDigit = false → Ahead (· ≠ q) cs := fun q hq =>
    h.imp fun c hc he => by rw [← he, hc] at hq; cases hq
  exact quoted_failed (hquote '\'' (by decide)) (hquote '"' (by decide))

theorem reads_quoted (ht : quoted text t) (hb : IsQuotable text) :
    Reads grammar (.rule .quoted) (t ++ rest) (.matched rest [.node (.quoted text)] []) := by
  obtain ⟨q, hq, hnot, rfl⟩ := ht
  obtain ⟨hlf, hcr, -⟩ := hb
  have hbreak : ∀ c ∈ text.toList, ¬ isBreak c := by
    intro c hc h
    rcases h with rfl | rfl
    · exact hlf hc
    · exact hcr hc
  rw [List.cons_append, List.append_assoc]
  rcases hq with rfl | rfl
  · exact .transparent rfl (.choice_taken (reads_quotedBy rfl rfl hnot hbreak) (by simp))
  · exact .transparent rfl (.choice_next (quotedBy_failed (m := '\'') rfl rfl (by simp))
      (.choice_taken (reads_quotedBy rfl rfl hnot hbreak) (by simp)))

/-! ## Keys -/

section Keys

variable {words : List (Char × List Char)}

/-- A word of a key ends at what joins the next one to it or at the colon after the key. -/
theorem ahead_words {cls : CharClass} (hcls : ∀ c ∈ ['-', ' ', ':'], cls.contains c = false)
    (hw : ∀ w ∈ words, w.1 = '-' ∨ w.1 = ' ') :
    Ahead (cls.contains · ≠ true) (words.flatMap (fun w => w.1 :: w.2) ++ ':' :: rest) := by
  cases words with
  | nil => simpa using hcls ':' (by simp)
  | cons w words =>
    have := hcls w.1 (by rcases hw w (by simp) with h | h <;> simp [h])
    simpa using this

theorem many_words
    (hw : ∀ w ∈ words, (w.1 = '-' ∨ w.1 = ' ') ∧ w.2 ≠ [] ∧ ∀ c ∈ w.2, isKeyChar c) :
    ReadsMany grammar false (.seq [.oneOf keyJoiner, .oneOrMore (.oneOf keyChar)])
      (words.flatMap (fun w => w.1 :: w.2) ++ ':' :: rest)
      (.matched (':' :: rest) (textItems (words.flatMap fun w => w.1 :: w.2)) []) := by
  induction words with
  | nil => exact .done (.seq_failed (.oneOf_failed rfl))
  | cons w words ih =>
    obtain ⟨j, cs⟩ := w
    obtain ⟨hj, hne, hcs⟩ := hw (j, cs) (by simp)
    have hstop : Ahead (keyChar.contains · ≠ true)
        (words.flatMap (fun w => w.1 :: w.2) ++ ':' :: rest) :=
      ahead_words (by simp [keyChar, CharClass.contains]) fun w h => (hw w (by simp [h])).1
    have hword : Reads grammar (.oneOrMore (.oneOf keyChar)) (cs ++ _) _ :=
      reads_run_one hne (fun c hc => by rw [contains_keyChar]; exact hcs c hc) hstop
    have hseq := Reads.seq (.next (.oneOf _ ((contains_keyJoiner j).2 hj))
      (.next hword (.nil false _)))
    have hmany : ReadsMany grammar false _ _ _ :=
      .more hseq (by simp only [List.length_cons, List.length_append]; omega)
        (ih fun w h => hw w (by simp [h]))
    simpa [textItems] using hmany

theorem ahead_key {key : String} (hk : IsKey key) :
    Ahead (·.isAlpha = true) (key.toList ++ cs) := by
  obtain ⟨c, u, hkey, hc⟩ := hk.exists_letter
  rw [hkey]
  simpa using hc

theorem reads_key {key : String} (hk : IsKey key) :
    Reads grammar (.rule .key) (key.toList ++ ':' :: rest)
      (.matched (':' :: rest) [.node (.key key)] []) := by
  obtain ⟨first, words, hkey, hne, hfirst, hwords⟩ := hk
  have hword : Reads grammar (.oneOrMore (.oneOf letter))
      (first ++ (words.flatMap (fun w => w.1 :: w.2) ++ ':' :: rest)) _ :=
    reads_run_one hne (fun c hc => by rw [contains_letter]; exact hfirst c hc)
      (ahead_words (by simp [letter, CharClass.contains]) fun w h => (hwords w h).1)
  have hbody := Reads.seq (.next hword
    (.next (.zeroOrMore (many_words hwords)) (.nil false _)))
  have haction : (grammar.rule .key).action = some Action.key := rfl
  rw [hkey, List.append_assoc]
  refine .node haction (.capture hbody) ?_
  have : String.ofList (first ++ words.flatMap fun w => w.1 :: w.2) = key := by
    rw [← hkey, String.ofList_toList]
  simpa [Action.key, String.ofList_append] using this

end Keys

end Fleet.Document
