import Fleet.Proofs.Document.Tokens
import Fleet.Proofs.Peg.Acceptance
/-!
What the smallest rules of a document accept is nothing but line ends, blanks, integers, keys and
quoted text, and the nodes that they make say which.
-/

namespace Fleet.Document
open Fleet.Peg Fleet.Text Layout Language

variable {cs t : List Char} {mark : String} {m : Char}

theorem accepts_newline : Accepts grammar Form.newline (Spelled newline) := by
  refine .transparent rfl (.choice ?_)
  intro e he
  obtain ⟨text, rfl, ht⟩ : ∃ text, e = .literal text ∧ newline text.toList := by
    simp only [List.mem_cons, List.not_mem_nil, or_false] at he
    rcases he with rfl | rfl | rfl
    · exact ⟨_, rfl, .inl rfl⟩
    · exact ⟨_, rfl, .inr (.inl rfl)⟩
    · exact ⟨_, rfl, .inr (.inr rfl)⟩
  refine (Accepts.literal text).imp fun _ _ _ h => h.imp ?_
  intro _ hp
  subst hp
  exact ht

theorem accepts_blanks : Accepts grammar Form.blanks (Spelled blanks) := by
  refine (Accepts.oneOf blank).star.imp fun t _ _ h => h.imp fun t ht c hc => ?_
  exact (contains_blank c).1 (star_chars ht c hc)

/-! ## Integers and keys -/

theorem isDigit_of_contains_nonZeroDigit {c : Char} (h : nonZeroDigit.contains c = true) :
    c.isDigit = true ∧ c ≠ '0' := by
  have hc : 49 ≤ c.val.toNat ∧ c.val.toNat ≤ 57 := by
    simpa [CharClass.contains, nonZeroDigit, Char.le_def, UInt32.le_iff_toNat_le] using h
  constructor
  · simp only [Char.isDigit, Bool.and_eq_true, decide_eq_true_eq, ge_iff_le,
      UInt32.le_iff_toNat_le]
    exact ⟨Nat.le_trans (by decide) hc.1, hc.2⟩
  · intro hp
    subst hp
    exact absurd hc.1 (by decide)

theorem accepts_integer :
    Accepts grammar (.rule .integer) (Made (· ≠ 0) Node.integer integer) := by
  refine .node_of_text rfl rfl (.spelled_seq (.oneOf _) (Accepts.oneOf _).star) ?_
  intro _ c made h htext hact
  obtain ⟨_, w, rfl, ⟨d, hd, rfl⟩, hw⟩ := h
  obtain ⟨hdigit, hzero⟩ := isDigit_of_contains_nonZeroDigit hd
  have hdigits : ∀ x ∈ d :: w, x.isDigit = true := by
    intro x hx
    rcases List.mem_cons.1 hx with rfl | hx
    · exact hdigit
    · exact contains_digit x ▸ star_chars hw x hx
  simp only [Action.integer] at hact
  split at hact
  · next n hn =>
    obtain ⟨hne, hspelled⟩ := toString_of_readUInt64? (by simp [htext]) hzero hdigits hn
    exact ⟨n, hne, hspelled.symm, (Except.ok.inj hact).symm⟩
  · cases hact

/-- The words of a key after the first are told apart by what joins them. -/
theorem exists_words (h : Star (append (fun t => ∃ c, keyJoiner.contains c = true ∧ t = [c])
      (plus fun t => ∃ c, keyChar.contains c = true ∧ t = [c])) t) :
    ∃ words : List (Char × List Char), t = words.flatMap (fun w => w.1 :: w.2) ∧
      ∀ w ∈ words, (w.1 = '-' ∨ w.1 = ' ') ∧ w.2 ≠ [] ∧ ∀ c ∈ w.2, isKeyChar c := by
  induction h with
  | nil => exact ⟨[], rfl, by simp⟩
  | cons ha _ ih =>
    obtain ⟨_, w, rfl, ⟨j, hj, rfl⟩, hw⟩ := ha
    obtain ⟨words, rfl, hwords⟩ := ih
    obtain ⟨hne, hchars⟩ := plus_chars hw
    refine ⟨(j, w) :: words, by simp, List.forall_mem_cons.2 ⟨?_, hwords⟩⟩
    exact ⟨(contains_keyJoiner j).1 hj, hne, fun c hc => contains_keyChar c ▸ hchars c hc⟩

theorem accepts_key : Accepts grammar (.rule .key) (Made IsKey Node.key word) := by
  refine .node_of_text rfl rfl (.spelled_seq (Accepts.oneOf _).plus
    (Accepts.spelled_seq (.oneOf _) (Accepts.oneOf _).plus).star) ?_
  intro _ c made h htext hact
  obtain ⟨first, _, rfl, hfirst, hmore⟩ := h
  obtain ⟨hne, hletters⟩ := plus_chars hfirst
  obtain ⟨words, rfl, hwords⟩ := exists_words hmore
  refine ⟨_, ⟨first, words, String.toList_ofList, hne, ?_, hwords⟩, String.toList_ofList.symm, ?_⟩
  · exact fun c hc => contains_letter c ▸ hletters c hc
  · rw [← htext]
    exact (Except.ok.inj hact).symm

/-! ## Quoted text -/

/-- A character of quoted text is neither its mark nor of a line end. -/
theorem accepts_unquoted (hm : mark.toList = [m]) :
    Accepts grammar (.seq [.not (.choice [.literal mark, Form.newline]), .any])
      (Spelled fun t => ∃ c, (c ≠ m ∧ ¬ isBreak c) ∧ t = [c]) := by
  intro cs rest items bs h
  cases h with
  | seq h =>
    obtain ⟨_, _, _, _, _, hnot, hs, rfl, rfl⟩ := ReadsSeq.cons_iff.1 h
    obtain ⟨_, _, _, _, _, hany, hnil, rfl, rfl⟩ := ReadsSeq.cons_iff.1 hs
    cases hnil
    obtain ⟨rfl, rfl, rfl, hunmatched⟩ := hnot.of_not
    cases hany with
    | any c =>
      have hmark : c ≠ m := by
        intro hp
        subst hp
        exact hunmatched _ _ _ (.choice_taken (reads_mark hm) (by simp))
      have hbreak : ¬ isBreak c := by
        intro hb
        obtain ⟨t, u, ht, hn, hw⟩ := exists_newline hb rest
        obtain ⟨i, hi, -⟩ := takes_newline hn hw
        rw [← ht] at hi
        exact hunmatched _ _ _ (.choice_next (literal_failed_of_ahead m (by simp [hm]) (by simpa))
          (.choice_taken hi (by simp)))
      exact ⟨[c], rfl, ⟨⟨c, ⟨hmark, hbreak⟩, rfl⟩, rfl, rfl⟩, by simp⟩

theorem accepts_quotedBy {id : Symbol} {name : String}
    (hid : grammar.rule id = .acting name (Form.quotedBy mark) Action.quoted)
    (hm : mark.toList = [m]) (hq : m = '\'' ∨ m = '"') :
    Accepts grammar (.rule id) (Made IsQuotable Node.quoted quoted) := by
  refine .made (congrArg Rule.action hid) ?_
  rw [hid]
  refine .makes (.skip (.skip (.literal mark)) (.commit (.next (accepts_unquoted hm).star.capture
    (.skip (.skip (.literal mark)) .nil)))) ?_
  intro _ _ _ hp
  obtain ⟨_, _, rfl, rfl, w, _, i, _, _, _, rfl, -, rfl, ⟨_, rfl, ⟨hw, -, rfl⟩, ht⟩, hp⟩ := hp
  obtain ⟨_, _, rfl, rfl, rfl, -, rfl⟩ := hp
  have hchars : ∀ c ∈ (String.ofList w).toList, c ≠ m ∧ ¬ isBreak c := by
    rw [String.toList_ofList]
    exact star_chars hw
  have hnot : m ∉ (String.ofList w).toList := fun h => (hchars m h).1 rfl
  refine ⟨String.ofList w, ⟨?_, ?_, ?_⟩, ⟨m, hq, hnot, ?_⟩, ?_⟩
  · exact fun h => (hchars _ h).2 (.inl rfl)
  · exact fun h => (hchars _ h).2 (.inr rfl)
  · intro hp
    obtain ⟨hs, hd⟩ := hp
    rcases hq with rfl | rfl
    · exact hnot hs
    · exact hnot hd
  · simp [hm]
  · have : (⟨[] ++ i.map ("text", ·) ++ []⟩ : Captures Node).text "text" = String.ofList w := by
      simpa using ht
    simp only [Action.quoted, this]

theorem accepts_quoted : Accepts grammar (.rule .quoted) (Made IsQuotable Node.quoted quoted) := by
  refine .transparent rfl (.choice ?_)
  simp only [List.forall_mem_cons]
  exact ⟨accepts_quotedBy rfl rfl (.inl rfl), accepts_quotedBy rfl rfl (.inr rfl), by simp⟩

end Fleet.Document
