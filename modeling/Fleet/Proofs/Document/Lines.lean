import Fleet.Proofs.Document.Tokens
/-!
Pairs and lists of pairs are read back from any layout of them. A list of pairs goes on as long as
lines do that read like pairs; `Ends` says that none follows.
-/

namespace Fleet.Document
open Fleet.Peg Fleet.Text Layout

variable {cs rest t w : List Char}

/-! ## Values -/

theorem reads_value {v : Value} (hv : v.Representable) (ht : value v t)
    (hr : Ahead (·.isDigit ≠ true) rest) :
    Reads grammar (.rule .value) (t ++ rest) (.matched rest [.node (.ofValue v)] []) := by
  cases v with
  | quoted text => exact .transparent rfl (.choice_taken (reads_quoted ht hv) (by simp))
  | integer n =>
    exact .transparent rfl (.choice_next (quoted_failed_of_digit (ahead_integer ht))
      (.choice_taken (reads_integer hv ht hr) (by simp)))

/-- What follows a list of values that are separated by commas. -/
def AfterValues (rest : List Char) : Prop := Ahead (fun c => c.isDigit ≠ true ∧ c ≠ ',') rest

theorem AfterValues.stops (h : AfterValues rest) (element : Symbol) :
    Reads grammar (.seq [.ignore (.literal ", "), .rule element]) rest .failed :=
  stops_of_separator (literal_failed_of_ahead ',' rfl (h.imp fun _ hc => hc.2))

theorem reads_each_value {vs : List Value} (hv : ∀ v ∈ vs, v.Representable) :
    ReadsEach grammar .value (.literal ", ") value .ofValue (Language.word ", ")
      (Ahead (·.isDigit ≠ true)) vs where
  reads v hm t rest ht hr := reads_value (hv v hm) ht hr
  separates := by
    intro v _ s t rest h _
    subst h
    exact .literal ", " _
  ne_nil := by simp
  follow := by
    intro s rest h
    subst h
    exact Ahead.cons.2 (by decide)

theorem reads_values {vs : List Value} (hne : vs ≠ []) (hv : ∀ v ∈ vs, v.Representable)
    (ht : values vs t) (hr : AfterValues rest) :
    Reads grammar (.rule .valueList) (t ++ rest) (.matched rest [.node (.values vs)] []) :=
  (reads_each_value hv).list rfl (listNode_map Node.value?_ofValue _ _ _) hne
    (hr.imp fun _ hc => hc.1) (hr.stops _) ht

/-! ## Pairs -/

/-- The end of a line, or of the text. -/
def AtLineEnd (rest : List Char) : Prop := Ahead (fun c => isBlank c ∨ isBreak c) rest

theorem AtLineEnd.afterValues (h : AtLineEnd rest) : AfterValues rest :=
  h.imp fun c hc => by rcases hc with (rfl | rfl) | (rfl | rfl) <;> decide

theorem AtLineEnd.not_digit (h : AtLineEnd rest) : Ahead (·.isDigit ≠ true) rest :=
  h.afterValues.imp fun _ hc => hc.1

theorem atLineEnd_of_isBreak {s : List Char} (hne : s ≠ []) (hs : ∀ c ∈ s, isBreak c)
    (rest : List Char) : AtLineEnd (s ++ rest) := by
  obtain ⟨c, s, rfl⟩ := List.exists_cons_of_ne_nil hne
  exact Ahead.cons.2 (.inr (hs c (by simp)))

theorem atLineEnd_of_newline (h : newline t) (rest : List Char) : AtLineEnd (t ++ rest) :=
  atLineEnd_of_isBreak (newline_ne_nil h) (newline_isBreak h) rest

/-- Whatever a line starts with is ahead of it too when it is indented, if it may be a blank. -/
theorem ahead_indented {p : Char → Prop} (hp : ∀ c, isBlank c → p c) (hw : blanks w)
    (hcs : Ahead p cs) : Ahead p (w ++ cs) :=
  .append (fun c hc => hp c (hw c (List.mem_of_mem_head? hc))) hcs

theorem not_isBlank_of_isAlpha {c : Char} (h : c.isAlpha = true) : ¬ isBlank c := by
  rintro (rfl | rfl) <;> exact absurd h (by decide)

theorem ne_newline_of_isAlpha {c : Char} (h : c.isAlpha = true) : c ≠ '\n' := by
  intro hp
  subst hp
  exact absurd h (by decide)

theorem ne_newline_of_isBlank {c : Char} (h : isBlank c) : c ≠ '\n' := by
  rcases h with rfl | rfl <;> decide

/-- The blanks before a line that starts with a letter. -/
theorem takes_indent (hw : blanks w) (hcs : Ahead (·.isAlpha = true) cs) :
    Takes grammar Form.blanks (w ++ cs) cs [] :=
  takes_blanks hw (hcs.imp fun _ => not_isBlank_of_isAlpha)

/-- The line end before a line that starts with a letter, indented or not. -/
theorem takes_newline_before (ht : newline t) (hw : blanks w)
    (hcs : Ahead (·.isAlpha = true) cs) :
    Takes grammar Form.newline (t ++ (w ++ cs)) (w ++ cs) [] :=
  takes_newline ht fun _ => ahead_indented (fun _ => ne_newline_of_isBlank) hw
    (hcs.imp fun _ => ne_newline_of_isAlpha)

theorem reads_pair {p : Pair} (hp : p.Representable) (ht : indented (pair p) t)
    (hr : AtLineEnd rest) :
    Reads grammar (.rule .pair) (t ++ rest) (.matched rest [.node (.pair p)] []) := by
  obtain ⟨w, _, rfl, hw, _, _, rfl, rfl, _, _, rfl, rfl, v, _, rfl, hv, rfl⟩ := ht
  obtain ⟨hkey, hne, hvs⟩ := hp
  simp only [List.append_assoc, List.nil_append]
  have hahead : Ahead (·.isAlpha = true) (p.key.toList ++ (": ".toList ++ (v ++ rest))) :=
    ahead_key hkey
  have hblanks := takes_indent hw hahead
  have hkey : Takes grammar (.rule .key) (p.key.toList ++ ':' :: ' ' :: (v ++ rest)) _ _ :=
    .of_node (reads_key hkey)
  have hvalues := Takes.of_node (reads_values hne hvs hv hr.afterValues)
  refine TakesSeq.node rfl rfl (.next hblanks (.capture hkey (.next (.literal ": " _)
    (.commit (.capture hvalues .nil))))) fun bs hb => ?_
  exact Action.pair_eq (by simp [hb.nodes]) (by simp [hb.nodes])

/-! ## Lists of pairs -/

/-- No pair starts with anything but a letter, indented or not. -/
theorem pair_failed (hw : blanks w) (hb : Ahead (¬ isBlank ·) cs)
    (ha : Ahead (·.isAlpha ≠ true) cs) : Reads grammar (.rule .pair) (w ++ cs) .failed := by
  obtain ⟨items, hi, -⟩ := takes_blanks hw hb
  have hkey : Reads grammar (.rule .key) cs .failed := by
    refine .acting_unmatched rfl (.capture_unmatched (.seq_failed (.oneOrMore (.missing ?_)))
      (.inl rfl)) (.inl rfl)
    exact oneOf_failed_of_ahead (ha.imp fun c hc => by rwa [contains_letter])
  exact .acting_unmatched rfl
    (.seq_failed_second hi (.capture_unmatched hkey (.inl rfl)) nofun) (.inl rfl)

/-- What follows the last pair of a list: the end of its line, and then no line like a pair. -/
structure Ends (rest : List Char) : Prop where
  line : AtLineEnd rest
  stops : Reads grammar (.seq [.ignore Form.newline, .rule .pair]) rest .failed

theorem reads_each_pair {s : Sequence} (hs : s.Writable) :
    ReadsEach grammar .pair Form.newline (fun p => indented (pair p)) .pair newline AtLineEnd
      s where
  reads p hp t rest ht hr := reads_pair (hs p hp) ht hr
  separates := by
    intro p hp s t rest hs' h
    obtain ⟨w, _, rfl, hw, k, v, rfl, rfl, -⟩ := h
    simp only [List.append_assoc]
    exact takes_newline_before hs' hw (ahead_key (hs p hp).1)
  ne_nil s := newline_ne_nil
  follow s rest hs := atLineEnd_of_newline hs rest

theorem reads_pairs {s : Sequence} (hs : s.Representable) (ht : lines (pairs s) t)
    (hr : Ends rest) :
    Reads grammar (.rule .pairList) (t ++ rest) (.matched rest [.node (.pairs s)] []) :=
  (reads_each_pair hs.2).list rfl (listNode_map (f := Node.pair) (fun _ => rfl) _ _ _) hs.1 hr.line
    hr.stops ht

theorem lines_cons {p : Language} {ps : List Language} (hne : ps ≠ []) (ht : lines (p :: ps) t) :
    ∃ a n b, t = a ++ (n ++ b) ∧ p a ∧ newline n ∧ lines ps b := by
  rw [lines, Language.joined_cons_of_ne_nil _ _ hne] at ht
  obtain ⟨a, _, rfl, ha, n, b, rfl, hn, hb⟩ := ht
  exact ⟨a, n, b, rfl, ha, hn, hb⟩

theorem takes_newline_pairs {s : Sequence} (hs : s.Representable) (ht : newline t)
    (hw : lines (pairs s) w) : Takes grammar Form.newline (t ++ (w ++ rest)) (w ++ rest) [] := by
  obtain ⟨hne, hs⟩ := hs
  obtain ⟨p, s, rfl⟩ := List.exists_cons_of_ne_nil hne
  rw [lines, pairs, List.map_cons, Language.joined_cons] at hw
  obtain ⟨_, u, rfl, ⟨b, _, rfl, hb, k, v, rfl, rfl, -⟩, -⟩ := hw
  simp only [List.append_assoc]
  exact takes_newline_before ht hb (ahead_key (hs p (by simp)).1)

/-- An empty line ends a list of pairs. -/
theorem ends_of_gap (hw : gap w) (rest : List Char) : Ends (w ++ rest) := by
  obtain ⟨hlines, hgap⟩ := hw
  have hbreak := newlines_isBreak hlines
  refine ⟨atLineEnd_of_isBreak (newlines_ne_nil hlines) hbreak rest, ?_⟩
  obtain ⟨c, cs, rfl⟩ := List.exists_cons_of_ne_nil (newlines_ne_nil hlines)
  obtain ⟨t, u, hcs, ht, hwhole⟩ := exists_newline (hbreak c (by simp)) cs
  obtain ⟨d, u, rfl⟩ : ∃ d v, u = d :: v := by
    refine List.exists_cons_of_ne_nil ?_
    intro hp
    subst hp
    rw [List.append_nil] at hcs
    exact hgap (hcs ▸ ht)
  rw [hcs] at hbreak ⊢
  have hd : isBreak d := hbreak d (by simp)
  rw [List.append_assoc]
  refine stops_of_element (takes_newline ht fun h => by simpa using hwhole h) ?_
  refine pair_failed (w := []) (by simp [blanks]) (Ahead.cons.2 ?_) (Ahead.cons.2 ?_)
  · rcases hd with rfl | rfl <;> simp [isBlank]
  · rcases hd with rfl | rfl <;> decide

theorem ends_of_trailing (hr : trailing rest) : Ends rest := by
  refine ⟨fun c hc => hr c (List.mem_of_mem_head? hc), ?_⟩
  cases rest with
  | nil => exact stops_of_separator (newline_failed .nil)
  | cons c cs =>
    rcases hr c (by simp) with hc | hc
    · refine stops_of_separator (newline_failed (Ahead.cons.2 ?_))
      rcases hc with rfl | rfl <;> simp [isBreak]
    · obtain ⟨t, u, hcs, ht, hwhole⟩ := exists_newline hc cs
      rw [hcs] at hr ⊢
      refine stops_of_element (takes_newline ht hwhole) ?_
      obtain ⟨w, v, rfl, hw, hv⟩ := exists_run isBlank u
      refine pair_failed hw hv fun d hd => ?_
      rcases hr d (by simp [List.mem_of_mem_head? hd]) with (rfl | rfl) | (rfl | rfl) <;> decide

end Fleet.Document
