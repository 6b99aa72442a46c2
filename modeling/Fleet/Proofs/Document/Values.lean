import Fleet.Proofs.Accepted.Refusals
import Fleet.Proofs.Document.Answers
import Fleet.Proofs.Document.Rendering
/-!
Which texts are lists of values: tokens with a comma and a space between every two. The number that
a token spells may be too large, and then the first such token is what the list is refused for
(`valueList_read`).
-/

namespace Fleet.Document
open Fleet.Peg Fleet.Text Layout Language

variable {t w rest : List Char}

/-- One element of a list of values as it stands in the text. -/
inductive Token where
  | quoted (mark : Char) (text : String) (hm : mark = '\'' ∨ mark = '"')
      (ht : ∀ c ∈ text.toList, c ≠ mark ∧ ¬ isBreak c)
  | digits (text : String) (h : IsNumeral text.toList)

namespace Token

def spelling : Token → String
  | quoted mark text _ _ => mark.toString ++ text ++ mark.toString
  | digits text _ => text

/-- What the token says, unless its number does not fit in 64 bits. -/
def value? : Token → Option Value
  | quoted _ text _ _ => some (.quoted text)
  | digits text _ =>
    if decimalValue text.toList < UInt64.size then
      some (.integer (.ofNat (decimalValue text.toList)))
    else none

/-- The token in the quotes in which its text is written: single ones unless it holds one. -/
def requoted : Token → Token
  | quoted mark text hm ht =>
    if h : '\'' ∈ text.toList then quoted mark text hm ht
    else quoted '\'' text (.inl rfl) fun c hc => ⟨fun he => h (he ▸ hc), (ht c hc).2⟩
  | digits text h => digits text h

theorem value?_digits {text : String} (h : IsNumeral text.toList) :
    (digits text h).value? = (readUInt64? text).map .integer := by
  obtain ⟨c, w, hcw, -, hdigits⟩ := id h
  rw [readUInt64?_of_digits (by simp [hcw]) hdigits]
  by_cases hlt : decimalValue text.toList < UInt64.size
  · rw [if_pos hlt]
    exact if_pos hlt
  · rw [if_neg hlt]
    exact if_neg hlt

theorem spelling_ne_nil (token : Token) : token.spelling.toList ≠ [] := by
  cases token with
  | quoted mark text => simp [spelling]
  | digits text h =>
    obtain ⟨c, w, hcw, -⟩ := id h
    simp [spelling, hcw]

/-- A value comes from a token that is a layout of it. -/
theorem layout_of_value? {token : Token} {v : Value} (h : token.value? = some v) :
    v.Representable ∧ value v token.spelling.toList := by
  cases token with
  | quoted mark text hm ht =>
    obtain rfl := Option.some.inj h
    have hmark : mark ∉ text.toList := fun hc => (ht mark hc).1 rfl
    refine ⟨⟨fun hc => (ht _ hc).2 (.inl rfl), fun hc => (ht _ hc).2 (.inr rfl), ?_⟩,
      mark, hm, hmark, by simp [spelling]⟩
    rintro ⟨hs, hd⟩
    rcases hm with rfl | rfl
    · exact hmark hs
    · exact hmark hd
  | digits text hnumeral =>
    rw [value?_digits] at h
    obtain ⟨n, hn, rfl⟩ := Option.map_eq_some_iff.1 h
    obtain ⟨c, w, hcw, hzero, hdigits⟩ := hnumeral
    obtain ⟨hne, hspelled⟩ := toString_of_readUInt64? hcw hzero (hcw ▸ hdigits) hn
    exact ⟨hne, hcw.trans hspelled.symm⟩

theorem exists_of_layout {v : Value} (hv : v.Representable) (ht : value v t) :
    ∃ token : Token, token.value? = some v ∧ t = token.spelling.toList := by
  cases v with
  | quoted text =>
    obtain ⟨mark, hm, hmark, rfl⟩ := ht
    obtain ⟨hlf, hcr, -⟩ := hv
    have hchars : ∀ c ∈ text.toList, c ≠ mark ∧ ¬ isBreak c := by
      refine fun c hc => ⟨fun he => hmark (he ▸ hc), ?_⟩
      rintro (rfl | rfl)
      · exact hlf hc
      · exact hcr hc
    exact ⟨.quoted mark text hm hchars, rfl, by simp [spelling]⟩
  | integer n =>
    have hnumeral := isNumeral_toString fun h => hv (UInt64.toNat_inj.1 h)
    exact ⟨.digits _ hnumeral, by rw [value?_digits, readUInt64?_toString]; rfl, ht⟩

theorem render_of_value? {token : Token} {v : Value} (h : token.value? = some v) :
    v.render = token.requoted.spelling := by
  obtain ⟨hv, ht⟩ := layout_of_value? h
  cases token with
  | quoted mark text hm htext =>
    obtain rfl := Option.some.inj h
    rw [Value.render, quoteValue, requoted]
    by_cases hs : '\'' ∈ text.toList
    · obtain rfl : mark = '"' := hm.resolve_left fun he => (htext _ hs).1 he.symm
      rw [if_pos (by simpa using hs), dif_pos hs]
      rfl
    · rw [if_neg (by simpa using hs), dif_neg hs]
      rfl
  | digits text hnumeral =>
    rw [value?_digits] at h
    obtain ⟨n, -, rfl⟩ := Option.map_eq_some_iff.1 h
    exact (String.toList_inj.1 ht).symm

end Token

/-- Tokens with a comma and a space between every two. -/
def spelled (tokens : List Token) : String := ", ".intercalate (tokens.map Token.spelling)

theorem forall₂_value? {tokens : List Token} {vs : List Value} :
    List.Forall₂ (fun token v => token.value? = some v) tokens vs ↔
      tokens.map Token.value? = vs.map some := by
  rw [← List.forall₂_eq_eq_eq, List.forall₂_map_left_iff, List.forall₂_map_right_iff]

/-- Tokens with values are a layout of these. -/
theorem values_spelled {tokens : List Token} {vs : List Value}
    (h : tokens.map Token.value? = vs.map some) :
    (∀ v ∈ vs, v.Representable) ∧ values vs (spelled tokens).toList := by
  have hsome : ∀ token ∈ tokens, ∃ v ∈ vs, token.value? = some v := by
    intro token hm
    have hmem : token.value? ∈ vs.map some := h ▸ List.mem_map_of_mem hm
    obtain ⟨v, hv, he⟩ := List.mem_map.1 hmem
    exact ⟨v, hv, he.symm⟩
  have hlayout : ∀ token ∈ tokens, ∀ t, word token.spelling t →
      ∃ v, token.value? = some v ∧ value v t := by
    intro token hm t ht
    obtain ⟨v, -, hv⟩ := hsome token hm
    obtain rfl := ht
    exact ⟨v, hv, (Token.layout_of_value? hv).2⟩
  obtain ⟨vs', hvs', ht⟩ := exists_joined hlayout (joined_word_iff.2 rfl)
  obtain rfl : vs' = vs :=
    List.map_injective_iff.2 (fun _ _ => Option.some.inj) ((forall₂_value?.1 hvs').symm.trans h)
  refine ⟨fun v hv => ?_, ht⟩
  have hmem : some v ∈ tokens.map Token.value? := h ▸ List.mem_map_of_mem hv
  obtain ⟨token, -, htoken⟩ := List.mem_map.1 hmem
  exact (Token.layout_of_value? htoken).1

/-- Every layout of values that can be written is spelled by tokens. -/
theorem exists_spelled {vs : List Value} (hvs : ∀ v ∈ vs, v.Representable) (ht : values vs t) :
    ∃ tokens : List Token, tokens.map Token.value? = vs.map some ∧ t = (spelled tokens).toList := by
  have htoken : ∀ v ∈ vs, ∀ t, value v t → ∃ token : Token, token.value? = some v ∧
      word token.spelling t :=
    fun v hv t ht => Token.exists_of_layout (hvs v hv) ht
  obtain ⟨tokens, htokens, ht⟩ := exists_joined htoken ht
  exact ⟨tokens, forall₂_value?.1 htokens.flip, joined_word_iff.1 ht⟩

theorem exists_values {tokens : List Token} (h : ∀ token ∈ tokens, token.value? ≠ none) :
    ∃ vs : List Value, tokens.map Token.value? = vs.map some := by
  induction tokens with
  | nil => exact ⟨[], rfl⟩
  | cons token tokens ih =>
    obtain ⟨v, hv⟩ := Option.ne_none_iff_exists'.1 (h token (by simp))
    obtain ⟨vs, hvs⟩ := ih fun token' hm => h token' (by simp [hm])
    exact ⟨v :: vs, by simp [hv, hvs]⟩

theorem renderValues_eq {tokens : List Token} {vs : List Value}
    (h : tokens.map Token.value? = vs.map some) :
    renderValues vs = spelled (tokens.map Token.requoted) := by
  have hrender : tokens.map (fun token => token.requoted.spelling) = vs.map Value.render := by
    rw [← List.forall₂_eq_eq_eq, List.forall₂_map_left_iff, List.forall₂_map_right_iff]
    exact (forall₂_value?.2 h).imp fun _ _ h => (Token.render_of_value? h).symm
  rw [renderValues, spelled, ← hrender, List.map_map]
  rfl

/-! ## Integers that are too large -/

/-- What follows a token is no digit. -/
theorem ahead_after_token {tokens : List Token}
    (ht : concat ((tokens.map fun token => word token.spelling).map (append (word ", "))) t) :
    Ahead (·.isDigit ≠ true) t := by
  cases tokens with
  | nil =>
    obtain rfl := ht
    exact .nil
  | cons token tokens =>
    obtain ⟨_, u, rfl, ⟨s, v, rfl, rfl, -⟩, -⟩ := ht
    exact Ahead.cons.2 (by decide)

theorem aborts_value {text : String} (h : IsNumeral text.toList)
    (hlarge : (Token.digits text h).value? = none) (hr : Ahead (·.isDigit ≠ true) rest) :
    Aborts grammar (.rule .value) (text.toList ++ rest)
      (some (.invalidValue (.tooLarge text))) := by
  have hquoted : Reads grammar (.rule .quoted) (text.toList ++ rest) .failed :=
    quoted_failed_of_digit (ahead_numeral h)
  have hrefused : Action.integer ⟨[] ++ (textItems text.toList).map ("digits", ·)⟩ =
      .error (.invalidValue (.tooLarge text)) := by
    have hread : readUInt64? text = none := by
      rw [Token.value?_digits] at hlarge
      simpa using hlarge
    simp only [Action.integer, List.nil_append, text_textItems, String.ofList_toList, hread]
  have hinteger : Aborts grammar (.rule .integer) (text.toList ++ rest) _ :=
    .refused rfl (reads_digits h hr) hrefused
  have hbefore : ∀ x ∈ [.rule .quoted], Reads grammar x (text.toList ++ rest) .failed := by
    simpa using hquoted
  exact .rule (.choice hbefore hinteger)

/-- A list is refused for the first of its integers that are too large. -/
theorem aborts_valueList {before after : List Token} {digits : String}
    {h : IsNumeral digits.toList} (hbefore : ∀ token ∈ before, token.value? ≠ none)
    (hlarge : (Token.digits digits h).value? = none) :
    Aborts grammar (.rule .valueList) (spelled (before ++ .digits digits h :: after)).toList
      (some (.invalidValue (.tooLarge digits))) := by
  let lang : Token → Language := fun token => word token.spelling
  have hvalue {t : List Char} (ht : joined (word ", ") ((.digits digits h :: after).map lang) t) :
      Aborts grammar (.rule .value) t (some (.invalidValue (.tooLarge digits))) := by
    rw [List.map_cons, joined_cons] at ht
    obtain ⟨_, u, rfl, rfl, hu⟩ := ht
    exact aborts_value h hlarge (ahead_after_token hu)
  have hall : joined (word ", ") ((before ++ .digits digits h :: after).map lang)
      (spelled (before ++ .digits digits h :: after)).toList :=
    joined_word_iff.2 rfl
  by_cases hne : before = []
  · subst hne
    exact .list_first rfl (hvalue hall)
  · rw [List.map_append, joined_append _ (by simpa using hne) (by simp)] at hall
    obtain ⟨w, _, hw, hfirst, _, rest, rfl, rfl, hrest⟩ := hall
    obtain ⟨vs, hvs⟩ := exists_values hbefore
    obtain rfl : w = (spelled before).toList := joined_word_iff.1 hfirst
    obtain ⟨hrep, hvalues⟩ := values_spelled hvs
    rw [hw]
    exact .list_next rfl (reads_each_value hrep) (fun h => hne (by simpa [h] using hvs)) hvalues rfl
      (.literal ", " rest) (hvalue hrest)

/-! ## What a list of values is answered with -/

section Answers
variable {source text : String} {vs : List Value}

theorem values_ok_iff :
    (grammar.read .valueList source text).outcome = .ok [.values vs] ↔
      (vs ≠ [] ∧ ∀ v ∈ vs, v.Representable) ∧ values vs text.toList :=
  read_made_iff (fun _ _ => Node.values.inj) accepts_values fun vs t hvs ht => by
    simpa using reads_values hvs.1 hvs.2 ht .nil

theorem valueList_ok_iff :
    (grammar.read .valueList source text).outcome = .ok [.values vs] ↔
      ∃ tokens : List Token, tokens ≠ [] ∧ tokens.map Token.value? = vs.map some ∧
        text = spelled tokens := by
  rw [values_ok_iff]
  constructor
  · intro h
    obtain ⟨⟨hne, hvs⟩, hvalues⟩ := h
    obtain ⟨tokens, htokens, hspelled⟩ := exists_spelled hvs hvalues
    refine ⟨tokens, ?_, htokens, String.toList_inj.1 hspelled⟩
    rintro rfl
    exact hne (by simpa using htokens.symm)
  · intro h
    obtain ⟨tokens, hne, htokens, rfl⟩ := h
    obtain ⟨hvs, hvalues⟩ := values_spelled htokens
    exact ⟨⟨fun h => hne (by simpa [h] using htokens), hvs⟩, hvalues⟩

theorem valueList_tooLarge {before after : List Token} {digits : String}
    {h : IsNumeral digits.toList} (hbefore : ∀ token ∈ before, token.value? ≠ none)
    (hlarge : (Token.digits digits h).value? = none)
    (ht : text = spelled (before ++ .digits digits h :: after)) :
    (grammar.read .valueList source text).outcome =
      .error (.invalidValue (.tooLarge digits)) := by
  subst ht
  exact read_refused (aborts_valueList hbefore hlarge)

/-- The rules that a list of values is made of. -/
def valueSymbols : List Symbol :=
  [.valueList, .value, .quoted, .singleQuoted, .doubleQuoted, .newline, .integer]

/-- A list of values is refused for nothing but an integer. -/
theorem valueList_refused {e : Fault} (h : Aborts grammar (.rule .valueList) t (some e)) :
    ∃ digits, e = .invalidValue (.tooLarge digits) := by
  have hsymbols : ∀ i ∈ valueSymbols, ∀ j ∈ (grammar.rule i).body.refers, j ∈ valueSymbols := by
    decide
  obtain ⟨id, hid, action, _, _, _, _, ha, hr, he⟩ := h.refused_among hsymbols (by decide)
  have hby := refusedBy_of_body ha hr he
  cases hby with
  | integer digits => exact ⟨digits, rfl⟩
  | pool | start => exact absurd hid (by decide)

/-- A list of values is yielded just from tokens with a comma and a space between every two whose
numbers all fit. Of tokens with a number that does not fit, the first such is refused. Any other
text is malformed, or refused for a number on the way to where it is. The values are written as they
were read, but for the quotes. -/
theorem valueList_read (source text : String) :
    (∀ vs, (grammar.read .valueList source text).outcome = .ok [.values vs] ↔
        ∃ tokens : List Token, tokens ≠ [] ∧ tokens.map Token.value? = vs.map some ∧
          text = spelled tokens) ∧
      (∀ before digits h after, (∀ token ∈ before, token.value? ≠ none) →
        (Token.digits digits h).value? = none →
        text = spelled (before ++ .digits digits h :: after) →
        (grammar.read .valueList source text).outcome =
          .error (.invalidValue (.tooLarge digits))) ∧
      ((∀ tokens, tokens ≠ [] → text ≠ spelled tokens) →
        (∃ report, (grammar.read .valueList source text).outcome = .error (.malformed report)) ∨
          ∃ digits, (grammar.read .valueList source text).outcome =
            .error (.invalidValue (.tooLarge digits))) ∧
      ∀ (tokens : List Token) vs, tokens.map Token.value? = vs.map some →
        renderValues vs = spelled (tokens.map Token.requoted) := by
  refine ⟨fun vs => valueList_ok_iff, fun _ _ _ _ => valueList_tooLarge, fun h => ?_,
    fun _ _ => renderValues_eq⟩
  rcases read_cases .valueList source text with ⟨nodes, hok⟩ | hreport | ⟨e, he, haborts⟩
  · obtain ⟨items, bs, hr, rfl⟩ := read_ok_iff.1 hok
    obtain ⟨vs, hvs⟩ := accepts_values.exists_node hr
    obtain ⟨tokens, hne, -, ht⟩ := valueList_ok_iff.1 (hvs ▸ hok)
    exact absurd ht (h tokens hne)
  · exact .inl hreport
  · obtain ⟨digits, rfl⟩ := valueList_refused haborts
    exact .inr ⟨digits, he⟩

end Answers

/-- A list with a quote and a comma in its texts, one with two numbers that are too large, and a
text that is no list at all. -/
theorem valueList_read_quotes :
    (grammar.read .valueList "" "\"it's\", \"a, b\", 80").outcome =
        .ok [.values [.quoted "it's", .quoted "a, b", .integer 80]] ∧
      renderValues [.quoted "it's", .quoted "a, b", .integer 80] = "\"it's\", 'a, b', 80" ∧
      (grammar.read .valueList "" "80, 18446744073709551616, 99999999999999999999").outcome =
        .error (.invalidValue (.tooLarge "18446744073709551616")) ∧
      ((∃ report, (grammar.read .valueList "" "").outcome = .error (.malformed report)) ∨
        ∃ digits, (grammar.read .valueList "" "").outcome =
          .error (.invalidValue (.tooLarge digits))) := by
  let its : Token := .quoted '"' "it's" (.inr rfl) (by simp [isBreak])
  let ab : Token := .quoted '"' "a, b" (.inr rfl) (by simp [isBreak])
  let eighty : Token := .digits "80" (by decide)
  let larger : Token := .digits "99999999999999999999" (by decide)
  have hvalues : [its, ab, eighty].map Token.value? =
      [.quoted "it's", .quoted "a, b", .integer 80].map some := by
    decide +kernel
  have hempty : ∀ tokens : List Token, tokens ≠ [] → "" ≠ spelled tokens := by
    intro tokens hne he
    obtain ⟨token, tokens, rfl⟩ := List.exists_cons_of_ne_nil hne
    have hjoined := joined_word_iff.2 (congrArg String.toList he)
    rw [List.map_cons, joined_cons] at hjoined
    obtain ⟨a, b, hab, rfl, -⟩ := hjoined
    exact token.spelling_ne_nil (List.append_eq_nil_iff.1 hab.symm).1
  obtain ⟨hok, -, -, hrender⟩ := valueList_read "" "\"it's\", \"a, b\", 80"
  obtain ⟨-, hrefused, -, -⟩ :=
    valueList_read "" "80, 18446744073709551616, 99999999999999999999"
  obtain ⟨-, -, hother, -⟩ := valueList_read "" ""
  refine ⟨(hok _).2 ⟨[its, ab, eighty], by simp, hvalues, by decide +kernel⟩, ?_, ?_,
    hother hempty⟩
  · exact (hrender _ _ hvalues).trans (by decide +kernel)
  · exact hrefused [eighty] "18446744073709551616" (by decide) [larger] (by decide +kernel)
      (by decide +kernel) (by decide +kernel)

end Fleet.Document
