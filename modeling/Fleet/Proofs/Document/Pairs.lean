import Fleet.Proofs.Document.Values
/-!
Which texts are pairs: a key after blanks or none, a colon with a space and a list of values
(`pair_read`). A text comes apart in this way at one place alone, whatever the values hold.
-/

namespace Fleet.Document
open Fleet.Peg Fleet.Text Layout Language

variable {source text : String} {p : Pair}

/-- Blanks, a key, a colon with a space, and the rest of a line. -/
structure Splits (text indent key rest : String) : Prop where
  blank : blanks indent.toList
  isKey : IsKey key
  text_eq : text = indent ++ key ++ ": " ++ rest

namespace Splits
variable {indent key rest indent' key' rest' : String}

/-- Behind the blanks comes a letter, and a key holds no colon. -/
theorem unique (h : Splits text indent key rest) (h' : Splits text indent' key' rest') :
    indent = indent' ∧ key = key' ∧ rest = rest' := by
  have hcolon {key : String} (hk : IsKey key) : ∀ c ∈ key.toList, c ≠ ':' :=
    fun c hc he => hk.colon_not_mem (he ▸ hc)
  have hletter {key : String} (hk : IsKey key) (cs : List Char) :
      Ahead (¬ isBlank ·) (key.toList ++ cs) :=
    (ahead_key hk).imp fun _ => not_isBlank_of_isAlpha
  have htext : indent.toList ++ (key.toList ++ ':' :: ' ' :: rest.toList) =
      indent'.toList ++ (key'.toList ++ ':' :: ' ' :: rest'.toList) := by
    simpa using congrArg String.toList (h.text_eq.symm.trans h'.text_eq)
  obtain ⟨hindent, hline⟩ :=
    run_unique h.blank h'.blank (hletter h.isKey _) (hletter h'.isKey _) htext
  obtain ⟨hkey, hrest⟩ := run_unique (hcolon h.isKey) (hcolon h'.isKey)
    (Ahead.cons.2 (by simp)) (Ahead.cons.2 (by simp)) hline
  refine ⟨String.toList_inj.1 hindent, String.toList_inj.1 hkey, String.toList_inj.1 ?_⟩
  simpa using hrest

end Splits

/-- A layout of a pair splits into its key and a layout of its values. -/
theorem indented_pair_iff :
    IsKey p.key ∧ indented (pair p) text.toList ↔
      ∃ indent list, Splits text indent p.key list ∧ values p.values list.toList := by
  constructor
  · intro h
    obtain ⟨hk, w, _, htext, hw, _, _, rfl, rfl, _, _, rfl, rfl, v, _, rfl, hv, rfl⟩ := h
    refine ⟨String.ofList w, String.ofList v, ⟨by simpa using hw, hk, String.toList_inj.1 ?_⟩,
      by simpa using hv⟩
    simpa using htext
  · intro h
    obtain ⟨indent, list, ⟨hw, hk, rfl⟩, hv⟩ := h
    refine ⟨hk, ?_⟩
    have hline : indented (pair p) (indent.toList ++ (p.key.toList ++ (": ".toList ++
        (list.toList ++ [])))) :=
      append_intro hw (append_intro rfl (append_intro rfl (append_intro hv rfl)))
    simpa using hline

theorem pair_ok_iff :
    (grammar.read .pair source text).outcome = .ok [.pair p] ↔
      ∃ indent list, Splits text indent p.key list ∧
        (grammar.read .valueList source list).outcome = .ok [.values p.values] := by
  rw [read_made_iff (fun _ _ => Node.pair.inj) accepts_pair
    fun p t hp ht => by simpa using reads_pair hp ht .nil]
  simp only [values_ok_iff]
  constructor
  · intro h
    obtain ⟨⟨hk, hvs⟩, ht⟩ := h
    obtain ⟨indent, list, hsplits, hlist⟩ := indented_pair_iff.1 ⟨hk, ht⟩
    exact ⟨indent, list, hsplits, hvs, hlist⟩
  · intro h
    obtain ⟨indent, list, hsplits, hvs, hlist⟩ := h
    obtain ⟨hk, ht⟩ := indented_pair_iff.2 ⟨indent, list, hsplits, hlist⟩
    exact ⟨⟨hk, hvs⟩, ht⟩

/-- A line is read as a pair just where it splits into a key and a list of values, which are those
of the pair, with the key as it stands in the line. Nothing but a pair is ever read, and a line
splits in one way at most. -/
theorem pair_read (source text : String) :
    (∀ p, (grammar.read .pair source text).outcome = .ok [.pair p] ↔
        ∃ indent list, Splits text indent p.key list ∧
          (grammar.read .valueList source list).outcome = .ok [.values p.values]) ∧
      (∀ nodes, (grammar.read .pair source text).outcome = .ok nodes → ∃ p, nodes = [.pair p]) ∧
      ∀ indent key list indent' key' list', Splits text indent key list →
        Splits text indent' key' list' → indent = indent' ∧ key = key' ∧ list = list' := by
  refine ⟨fun p => pair_ok_iff, fun nodes hok => ?_, fun _ _ _ _ _ _ h h' => h.unique h'⟩
  obtain ⟨items, bs, hr, rfl⟩ := read_ok_iff.1 hok
  exact accepts_pair.exists_node hr

/-- An indented pair with a space in its key, and with a colon and a space in a value. -/
theorem pair_read_spaced :
    (grammar.read .pair "" "\t inline bash: 'a: b', 80").outcome =
        .ok [.pair ⟨"inline bash", [.quoted "a: b", .integer 80]⟩] ∧
      ∀ indent key list, Splits "\t inline bash: 'a: b', 80" indent key list →
        indent = "\t " ∧ key = "inline bash" ∧ list = "'a: b', 80" := by
  let ab : Token := .quoted '\'' "a: b" (.inl rfl) (by simp [isBreak])
  let eighty : Token := .digits "80" (by decide)
  have hkey : IsKey "inline bash" := .of_joined "inline" "bash" (.inr rfl) rfl (by decide) rfl rfl
  have hsplits : Splits "\t inline bash: 'a: b', 80" "\t " "inline bash" "'a: b', 80" :=
    ⟨by simp [blanks, isBlank], hkey, by decide +kernel⟩
  have hlist : (grammar.read .valueList "" "'a: b', 80").outcome =
      .ok [.values [.quoted "a: b", .integer 80]] :=
    valueList_ok_iff.2 ⟨[ab, eighty], by simp, by decide +kernel, by decide +kernel⟩
  obtain ⟨hok, -, hunique⟩ := pair_read "" "\t inline bash: 'a: b', 80"
  exact ⟨(hok _).2 ⟨_, _, hsplits, hlist⟩, fun _ _ _ h => hunique _ _ _ _ _ _ h hsplits⟩

end Fleet.Document
