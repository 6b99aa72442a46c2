import Fleet.Text.Cursor
/-!
Line ends. In a text whose lines end with a line feed every one of these may be replaced by another
line end (`LineEnd.put`). The same place in both texts is before the same characters, up to line
ends (`Beside.next`, `Beside.strip`), it is before or after another in both (`Beside.offset_lt`),
and with CR LF it has the same line and column in both (`Beside.line_column`).
-/

namespace Fleet.Text

/-- What a line feed may be replaced by. -/
inductive LineEnd where
  | crlf | cr
deriving DecidableEq, Repr

namespace LineEnd

def chars : LineEnd → List Char
  | crlf => ['\r', '\n']
  | cr => ['\r']

/-- Every line feed replaced. -/
def put (eol : LineEnd) (cs : List Char) : List Char :=
  cs.flatMap fun c => if c = '\n' then eol.chars else [c]

def write (eol : LineEnd) (text : String) : String := String.ofList (eol.put text.toList)

variable (eol : LineEnd)

@[simp] theorem put_nil : eol.put [] = [] := rfl

@[simp] theorem put_lineFeed (cs : List Char) : eol.put ('\n' :: cs) = eol.chars ++ eol.put cs := by
  simp [put]

theorem put_cons {c : Char} (h : c ≠ '\n') (cs : List Char) :
    eol.put (c :: cs) = c :: eol.put cs := by
  simp [put, h]

@[simp] theorem put_append (cs ds : List Char) : eol.put (cs ++ ds) = eol.put cs ++ eol.put ds :=
  List.flatMap_append

theorem chars_ne_nil : eol.chars ≠ [] := by cases eol <;> simp [chars]

@[simp] theorem put_eq_nil_iff {cs : List Char} : eol.put cs = [] ↔ cs = [] := by
  cases cs with
  | nil => simp
  | cons c cs =>
    by_cases h : c = '\n'
    · subst h
      simp [chars_ne_nil]
    · simp [put_cons eol h]

@[simp] theorem toList_write (text : String) : (eol.write text).toList = eol.put text.toList :=
  String.toList_ofList

/-- Only in a text with CR LF is there a line feed left. -/
theorem lineFeed_not_mem_put_cr (cs : List Char) : '\n' ∉ cr.put cs := by
  induction cs with
  | nil => simp
  | cons c cs ih =>
    by_cases h : c = '\n'
    · subst h
      simpa [chars] using ih
    · simpa [put_cons cr h, Ne.symm h] using ih

end LineEnd

namespace Cursor

/-- The cursor between two parts of a text. -/
def between (before rest : List Char) : Cursor := ⟨rest, before.foldl Position.after .start⟩

theorem next?_between (before : List Char) (c : Char) (rest : List Char) :
    (between before (c :: rest)).next? = some (c, between (before ++ [c]) rest) := by
  simp [between, next?]

theorem strip?_between (word before rest : List Char) :
    (between before (word ++ rest)).strip? word = some (between (before ++ word) rest) := by
  induction word generalizing before with
  | nil => simp [strip?]
  | cons c word ih =>
    have h := ih (before ++ [c])
    simp only [between, List.foldl_append, List.foldl_cons, List.foldl_nil] at h
    simpa [between, strip?] using h

theorem strip?_cons {c d : Char} {word : List Char} {k l : Cursor} (h : k.next? = some (d, l)) :
    k.strip? (c :: word) = if c = d then l.strip? word else none := by
  obtain ⟨_ | ⟨d, rest⟩, p⟩ := k
  · simp [next?] at h
  · simp only [next?, Option.some.injEq, Prod.mk.injEq] at h
    obtain ⟨rfl, rfl⟩ := h
    rfl

theorem strip?_cons_of_end {c : Char} {word : List Char} {k : Cursor} (h : k.next? = none) :
    k.strip? (c :: word) = none := by
  obtain ⟨_ | ⟨d, rest⟩, p⟩ := k
  · rfl
  · simp [next?] at h

theorem exists_next? {c : Char} {rest : List Char} {k : Cursor} (h : k.rest = c :: rest) :
    ∃ l, k.next? = some (c, l) := by
  obtain ⟨cs, p⟩ := k
  obtain rfl : cs = c :: rest := h
  exact ⟨_, rfl⟩

/-- A word takes a cursor on. -/
theorem offset_lt_of_strip? {k l : Cursor} {c : Char} {word : List Char}
    (h : k.strip? (c :: word) = some l) : k.offset < l.offset := by
  have hreaches : k.Reaches l := ⟨_, h⟩
  rcases hreaches.eq_or_shorter with rfl | ⟨hlt, -⟩
  · have hlen := congrArg List.length (strip?_rest h)
    simp only [List.length_append, List.length_cons] at hlen
    omega
  · exact hlt

theorem Reaches.offset_le {k l : Cursor} (h : k.Reaches l) : k.offset ≤ l.offset := by
  rcases h.eq_or_shorter with rfl | ⟨hlt, -⟩
  · exact Nat.le_refl _
  · exact Nat.le_of_lt hlt

theorem offset_foldl (cs : List Char) (p : Position) :
    (cs.foldl Position.after p).offset = cs.foldl (fun n c => n + c.utf8Size) p.offset := by
  induction cs generalizing p with
  | nil => rfl
  | cons c cs ih => simp [ih]

theorem offset_between_le {before more rest rest' : List Char} :
    (between before rest).offset ≤ (between (before ++ more) rest').offset := by
  simp only [offset, between, offset_foldl, List.foldl_append]
  exact le_foldl_utf8Size more _

/-- A place further on has the greater offset. -/
theorem offset_between_lt {before more rest rest' : List Char} :
    (between before rest).offset < (between (before ++ more) rest').offset ↔ more ≠ [] := by
  cases more with
  | nil => simp [offset, between]
  | cons c more =>
    have hpos := c.utf8Size_pos
    simp only [offset, between, offset_foldl, List.foldl_append, List.foldl_cons,
      Position.after_offset]
    refine iff_of_true (Nat.lt_of_lt_of_le ?_ (le_foldl_utf8Size more _)) (List.cons_ne_nil c more)
    omega

end Cursor

open Cursor

variable {k k' l l' : Cursor}

/-- Each line end begins with a carriage return. -/
theorem LineEnd.next?_chars (eol : LineEnd) {rest : List Char} (h : k.rest = eol.chars ++ rest) :
    ∃ l, k.next? = some ('\r', l) := by
  cases eol <;> exact exists_next? h

/-- Without line feeds there is no CR LF. -/
theorem LineEnd.strip?_crlf_of_cr {rest : List Char} (h : k.rest = cr.chars ++ cr.put rest) :
    k.strip? ['\r', '\n'] = none := by
  cases hstrip : k.strip? ['\r', '\n'] with
  | none => rfl
  | some l =>
    obtain hput : cr.put rest = '\n' :: l.rest := by
      simpa [h, chars] using Cursor.strip?_rest hstrip
    exact absurd (hput ▸ List.mem_cons_self) (lineFeed_not_mem_put_cr rest)

/-- The same place in a text and in what it is with other line ends. -/
def Beside (eol : LineEnd) (text : List Char) (k k' : Cursor) : Prop :=
  ∃ before rest, before ++ rest = text ∧ k = between before rest ∧
    k' = between (eol.put before) (eol.put rest)

namespace Beside
variable {eol : LineEnd} {text : List Char}

theorem start (eol : LineEnd) (text : String) :
    Beside eol text.toList (.ofText text) (.ofText (eol.write text)) :=
  ⟨[], text.toList, rfl, rfl, by simp [ofText, between]⟩

/-- Both texts end there, or they go on with one character of a line, or a line ends there. -/
theorem next (h : Beside eol text k k') (ht : '\r' ∉ text) :
    (k.next? = none ∧ k'.next? = none) ∨
      (∃ c l l', c ≠ '\n' ∧ c ≠ '\r' ∧ k.next? = some (c, l) ∧ k'.next? = some (c, l') ∧
        Beside eol text l l') ∨
      ∃ rest l l', k.rest = '\n' :: rest ∧ k'.rest = eol.chars ++ eol.put rest ∧
        k.strip? ['\n'] = some l ∧ k'.strip? eol.chars = some l' ∧ Beside eol text l l' := by
  obtain ⟨before, rest, rfl, rfl, rfl⟩ := h
  cases rest with
  | nil => exact .inl ⟨rfl, rfl⟩
  | cons c rest =>
    right
    by_cases hc : c = '\n'
    · subst hc
      right
      refine ⟨rest, _, between (eol.put before ++ eol.chars) (eol.put rest), rfl,
        eol.put_lineFeed rest, strip?_between ['\n'] before rest, ?_, before ++ ['\n'], rest,
        by simp, rfl, by simp⟩
      rw [LineEnd.put_lineFeed]
      exact strip?_between _ _ _
    · left
      have hr : c ≠ '\r' := by
        intro hp
        subst hp
        simp at ht
      refine ⟨c, _, between (eol.put before ++ [c]) (eol.put rest), hc, hr, next?_between _ _ _, ?_,
        before ++ [c], rest, by simp, rfl, by simp [eol.put_cons hc]⟩
      rw [eol.put_cons hc]
      exact next?_between _ _ _

/-- Both texts go on with a word without line ends, or neither does. -/
theorem strip (h : Beside eol text k k') (ht : '\r' ∉ text) {word : List Char}
    (hw : ∀ c ∈ word, c ≠ '\n' ∧ c ≠ '\r') :
    (k.strip? word = none ∧ k'.strip? word = none) ∨
      ∃ l l', k.strip? word = some l ∧ k'.strip? word = some l' ∧ Beside eol text l l' := by
  induction word generalizing k k' with
  | nil => exact .inr ⟨k, k', rfl, rfl, h⟩
  | cons c word ih =>
    obtain ⟨⟨hn, hr⟩, hw⟩ := List.forall_mem_cons.1 hw
    rcases h.next ht with ⟨hk, hk'⟩ | ⟨d, l, l', -, -, hk, hk', hl⟩ | ⟨rest, l, l', hk, hk', -⟩
    · exact .inl ⟨strip?_cons_of_end hk, strip?_cons_of_end hk'⟩
    · rw [strip?_cons hk, strip?_cons hk']
      by_cases hc : c = d
      · rw [if_pos hc, if_pos hc]
        exact ih hl hw
      · rw [if_neg hc, if_neg hc]
        exact .inl ⟨rfl, rfl⟩
    · obtain ⟨m, hm⟩ := exists_next? hk
      obtain ⟨m', hm'⟩ := eol.next?_chars hk'
      rw [strip?_cons hm, strip?_cons hm', if_neg hn, if_neg hr]
      exact .inl ⟨rfl, rfl⟩

theorem offset_lt (h : Beside eol text k k') (h' : Beside eol text l l') :
    k.offset < l.offset ↔ k'.offset < l'.offset := by
  obtain ⟨before, rest, rfl, rfl, rfl⟩ := h
  obtain ⟨before', rest', heq, rfl, rfl⟩ := h'
  rcases List.append_eq_append_iff.1 heq with ⟨more, rfl, -⟩ | ⟨more, rfl, -⟩
  · rw [LineEnd.put_append]
    exact iff_of_false (Nat.not_lt.2 offset_between_le) (Nat.not_lt.2 offset_between_le)
  · rw [offset_between_lt, LineEnd.put_append, offset_between_lt, ne_eq, ne_eq,
      LineEnd.put_eq_nil_iff]

theorem atEnd (h : Beside eol text k k') : k.atEnd = k'.atEnd := by
  obtain ⟨before, rest, rfl, rfl, rfl⟩ := h
  cases rest with
  | nil => rfl
  | cons c rest =>
    have hne : eol.put (c :: rest) ≠ [] := by simp
    simp [Cursor.atEnd, between, hne]

/-- What is left of the line is the same. -/
theorem line (h : Beside eol text k k') : k.line = k'.line := by
  obtain ⟨before, rest, rfl, rfl, rfl⟩ := h
  simp only [Cursor.line, between]
  congr 1
  induction rest with
  | nil => rfl
  | cons c rest ih =>
    by_cases hc : c = '\n'
    · subst hc
      cases eol <;> simp [LineEnd.chars]
    · rw [eol.put_cons hc, List.takeWhile_cons, List.takeWhile_cons, ih]

theorem line_column (h : Beside .crlf text k k') :
    k.pos.line = k'.pos.line ∧ k.pos.column = k'.pos.column := by
  obtain ⟨before, rest, rfl, rfl, rfl⟩ := h
  suffices hall : ∀ p p' : Position, p.line = p'.line ∧ p.column = p'.column →
      (before.foldl Position.after p).line = ((LineEnd.crlf.put before).foldl Position.after p').line ∧
        (before.foldl Position.after p).column =
          ((LineEnd.crlf.put before).foldl Position.after p').column from hall _ _ ⟨rfl, rfl⟩
  induction before with
  | nil => exact fun _ _ hp => hp
  | cons c before ih =>
    intro p p' hp
    by_cases hc : c = '\n'
    · subst hc
      rw [LineEnd.put_lineFeed, List.foldl_append]
      exact ih _ _ (by simp [LineEnd.chars, Position.after, hp])
    · rw [LineEnd.put_cons _ hc]
      exact ih _ _ (by simp [Position.after, hc, hp])

end Beside

end Fleet.Text
