/-!
Places in a text. A cursor is what is left of a text together with the place where that begins.
Offsets count bytes of UTF-8; lines and columns count from one, columns in characters.
-/

namespace Fleet.Text

structure Position where
  offset : Nat
  line : Nat
  column : Nat
deriving DecidableEq, Repr

namespace Position

def start : Position := ⟨0, 1, 1⟩

/-- Only a line feed begins a line. A carriage return is an ordinary character of its line, so
that a text with CR LF line ends numbers its lines like one with LF. -/
def after (p : Position) (c : Char) : Position :=
  if c = '\n' then ⟨p.offset + c.utf8Size, p.line + 1, 1⟩
  else ⟨p.offset + c.utf8Size, p.line, p.column + 1⟩

@[simp] theorem after_offset (p : Position) (c : Char) :
    (p.after c).offset = p.offset + c.utf8Size := by
  unfold after; split <;> rfl

/-- The place is no further on than another: on a line before, or on the same line and not behind
it. -/
def Precedes (p q : Position) : Prop := p.line < q.line ∨ p.line = q.line ∧ p.column ≤ q.column

theorem Precedes.trans {p q r : Position} (h : p.Precedes q) (h' : q.Precedes r) :
    p.Precedes r := by
  unfold Precedes at h h' ⊢
  omega

theorem precedes_after (p : Position) (c : Char) : p.Precedes (p.after c) := by
  unfold after
  split
  · exact .inl p.line.lt_succ_self
  · exact .inr ⟨rfl, p.column.le_succ⟩

end Position

structure Cursor where
  rest : List Char
  pos : Position
deriving DecidableEq, Repr

namespace Cursor

def ofText (text : String) : Cursor := ⟨text.toList, .start⟩

def offset (k : Cursor) : Nat := k.pos.offset

def atEnd (k : Cursor) : Bool := k.rest.isEmpty

/-- The next character and the cursor behind it. -/
def next? : Cursor → Option (Char × Cursor)
  | ⟨[], _⟩ => none
  | ⟨c :: rest, p⟩ => some (c, ⟨rest, p.after c⟩)

/-- The cursor behind `word`, if the remaining text begins with it. -/
def strip? : List Char → Cursor → Option Cursor
  | [], k => some k
  | _ :: _, ⟨[], _⟩ => none
  | c :: word, ⟨d :: rest, p⟩ => if c = d then strip? word ⟨rest, p.after d⟩ else none

/-- The cursor `n` characters further on, or at the end of the text. -/
def skip : Nat → Cursor → Cursor
  | 0, k => k
  | _ + 1, ⟨[], p⟩ => ⟨[], p⟩
  | n + 1, ⟨c :: rest, p⟩ => skip n ⟨rest, p.after c⟩

/-- The first cursor whose offset is `target` or more, or the end of the text. -/
def seek (target : Nat) (k : Cursor) : Cursor := go k.rest k.pos
where
  go : List Char → Position → Cursor
    | [], p => ⟨[], p⟩
    | c :: rest, p => if target ≤ p.offset then ⟨c :: rest, p⟩ else go rest (p.after c)

/-- What is left of the current line. -/
def line (k : Cursor) : String :=
  String.ofList (k.rest.takeWhile fun c => c != '\n' && c != '\r')

theorem next?_rest {k k' : Cursor} {c : Char} (h : k.next? = some (c, k')) :
    k.rest = c :: k'.rest := by
  obtain ⟨rest, p⟩ := k
  cases rest with
  | nil => simp [next?] at h
  | cons d rest => simp only [next?, Option.some.injEq, Prod.mk.injEq] at h; simp [← h.1, ← h.2]

theorem rest_of_next?_none {k : Cursor} (h : k.next? = none) : k.rest = [] := by
  obtain ⟨_ | ⟨c, rest⟩, p⟩ := k
  · rfl
  · simp [next?] at h

theorem next?_any (k : Cursor) (p : Char → Bool) :
    k.next?.any (fun x => p x.1) = k.rest.head?.any p := by
  obtain ⟨_ | ⟨c, rest⟩, q⟩ := k <;> rfl

theorem strip?_rest {word : List Char} {k k' : Cursor} (h : strip? word k = some k') :
    k.rest = word ++ k'.rest := by
  fun_induction strip? word k with
  | case1 => simp_all
  | case2 => simp at h
  | case3 _ _ _ _ ih => simpa using ih h
  | case4 => simp at h

theorem strip?_append (word rest : List Char) (p : Position) :
    ∃ q, strip? word ⟨word ++ rest, p⟩ = some ⟨rest, q⟩ := by
  induction word generalizing p with
  | nil => exact ⟨p, rfl⟩
  | cons c word ih => simpa [strip?] using ih (p.after c)

theorem strip?_eq_none_iff {word : List Char} {k : Cursor} :
    strip? word k = none ↔ ¬ word <+: k.rest := by
  constructor
  · intro h hp
    obtain ⟨rest, hrest⟩ := hp
    obtain ⟨q, hq⟩ := strip?_append word rest k.pos
    rw [hrest, h] at hq
    cases hq
  · intro hp
    cases h : strip? word k with
    | none => rfl
    | some l => exact absurd ⟨l.rest, (strip?_rest h).symm⟩ hp

theorem strip?_append_word (a b : List Char) (k : Cursor) :
    strip? (a ++ b) k = (strip? a k).bind (strip? b) := by
  fun_induction strip? a k with
  | case1 => rfl
  | case2 => rfl
  | case3 d a rest p ih => simpa [strip?] using ih
  | case4 c a d rest p h => simp [strip?, h]

theorem strip?_offset {word : List Char} {k k' : Cursor} (h : strip? word k = some k') :
    k'.offset = word.foldl (fun n c => n + c.utf8Size) k.offset := by
  fun_induction strip? word k with
  | case1 => simp_all
  | case2 => simp at h
  | case3 word c rest p ih =>
    rw [ih h]
    simp only [offset, Position.after_offset, List.foldl_cons]
  | case4 => simp at h

theorem le_foldl_utf8Size (word : List Char) (n : Nat) :
    n ≤ word.foldl (fun n c => n + c.utf8Size) n := by
  induction word generalizing n with
  | nil => exact Nat.le_refl n
  | cons c word ih => exact Nat.le_trans (Nat.le_add_right n _) (ih _)

/-- Going on in the text from the one cursor leads to the other. -/
def Reaches (k k' : Cursor) : Prop := ∃ word, strip? word k = some k'

namespace Reaches
variable {k l m : Cursor}

theorem refl (k : Cursor) : Reaches k k := ⟨[], rfl⟩

theorem trans (h : Reaches k l) (h' : Reaches l m) : Reaches k m := by
  obtain ⟨a, ha⟩ := h
  obtain ⟨b, hb⟩ := h'
  exact ⟨a ++ b, by rw [strip?_append_word, ha]; exact hb⟩

theorem of_next? {c : Char} (h : k.next? = some (c, l)) : Reaches k l := by
  obtain ⟨_ | ⟨d, rest⟩, p⟩ := k
  · simp [next?] at h
  · simp only [next?, Option.some.injEq, Prod.mk.injEq] at h
    exact ⟨[d], by simp [strip?, ← h.2]⟩

/-- The text that is left at the end is a part of the text at the beginning. -/
theorem suffix (h : Reaches k l) : l.rest <:+ k.rest := by
  obtain ⟨word, hw⟩ := h
  exact ⟨word, (strip?_rest hw).symm⟩

/-- Offsets tell whether anything was consumed. -/
theorem eq_or_shorter (h : Reaches k l) :
    l = k ∨ k.offset < l.offset ∧ l.rest.length < k.rest.length := by
  obtain ⟨_ | ⟨c, word⟩, hw⟩ := h
  · exact .inl (Option.some.inj hw).symm
  · have hlen := congrArg List.length (strip?_rest hw)
    have hoff := strip?_offset hw
    have hpos : 0 < c.utf8Size := c.utf8Size_pos
    have hle := le_foldl_utf8Size word (k.offset + c.utf8Size)
    simp only [List.foldl_cons, List.cons_append, List.length_cons, List.length_append] at hlen hoff
    exact .inr ⟨by omega, by omega⟩

theorem offset_lt_iff (h : Reaches k l) :
    k.offset < l.offset ↔ l.rest.length < k.rest.length := by
  rcases h.eq_or_shorter with rfl | ⟨hoff, hlen⟩
  · simp
  · exact iff_of_true hoff hlen

theorem shorter (h : Reaches k l) (hlt : k.offset < l.offset) :
    l.rest.length < k.rest.length := h.offset_lt_iff.1 hlt

theorem precedes (h : Reaches k l) : k.pos.Precedes l.pos := by
  obtain ⟨word, hw⟩ := h
  fun_induction strip? word k with
  | case1 k =>
    obtain rfl := Option.some.inj hw
    exact .inr ⟨rfl, Nat.le_refl _⟩
  | case2 => cases hw
  | case3 word c rest p ih => exact (p.precedes_after c).trans (ih hw)
  | case4 => cases hw

theorem eq_of_offset (h : Reaches k l) (hle : ¬ k.offset < l.offset) : l = k :=
  h.eq_or_shorter.resolve_right fun hs => hle hs.1

end Reaches

end Cursor

end Fleet.Text
