/-!
Unsigned integers in decimal digits that fit in 64 bits.
-/

namespace Fleet.Text

/-- The number that a list of digits spells, the most significant first. -/
def decimalValue (digits : List Char) : Nat :=
  digits.foldl (fun n c => 10 * n + (c.toNat - '0'.toNat)) 0

/-- Digits after at most one plus sign, spelling less than two to the sixty-fourth. -/
def readUInt64? (text : String) : Option UInt64 :=
  let digits := match text.toList with
    | '+' :: rest => rest
    | cs => cs
  if digits.isEmpty || !digits.all Char.isDigit then none
  else if decimalValue digits < UInt64.size then some (UInt64.ofNat (decimalValue digits))
  else none

/-- Digits without leading zeros, which spell a number other than zero. -/
def IsNumeral (t : List Char) : Prop := ∃ c w, t = c :: w ∧ c ≠ '0' ∧ ∀ d ∈ t, d.isDigit = true

theorem isNumeral_iff {t : List Char} :
    IsNumeral t ↔ (t.head?.any (· != '0') && t.all Char.isDigit) = true := by
  cases t with
  | nil => simp [IsNumeral]
  | cons c w => simp [IsNumeral]

instance (t : List Char) : Decidable (IsNumeral t) := decidable_of_iff' _ isNumeral_iff

theorem toList_toString (n : Nat) : (toString n).toList = Nat.toDigits 10 n := Nat.toList_repr

theorem isDigit_of_mem_toString {n : Nat} {c : Char} (h : c ∈ (toString n).toList) :
    c.isDigit = true :=
  Nat.isDigit_of_mem_toDigits (by decide) (by decide) (toList_toString n ▸ h)

/-- A number is spelled without leading zeros. -/
theorem head?_toDigits_ne_zero {n : Nat} (h : n ≠ 0) : (Nat.toDigits 10 n).head? ≠ some '0' := by
  induction n using Nat.strongRecOn with
  | ind n ih =>
    by_cases hn : n < 10
    · rw [Nat.toDigits_of_lt_base hn]
      have : ∀ m < 10, m ≠ 0 → Nat.digitChar m ≠ '0' := by decide
      simpa using this n hn h
    · have := ih (n / 10) (by omega) (by omega)
      rw [Nat.toDigits_of_base_le (by decide) (by omega), List.head?_append]
      cases hd : (Nat.toDigits 10 (n / 10)).head? with
      | none => exact absurd (List.head?_eq_none_iff.1 hd) Nat.toDigits_ne_nil
      | some d => simpa [hd] using this

theorem isNumeral_toString {n : Nat} (h : n ≠ 0) : IsNumeral (toString n).toList := by
  obtain ⟨c, w, hcw⟩ : ∃ c w, (toString n).toList = c :: w := by
    refine List.exists_cons_of_ne_nil ?_
    rw [toList_toString]
    exact Nat.toDigits_ne_nil
  have hzero := head?_toDigits_ne_zero h
  rw [← toList_toString, hcw] at hzero
  exact ⟨c, w, hcw, by simpa using hzero, fun _ => isDigit_of_mem_toString⟩

theorem readUInt64?_of_digits {text : String} (hne : text.toList ≠ [])
    (hd : ∀ c ∈ text.toList, c.isDigit = true) :
    readUInt64? text =
      if decimalValue text.toList < UInt64.size then
        some (UInt64.ofNat (decimalValue text.toList)) else none := by
  unfold readUInt64?
  split
  · next rest h => exact absurd (hd '+' (by rw [h]; simp)) (by decide)
  · rw [if_neg]
    simpa [hne] using hd

/-- What is written out is read back. -/
theorem readUInt64?_toString (n : UInt64) : readUInt64? (toString n.toNat) = some n := by
  have hvalue : decimalValue (toString n.toNat).toList = n.toNat := by
    rw [toList_toString]
    exact Nat.ofDigitChars_ten_toDigits
  have hne : (toString n.toNat).toList ≠ [] := by
    rw [toList_toString]
    exact Nat.toDigits_ne_nil
  rw [readUInt64?_of_digits hne fun _ => isDigit_of_mem_toString, hvalue,
    if_pos n.toNat_lt_size, UInt64.ofNat_toNat]

theorem digitChar_of_isDigit {c : Char} (h : c.isDigit = true) :
    c.toNat - '0'.toNat < 10 ∧ Nat.digitChar (c.toNat - '0'.toNat) = c := by
  have hc : 48 ≤ c.toNat ∧ c.toNat ≤ 57 := by
    simpa [Char.isDigit, UInt32.le_iff_toNat_le] using h
  have hzero : '0'.toNat = 48 := rfl
  have hlt : c.toNat - '0'.toNat < 10 := by omega
  refine ⟨hlt, Char.toNat_inj.1 ?_⟩
  rw [Nat.toNat_digitChar_of_lt_ten hlt]
  omega

/-- More digits after a number other than zero are written after it. -/
theorem toDigits_foldl {w : List Char} {n : Nat} (hn : 0 < n) (hw : ∀ c ∈ w, c.isDigit = true) :
    Nat.toDigits 10 (w.foldl (fun n c => 10 * n + (c.toNat - '0'.toNat)) n) =
      Nat.toDigits 10 n ++ w := by
  induction w generalizing n with
  | nil => simp
  | cons c w ih =>
    obtain ⟨hlt, hchar⟩ := digitChar_of_isDigit (hw c (by simp))
    rw [List.foldl_cons, ih (by omega) fun d hd => hw d (by simp [hd]),
      ← Nat.toDigits_append_toDigits (by decide) hn hlt, Nat.toDigits_of_lt_base hlt, hchar]
    simp

/-- Digits without leading zeros spell a number that is written out as they are. -/
theorem toDigits_decimalValue {c : Char} {w : List Char} (hc : c ≠ '0')
    (hd : ∀ d ∈ c :: w, d.isDigit = true) : Nat.toDigits 10 (decimalValue (c :: w)) = c :: w := by
  obtain ⟨hlt, hchar⟩ := digitChar_of_isDigit (hd c (by simp))
  have hpos : 0 < c.toNat - '0'.toNat := by
    refine Nat.pos_of_ne_zero fun h => hc ?_
    rw [h] at hchar
    exact hchar.symm
  have hw : ∀ d ∈ w, d.isDigit = true := fun d hm => hd d (by simp [hm])
  have hfold := toDigits_foldl hpos hw
  rw [Nat.toDigits_of_lt_base hlt, hchar] at hfold
  simpa [decimalValue] using hfold

/-- What is read is written out as it was, if it had no leading zeros. -/
theorem toString_of_readUInt64? {text : String} {c : Char} {w : List Char} {n : UInt64}
    (ht : text.toList = c :: w) (hc : c ≠ '0') (hd : ∀ d ∈ c :: w, d.isDigit = true)
    (h : readUInt64? text = some n) : n ≠ 0 ∧ (toString n.toNat).toList = c :: w := by
  rw [readUInt64?_of_digits (by simp [ht]) (by rwa [ht]), ht] at h
  split at h
  · next hlt =>
    obtain rfl := Option.some.inj h
    have hval : (UInt64.ofNat (decimalValue (c :: w))).toNat = decimalValue (c :: w) :=
      UInt64.toNat_ofNat_of_lt' hlt
    have hdigits := toDigits_decimalValue hc hd
    refine ⟨fun hz => hc ?_, by rw [toList_toString, hval, hdigits]⟩
    rw [← hval, hz] at hdigits
    exact (List.cons.inj hdigits).1.symm
  · cases h

end Fleet.Text
