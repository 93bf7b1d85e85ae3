import ClassWeave.Text.Utf8
/-!
# Text -- what is written as UTF-8 reads back

The lenient reader takes a leading octet with as many of the next octets
as can belong to it. What `encodeChar` writes is always such a run, so
reading goes through written text one character at a time
(`readOnto_encodeChar`) and gives the text back (`decode_encode`). The
reverse fails on octets that are no character, which reading replaces.
-/


namespace ClassWeave

namespace Utf8

/-! ## Octets as numbers -/

theorem toNat_octet {n : Nat} (hn : n < 256) : (UInt8.ofNat n).toNat = n := by
  rw [UInt8.toNat_ofNat', Nat.mod_eq_of_lt hn]

theorem between_iff {low high b : UInt8} :
    (low ≤ b && b ≤ high) = true ↔ low.toNat ≤ b.toNat ∧ b.toNat ≤ high.toNat := by
  simp [UInt8.le_iff_toNat_le]

theorem toNat_range (c : Char) :
    c.toNat < 0xD800 ∨ 0xDFFF < c.toNat ∧ c.toNat < 0x110000 := c.valid

/-! ## One step of the reader -/

section Step

variable (acc : List Char) (rest : Bytes) {a b c d : UInt8}

theorem readOnto_one (ha : a.toNat < 0x80) :
    readOnto acc (a :: rest) = readOnto (Char.ofNat a.toNat :: acc) rest := by
  have hsmall : a < 0x80 := UInt8.lt_iff_toNat_lt.2 ha
  rw [readOnto.eq_def]
  simp only [hsmall, if_true]

theorem not_small (ha : 0x80 ≤ a.toNat) : ¬ a < 0x80 := by
  rw [UInt8.lt_iff_toNat_lt]
  exact Nat.not_lt.2 ha

theorem between_eq_false {low high : UInt8} (ha : high.toNat < a.toNat) :
    (low ≤ a && a ≤ high) = false := by
  rw [← Bool.not_eq_true, between_iff]
  omega

/-- A leading octet and the one tail it asks for. -/
theorem readOnto_two (hlow : 0xC2 ≤ a.toNat) (hhigh : a.toNat ≤ 0xDF) (hb : isTail b = true) :
    readOnto acc (a :: b :: rest) = readOnto (charOfTwo a b :: acc) rest := by
  have hsmall := not_small (Nat.le_trans (by decide) hlow)
  have htwo : (0xC2 ≤ a && a ≤ 0xDF) = true := between_iff.2 ⟨hlow, hhigh⟩
  rw [readOnto.eq_def]
  simp only [hsmall, if_false, htwo, if_true, hb]

/-- A leading octet and the two octets it asks for. -/
theorem readOnto_three (hlow : 0xE0 ≤ a.toNat) (hhigh : a.toNat ≤ 0xEF)
    (hb : isSecondOfThree a b = true) (hc : isTail c = true) :
    readOnto acc (a :: b :: c :: rest) = readOnto (charOfThree a b c :: acc) rest := by
  have hsmall := not_small (Nat.le_trans (by decide) hlow)
  have htwo : (0xC2 ≤ a && a ≤ 0xDF) = false :=
    between_eq_false (Nat.lt_of_lt_of_le (by decide) hlow)
  have hthree : (0xE0 ≤ a && a ≤ 0xEF) = true := between_iff.2 ⟨hlow, hhigh⟩
  rw [readOnto.eq_def]
  simp [hsmall, htwo, hthree, hb, hc]

/-- A leading octet and the three octets it asks for. -/
theorem readOnto_four (hlow : 0xF0 ≤ a.toNat) (hhigh : a.toNat ≤ 0xF4)
    (hb : isSecondOfFour a b = true) (hc : isTail c = true) (hd : isTail d = true) :
    readOnto acc (a :: b :: c :: d :: rest) = readOnto (charOfFour a b c d :: acc) rest := by
  have hsmall := not_small (Nat.le_trans (by decide) hlow)
  have htwo : (0xC2 ≤ a && a ≤ 0xDF) = false :=
    between_eq_false (Nat.lt_of_lt_of_le (by decide) hlow)
  have hthree : (0xE0 ≤ a && a ≤ 0xEF) = false :=
    between_eq_false (Nat.lt_of_lt_of_le (by decide) hlow)
  have hfour : (0xF0 ≤ a && a ≤ 0xF4) = true := between_iff.2 ⟨hlow, hhigh⟩
  rw [readOnto.eq_def]
  simp [hsmall, htwo, hthree, hfour, hb, hc, hd]

end Step

/-! ## What a character is written as -/

theorem isTail_octet (n : Nat) : isTail (UInt8.ofNat (0x80 + n % 64)) = true := by
  rw [isTail, between_iff, toNat_octet (by omega)]
  change 0x80 ≤ _ ∧ _ ≤ 0xBF
  omega

/-- The second of three octets is never one that would make the character
short or a surrogate. -/
theorem isSecondOfThree_octet {n : Nat} (hlow : 0x800 ≤ n) (hhigh : n < 0x10000)
    (hrange : n < 0xD800 ∨ 0xDFFF < n) :
    isSecondOfThree (UInt8.ofNat (0xE0 + n / 4096)) (UInt8.ofNat (0x80 + n / 64 % 64)) = true := by
  have hlead : (UInt8.ofNat (0xE0 + n / 4096)).toNat = 0xE0 + n / 4096 := toNat_octet (by omega)
  have hnext : (UInt8.ofNat (0x80 + n / 64 % 64)).toNat = 0x80 + n / 64 % 64 :=
    toNat_octet (by omega)
  simp only [isSecondOfThree, beq_iff_eq, ← UInt8.toNat_inj, hlead, UInt8.reduceToNat]
  -- two of the first octets leave the second less than all of its range
  split
  · rw [between_iff, hnext]
    change 0xA0 ≤ _ ∧ _ ≤ 0xBF
    omega
  split
  · rw [between_iff, hnext]
    change 0x80 ≤ _ ∧ _ ≤ 0x9F
    omega
  · exact isTail_octet _

/-- The second of four octets is never one that would make the character
short or its number too great. -/
theorem isSecondOfFour_octet {n : Nat} (hlow : 0x10000 ≤ n) (hhigh : n < 0x110000) :
    isSecondOfFour (UInt8.ofNat (0xF0 + n / 262144)) (UInt8.ofNat (0x80 + n / 4096 % 64))
      = true := by
  have hlead : (UInt8.ofNat (0xF0 + n / 262144)).toNat = 0xF0 + n / 262144 :=
    toNat_octet (by omega)
  have hnext : (UInt8.ofNat (0x80 + n / 4096 % 64)).toNat = 0x80 + n / 4096 % 64 :=
    toNat_octet (by omega)
  simp only [isSecondOfFour, beq_iff_eq, ← UInt8.toNat_inj, hlead, UInt8.reduceToNat]
  split
  · rw [between_iff, hnext]
    change 0x90 ≤ _ ∧ _ ≤ 0xBF
    omega
  split
  · rw [between_iff, hnext]
    change 0x80 ≤ _ ∧ _ ≤ 0x8F
    omega
  · exact isTail_octet _

/-- **A written character is read as that character**, whatever follows
it. One case for each of the four lengths. -/
theorem readOnto_encodeChar (acc : List Char) (rest : Bytes) (c : Char) :
    readOnto acc (encodeChar c ++ rest) = readOnto (c :: acc) rest := by
  have hrange := toNat_range c
  -- each octet behind the first carries six bits, the first those above
  have htail (n : Nat) : (UInt8.ofNat (0x80 + n % 64)).toNat = 0x80 + n % 64 :=
    toNat_octet (by omega)
  unfold encodeChar
  by_cases h₁ : c.toNat < 0x80
  · rw [if_pos h₁]
    refine (readOnto_one acc rest (by rwa [toNat_octet (by omega)])).trans ?_
    rw [toNat_octet (by omega), Char.ofNat_toNat]
  rw [if_neg h₁]
  by_cases h₂ : c.toNat < 0x800
  · rw [if_pos h₂]
    have hlead : (UInt8.ofNat (0xC0 + c.toNat / 64)).toNat = 0xC0 + c.toNat / 64 :=
      toNat_octet (by omega)
    refine (readOnto_two acc rest (by omega) (by omega) (isTail_octet _)).trans ?_
    have hsum : (0xC0 + c.toNat / 64 - 0xC0) * 64 + (0x80 + c.toNat % 64 - 0x80) = c.toNat := by
      omega
    rw [charOfTwo, hlead, htail, hsum, Char.ofNat_toNat]
  rw [if_neg h₂]
  by_cases h₃ : c.toNat < 0x10000
  · rw [if_pos h₃]
    have hlead : (UInt8.ofNat (0xE0 + c.toNat / 4096)).toNat = 0xE0 + c.toNat / 4096 :=
      toNat_octet (by omega)
    refine (readOnto_three acc rest (by omega) (by omega)
      (isSecondOfThree_octet (by omega) h₃ (by omega)) (isTail_octet _)).trans ?_
    have hsum : ((0xE0 + c.toNat / 4096 - 0xE0) * 64 + (0x80 + c.toNat / 64 % 64 - 0x80)) * 64
        + (0x80 + c.toNat % 64 - 0x80) = c.toNat := by
      omega
    rw [charOfThree, hlead, htail, htail, hsum, Char.ofNat_toNat]
  · rw [if_neg h₃]
    have hlead : (UInt8.ofNat (0xF0 + c.toNat / 262144)).toNat = 0xF0 + c.toNat / 262144 :=
      toNat_octet (by omega)
    refine (readOnto_four acc rest (by omega) (by omega)
      (isSecondOfFour_octet (by omega) (by omega)) (isTail_octet _) (isTail_octet _)).trans ?_
    have hsum : (((0xF0 + c.toNat / 262144 - 0xF0) * 64 + (0x80 + c.toNat / 4096 % 64 - 0x80)) * 64
        + (0x80 + c.toNat / 64 % 64 - 0x80)) * 64 + (0x80 + c.toNat % 64 - 0x80) = c.toNat := by
      omega
    rw [charOfFour, hlead, htail, htail, htail, hsum, Char.ofNat_toNat]

/-! ## Whole texts -/

/-- Written characters are read behind those read before. -/
theorem readOnto_flatMap_encodeChar (cs : List Char) : ∀ acc : List Char,
    readOnto acc (cs.flatMap encodeChar) = acc.reverse ++ cs := by
  induction cs with
  | nil =>
    intro acc
    simp [readOnto]
  | cons c cs ih =>
    intro acc
    rw [List.flatMap_cons, readOnto_encodeChar, ih, List.reverse_cons, List.append_assoc]
    rfl

/-- **A written text reads back.** -/
@[simp] theorem decode_encode (s : String) : decode (encode s) = s := by
  rw [decode, decodeChars, encode, readOnto_flatMap_encodeChar, List.reverse_nil, List.nil_append,
    String.ofList_toList]

end Utf8

end ClassWeave
