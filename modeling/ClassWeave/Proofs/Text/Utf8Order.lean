import ClassWeave.Proofs.Text.Utf8
/-!
# Text -- the order of what is written as UTF-8

Texts are ordered by their characters, octets by their numbers. UTF-8 keeps
the order: of two characters the greater one has the greater octets, whatever
is written behind them (`encodeChar_lt`), so texts are ordered as their octets
are (`encode_lt_iff`).
-/


namespace ClassWeave

namespace Utf8

variable {m n : Nat} {xs ys : Bytes} {c d : Char} {a b : String}

theorem octet_cons_lt (hn : n < 256) (h : m < n ∨ m = n ∧ xs < ys) :
    UInt8.ofNat m :: xs < UInt8.ofNat n :: ys := by
  rw [List.cons_lt_cons_iff]
  rcases h with hlt | ⟨rfl, hlt⟩
  · refine .inl (UInt8.lt_iff_toNat_lt.2 ?_)
    rwa [toNat_octet (by omega), toNat_octet hn]
  · exact .inr ⟨rfl, hlt⟩

/-- Of two numbers that differ in their last six bits only, the greater one
has the greater last octet. -/
theorem last_octet_lt (h : m < n) (hsame : m / 64 = n / 64) (xs ys : Bytes) :
    UInt8.ofNat (0x80 + m % 64) :: xs < UInt8.ofNat (0x80 + n % 64) :: ys :=
  octet_cons_lt (by omega) (.inl (by omega))

/-- In their last twelve bits, the greater last two octets. -/
theorem last_two_octets_lt (h : m < n) (hsame : m / 4096 = n / 4096) (xs ys : Bytes) :
    UInt8.ofNat (0x80 + m / 64 % 64) :: UInt8.ofNat (0x80 + m % 64) :: xs <
      UInt8.ofNat (0x80 + n / 64 % 64) :: UInt8.ofNat (0x80 + n % 64) :: ys := by
  refine octet_cons_lt (by omega) ?_
  rcases Nat.lt_or_ge (m / 64) (n / 64) with hlt | hge
  · exact .inl (by omega)
  · exact .inr ⟨by omega, last_octet_lt h (by omega) xs ys⟩

/-- In their last eighteen bits, the greater last three. -/
theorem last_three_octets_lt (h : m < n) (hsame : m / 262144 = n / 262144) (xs ys : Bytes) :
    UInt8.ofNat (0x80 + m / 4096 % 64) :: UInt8.ofNat (0x80 + m / 64 % 64) ::
        UInt8.ofNat (0x80 + m % 64) :: xs <
      UInt8.ofNat (0x80 + n / 4096 % 64) :: UInt8.ofNat (0x80 + n / 64 % 64) ::
        UInt8.ofNat (0x80 + n % 64) :: ys := by
  refine octet_cons_lt (by omega) ?_
  rcases Nat.lt_or_ge (m / 4096) (n / 4096) with hlt | hge
  · exact .inl (by omega)
  · exact .inr ⟨by omega, last_two_octets_lt h (by omega) xs ys⟩

/-- **Of two characters the greater one has the greater octets**, whatever is
written behind them. -/
theorem encodeChar_lt (h : c < d) (xs ys : Bytes) :
    encodeChar c ++ xs < encodeChar d ++ ys := by
  have hlt : c.toNat < d.toNat := h
  have hd := toNat_range d
  simp only [encodeChar]
  -- of as many octets as the other's, the first that differs; else the first of all
  by_cases hone : d.toNat < 0x80
  · rw [if_pos (by omega), if_pos hone]
    exact octet_cons_lt (by omega) (.inl hlt)
  rw [if_neg hone]
  by_cases htwo : d.toNat < 0x800
  · rw [if_pos htwo]
    split
    · exact octet_cons_lt (by omega) (.inl (by omega))
    rw [if_pos (by omega)]
    refine octet_cons_lt (by omega) ?_
    rcases Nat.lt_or_ge (c.toNat / 64) (d.toNat / 64) with hlead | hlead
    · exact .inl (by omega)
    · exact .inr ⟨by omega, last_octet_lt hlt (by omega) _ _⟩
  rw [if_neg htwo]
  by_cases hthree : d.toNat < 0x10000
  · rw [if_pos hthree]
    split
    · exact octet_cons_lt (by omega) (.inl (by omega))
    split
    · exact octet_cons_lt (by omega) (.inl (by omega))
    rw [if_pos (by omega)]
    refine octet_cons_lt (by omega) ?_
    rcases Nat.lt_or_ge (c.toNat / 4096) (d.toNat / 4096) with hlead | hlead
    · exact .inl (by omega)
    · exact .inr ⟨by omega, last_two_octets_lt hlt (by omega) _ _⟩
  rw [if_neg hthree]
  split
  · exact octet_cons_lt (by omega) (.inl (by omega))
  split
  · exact octet_cons_lt (by omega) (.inl (by omega))
  split
  · exact octet_cons_lt (by omega) (.inl (by omega))
  refine octet_cons_lt (by omega) ?_
  rcases Nat.lt_or_ge (c.toNat / 262144) (d.toNat / 262144) with hlead | hlead
  · exact .inl (by omega)
  · exact .inr ⟨by omega, last_three_octets_lt hlt (by omega) _ _⟩

theorem exists_cons_encodeChar (c : Char) : ∃ o os, encodeChar c = o :: os := by
  simp only [encodeChar]
  split
  · exact ⟨_, _, rfl⟩
  · split
    · exact ⟨_, _, rfl⟩
    · split <;> exact ⟨_, _, rfl⟩

/-- Texts with greater characters have greater octets. -/
theorem flatMap_encodeChar_lt {cs ds : List Char} (h : cs < ds) :
    cs.flatMap encodeChar < ds.flatMap encodeChar := by
  induction cs generalizing ds with
  | nil =>
    rcases ds with _ | ⟨d, ds⟩
    · exact absurd h (List.lt_irrefl _)
    · obtain ⟨o, os, ho⟩ := exists_cons_encodeChar d
      rw [List.flatMap_cons, ho]
      exact List.nil_lt_cons _ _
  | cons c cs ih =>
    rcases ds with _ | ⟨d, ds⟩
    · exact absurd h (List.not_lt_nil _)
    rw [List.flatMap_cons, List.flatMap_cons]
    rcases List.cons_lt_cons_iff.1 h with hlt | ⟨rfl, hlt⟩
    · exact encodeChar_lt hlt _ _
    · exact List.append_left_lt (ih hlt)

/-- **Texts are ordered as their octets are.** -/
theorem encode_lt_iff : encode a < encode b ↔ a < b := by
  have hmono : ∀ {a b : String}, a < b → encode a < encode b := fun h => flatMap_encodeChar_lt h
  refine ⟨fun h => ?_, hmono⟩
  by_cases hab : a < b
  · exact hab
  by_cases hba : b < a
  · exact absurd h (List.lt_asymm (hmono hba))
  · rw [String.le_antisymm (String.not_lt.1 hba) (String.not_lt.1 hab)] at h
    exact absurd h (List.lt_irrefl _)

end Utf8

end ClassWeave
