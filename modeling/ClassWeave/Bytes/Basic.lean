/-!
# Bytes -- octet strings and big-endian words

Files, payloads and digests are octet strings. This file fixes the type,
the two big-endian words that class files are built from, and the
lower-case hexadecimal writing of a digest. Each word is written high
octet first, and reading the written octets gives the word back
(`word_ofWord`, `long_ofLong`).
-/


namespace ClassWeave

/-- An octet string. -/
abbrev Bytes := List UInt8

namespace Bytes

/-- The octets of a 16-bit word, high octet first. -/
def ofWord (w : UInt16) : Bytes :=
  [UInt8.ofNat (w.toNat / 256), UInt8.ofNat w.toNat]

/-- The 16-bit word of two octets, high octet first. -/
def word (a b : UInt8) : UInt16 :=
  UInt16.ofNat (a.toNat * 256 + b.toNat)

/-- The octets of a 32-bit word, high octet first. -/
def ofLong (w : UInt32) : Bytes :=
  [UInt8.ofNat (w.toNat / 16777216), UInt8.ofNat (w.toNat / 65536),
    UInt8.ofNat (w.toNat / 256), UInt8.ofNat w.toNat]

/-- The 32-bit word of four octets, high octet first. -/
def long (a b c d : UInt8) : UInt32 :=
  UInt32.ofNat (((a.toNat * 256 + b.toNat) * 256 + c.toNat) * 256 + d.toNat)

@[simp] theorem length_ofWord (w : UInt16) : (ofWord w).length = 2 := rfl

@[simp] theorem length_ofLong (w : UInt32) : (ofLong w).length = 4 := rfl

theorem word_ofWord (w : UInt16) :
    word (UInt8.ofNat (w.toNat / 256)) (UInt8.ofNat w.toNat) = w := by
  apply UInt16.toNat_inj.mp
  have h := w.toNat_lt
  simp only [word, UInt8.toNat_ofNat', UInt16.toNat_ofNat']
  omega

theorem long_ofLong (w : UInt32) :
    long (UInt8.ofNat (w.toNat / 16777216)) (UInt8.ofNat (w.toNat / 65536))
      (UInt8.ofNat (w.toNat / 256)) (UInt8.ofNat w.toNat) = w := by
  apply UInt32.toNat_inj.mp
  have h := w.toNat_lt
  simp only [long, UInt8.toNat_ofNat', UInt32.toNat_ofNat']
  omega

theorem ofWord_word (a b : UInt8) : ofWord (word a b) = [a, b] := by
  have ha := a.toNat_lt
  have hb := b.toNat_lt
  simp only [ofWord, word, UInt16.toNat_ofNat', List.cons.injEq, and_true]
  constructor <;> apply UInt8.toNat_inj.mp <;> simp only [UInt8.toNat_ofNat'] <;> omega

/-- Four octets are the writing of the word they form. -/
theorem ofLong_long (a b c d : UInt8) : ofLong (long a b c d) = [a, b, c, d] := by
  have ha := a.toNat_lt
  have hb := b.toNat_lt
  have hc := c.toNat_lt
  have hd := d.toNat_lt
  simp only [ofLong, long, UInt32.toNat_ofNat', List.cons.injEq, and_true]
  refine ⟨?_, ?_, ?_, ?_⟩ <;> apply UInt8.toNat_inj.mp <;>
    simp only [UInt8.toNat_ofNat'] <;> omega

def hexDigit (n : Nat) : Char :=
  Char.ofNat (if n < 10 then 48 + n else 87 + n)

def toHex (bytes : Bytes) : String :=
  String.ofList (bytes.flatMap fun b => [hexDigit (b.toNat / 16), hexDigit (b.toNat % 16)])

end Bytes

end ClassWeave
