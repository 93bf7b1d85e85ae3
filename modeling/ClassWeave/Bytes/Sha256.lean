import ClassWeave.Bytes.Basic
/-!
# Bytes -- the SHA-256 digest

The message is padded with a one bit, zeros and its length in bits, cut
into words and then into blocks of sixteen words, and each block is
stirred into eight chaining words. `Bytes.sha256` is the digest and
`Bytes.sha256Hex` its usual writing.
-/


namespace ClassWeave

namespace Bytes

namespace Sha256

/-- The round constants. -/
def roundConstants : Array UInt32 := #[
  0x428a2f98, 0x71374491, 0xb5c0fbcf, 0xe9b5dba5, 0x3956c25b, 0x59f111f1, 0x923f82a4, 0xab1c5ed5,
  0xd807aa98, 0x12835b01, 0x243185be, 0x550c7dc3, 0x72be5d74, 0x80deb1fe, 0x9bdc06a7, 0xc19bf174,
  0xe49b69c1, 0xefbe4786, 0x0fc19dc6, 0x240ca1cc, 0x2de92c6f, 0x4a7484aa, 0x5cb0a9dc, 0x76f988da,
  0x983e5152, 0xa831c66d, 0xb00327c8, 0xbf597fc7, 0xc6e00bf3, 0xd5a79147, 0x06ca6351, 0x14292967,
  0x27b70a85, 0x2e1b2138, 0x4d2c6dfc, 0x53380d13, 0x650a7354, 0x766a0abb, 0x81c2c92e, 0x92722c85,
  0xa2bfe8a1, 0xa81a664b, 0xc24b8b70, 0xc76c51a3, 0xd192e819, 0xd6990624, 0xf40e3585, 0x106aa070,
  0x19a4c116, 0x1e376c08, 0x2748774c, 0x34b0bcb5, 0x391c0cb3, 0x4ed8aa4a, 0x5b9cca4f, 0x682e6ff3,
  0x748f82ee, 0x78a5636f, 0x84c87814, 0x8cc70208, 0x90befffa, 0xa4506ceb, 0xbef9a3f7, 0xc67178f2]

/-- The eight chaining words. -/
structure Chain where
  a : UInt32
  b : UInt32
  c : UInt32
  d : UInt32
  e : UInt32
  f : UInt32
  g : UInt32
  h : UInt32

/-- The chaining words before the first block. -/
def Chain.start : Chain :=
  ⟨0x6a09e667, 0xbb67ae85, 0x3c6ef372, 0xa54ff53a, 0x510e527f, 0x9b05688c, 0x1f83d9ab, 0x5be0cd19⟩

/-- A word turned right by `n` places. -/
def turn (w : UInt32) (n : UInt32) : UInt32 :=
  (w >>> n) ||| (w <<< (32 - n))

/-- The sixteen words of a block extended to the sixty-four of its
rounds. -/
def schedule (block : Array UInt32) : Array UInt32 :=
  (List.range 48).foldl (fun w i =>
    let x := w.getD (i + 1) 0
    let y := w.getD (i + 14) 0
    let s := turn x 7 ^^^ turn x 18 ^^^ (x >>> 3)
    let t := turn y 17 ^^^ turn y 19 ^^^ (y >>> 10)
    w.push (w.getD i 0 + s + w.getD (i + 9) 0 + t)) block

/-- One round, with its schedule word and its constant already added. -/
def Chain.round (s : Chain) (w : UInt32) : Chain :=
  let mix := turn s.e 6 ^^^ turn s.e 11 ^^^ turn s.e 25
  let choice := (s.e &&& s.f) ^^^ (~~~ s.e &&& s.g)
  let first := s.h + mix + choice + w
  let spread := turn s.a 2 ^^^ turn s.a 13 ^^^ turn s.a 22
  let majority := (s.a &&& s.b) ^^^ (s.a &&& s.c) ^^^ (s.b &&& s.c)
  ⟨first + (spread + majority), s.a, s.b, s.c, s.d + first, s.e, s.f, s.g⟩

/-- A whole block stirred in. -/
def Chain.stir (s : Chain) (block : Array UInt32) : Chain :=
  let w := schedule block
  let t := (List.range 64).foldl
    (fun t i => t.round (w.getD i 0 + roundConstants.getD i 0)) s
  ⟨s.a + t.a, s.b + t.b, s.c + t.c, s.d + t.d, s.e + t.e, s.f + t.f, s.g + t.g, s.h + t.h⟩

/-- The message with a one bit, the fewest zeros that leave eight octets
of the last block free, and the message's length in bits. -/
def pad (bytes : Bytes) : Bytes :=
  let n := bytes.length
  bytes ++ 0x80 :: List.replicate ((119 - n % 64) % 64) 0
    ++ ofLong (UInt32.ofNat (n * 8 / 4294967296)) ++ ofLong (UInt32.ofNat (n * 8))

/-- Octets taken four at a time; fewer than four at the end are left
out. -/
def words : Bytes → List UInt32 → List UInt32
  | a :: b :: c :: d :: rest, acc => words rest (long a b c d :: acc)
  | _, acc => acc.reverse

end Sha256

open Sha256 in
/-- The SHA-256 digest, thirty-two octets. -/
def sha256 (bytes : Bytes) : Bytes :=
  let (s, _) := (words (pad bytes) []).foldl (fun (s, block) w =>
    let block := block.push w
    if block.size = 16 then (s.stir block, #[]) else (s, block)) (Chain.start, #[])
  [s.a, s.b, s.c, s.d, s.e, s.f, s.g, s.h].flatMap ofLong

/-- The digest as sixty-four hexadecimal digits. -/
def sha256Hex (bytes : Bytes) : String :=
  toHex (sha256 bytes)

end Bytes

end ClassWeave
