import ClassWeave.Bytes.Basic
/-!
# Archive -- deflated octets, inflated

Deflated data is a row of bits, each octet's low bit first, in blocks. A
block is stored as it is, or written in symbols of two prefix codes: one
for octets, lengths and the end of the block, one for distances. The
codes are fixed, or their code lengths stand at the head of the block.

Inflating ends with the last block, or where the data ends, with what
there is by then. Data that no writer makes is refused.
-/


namespace ClassWeave

namespace Inflate

/-! ## Prefix codes -/

/-- A prefix code: which symbol each row of bits leads to. -/
inductive Code where
  | unused
  | symbol (s : Nat)
  | branch (zero one : Code)

/-- The code with a symbol at the end of a row of bits. -/
def Code.insert (s : Nat) : Code → List Bool → Code
  | _, [] => .symbol s
  | .branch zero one, false :: bits => .branch (insert s zero bits) one
  | .branch zero one, true :: bits => .branch zero (insert s one bits)
  | _, false :: bits => .branch (insert s .unused bits) .unused
  | _, true :: bits => .branch .unused (insert s .unused bits)

/-- The bits of a number, high bit first, in a width. -/
def bitsOf : Nat → Nat → List Bool
  | 0, _ => []
  | width + 1, n => bitsOf width (n / 2) ++ [n % 2 == 1]

/-- The longest row of bits of any code. -/
def maxLength : Nat := 15

/-- The symbols whose rows have a length, in order. -/
def symbolsOfLength (lengths : List Nat) (n : Nat) : List Nat :=
  (lengths.zipIdx.filter fun p => p.1 == n).map Prod.snd

/-- The code in which rows of one length are numbered in the order of
their symbols, and shorter rows come before longer ones. -/
def Code.ofLengths (lengths : List Nat) : Code :=
  ((List.range maxLength).foldl (fun (code, next) n =>
    (symbolsOfLength lengths (n + 1)).foldl (fun (code, next) s =>
      (Code.insert s code (bitsOf (n + 1) next), next + 1)) (code, 2 * next))
    (Code.unused, 0)).1

/-- Whether the rows of a code fill it exactly. A code of no more than
one symbol need not be filled. -/
def isFilled (lengths : List Nat) : Bool :=
  let used := lengths.filter (· ≠ 0)
  used.length ≤ 1
    || used.foldl (fun sum n => sum + Nat.pow 2 (maxLength - n)) 0 == Nat.pow 2 maxLength

/-! ## Reading bits -/

/-- What is left to read, and what has been written. -/
structure Progress where
  bits : List Bool
  out : Array UInt8

/-- Why inflating stops before the last block ends. -/
inductive Stop where
  /-- The data ends; the octets so far. -/
  | exhausted (out : Array UInt8)
  /-- The data is no deflated data. -/
  | corrupt

/-- A step of inflating. -/
abbrev Step (α : Type) := StateT Progress (Except Stop) α

def corrupt {α : Type} : Step α := fun _ => .error .corrupt

/-- The next bit. -/
def bit : Step Bool := fun p =>
  match p.bits with
  | [] => .error (.exhausted p.out)
  | b :: rest => .ok (b, { p with bits := rest })

/-- The number of the next bits, low bit first. -/
def number : Nat → Step Nat
  | 0 => pure 0
  | n + 1 => do
    let b ← bit
    let high ← number n
    return (if b then 1 else 0) + 2 * high

/-- The next symbol of a code. -/
def symbol : Code → Step Nat
  | .unused => corrupt
  | .symbol s => pure s
  | .branch zero one => do
    if ← bit then symbol one else symbol zero

/-- Drops the bits that are left of an octet. -/
def align : Step Unit := fun p =>
  .ok ((), { p with bits := p.bits.drop (p.bits.length % 8) })

def emit (b : UInt8) : Step Unit := fun p => .ok ((), { p with out := p.out.push b })

/-- Writes octets again from a distance back. Before the first octet
there are zeros. -/
def repeatFrom (distance : Nat) : Nat → Array UInt8 → Array UInt8
  | 0, out => out
  | n + 1, out =>
    repeatFrom distance n
      (out.push (if distance ≤ out.size then out.getD (out.size - distance) 0 else 0))

/-! ## Blocks -/

/-- The least length and the number of further bits, from symbol 257 on. -/
def lengthTable : List (Nat × Nat) :=
  [(3, 0), (4, 0), (5, 0), (6, 0), (7, 0), (8, 0), (9, 0), (10, 0), (11, 1), (13, 1), (15, 1),
   (17, 1), (19, 2), (23, 2), (27, 2), (31, 2), (35, 3), (43, 3), (51, 3), (59, 3), (67, 4),
   (83, 4), (99, 4), (115, 4), (131, 5), (163, 5), (195, 5), (227, 5), (258, 0)]

/-- The least distance and the number of further bits. -/
def distanceTable : List (Nat × Nat) :=
  [(1, 0), (2, 0), (3, 0), (4, 0), (5, 1), (7, 1), (9, 2), (13, 2), (17, 3), (25, 3), (33, 4),
   (49, 4), (65, 5), (97, 5), (129, 6), (193, 6), (257, 7), (385, 7), (513, 8), (769, 8),
   (1025, 9), (1537, 9), (2049, 10), (3073, 10), (4097, 11), (6145, 11), (8193, 12),
   (12289, 12), (16385, 13), (24577, 13)]

/-- The quantity that a symbol of a table stands for. -/
def quantity (table : List (Nat × Nat)) (s : Nat) : Step Nat :=
  match table[s]? with
  | none => corrupt
  | some (least, bits) => do return least + (← number bits)

/-- The symbols of a block up to its end. -/
def symbols (main distances : Code) : Nat → Step Unit
  | 0 => corrupt
  | fuel + 1 => do
    let s ← symbol main
    if s < 256 then
      emit (UInt8.ofNat s)
      symbols main distances fuel
    else if s = 256 then return ()
    else
      let length ← quantity lengthTable (s - 257)
      let distance ← quantity distanceTable (← symbol distances)
      modify fun p => { p with out := repeatFrom distance length p.out }
      symbols main distances fuel

/-- The octets of a stored block. -/
def copyStored : Nat → Step Unit
  | 0 => pure ()
  | n + 1 => do
    emit (UInt8.ofNat (← number 8))
    copyStored n

/-- A stored block: its size, the size inverted, and the octets. -/
def stored : Step Unit := do
  align
  let size ← number 16
  let inverted ← number 16
  if size + inverted = 65535 then copyStored size else corrupt

/-- The code lengths of the fixed code for octets and lengths. -/
def fixedMain : List Nat :=
  List.replicate 144 8 ++ List.replicate 112 9 ++ List.replicate 24 7 ++ List.replicate 8 8

/-- The code lengths of the fixed code for distances. -/
def fixedDistances : List Nat := List.replicate 32 5

/-- The order in which the lengths of the code for code lengths stand. -/
def lengthOrder : List Nat :=
  [16, 17, 18, 0, 8, 7, 9, 6, 10, 5, 11, 4, 12, 3, 13, 2, 14, 1, 15]

/-- As many numbers of three bits as asked. -/
def shortNumbers : Nat → Step (List Nat)
  | 0 => pure []
  | n + 1 => do
    let k ← number 3
    return k :: (← shortNumbers n)

/-- Code lengths up to a count; those so far come last first. Three
symbols repeat the last length or a zero. -/
def codeLengths (code : Code) (count : Nat) : Nat → List Nat → Step (List Nat)
  | 0, _ => corrupt
  | fuel + 1, acc => do
    if count ≤ acc.length then
      if acc.length = count then return acc.reverse else corrupt
    else
      let s ← symbol code
      if s < 16 then codeLengths code count fuel (s :: acc)
      else if s = 16 then
        match acc with
        | [] => corrupt
        | last :: _ =>
          codeLengths code count fuel (List.replicate (3 + (← number 2)) last ++ acc)
      else if s = 17 then
        codeLengths code count fuel (List.replicate (3 + (← number 3)) 0 ++ acc)
      else codeLengths code count fuel (List.replicate (11 + (← number 7)) 0 ++ acc)

/-- The two codes at the head of a block. -/
def ownCodes : Step (Code × Code) := do
  let mainCount ← number 5
  let distanceCount ← number 5
  let shortCount ← number 4
  let short ← shortNumbers (shortCount + 4)
  let ordered := (List.range 19).map fun s =>
    ((lengthOrder.zip short).lookup s).getD 0
  if !isFilled ordered then corrupt
  else
    let count := mainCount + 257 + (distanceCount + 1)
    let lengths ← codeLengths (.ofLengths ordered) count (count + 1) []
    let main := lengths.take (mainCount + 257)
    let distances := lengths.drop (mainCount + 257)
    if isFilled main && isFilled distances then
      return (.ofLengths main, .ofLengths distances)
    else corrupt

/-- A block. Each symbol takes at least one bit, so no block has more
symbols than there are bits left, and its end. -/
def block : Step Unit := do
  let kind ← number 2
  let left := (← get).bits.length + 1
  match kind with
  | 0 => stored
  | 1 => symbols (.ofLengths fixedMain) (.ofLengths fixedDistances) left
  | 2 => do
    let (main, distances) ← ownCodes
    symbols main distances left
  | _ => corrupt

/-- All blocks up to the last. -/
def blocks : Nat → Step Unit
  | 0 => corrupt
  | fuel + 1 => do
    let last ← bit
    block
    if last then return () else blocks fuel

end Inflate

/-- The octets that deflated octets stand for, or as many of them as there
are data for. -/
def inflate? (bytes : Bytes) : Option Bytes :=
  let bits := bytes.flatMap fun b =>
    (List.range 8).map fun i => (b.toNat >>> i) % 2 == 1
  match Inflate.blocks (bits.length + 1) ⟨bits, #[]⟩ with
  | .ok (_, p) => some p.out.toList
  | .error (.exhausted out) => some out.toList
  | .error .corrupt => none

end ClassWeave
