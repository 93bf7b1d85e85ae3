import ClassWeave.Files.Path
/-!
# Files -- paths as octets

The operating system takes any octets for a path. A `Path` is one whose
octets are UTF-8, and stands for those octets (`OsPath.ofPath`). Where a path
that is no text still counts, in the keys of a ledger, it is an `OsPath`; it
has an absolute spelling like any other (`OsPath.absolute?`), and a reading as
text in which octets that are no character are replaced (`OsPath.lossy`), so
that paths with different octets may read alike.
-/


namespace ClassWeave

/-- A path, as the octets that the operating system takes for it. -/
structure OsPath where
  octets : Bytes
  deriving DecidableEq, Repr

namespace OsPath

/-- The octets of a path that is text. -/
def ofPath (p : Path) : OsPath := ⟨Utf8.encode p.text⟩

instance : Coe Path OsPath := ⟨ofPath⟩

/-- The reading of a path as text. -/
def lossy (p : OsPath) : String := Utf8.decode p.octets

def slash : UInt8 := 0x2F

def segments (p : OsPath) : List Bytes := Text.pieces slash p.octets

/-- Whether a path starts at the root. -/
def isRooted (p : OsPath) : Bool := p.octets.head? == some slash

/-- A segment with no meaning inside a path: none, or a lone dot. -/
def isIdle (s : Bytes) : Bool := s.isEmpty || s == [0x2E]

def push (p : OsPath) (s : Bytes) : OsPath :=
  if p.octets.getLast?.all (· == slash) then ⟨p.octets ++ s⟩ else ⟨p.octets ++ slash :: s⟩

/-- The spelling from the root, as that of a path that is text: idle
segments are left out, `..` and a slash at the end stay, and so do exactly
two slashes in front. -/
def absolute? (p home : OsPath) : Option OsPath :=
  if p.octets = [] then none
  else
    let body := p.segments.filter fun s => !isIdle s
    let base : OsPath :=
      if !p.isRooted then home
      else if p.octets.take 2 = [slash, slash] ∧ p.octets.take 3 ≠ [slash, slash, slash] then
        ⟨[slash, slash]⟩
      else ⟨[slash]⟩
    let full := body.foldl push base
    some (if p.octets.getLast? = some slash then full.push [] else full)

end OsPath

end ClassWeave
