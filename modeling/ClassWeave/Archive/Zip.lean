import ClassWeave.Archive.Crc32
import ClassWeave.Archive.Inflate
import ClassWeave.Text.CodePage
import ClassWeave.Text.Utf8
/-!
# Archive -- zip archives and their members

An archive ends with a record that leads to its directory, and the
directory leads to the members. All offsets are counted from where the
archive proper starts, which need not be where the file starts. Members
are stored or deflated, and each is checked after it is read.
-/


namespace ClassWeave

/-- Why an archive or a member of it cannot be read. -/
inductive ZipFault where
  /-- The file is shorter than an end record. -/
  | noHeader
  /-- There is no end record. -/
  | noEnd
  /-- The directory would start before the file. -/
  | badDirectory
  /-- An entry of the directory does not start as one. -/
  | badEntry
  /-- A member does not start as one. -/
  | badMember
  /-- The archive goes on in another file. -/
  | multiDisk
  | encrypted
  /-- A member is neither stored nor deflated. -/
  | unknownMethod
  /-- The file ends too early. -/
  | exhausted
  deriving DecidableEq, Repr

/-- The messages of a fault, the outermost first. -/
def ZipFault.messages : ZipFault → List String
  | .noHeader => ["invalid Zip archive: Invalid zip header"]
  | .noEnd => ["invalid Zip archive: Could not find central directory end"]
  | .badDirectory => ["invalid Zip archive: Invalid central directory size or offset"]
  | .badEntry => ["invalid Zip archive: Invalid Central Directory header"]
  | .badMember => ["invalid Zip archive: Invalid local file header"]
  | .multiDisk => ["unsupported Zip archive: Support for multi-disk files is not implemented"]
  | .encrypted => ["unsupported Zip archive: Password required to decrypt file"]
  | .unknownMethod => ["unsupported Zip archive: Compression method not supported"]
  | .exhausted => ["failed to fill whole buffer", "failed to fill whole buffer"]

/-- Why the content of a member cannot be had. -/
inductive ContentFault where
  | corrupt
  | badChecksum
  deriving DecidableEq, Repr

/-- The wording of a content that cannot be had. -/
def ContentFault.message : ContentFault → String
  | .corrupt => "corrupt deflate stream"
  | .badChecksum => "Invalid checksum"

/-- A member as the directory describes it. -/
structure ZipMember where
  name : String
  encrypted : Bool
  /-- 0 for stored, 8 for deflated. -/
  method : Nat
  crc : UInt32
  /-- The number of octets in the archive. -/
  size : Nat
  /-- The place of the member in the file. -/
  start : Nat
  deriving DecidableEq, Repr

/-- An archive: the whole file, and its members in the directory's order. -/
structure Zip where
  bytes : Bytes
  members : List ZipMember

namespace Zip

/-- The number of octets, low octet first. -/
def little (bytes : Bytes) : Nat := bytes.foldr (fun b n => b.toNat + 256 * n) 0

/-- The number in a field of a record. -/
def field (record : Bytes) (offset size : Nat) : Nat := little ((record.drop offset).take size)

/-- The number that starts an end record. -/
def endMark : Nat := 0x06054b50

/-- The number that starts an entry of the directory. -/
def entryMark : Nat := 0x02014b50

/-- The number that starts a member. -/
def memberMark : Nat := 0x04034b50

/-- The size of an end record without its comment. -/
def endSize : Nat := 22

/-- The last place, from `here` on, where an end record stands whole, and
what is there, if it is not farther from the end than a comment goes. -/
def findEnd : Nat → Bytes → Option (Nat × Bytes) → Option (Nat × Bytes)
  | _, [], found => found
  | here, b :: rest, found =>
    let tail := b :: rest
    let found :=
      if b == 0x50 && field tail 0 4 == endMark && (tail.take endSize).length == endSize then
        some (here, tail)
      else found
    findEnd (here + 1) rest found

/-- The end record of a file, and its place. -/
def endRecord (bytes : Bytes) : Except ZipFault (Nat × Bytes) :=
  if bytes.length < endSize then .error .noHeader
  else
    match findEnd 0 bytes none with
    | none => .error .noEnd
    | some (here, tail) =>
      if endSize + 65535 < tail.length then .error .noEnd
      else if tail.length < endSize + field tail 20 2 then .error .exhausted
      else .ok (here, tail)

/-- The name of a member: UTF-8 if the entry says so. -/
def nameOf (flags : Nat) (raw : Bytes) : String :=
  if flags.testBit 11 then Utf8.decode raw else CodePage.decode raw

/-- The members of the next `n` entries, after those already read, which
come last first. -/
def membersOnto (offset : Nat) : Nat → Bytes → List ZipMember → Except ZipFault (List ZipMember)
  | 0, _, acc => .ok acc.reverse
  | n + 1, bytes, acc =>
    let head := bytes.take 46
    if head.length < 4 then .error .exhausted
    else if field head 0 4 ≠ entryMark then .error .badEntry
    else if head.length < 46 then .error .exhausted
    else
      let nameSize := field head 28 2
      let rest := nameSize + field head 30 2 + field head 32 2
      let body := bytes.drop 46
      if (body.take rest).length < rest then .error .exhausted
      else
        let flags := field head 8 2
        membersOnto offset n (body.drop rest)
          ({ name := nameOf flags (body.take nameSize)
             encrypted := flags.testBit 0
             method := field head 10 2
             crc := UInt32.ofNat (field head 16 4)
             size := field head 20 4
             start := offset + field head 42 4 } :: acc)

/-- The archive that a file is. -/
def ofBytes (bytes : Bytes) : Except ZipFault Zip := do
  let (here, record) ← endRecord bytes
  if field record 4 2 ≠ field record 6 2 then throw .multiDisk
  let span := field record 12 4 + field record 16 4
  if here < span then throw .badDirectory
  let offset := here - span
  let members ←
    membersOnto offset (field record 8 2) (bytes.drop (offset + field record 16 4)) []
  return ⟨bytes, members⟩

/-- The member of a name; of several, the last. -/
def find? (z : Zip) (name : String) : Option ZipMember :=
  z.members.reverse.find? fun m => m.name == name

/-- The octets that the archive holds for a member. -/
def raw (z : Zip) (m : ZipMember) : Except ZipFault Bytes :=
  if m.encrypted then .error .encrypted
  else
    let tail := z.bytes.drop m.start
    let head := tail.take 30
    if head.length < 4 then .error .exhausted
    else if field head 0 4 ≠ memberMark then .error .badMember
    else if head.length < 30 then .error .exhausted
    else if m.method ≠ 0 ∧ m.method ≠ 8 then .error .unknownMethod
    else .ok ((tail.drop (30 + field head 26 2 + field head 28 2)).take m.size)

end Zip

/-- The content of a member from the octets that the archive holds. -/
def ZipMember.content (m : ZipMember) (raw : Bytes) : Except ContentFault Bytes :=
  match if m.method = 0 then some raw else inflate? raw with
  | none => .error .corrupt
  | some bytes => if Crc32.ofBytes bytes = m.crc then .ok bytes else .error .badChecksum

end ClassWeave
