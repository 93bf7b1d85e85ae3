import ClassWeave.Bytes.Basic
/-!
# Archive -- the cyclic redundancy check of archive members

The 32-bit check with the reflected polynomial `0xEDB88320`: the register
starts with all bits set, takes in each octet low bit first, and ends
inverted.
-/


namespace ClassWeave

namespace Crc32

/-- The register after one bit. -/
def shift (register : UInt32) : UInt32 :=
  if register &&& 1 = 1 then (register >>> 1) ^^^ 0xEDB88320 else register >>> 1

/-- The register after one octet. -/
def feed (register : UInt32) (b : UInt8) : UInt32 :=
  shift (shift (shift (shift (shift (shift (shift (shift (register ^^^ b.toUInt32))))))))

/-- The check of octets. -/
def ofBytes (bytes : Bytes) : UInt32 :=
  bytes.foldl feed 0xFFFFFFFF ^^^ 0xFFFFFFFF

end Crc32

end ClassWeave
