import ClassWeave.Text.Hidden
/-!
# Text -- text in quotes

Text between double quotes, in which every character shows: quotes and
backslashes are escaped, and so are control characters, characters
without a shape of their own and marks that would join the character
before them, by their number in braces.
-/


namespace ClassWeave

namespace Quoted

/-- A character between quotes. -/
def encodeChar (c : Char) : List Char :=
  if c = '"' then ['\\', '"']
  else if c = '\\' then ['\\', '\\']
  else if c = '\n' then ['\\', 'n']
  else if c = '\r' then ['\\', 'r']
  else if c = '\t' then ['\\', 't']
  else if c.toNat = 0 then ['\\', '0']
  else if Text.isHidden c then ['\\', 'u', '\x7b'] ++ Nat.toDigits 16 c.toNat ++ ['\x7d']
  else [c]

def encode (s : String) : String :=
  String.ofList ('"' :: s.toList.flatMap encodeChar ++ ['"'])

end Quoted

end ClassWeave
