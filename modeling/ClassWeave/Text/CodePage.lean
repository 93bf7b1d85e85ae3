import ClassWeave.Bytes.Basic
/-!
# Text -- code page 437

The single-octet character set that archive names are written in unless
they are marked as UTF-8.
-/


namespace ClassWeave

namespace CodePage

/-- The characters of the octets from `0x80` on. -/
def upperHalf : List Char :=
  ("ÇüéâäàåçêëèïîìÄÅÉæÆôöòûùÿÖÜ¢£¥₧ƒáíóúñÑªº¿⌐¬½¼¡«»░▒▓│┤╡╢╖╕╣║╗╝╜╛┐└┴┬├─┼╞╟╚╔╩╦╠═╬╧"
    ++ "╨╤╥╙╘╒╓╫╪┘┌█▄▌▐▀αßΓπΣσµτΦΘΩδ∞φε∩≡±≥≤⌠⌡÷≈°∙·√ⁿ²■\u00a0").toList

/-- The character of an octet. -/
def charOf (b : UInt8) : Char :=
  if b < 0x80 then Char.ofNat b.toNat else upperHalf.getD (b.toNat - 0x80) ' '

def decode (bytes : Bytes) : String := String.ofList (bytes.map charOf)

end CodePage

end ClassWeave
