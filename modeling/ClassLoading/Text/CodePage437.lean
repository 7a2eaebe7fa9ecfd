/-!
# Code page 437

The characters of the bytes from `0x80` on in the code page in which archives write their names
unless they are marked otherwise. The bytes below are ASCII.
-/

namespace ClassLoading.CodePage437

/-- The characters of the bytes from `0x80` on. -/
def upperHalf : Array Char :=
  ("ÇüéâäàåçêëèïîìÄÅÉæÆôöòûùÿÖÜ¢£¥₧ƒ" ++
    "áíóúñÑªº¿⌐¬½¼¡«»░▒▓│┤╡╢╖╕╣║╗╝╜╛┐" ++
    "└┴┬├─┼╞╟╚╔╩╦╠═╬╧╨╤╥╙╘╒╓╫╪┘┌█▄▌▐▀" ++
    "αßΓπΣσµτΦΘΩδ∞φε∩≡±≥≤⌠⌡÷≈°∙·√ⁿ²■\u00a0").toList.toArray

/-- The character of a byte. -/
def char (b : UInt8) : Char :=
  if b < 0x80 then Char.ofNat b.toNat else upperHalf.getD (b.toNat - 0x80) ' '

/-- The text of a byte string. -/
def decode (bytes : List UInt8) : List Char := bytes.map char

end ClassLoading.CodePage437
