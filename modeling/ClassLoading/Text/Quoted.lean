import ClassLoading.Text.Hexadecimal

/-!
# Quoted bytes

A byte shown as the character of the same number between single quotes; what cannot be shown
plainly is escaped.
-/

namespace ClassLoading.Quoted

/-- Characters of one byte that print nothing: controls, the hard blank and the soft hyphen. -/
def isInvisible (b : UInt8) : Bool :=
  b < 0x20 || (0x7F ≤ b && b ≤ 0xA0) || b = 0xAD

/-- The character of a byte, escaped where it needs to be. -/
def escape (b : UInt8) : String :=
  if b = 0x00 then "\\0"
  else if b = 0x09 then "\\t"
  else if b = 0x0A then "\\n"
  else if b = 0x0D then "\\r"
  else if b = 0x27 then "\\'"
  else if b = 0x5C then "\\\\"
  else if isInvisible b then "\\u\x7b" ++ Hexadecimal.digits b.toNat ++ "\x7d"
  else String.singleton (Char.ofNat b.toNat)

/-- A byte between single quotes. -/
def byte (b : UInt8) : String := "'" ++ escape b ++ "'"

end ClassLoading.Quoted
