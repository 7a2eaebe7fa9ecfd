import ClassLoading.Text.CodePage437
import ClassLoading.Text.Utf8

/-!
# Members of archives

What the directory of an archive says of a file that it lists.
-/

namespace ClassLoading.Archive

/-- A file in an archive, as the directory lists it. -/
structure Member where
  /-- The name as it is written. -/
  nameBytes : List UInt8
  name : String
  comment : String
  isEncrypted : Bool
  /-- An extra field says that the contents are encrypted with AES. -/
  hasAes : Bool
  method : Nat
  crc : UInt32
  /-- The size of the contents as they are stored. -/
  storedSize : Nat
  /-- The size that the contents are said to have otherwise. -/
  size : Nat
  /-- Where the heading of its contents starts. -/
  start : Nat
deriving DecidableEq, Repr

/-- The text of a name or a comment, which is in UTF-8 if bit 11 of the member's flags is set. -/
def memberText (flags : Nat) (bytes : List UInt8) : String :=
  String.ofList (if flags.testBit 11 then Utf8.decodeLossy bytes else CodePage437.decode bytes)

def storedMethod : Nat := 0

def deflatedMethod : Nat := 8

/-- The method that stands for another one, which an extra field about AES gives. -/
def aesMethod : Nat := 99

end ClassLoading.Archive
