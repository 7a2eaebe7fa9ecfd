import ClassLoading.Text.ModifiedUtf8
import ClassLoading.Text.Utf8

/-!
# Symbols

A symbol is a byte string that serves as a name, a descriptor or a literal, kept exactly as a class
file spells it. Two symbols of equal content may still be different instances; the serial number
tells instances apart.
-/

namespace ClassLoading

/-- A byte string and the number of this instance of it. -/
structure Symbol where
  bytes : List UInt8
  serial : Nat
deriving DecidableEq, Repr

namespace Symbol

def hashSeed : UInt32 := 37

/-- Takes one more byte into a hash. -/
def hashStep (h : UInt32) (b : UInt8) : UInt32 := (h * 54059) ^^^ (b.toUInt32 * 76963)

def hashBytes (bytes : List UInt8) : UInt32 := bytes.foldl hashStep hashSeed

def hash (s : Symbol) : UInt32 := hashBytes s.bytes

/-- Equality of content, whatever the instances. -/
def sameContent (s t : Symbol) : Bool := s.bytes == t.bytes

/-- The bytes that spell a text in class files. -/
def bytesOfText (text : String) : List UInt8 := ModifiedUtf8.encode text.toList

/-- The text that bytes spell; bytes that are not valid modified UTF-8 are read as UTF-8 as a
whole, leniently. -/
def charsOfBytes (bytes : List UInt8) : List Char :=
  (ModifiedUtf8.decode? bytes).getD (Utf8.decodeLossy bytes)

def textOfBytes (bytes : List UInt8) : String := String.ofList (charsOfBytes bytes)

/-- The text of a symbol, character by character. -/
def chars (s : Symbol) : List Char := charsOfBytes s.bytes

def text (s : Symbol) : String := textOfBytes s.bytes

end Symbol

end ClassLoading
