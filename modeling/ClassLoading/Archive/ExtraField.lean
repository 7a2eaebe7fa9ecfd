import ClassLoading.Archive.Crc32
import ClassLoading.Archive.Member
import ClassLoading.Bytes.LittleEndian

/-!
# Extra fields

The directory of an archive may add fields to what it says of a member: sizes of 64 bits, times, a
name or a comment in UTF-8, encryption. Each field starts with its kind and its size. Bytes that end
within a field end the reading there, and what was read of the field counts; a field that
contradicts its format spoils the member.
-/

namespace ClassLoading.Archive.ExtraField

/-- Why the extra fields of a member are not read on. -/
inductive Stop where
  | cutShort
  | malformed
deriving DecidableEq, Repr

/-- The member as far as it is known, and the bytes not read yet. -/
structure Reading where
  member : Member
  rest : List UInt8
deriving DecidableEq, Repr

/-- A step of reading. What it has learnt of the member stays if it stops. -/
abbrev Step (α : Type) := ExceptT Stop (StateM Reading) α

def take (size : Nat) : Step (List UInt8) := do
  let bytes := (← get).rest.take size
  if bytes.length < size then throw .cutShort
  modify fun reading => { reading with rest := reading.rest.drop size }
  return bytes

def skip (size : Nat) : Step Unit := discard (take size)

/-- Reads a number of so many bytes. -/
def number (width : Nat) : Step Nat := return LittleEndian.toNat (← take width)

/-- Goes on only if a condition of the format holds. -/
def require (condition : Bool) : Step Unit := unless condition do throw .malformed

def learn (change : Member → Member) : Step Unit :=
  modify fun reading => { reading with member := change reading.member }

/-- What stands in the directory for a number that takes more than 32 bits. -/
def standIn : Nat := 0xFFFFFFFF

/-- Reads a number of 64 bits if it is due: `always`, or since the one in the directory stands in
for it. Says how many bytes it took. -/
def widen (always : Bool) (known : Member → Nat) (change : Nat → Member → Member) : Step Nat := do
  if always || known (← get).member = standIn then
    learn (change (← number 8))
    return 8
  return 0

/-- Sizes and the place of the contents in 64 bits: all three if there is room for them, otherwise
those that the directory lacks. -/
def readWideNumbers (size : Nat) : Step Unit := do
  let always := decide (24 ≤ size)
  let first ← widen always (·.size) fun n member => { member with size := n }
  let second ← widen always (·.storedSize) fun n member => { member with storedSize := n }
  let third ← widen always (·.start) fun n member => { member with start := n }
  let taken := first + second + third
  require (decide (taken ≤ size))
  skip (size - taken)

/-- Times in units of a hundred nanoseconds. -/
def readFineTimes (size : Nat) : Step Unit := do
  require (size = 32)
  skip 4
  require ((← number 2) = 1)
  require ((← number 2) = 24)
  skip 24

/-- Times in seconds. Flags say which ones there are; a field of five bytes has one in any case. -/
def readTimes (size : Nat) : Step Unit := do
  let flags ← number 1
  let count := (List.range 8).countP flags.testBit
  require (size = 5 || size = 1 + 4 * count)
  skip (size - 1)

/-- The parameters of AES encryption, and the method behind it. -/
def readAes (size : Nat) : Step Unit := do
  require (size = 7)
  let version ← number 2
  let vendor ← number 2
  let strength ← number 1
  let method ← number 2
  require (vendor = 0x4541)
  require (version = 1 || version = 2)
  require (strength = 1 || strength = 2 || strength = 3)
  learn fun member => { member with hasAes := true, method }

/-- A text in UTF-8 for the one in the directory, of which the field holds the check. -/
def readText (size : Nat) (replaced : Member → List UInt8) : Step (List UInt8) := do
  skip 1
  let crc ← number 4
  require (decide (5 ≤ size))
  let bytes ← take (size - 5)
  require (crc = (Crc32.ofBytes (replaced (← get).member)).toNat)
  return bytes

/-- The text of bytes that must be UTF-8. -/
def text (bytes : List UInt8) : Step String :=
  match String.fromUTF8? ⟨bytes.toArray⟩ with
  | some text => return text
  | none => throw .malformed

def readComment (size : Nat) : Step Unit := do
  let comment ← text (← readText size (·.comment.toUTF8.toList))
  learn fun member => { member with comment }

def readName (size : Nat) : Step Unit := do
  let nameBytes ← readText size (·.nameBytes)
  let name ← text nameBytes
  learn fun member => { member with nameBytes, name }

/-- Reads one field. Kinds that say nothing of interest are left out. -/
def readField : Step Unit := do
  let kind ← number 2
  let size ← number 2
  match kind with
  | 0x0001 => readWideNumbers size
  | 0x000a => readFineTimes size
  | 0x5455 => readTimes size
  | 0x6375 => readComment size
  | 0x7075 => readName size
  | 0x9901 => readAes size
  | _ => skip size

/-- Reads fields until no bytes are left. A field takes four bytes at least, so that as much fuel
as there are bytes is enough. -/
def readFields? : Nat → Reading → Option Member
  | 0, reading => some reading.member
  | fuel + 1, reading =>
      if reading.rest.isEmpty then some reading.member
      else
        match readField reading with
        | (.ok (), reading) => readFields? fuel reading
        | (.error .cutShort, reading) => some reading.member
        | (.error .malformed, _) => none

/-- The member with what its extra fields say. -/
def read? (member : Member) (bytes : List UInt8) : Option Member :=
  readFields? bytes.length ⟨member, bytes⟩

end ClassLoading.Archive.ExtraField
