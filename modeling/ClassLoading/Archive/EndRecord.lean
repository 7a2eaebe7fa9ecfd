import ClassLoading.Bytes.LittleEndian

/-!
# End records

An archive ends with a record that says where its directory is and how many members that lists. An
archive with numbers of more than 32 bits has a wider record before it, which a locator between the
two points to. Bytes may precede the archive, so that a place given in a record is only the earliest
one possible: what is looked for is the first mark from there on.
-/

namespace ClassLoading.Archive

/-- A mark in a file: its place, and the bytes from there on. -/
structure Mark where
  position : Nat
  bytes : List UInt8
deriving DecidableEq, Repr

/-- The places of a mark in `bytes`, which start at `position`, before those `found` already. -/
def marksOnto (mark : List UInt8) (found : List Mark) (position : Nat) : List UInt8 → List Mark
  | [] => found
  | b :: bytes =>
      let found :=
        if mark.isPrefixOf (b :: bytes) then ⟨position, b :: bytes⟩ :: found else found
      marksOnto mark found (position + 1) bytes

/-- The places of a mark, the last one first. -/
def marksBackwards (mark data : List UInt8) : List Mark := marksOnto mark [] 0 data

/-- The mark is at `first` or later and ends before `limit`. -/
def Mark.isWithin (first limit : Nat) (mark : Mark) : Bool :=
  first ≤ mark.position && mark.position + 4 ≤ limit

/-- A file that may be an archive. -/
structure Candidate where
  data : List UInt8
  size : Nat
  /-- The marks of members, in order. -/
  memberMarks : List Mark

/-- The mark in front of a member of the directory. -/
def memberMark : List UInt8 := [0x50, 0x4b, 0x01, 0x02]

def endMark : List UInt8 := [0x50, 0x4b, 0x05, 0x06]

def wideEndMark : List UInt8 := [0x50, 0x4b, 0x06, 0x06]

def locatorMark : List UInt8 := [0x50, 0x4b, 0x06, 0x07]

/-- A file with the marks of members in it. -/
def Candidate.ofBytes (data : List UInt8) : Candidate :=
  ⟨data, data.length, (marksBackwards memberMark data).reverse⟩

/-- Where the directory of an archive is. -/
structure Location where
  /-- How many bytes precede the archive. -/
  shift : Nat
  start : Nat
  /-- How many members the directory lists. -/
  count : Nat
deriving DecidableEq, Repr

structure EndRecord where
  disk : Nat
  directoryDisk : Nat
  /-- The members that are listed on the disk of the record. -/
  countHere : Nat
  count : Nat
  start : Nat
deriving DecidableEq, Repr

namespace EndRecord

/-- Reads an end record, whose comment must end within the file. -/
def read? (size : Nat) (mark : Mark) : Option EndRecord :=
  match LittleEndian.readNumbers? [4, 2, 2, 2, 2, 4, 4, 2] mark.bytes with
  | some ([_, disk, directoryDisk, countHere, count, _, start, commentSize], _) =>
      if mark.position + 22 + commentSize ≤ size then
        some ⟨disk, directoryDisk, countHere, count, start⟩
      else none
  | _ => none

/-- A number is as great as its field allows, so that a wide record may hold the true one. -/
def mayBeWide (record : EndRecord) : Bool :=
  record.count = 0xFFFF || record.start = 0xFFFFFFFF

/-- The directory that an end record without a wide one leads to. -/
def location? (record : EndRecord) (candidate : Candidate) (position : Nat) : Option Location := do
  guard (record.disk = record.directoryDisk)
  if record.count = 0 then
    let shift := position - record.start
    return ⟨shift, record.start + shift, record.countHere⟩
  guard (record.start < position)
  let first ← candidate.memberMarks.find? (·.isWithin record.start position)
  return ⟨first.position - record.start, first.position, record.countHere⟩

end EndRecord

/-- What points to a wide end record. -/
structure Locator where
  position : Nat
  directoryDisk : Nat
  recordStart : Nat
  diskCount : Nat
deriving DecidableEq, Repr

def locatorSize : Nat := 20

/-- Reads the locator that ends where an end record starts. -/
def Locator.before? (candidate : Candidate) (position : Nat) : Option Locator := do
  guard (locatorSize ≤ position)
  let bytes := candidate.data.drop (position - locatorSize)
  guard (locatorMark.isPrefixOf bytes)
  match LittleEndian.readNumbers? [4, 4, 8, 4] bytes with
  | some ([_, directoryDisk, recordStart, diskCount], _) =>
      return ⟨position - locatorSize, directoryDisk, recordStart, diskCount⟩
  | _ => none

structure WideEndRecord where
  disk : Nat
  directoryDisk : Nat
  countHere : Nat
  count : Nat
  start : Nat
deriving DecidableEq, Repr

namespace WideEndRecord

/-- The least size of a member of the directory. -/
def leastMemberSize : Nat := 46

/-- Reads a wide end record. It must end where its locator starts, agree with it, and leave room for
the members before it. -/
def read? (locator : Locator) (mark : Mark) : Option WideEndRecord :=
  match LittleEndian.readNumbers? [4, 8, 2, 2, 4, 4, 8, 8, 8, 8] mark.bytes with
  | some ([_, size, _, _, disk, directoryDisk, countHere, count, _, start], _) => do
      guard (44 ≤ size ∧ mark.position + size + 12 = locator.position)
      guard (directoryDisk = locator.directoryDisk)
      guard (start + count * leastMemberSize ≤ mark.position)
      return ⟨disk, directoryDisk, countHere, count, start⟩
  | _ => none

/-- The directory that a locator leads to. -/
def location? (candidate : Candidate) (locator : Locator) : Option Location := do
  guard (locator.recordStart < locator.position ∧ locator.diskCount ≤ 1)
  let marks := (marksBackwards wideEndMark candidate.data).reverse
  let (shift, record) ← marks.findSome? fun mark => do
    guard (mark.isWithin locator.recordStart locator.position)
    return (mark.position - locator.recordStart, ← read? locator mark)
  guard (record.countHere ≤ record.count)
  guard (record.disk = record.directoryDisk)
  return ⟨shift, record.start + shift, record.count⟩

end WideEndRecord

/-- The directory that an end record leads to. -/
def Candidate.location? (candidate : Candidate) (mark : Mark) : Option Location := do
  let record ← EndRecord.read? candidate.size mark
  let locator? := if record.mayBeWide then Locator.before? candidate mark.position else none
  match locator? with
  | some locator => WideEndRecord.location? candidate locator
  | none => record.location? candidate mark.position

end ClassLoading.Archive
