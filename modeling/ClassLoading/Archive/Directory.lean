import ClassLoading.Archive.EndRecord
import ClassLoading.Archive.ExtraField
import ClassLoading.Archive.Inflate
import ClassLoading.Loader.Error

/-!
# Archives

A zip archive lists its members in a directory, to which its end record leads. Opening an archive
reads the directory; the contents of a member are read when they are asked for. Where they start is
found out only once.
-/

namespace ClassLoading.Archive

/-- The members that an archive lists, in order, and where the contents of those start that were
asked for. -/
structure Directory where
  members : List Member
  located : List (String × Nat)
deriving DecidableEq, Repr

def maxPlace : Nat := UInt64.size - 1

/-- Reads a member of the directory; its contents are `shift` bytes behind the place given. -/
def readMember? (shift : Nat) (bytes : List UInt8) : Option (Member × List UInt8) := do
  guard (memberMark.isPrefixOf bytes)
  match LittleEndian.readNumbers? [4, 2, 2, 2, 2, 2, 2, 4, 4, 4, 2, 2, 2, 2, 2, 4, 4] bytes with
  | some ([_, _, _, flags, method, _, _, crc, storedSize, size, nameSize, extraSize, commentSize, _,
      _, _, start], rest) =>
      let written := rest.take (nameSize + extraSize + commentSize)
      guard (written.length = nameSize + extraSize + commentSize)
      let nameBytes := written.take nameSize
      let comment := memberText flags (written.drop (nameSize + extraSize))
      let member ← ExtraField.read?
        { nameBytes, name := memberText flags nameBytes, comment, isEncrypted := flags.testBit 0,
          hasAes := false, method, crc := UInt32.ofNat crc, storedSize, size, start }
        ((written.drop nameSize).take extraSize)
      guard (member.method ≠ aesMethod ∨ member.hasAes)
      guard (member.start + shift ≤ maxPlace)
      return ({ member with start := member.start + shift },
        rest.drop (nameSize + extraSize + commentSize))
  | _ => none

/-- Reads so many members of the directory, after those `done`, of which the last comes first. -/
def readMembersOnto? (shift : Nat) (done : List Member) : Nat → List UInt8 → Option (List Member)
  | 0, _ => some done.reverse
  | count + 1, bytes =>
      match readMember? shift bytes with
      | some (member, rest) => readMembersOnto? shift (member :: done) count rest
      | none => none

/-- The directory of an archive: the last end record that leads to one decides. -/
def open? (data : List UInt8) : Option Directory :=
  let candidate := Candidate.ofBytes data
  (marksBackwards endMark data).findSome? fun mark => do
    let location ← candidate.location? mark
    let members ← readMembersOnto? location.shift [] location.count (data.drop location.start)
    return ⟨members, []⟩

/-- The mark in front of the contents of a member. -/
def contentsMark : List UInt8 := [0x50, 0x4b, 0x03, 0x04]

/-- Where the contents of a member start, behind their heading. -/
def contentsStart? (data : List UInt8) (member : Member) : Option Nat := do
  let bytes := data.drop member.start
  guard (contentsMark.isPrefixOf bytes)
  match LittleEndian.readNumbers? [4, 2, 2, 2, 2, 2, 4, 4, 4, 2, 2] bytes with
  | some ([_, _, _, _, _, _, _, _, _, nameSize, extraSize], _) =>
      return member.start + 30 + nameSize + extraSize
  | _ => none

/-- The greatest size that contents can have in memory. -/
def maxSize : Nat := UInt64.size / 2 - 1

namespace Member

/-- The contents are stored in a form that can be read. -/
def isReadable (member : Member) : Bool :=
  member.method = storedMethod || member.method = deflatedMethod

/-- The contents of a readable member behind the form in which they are stored. -/
def restore (member : Member) (stored : List UInt8) : Except FileError (List UInt8) :=
  if member.method = storedMethod then .ok stored
  else
    match Inflate.inflate stored with
    | .ok plain => .ok plain
    | .error .cutShort => .error .unexpectedEnd
    | .error .corrupt => .error .invalidInput

end Member

namespace Directory

/-- The member of a name; of several, the last. -/
def find? (directory : Directory) (name : String) : Option Member :=
  directory.members.reverse.find? (·.name == name)

/-- Where the contents of a member start, as found out before or from their heading. -/
def locate? (directory : Directory) (data : List UInt8) (member : Member) : Option Nat :=
  (directory.located.lookup member.name).or (contentsStart? data member)

/-- The contents of a member, which must pass its check. -/
def contents (directory : Directory) (data : List UInt8) (member : Member) :
    Except LoadError (List UInt8) := do
  if member.isEncrypted || member.hasAes then throw .archive
  let some start := directory.locate? data member | throw .archive
  unless member.isReadable do throw .archive
  if maxSize < member.size then throw .tooLarge
  let stored := (data.drop start).take member.storedSize
  let plain ← (member.restore stored).mapError LoadError.file
  if Crc32.ofBytes plain = member.crc then return plain
  throw (.file .invalidData)

/-- The content of a file; `none` if no member has its name. -/
def read? (directory : Directory) (data : List UInt8) (file : String) :
    Except LoadError (Option (List UInt8)) :=
  match directory.find? file with
  | none => .ok none
  | some member => (directory.contents data member).map some

/-- The directory after it was asked for a file: where the contents of that member start is known
from then on. -/
def afterRead (directory : Directory) (data : List UInt8) (file : String) : Directory :=
  match directory.find? file with
  | none => directory
  | some member =>
      if member.isEncrypted || (directory.located.lookup member.name).isSome then directory
      else
        match contentsStart? data member with
        | some start => { directory with located := (member.name, start) :: directory.located }
        | none => directory

end Directory

end ClassLoading.Archive
