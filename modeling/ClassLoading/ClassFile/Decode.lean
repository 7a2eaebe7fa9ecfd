import ClassLoading.ClassFile.Field

/-!
# Class files

A class file is read front to back: versions, constant pool, flags, names, interfaces and fields;
what follows the fields is not looked at. Only the symbol table outlives a failure: it keeps the
texts of the constants that were read before.
-/

namespace ClassLoading

/-- A class as its class file declares it. -/
structure ClassFile where
  minor : UInt16
  major : UInt16
  pool : ConstantPool
  flags : ClassFlags
  name : Symbol
  superName : Option Symbol
  interfaces : List Symbol
  fields : List Field

namespace ClassFile

/-- The number that opens every class file. -/
def magic : UInt32 := 0xCAFEBABE

/-- The versions of a class file. -/
structure Version where
  minor : UInt16
  major : UInt16
deriving DecidableEq, Repr

/-- What precedes the constants: the versions and the size of the pool. -/
def readHeader (options : Options) : Decoder (Version × UInt16) := do
  let found ← Decoder.u32
  Decoder.require (found = magic) (.badMagic found)
  Decoder.ensure 4
  let minor ← Decoder.u16Unchecked
  let major ← Decoder.u16Unchecked
  Decoder.require (options.accepts major) (.unsupportedVersion major minor)
  let size ← Decoder.u16
  Decoder.require (size != 0) (.malformed .emptyPool)
  return (⟨minor, major⟩, size)

def readFlags : Decoder ClassFlags := do
  let flags := ClassFlags.ofBits (← Decoder.u16)
  Decoder.require flags.isLegal (.accessFlags .classFile flags.bits)
  return flags

/-- The name of the class in a slot. -/
def classNameAt (pool : ConstantPool) (index : UInt16) (role : IndexRole)
    (expected : ConstantKind → Bool) : Decoder Symbol := do
  Decoder.ofExcept (pool.requireKind index role expected)
  return (← Decoder.ofExcept ((pool.classAt index).mapError .fault)).name

def readName (pool : ConstantPool) : Decoder Symbol := do
  classNameAt pool (← Decoder.u16) .thisClass (· = .unresolvedClass)

/-- The name of the class extended; slot zero stands for none. -/
def readSuperName (pool : ConstantPool) : Decoder (Option Symbol) := do
  let index ← Decoder.u16
  if index = 0 then return none
  return some (← classNameAt pool index .superClass ConstantKind.isClass)

def readInterfaces (pool : ConstantPool) : Decoder (List Symbol) := do
  let count := (← Decoder.u16).toNat
  Decoder.ensure (2 * count)
  Decoder.replicate count do
    classNameAt pool (← Decoder.u16Unchecked) .interface ConstantKind.isClass

def readFields (options : Options) (pool : ConstantPool) (inInterface : Bool) :
    Decoder (List Field) := do
  let count := (← Decoder.u16).toNat
  Decoder.replicate count (Field.read options pool inInterface)

/-- What follows the constants, read with a linked pool. -/
def readBody (options : Options) (version : Version) (pool : ConstantPool) :
    Decoder ClassFile := do
  let flags ← readFlags
  let name ← readName pool
  let superName ← readSuperName pool
  let interfaces ← readInterfaces pool
  let fields ← readFields options pool flags.isInterface
  return ⟨version.minor, version.major, pool, flags, name, superName, interfaces, fields⟩

/-- Links a pool and reads what follows it. -/
def readLinked (options : Options) (version : Version) (pool : ConstantPool) :
    Decoder ClassFile := do
  let linked ← Decoder.ofExcept (pool.link ⟨version.major, options⟩)
  readBody options version linked

/-- Reads a class file, its texts interned in a symbol table. -/
def read (options : Options) (c : Cursor) (table : SymbolTable) :
    Except Failure (ClassFile × Cursor) × SymbolTable :=
  match readHeader options c with
  | .error failure => (.error failure, table)
  | .ok ((version, size), c) =>
      let raw := RawConstants.read size c
      let (placed, table) :=
        ConstantPool.place raw.constants.toList 1 (ConstantPool.vacant size) table
      match placed, raw.outcome with
      | .error fault, _ => (.error (.fault fault), table)
      | .ok _, .error failure => (.error failure, table)
      | .ok pool, .ok c => (readLinked options version pool c, table)

/-- The class in a byte string that starts with a class file. -/
def decode (options : Options) (data : List UInt8) (table : SymbolTable) :
    Except Failure ClassFile × SymbolTable :=
  let (result, table) := read options (Cursor.start data) table
  (result.map Prod.fst, table)

/-- The position of the first field of a name and descriptor. -/
def findField? (classFile : ClassFile) (name descriptor : List UInt8) : Option Nat :=
  classFile.fields.findIdx? fun field =>
    field.name.bytes == name && field.descriptor.bytes == descriptor

def isInterface (classFile : ClassFile) : Bool := classFile.flags.isInterface

end ClassFile

end ClassLoading
