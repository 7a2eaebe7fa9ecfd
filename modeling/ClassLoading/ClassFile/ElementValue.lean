import ClassLoading.Constant.Link

/-!
# Element values

The values of annotations on fields: constants kept as their slot, enumeration constants, class
names, nested annotations and arrays. Values may be nested up to a fixed depth; the decoder counts
the levels that are left.
-/

namespace ClassLoading

/-- What the tag of an element value announces. -/
inductive ElementTag where
  | byte
  | char
  | double
  | float
  | int
  | long
  | short
  | boolean
  | string
  | enumConstant
  | classInfo
  | nested
  | array
deriving DecidableEq, Repr

namespace ElementTag

def all : List ElementTag :=
  [byte, char, double, float, int, long, short, boolean, string, enumConstant, classInfo, nested,
    array]

def code : ElementTag → UInt8
  | byte => 0x42
  | char => 0x43
  | double => 0x44
  | float => 0x46
  | int => 0x49
  | long => 0x4A
  | short => 0x53
  | boolean => 0x5A
  | string => 0x73
  | enumConstant => 0x65
  | classInfo => 0x63
  | nested => 0x40
  | array => 0x5B

def name : ElementTag → String
  | byte => "Byte"
  | char => "Char"
  | double => "Double"
  | float => "Float"
  | int => "Int"
  | long => "Long"
  | short => "Short"
  | boolean => "Boolean"
  | string => "String"
  | enumConstant => "EnumType"
  | classInfo => "Class"
  | nested => "AnnotationType"
  | array => "ArrayType"

/-- The tag of a byte. -/
def ofCode? (code : UInt8) : Option ElementTag := all.find? (·.code == code)

/-- The kind of slot that holds a constant with this tag; other tags announce no constant. -/
def constantKind? : ElementTag → Option ConstantKind
  | byte | char | short | int | boolean => some .integer
  | long => some .long
  | float => some .float
  | double => some .double
  | string => some .utf8
  | enumConstant | classInfo | nested | array => none

end ElementTag

/-- A value given to an element of an annotation. -/
inductive ElementValue where
  /-- A constant, kept as the slot that holds it. -/
  | constant (tag : ElementTag) (index : UInt16)
  | enumConstant (typeName constantName : Symbol)
  | classInfo (descriptor : Symbol)
  | nested (typeName : Symbol) (elements : List (Symbol × ElementValue))
  | array (values : List ElementValue)
deriving Repr

/-- What a field is annotated with: a type and values for some of its elements. -/
structure AnnotationUse where
  typeName : Symbol
  elements : List (Symbol × ElementValue)
deriving Repr

namespace ElementValue

/-- The number of levels that values may be nested. -/
def maxDepth : Nat := 256

/-- Reads the slot of a text and looks the text up. -/
def readUtf8 (pool : ConstantPool) (role : IndexRole) : Decoder Symbol := do
  let index ← Decoder.u16
  Decoder.ofExcept (pool.utf8At index role)

/-- A type and its elements, each of which has a name and what `value` reads. -/
def readUse (pool : ConstantPool) (value : Decoder ElementValue) : Decoder AnnotationUse := do
  Decoder.ensure 4
  let typeIndex ← Decoder.u16Unchecked
  let count ← Decoder.u16Unchecked
  let typeName ← Decoder.ofExcept (pool.utf8At typeIndex .annotationType)
  let elements ← Decoder.replicate count.toNat do
    let name ← readUtf8 pool .elementName
    return (name, ← value)
  return ⟨typeName, elements⟩

/-- A constant of the kind that its tag asks for. -/
def readConstant (pool : ConstantPool) (tag : ElementTag) (kind : ConstantKind) :
    Decoder ElementValue := do
  let index ← Decoder.u16
  Decoder.ofExcept (pool.requireKind index .elementConstant (· = kind))
  return .constant tag index

/-- The type and the name of an enumeration constant. -/
def readEnumConstant (pool : ConstantPool) : Decoder ElementValue := do
  Decoder.ensure 4
  let typeIndex ← Decoder.u16Unchecked
  let constantIndex ← Decoder.u16Unchecked
  let typeName ← Decoder.ofExcept (pool.utf8At typeIndex .enumType)
  let constantName ← Decoder.ofExcept (pool.utf8At constantIndex .enumConstant)
  return .enumConstant typeName constantName

/-- What follows a tag; `value` reads the values one level further in. -/
def readBody (pool : ConstantPool) (value : Decoder ElementValue) (tag : ElementTag) :
    Decoder ElementValue :=
  match tag, tag.constantKind? with
  | _, some kind => readConstant pool tag kind
  | .classInfo, none => return .classInfo (← readUtf8 pool .classInfo)
  | .nested, none => do
      let use ← readUse pool value
      return .nested use.typeName use.elements
  | .array, none => do
      let count ← Decoder.u16
      return .array (← Decoder.replicate count.toNat value)
  | .enumConstant, none => readEnumConstant pool
  | _, none => Decoder.ofExcept (.error (.fault (.constantElement tag.code)))

/-- A value, with so many levels left for it and the values inside it. -/
def read (pool : ConstantPool) : Nat → Decoder ElementValue
  | 0 => Decoder.malformed (.elementDepth maxDepth)
  | levels + 1 => do
      let code ← Decoder.u8
      match ElementTag.ofCode? code with
      | none => Decoder.malformed (.elementTag code)
      | some tag => readBody pool (read pool levels) tag

end ElementValue

/-- A counted list of annotations. -/
def AnnotationUse.readAll (pool : ConstantPool) : Decoder (List AnnotationUse) := do
  let count ← Decoder.u16
  Decoder.replicate count.toNat
    (ElementValue.readUse pool (ElementValue.read pool ElementValue.maxDepth))

end ClassLoading
