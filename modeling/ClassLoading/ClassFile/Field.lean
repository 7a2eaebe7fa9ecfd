import ClassLoading.AccessFlags
import ClassLoading.ClassFile.ElementValue

/-!
# Fields

A field has flags, a name, a descriptor and attributes. Six attributes are interpreted, the rest is
passed over; of those with a value each may occur once, in any order.
-/

namespace ClassLoading

/-- A field of a class, with what its attributes say. -/
structure Field where
  flags : FieldFlags
  name : Symbol
  descriptor : Symbol
  /-- The slot of the initial value; static fields alone have one. -/
  constantValue : Option UInt16
  signature : Option Symbol
  markedSynthetic : Bool
  deprecated : Bool
  visible : List AnnotationUse
  invisible : List AnnotationUse

/-- A field is synthetic by a flag or by an attribute. -/
def Field.isSynthetic (field : Field) : Bool :=
  field.markedSynthetic || field.flags.has FieldFlags.synthetic

/-- What the attributes read so far say about a field. -/
structure FieldNotes where
  constantValue : Option UInt16 := none
  signature : Option Symbol := none
  synthetic : Bool := false
  deprecated : Bool := false
  visible : Option (List AnnotationUse) := none
  invisible : Option (List AnnotationUse) := none

/-- What precedes the attributes of a field. -/
structure FieldHead where
  flags : FieldFlags
  name : Symbol
  descriptor : Symbol
  /-- The type that the descriptor spells, if it does. -/
  type : Option FieldType

/-- The field of a head and the notes on it. -/
def FieldHead.toField (head : FieldHead) (notes : FieldNotes) : Field where
  flags := head.flags
  name := head.name
  descriptor := head.descriptor
  constantValue := notes.constantValue
  signature := notes.signature
  markedSynthetic := notes.synthetic
  deprecated := notes.deprecated
  visible := notes.visible.getD []
  invisible := notes.invisible.getD []

namespace FieldAttribute

/-- What the reading of an attribute depends on. -/
structure Context where
  options : Options
  pool : ConstantPool
  head : FieldHead

/-- The attribute of a name, if it is interpreted on this field. -/
def interpreted? (head : FieldHead) (name : String) : Option FieldAttribute :=
  match ofName? name with
  | some .constantValue => if head.flags.isStatic then some .constantValue else none
  | other => other

/-- Refuses a second attribute of the same name. -/
def requireFirst (head : FieldHead) («attribute» : FieldAttribute) (seen : Bool) : Decoder Unit :=
  Decoder.require (!seen) (.malformed (.duplicateAttribute «attribute» head.name.text))

/-- Refuses a wrong length. -/
def requireLength («attribute» : FieldAttribute) (length expected : Nat) : Decoder Unit :=
  Decoder.require (length = expected) (.malformed (.attributeLength «attribute» length))

/-- Refuses an initial value of another kind than the type of the field asks for. -/
def requireTyped (context : Context) (index : UInt16) : Decoder Unit :=
  match context.head.type with
  | some type =>
      if context.options.validateConstantValueKinds then do
        let kind ← Decoder.ofExcept ((context.pool.kindAt index).mapError .fault)
        Decoder.require (type.constantKind? = some kind)
          (.malformed (.constantValueKind kind context.head.name.text context.head.descriptor.text))
      else pure ()
  | none => pure ()

/-- The slot of an initial value. -/
def readConstantValue (context : Context) : Decoder UInt16 := do
  let index ← Decoder.u16Unchecked
  Decoder.ofExcept (context.pool.requireKind index .constantValue ConstantKind.isConstantValue)
  requireTyped context index
  return index

/-- The text of a generic signature. -/
def readSignature (context : Context) : Decoder Symbol := do
  let index ← Decoder.u16Unchecked
  Decoder.ofExcept (context.pool.utf8At index .signature)

/-- Reads the content of an interpreted attribute. -/
def readContent (context : Context) (length : Nat) (notes : FieldNotes) :
    FieldAttribute → Decoder FieldNotes
  | .constantValue => do
      requireFirst context.head .constantValue notes.constantValue.isSome
      requireLength .constantValue length 2
      return { notes with constantValue := some (← readConstantValue context) }
  | .synthetic => do
      requireLength .synthetic length 0
      return { notes with synthetic := true }
  | .deprecated => do
      requireLength .deprecated length 0
      return { notes with deprecated := true }
  | .signature => do
      requireFirst context.head .signature notes.signature.isSome
      requireLength .signature length 2
      return { notes with signature := some (← readSignature context) }
  | .visibleAnnotations => do
      requireFirst context.head .visibleAnnotations notes.visible.isSome
      return { notes with visible := some (← AnnotationUse.readAll context.pool) }
  | .invisibleAnnotations => do
      requireFirst context.head .invisibleAnnotations notes.invisible.isSome
      return { notes with invisible := some (← AnnotationUse.readAll context.pool) }

/-- Reads the content of an attribute; one that is not interpreted is passed over. -/
def readBody (context : Context) (length : Nat) (notes : FieldNotes) :
    Option FieldAttribute → Decoder FieldNotes
  | some «attribute» => readContent context length notes «attribute»
  | none => do
      Decoder.skipUnchecked length
      return notes

/-- Reads one attribute. Its content has to take exactly the bytes that it declares. -/
def read (context : Context) (notes : FieldNotes) : Decoder FieldNotes := do
  Decoder.ensure 6
  let nameIndex ← Decoder.u16Unchecked
  let length := (← Decoder.u32Unchecked).toNat
  let name := (← Decoder.ofExcept (context.pool.utf8At nameIndex .attributeName)).text
  Decoder.ensure length
  Decoder.framed length (fun taken => .malformed (.attributeContents name length taken))
    (readBody context length notes (interpreted? context.head name))

end FieldAttribute

namespace FieldHead

/-- Reads the head of a field and the number of its attributes. -/
def read (options : Options) (pool : ConstantPool) (inInterface : Bool) :
    Decoder (FieldHead × Nat) := do
  Decoder.ensure 8
  let flags := FieldFlags.ofBits (← Decoder.u16Unchecked)
  let nameIndex ← Decoder.u16Unchecked
  let descriptorIndex ← Decoder.u16Unchecked
  let attributes ← Decoder.u16Unchecked
  Decoder.require (flags.isLegal inInterface) (.accessFlags .field flags.bits)
  let name ← Decoder.ofExcept (pool.utf8At nameIndex .fieldName)
  let descriptor ← Decoder.ofExcept (pool.utf8At descriptorIndex .fieldDescriptor)
  let type := FieldType.ofChars? descriptor.chars
  Decoder.require (!options.validateDescriptors || type.isSome)
    (.malformed (.fieldDescriptor descriptor.text descriptorIndex))
  return (⟨flags, name, descriptor, type⟩, attributes.toNat)

end FieldHead

def Field.read (options : Options) (pool : ConstantPool) (inInterface : Bool) : Decoder Field := do
  let (head, attributes) ← FieldHead.read options pool inInterface
  let notes ← Decoder.iterate (FieldAttribute.read ⟨options, pool, head⟩) attributes
    ({} : FieldNotes)
  return head.toField notes

end ClassLoading
