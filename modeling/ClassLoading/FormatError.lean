import ClassLoading.Bytes.Cursor
import ClassLoading.Text.Hexadecimal
import ClassLoading.Text.Quoted

/-!
# Format errors

What can be wrong with a class file, one constructor for each cause, and the text of each.
-/

namespace ClassLoading

/-- The part that a slot number plays where it is written. -/
inductive IndexRole where
  | owner
  | nameAndType
  | name
  | descriptor
  | reference
  | className
  | string
  | thisClass
  | superClass
  | interface
  | fieldName
  | fieldDescriptor
  | attributeName
  | constantValue
  | signature
  | annotationType
  | elementName
  | elementConstant
  | enumType
  | enumConstant
  | classInfo
deriving DecidableEq, Repr

namespace IndexRole

def wording : IndexRole → String
  | owner => "class"
  | nameAndType => "name and type"
  | name => "name"
  | descriptor => "descriptor"
  | reference => "reference"
  | className => "class name"
  | string => "string"
  | thisClass => "this class"
  | superClass => "super class"
  | interface => "interface"
  | fieldName => "field name"
  | fieldDescriptor => "field descriptor"
  | attributeName => "attribute name"
  | constantValue => "constant value"
  | signature => "signature"
  | annotationType => "annotation type"
  | elementName => "element name"
  | elementConstant => "const value"
  | enumType => "enum type name"
  | enumConstant => "enum const name"
  | classInfo => "class info"

end IndexRole

/-- What carries access flags. -/
inductive FlagOwner where
  | classFile
  | field
deriving DecidableEq, Repr

def FlagOwner.wording : FlagOwner → String
  | classFile => "class"
  | field => "field"

/-- The attributes of a field that the decoder interprets. -/
inductive FieldAttribute where
  | constantValue
  | synthetic
  | deprecated
  | signature
  | visibleAnnotations
  | invisibleAnnotations
deriving DecidableEq, Repr

namespace FieldAttribute

def name : FieldAttribute → String
  | constantValue => "ConstantValue"
  | synthetic => "Synthetic"
  | deprecated => "Deprecated"
  | signature => "Signature"
  | visibleAnnotations => "RuntimeVisibleAnnotations"
  | invisibleAnnotations => "RuntimeInvisibleAnnotations"

def all : List FieldAttribute :=
  [constantValue, synthetic, deprecated, signature, visibleAnnotations, invisibleAnnotations]

def ofName? (name : String) : Option FieldAttribute := all.find? (·.name == name)

end FieldAttribute

/-- The ways in which the content of a class file can be wrong. -/
inductive Malformation where
  | emptyPool
  | missingSecondSlot (index : UInt16) (kind : ConstantKind)
  | descriptor (text : String) (index : UInt16)
  | methodDescriptor (text : String) (index : UInt16)
  | handleKind (number : UInt8)
  | handleTarget (index : UInt16) (kind : HandleKind) (target : ConstantKind)
  | fieldDescriptor (text : String) (index : UInt16)
  | duplicateAttribute («attribute» : FieldAttribute) (field : String)
  | attributeLength («attribute» : FieldAttribute) (length : Nat)
  | constantValueKind (kind : ConstantKind) (field type : String)
  | attributeContents (name : String) (declared taken : Nat)
  | elementTag (tag : UInt8)
  | elementDepth (limit : Nat)
deriving DecidableEq, Repr

namespace Malformation

def message : Malformation → String
  | emptyPool => "Invalid constant pool count 0"
  | missingSecondSlot index kind =>
      s!"Invalid constant pool entry {index}: " ++ kind.name ++ " needs two slots"
  | descriptor text index => s!"Invalid descriptor {text} at {index}"
  | methodDescriptor text index => s!"Invalid method descriptor {text} at {index}"
  | handleKind number => s!"Invalid reference kind {number}"
  | handleTarget index kind target =>
      s!"Invalid method handle at {index}: kind " ++ kind.name ++ " cannot reference " ++ target.name
  | fieldDescriptor text index => s!"Invalid field descriptor {text} at {index}"
  | duplicateAttribute a field => "Duplicate " ++ a.name ++ s!" attribute in field {field}"
  | attributeLength a length => "Invalid " ++ a.name ++ s!" attribute length {length}"
  | constantValueKind kind field type =>
      "Inconsistent constant value type " ++ kind.name ++ s!" for field {field} of type {type}"
  | attributeContents name declared taken =>
      s!"Attribute {name} declares {declared} bytes but its contents take {taken}"
  | elementTag tag => "Unknown element value tag " ++ Quoted.byte tag
  | elementDepth limit => s!"Element values nested deeper than {limit}"

end Malformation

/-- Why a byte string is not a class file. -/
inductive FormatError where
  | truncated (shortage : Shortage)
  | badMagic (magic : UInt32)
  | unsupportedVersion (major minor : UInt16)
  | unknownConstantTag (tag : UInt8) (index : UInt16)
  | invalidIndex (role : IndexRole) (index : UInt16)
  | accessFlags (owner : FlagOwner) (bits : UInt16)
  | malformed (cause : Malformation)
deriving DecidableEq, Repr

namespace FormatError

def message : FormatError → String
  | truncated ⟨offset, needed, remaining⟩ =>
      s!"truncated class file: {needed} bytes needed at offset {offset}, {remaining} remaining"
  | badMagic magic => "invalid class file magic 0x" ++ Hexadecimal.padded 8 magic.toNat
  | unsupportedVersion major minor => s!"unsupported class file version {major}.{minor}"
  | unknownConstantTag tag index => s!"invalid constant type tag {tag} at index {index}"
  | invalidIndex role index => "invalid " ++ role.wording ++ s!" index {index}"
  | accessFlags owner bits =>
      owner.wording ++ ": illegal access flags 0x" ++ Hexadecimal.padded 4 bits.toNat
  | malformed cause => cause.message

end FormatError

end ClassLoading
