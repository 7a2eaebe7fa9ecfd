/-!
# Kinds of constants

The kinds of constant pool entries and the kinds of method handles. Fourteen kinds of entries occur
in class files; the others only mark slots of a pool in memory: slots that hold nothing, classes
and strings that still carry the index of their text, and classes that are named but not loaded.
-/

namespace ClassLoading

/-- What a slot of a constant pool holds. -/
inductive ConstantKind where
  | invalid
  | utf8
  | integer
  | float
  | long
  | double
  | classRef
  | string
  | fieldRef
  | methodRef
  | interfaceMethodRef
  | nameAndType
  | methodHandle
  | methodType
  | invokeDynamic
  | classIndex
  | stringIndex
  | unresolvedClass
deriving DecidableEq, Repr

namespace ConstantKind

/-- The number that stands for a kind; below 100 it is the tag byte used in class files. -/
def number : ConstantKind → UInt8
  | invalid => 0
  | utf8 => 1
  | integer => 3
  | float => 4
  | long => 5
  | double => 6
  | classRef => 7
  | string => 8
  | fieldRef => 9
  | methodRef => 10
  | interfaceMethodRef => 11
  | nameAndType => 12
  | methodHandle => 15
  | methodType => 16
  | invokeDynamic => 18
  | classIndex => 100
  | stringIndex => 101
  | unresolvedClass => 102

/-- The name of a kind in messages. -/
def name : ConstantKind → String
  | invalid => "Invalid"
  | utf8 => "Utf8"
  | integer => "Integer"
  | float => "Float"
  | long => "Long"
  | double => "Double"
  | classRef => "Class"
  | string => "String"
  | fieldRef => "Fieldref"
  | methodRef => "Methodref"
  | interfaceMethodRef => "InterfaceMethodref"
  | nameAndType => "NameAndType"
  | methodHandle => "MethodHandle"
  | methodType => "MethodType"
  | invokeDynamic => "InvokeDynamic"
  | classIndex => "ClassIndex"
  | stringIndex => "StringIndex"
  | unresolvedClass => "UnresolvedClass"

/-- The kinds that class files use. -/
def inFiles : List ConstantKind :=
  [utf8, integer, float, long, double, classRef, string, fieldRef, methodRef, interfaceMethodRef,
    nameAndType, methodHandle, methodType, invokeDynamic]

/-- The kind that a tag byte of a class file announces. -/
def ofFileTag? (tag : UInt8) : Option ConstantKind := inFiles.find? (·.number == tag)

/-- Longs and doubles take two slots. -/
def isWide : ConstantKind → Bool
  | long | double => true
  | _ => false

/-- The number of slots that an entry takes. -/
def width (kind : ConstantKind) : UInt16 := if kind.isWide then 2 else 1

theorem width_pos (kind : ConstantKind) : 0 < kind.width.toNat := by
  unfold width
  split <;> decide

def isReference : ConstantKind → Bool
  | fieldRef | methodRef | interfaceMethodRef => true
  | _ => false

/-- A class, loaded or only named. -/
def isClass : ConstantKind → Bool
  | classRef | unresolvedClass => true
  | _ => false

/-- A class in any form, the index of its name included. -/
def isClassOrIndex : ConstantKind → Bool
  | classRef | unresolvedClass | classIndex => true
  | _ => false

/-- The kinds that the initial value of a static field may have. -/
def isConstantValue : ConstantKind → Bool
  | integer | float | long | double | string => true
  | _ => false

end ConstantKind

/-- What a method handle does with the member it refers to. -/
inductive HandleKind where
  | getField
  | getStatic
  | putField
  | putStatic
  | invokeVirtual
  | invokeStatic
  | invokeSpecial
  | newInvokeSpecial
  | invokeInterface
deriving DecidableEq, Repr

namespace HandleKind

/-- The kinds in the order of their numbers, which start at one. -/
def all : List HandleKind :=
  [getField, getStatic, putField, putStatic, invokeVirtual, invokeStatic, invokeSpecial,
    newInvokeSpecial, invokeInterface]

/-- The kind of a number from one to nine. -/
def ofNumber? (n : UInt8) : Option HandleKind :=
  if n = 0 then none else all[n.toNat - 1]?

/-- The name of a kind in messages. -/
def name : HandleKind → String
  | getField => "GetField"
  | getStatic => "GetStatic"
  | putField => "PutField"
  | putStatic => "PutStatic"
  | invokeVirtual => "InvokeVirtual"
  | invokeStatic => "InvokeStatic"
  | invokeSpecial => "InvokeSpecial"
  | newInvokeSpecial => "NewInvokeSpecial"
  | invokeInterface => "InvokeInterface"

/-- The first major version in which static and special handles may refer to interface methods. -/
def interfaceTargetsSince : UInt16 := 52

/-- Whether a handle of this kind may refer to an entry of kind `target` in a class file of the
given major version. -/
def permits (major : UInt16) (target : ConstantKind) : HandleKind → Bool
  | getField | getStatic | putField | putStatic => target = .fieldRef
  | invokeVirtual | newInvokeSpecial => target = .methodRef
  | invokeStatic | invokeSpecial =>
      target = .methodRef || (interfaceTargetsSince ≤ major && target = .interfaceMethodRef)
  | invokeInterface => target = .interfaceMethodRef

end HandleKind

end ClassLoading
