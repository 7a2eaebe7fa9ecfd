/-!
# Access flags

The flag words of classes and fields. A word keeps only the bits that have a meaning, and each
kind of owner has a rule that says which combinations it may carry.
-/

namespace ClassLoading

/-- A flag bit and its name. -/
structure Flag where
  name : String
  bit : UInt16
deriving DecidableEq, Repr

namespace Flag

def mask (flags : List Flag) : UInt16 := flags.foldl (fun m f => m ||| f.bit) 0

end Flag

/-- The flags of a class; no bit is set that has no meaning. -/
structure ClassFlags where
  bits : UInt16
deriving DecidableEq, Repr

namespace ClassFlags

def «public» : UInt16 := 0x0001
def final : UInt16 := 0x0010
def super : UInt16 := 0x0020
def interface : UInt16 := 0x0200
def abstract : UInt16 := 0x0400
def synthetic : UInt16 := 0x1000
def annotationType : UInt16 := 0x2000
def enum : UInt16 := 0x4000
def module : UInt16 := 0x8000

def known : List Flag :=
  [⟨"PUBLIC", «public»⟩, ⟨"FINAL", final⟩, ⟨"SUPER", super⟩, ⟨"INTERFACE", interface⟩,
    ⟨"ABSTRACT", abstract⟩, ⟨"SYNTHETIC", synthetic⟩, ⟨"ANNOTATION", annotationType⟩,
    ⟨"ENUM", enum⟩, ⟨"MODULE", module⟩]

/-- Keeps the bits that have a meaning. -/
def ofBits (bits : UInt16) : ClassFlags := ⟨bits &&& Flag.mask known⟩

/-- Whether all the bits of `mask` are set. -/
def has (flags : ClassFlags) (mask : UInt16) : Bool := flags.bits &&& mask == mask

def set (flags : ClassFlags) : List Flag := known.filter (flags.has ·.bit)

def isInterface (flags : ClassFlags) : Bool := flags.has interface

/-- A module is no class; an interface is abstract, not final, and neither an enumeration nor
marked for the later call convention; any other class is no declaration of an annotation, and not
both final and abstract. -/
def isLegal (flags : ClassFlags) : Bool :=
  if flags.has module then false
  else if flags.isInterface then
    flags.has abstract && !flags.has final && !flags.has super && !flags.has enum
  else !flags.has annotationType && !(flags.has final && flags.has abstract)

end ClassFlags

/-- The flags of a field; no bit is set that has no meaning. -/
structure FieldFlags where
  bits : UInt16
deriving DecidableEq, Repr

namespace FieldFlags

def «public» : UInt16 := 0x0001
def «private» : UInt16 := 0x0002
def «protected» : UInt16 := 0x0004
def static : UInt16 := 0x0008
def final : UInt16 := 0x0010
def volatile : UInt16 := 0x0040
def transient : UInt16 := 0x0080
def synthetic : UInt16 := 0x1000
def enum : UInt16 := 0x4000

def known : List Flag :=
  [⟨"PUBLIC", «public»⟩, ⟨"PRIVATE", «private»⟩, ⟨"PROTECTED", «protected»⟩, ⟨"STATIC", static⟩,
    ⟨"FINAL", final⟩, ⟨"VOLATILE", volatile⟩, ⟨"TRANSIENT", transient⟩, ⟨"SYNTHETIC", synthetic⟩,
    ⟨"ENUM", enum⟩]

/-- Keeps the bits that have a meaning. -/
def ofBits (bits : UInt16) : FieldFlags := ⟨bits &&& Flag.mask known⟩

/-- Whether all the bits of `mask` are set. -/
def has (flags : FieldFlags) (mask : UInt16) : Bool := flags.bits &&& mask == mask

def set (flags : FieldFlags) : List Flag := known.filter (flags.has ·.bit)

def isStatic (flags : FieldFlags) : Bool := flags.has static

/-- A field of an interface is public, static and final, and at most synthetic besides. -/
def isLegalInInterface (flags : FieldFlags) : Bool :=
  let required := «public» ||| static ||| final
  flags.has required && flags.bits &&& ~~~(required ||| synthetic) == 0

/-- A field of a class has at most one visibility, and is not both final and volatile. -/
def isLegalInClass (flags : FieldFlags) : Bool :=
  let visibilities := [«public», «private», «protected»].countP (flags.has ·)
  visibilities ≤ 1 && !(flags.has final && flags.has volatile)

def isLegal (flags : FieldFlags) (inInterface : Bool) : Bool :=
  if inInterface then flags.isLegalInInterface else flags.isLegalInClass

end FieldFlags

end ClassLoading
