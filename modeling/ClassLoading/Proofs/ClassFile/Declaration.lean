import ClassLoading.ClassFile.Decode
import ClassLoading.Proofs.ClassFile.FieldSpelling
import ClassLoading.Proofs.Constant.Linking
import ClassLoading.Proofs.Constant.Spelling
import Mathlib.Data.List.Forall2

/-!
# Class declarations

A class file as such, without regard to how it is decoded: what it writes, how that is spelt, the
rules that it has to obey, and the class that it then declares.
-/

namespace ClassLoading

open Decoder

/-- What a class file writes after its constants. -/
structure BodyDeclaration where
  flags : UInt16
  thisClass : UInt16
  superClass : UInt16
  interfaces : List UInt16
  fields : List FieldDeclaration
  interfaces_lt : interfaces.length < UInt16.size
  fields_lt : fields.length < UInt16.size

structure ClassDeclaration where
  minor : UInt16
  major : UInt16
  constants : List RawConstant
  body : BodyDeclaration
  slotCount_lt : RawConstant.slotCount constants + 1 < UInt16.size
  constants_fit : ∀ constant ∈ constants, constant.Fits

theorem ClassFile.ofUInt32_magic : BigEndian.ofUInt32 magic = [0xCA, 0xFE, 0xBA, 0xBE] := by decide

namespace BodyDeclaration

/-- The spelling of what follows the constants. -/
def encode (declaration : BodyDeclaration) : List UInt8 :=
  BigEndian.ofUInt16 declaration.flags ++ (BigEndian.ofUInt16 declaration.thisClass ++
    (BigEndian.ofUInt16 declaration.superClass ++
      (BigEndian.ofNat 2 declaration.interfaces.length ++
        (declaration.interfaces.flatMap BigEndian.ofUInt16 ++
          (BigEndian.ofNat 2 declaration.fields.length ++
            declaration.fields.flatMap FieldDeclaration.encode)))))

/-- A slot names a class that is not loaded. -/
def NamesClass (pool : ConstantPool) (index : UInt16) (name : Symbol) : Prop :=
  pool.get? index = some (.classEntity (.unresolved name))

/-- The body obeys the rules over a linked pool, and declares this class. -/
structure Declares (options : Options) (pool : ConstantPool) (declaration : BodyDeclaration)
    (file : ClassFile) : Prop where
  flags_eq : file.flags.bits = declaration.flags &&& 0xF631
  flags_allowed : AllowedForClass declaration.flags
  thisClass : NamesClass pool declaration.thisClass file.name
  superClass : declaration.superClass = 0 ∧ file.superName = none ∨
    ∃ name, NamesClass pool declaration.superClass name ∧ file.superName = some name
  interfaces : List.Forall₂ (NamesClass pool) declaration.interfaces file.interfaces
  fields : List.Forall₂
    (FieldDeclaration.Declares options pool (decide (Carries declaration.flags 0x0200)))
    declaration.fields file.fields

end BodyDeclaration

namespace ClassDeclaration

/-- The number of slots of the pool, slot zero included. -/
def poolSize (declaration : ClassDeclaration) : UInt16 :=
  UInt16.ofNat (RawConstant.slotCount declaration.constants + 1)

def encode (declaration : ClassDeclaration) : List UInt8 :=
  [0xCA, 0xFE, 0xBA, 0xBE] ++ (BigEndian.ofUInt16 declaration.minor ++
    (BigEndian.ofUInt16 declaration.major ++ BigEndian.ofUInt16 declaration.poolSize)) ++
      (declaration.constants.flatMap RawConstant.encode ++ declaration.body.encode)

/-- The pool that the constants make up when they are linked; each text stands for a symbol. -/
def pool (declaration : ClassDeclaration) (symbol : List UInt8 → Symbol) : ConstantPool :=
  .ofConstants declaration.poolSize declaration.constants symbol

/-- The class file obeys the rules, and declares this class. -/
structure Declares (options : Options) (symbol : List UInt8 → Symbol)
    (declaration : ClassDeclaration) (file : ClassFile) : Prop where
  minor_eq : file.minor = declaration.minor
  major_eq : file.major = declaration.major
  version_accepted : options.enforceVersion = true →
    options.minMajor ≤ declaration.major ∧ declaration.major ≤ options.maxMajor
  refers : ∀ constant ∈ declaration.constants,
    constant.Refers ⟨declaration.major, options⟩ declaration.constants
  pool_eq : file.pool = declaration.pool symbol
  body : declaration.body.Declares options file.pool file

variable {declaration : ClassDeclaration}

theorem toNat_poolSize (declaration : ClassDeclaration) :
    declaration.poolSize.toNat = RawConstant.slotCount declaration.constants + 1 :=
  UInt16.toNat_ofNat_of_lt declaration.slotCount_lt

end ClassDeclaration

end ClassLoading
