import ClassLoading.Constant.Kind

/-!
# Faults

A fault is a broken promise of a caller inside the library, as opposed to an error that bad input
causes: a read that was not covered by a bounds check, or a slot asked for what it does not hold.
-/

namespace ClassLoading

/-- A broken promise, and where it was broken. -/
inductive Fault where
  /-- A skip of `size` bytes past the end, at `offset`. -/
  | uncheckedSkip (size offset : Nat)
  /-- A read past the end, at `offset`. -/
  | uncheckedRead (offset : Nat)
  /-- A slot number outside the pool. -/
  | indexOutOfRange (index size : UInt16)
  /-- A slot that holds another kind than the one asked for. -/
  | kindMismatch (index : UInt16)
  /-- A slot that holds no member reference. -/
  | notReference (index : UInt16) (found : ConstantKind)
  /-- A slot that holds no class. -/
  | notClass (index : UInt16) (found : ConstantKind)
  /-- The name of an unresolved class, asked of a resolved one. -/
  | alreadyResolved
  /-- A class slot that is still unresolved after it was resolved. -/
  | unresolved (index : UInt16)
  /-- A kind of entry that files do not hold, met while reading one. -/
  | notInFiles (kind : ConstantKind)
  /-- An entry that cannot occur before the pool is linked. -/
  | linkedTooEarly (kind : ConstantKind) (index : UInt16)
  /-- An element value of a constant's tag, met where no constant can stand. -/
  | constantElement (code : UInt8)
  /-- A slot number that does not fit its sixteen bits. -/
  | slotOverflow (index : UInt16)
  /-- A class number that no registered class has. -/
  | unknownClass (id : Nat)
deriving DecidableEq, Repr

namespace Fault

def message : Fault → String
  | uncheckedSkip size offset => s!"unchecked skip of {size} bytes at offset {offset}"
  | uncheckedRead offset => s!"unchecked read past end of class file at offset {offset}"
  | indexOutOfRange index size => s!"constant pool index {index} out of range (size {size})"
  | kindMismatch index => s!"constant pool tag mismatch at {index}"
  | notReference index found =>
      s!"expected reference at {index}, found ConstantTag(" ++ found.name ++ ")"
  | notClass index found => s!"expected class at {index}, found ConstantTag(" ++ found.name ++ ")"
  | alreadyResolved => "class entity already resolved"
  | unresolved index => s!"class slot {index} not resolved"
  | notInFiles _ => "not a class file tag"
  | linkedTooEarly kind index => kind.name ++ s!" at {index} before linking"
  | constantElement code => s!"constant element value {code}"
  | slotOverflow index => s!"slot index overflow after {index}"
  | unknownClass id => s!"class {id} is not registered"

end Fault

end ClassLoading
