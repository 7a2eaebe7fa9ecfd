import ClassLoading.Constant.Raw
import ClassLoading.Descriptor
import ClassLoading.Options

/-!
# Linking a pool

Linking goes through the slots in order. It checks every reference to another slot and gives classes
and strings their text in place of its index. A slot may be checked before or after the slot that it
refers to was linked.
-/

namespace ClassLoading

/-- Checks that a slot number is valid and that its slot holds what it should. -/
def ConstantPool.requireKind (pool : ConstantPool) (index : UInt16) (role : IndexRole)
    (expected : ConstantKind → Bool) : Except Failure Unit := do
  if pool.isValid index then
    let kind ← (pool.kindAt index).mapError .fault
    if expected kind then return ()
  throw (.format (.invalidIndex role index))

/-- The text in a slot that should hold one. -/
def ConstantPool.utf8At (pool : ConstantPool) (index : UInt16) (role : IndexRole) :
    Except Failure Symbol := do
  pool.requireKind index role (· = .utf8)
  (pool.symbolAt index).mapError .fault

namespace Descriptor

/-- The text is the descriptor of a field. -/
def isField (text : List Char) : Bool := (FieldType.ofChars? text).isSome

/-- The text is the descriptor of a method. -/
def isMethod (text : List Char) : Bool := (MethodType.ofChars? text).isSome

end Descriptor

namespace Link

/-- Settings of the linker: the major version of the class file, and the decoder options. -/
structure Settings where
  major : UInt16
  options : Options
deriving DecidableEq, Repr

def malformed {α : Type} (cause : Malformation) : Except Failure α := .error (.format (.malformed cause))

/-- A member has an owner, and a name and type. -/
def checkMember (pool : ConstantPool) (owner typing : UInt16) : Except Failure Unit := do
  pool.requireKind owner .owner ConstantKind.isClassOrIndex
  pool.requireKind typing .nameAndType (· = .nameAndType)

/-- A name and type has a text for each, the second being a descriptor. -/
def checkNameAndType (settings : Settings) (pool : ConstantPool) (name descriptor : UInt16) :
    Except Failure Unit := do
  discard (pool.utf8At name .name)
  let symbol ← pool.utf8At descriptor .descriptor
  if settings.options.validateDescriptors then
    unless Descriptor.isField symbol.chars || Descriptor.isMethod symbol.chars do
      malformed (.descriptor symbol.text descriptor)

/-- A method handle has one of nine kinds, and a target that its kind permits. -/
def checkMethodHandle (settings : Settings) (pool : ConstantPool) (index : UInt16)
    (number : UInt8) (reference : UInt16) : Except Failure Unit := do
  match HandleKind.ofNumber? number with
  | none => malformed (.handleKind number)
  | some kind =>
      unless pool.isValid reference do
        throw (.format (.invalidIndex .reference reference))
      let target ← (pool.kindAt reference).mapError .fault
      unless kind.permits settings.major target do
        malformed (.handleTarget index kind target)

/-- A method type has a text that is the descriptor of a method. -/
def checkMethodType (settings : Settings) (pool : ConstantPool) (descriptor : UInt16) :
    Except Failure Unit := do
  let symbol ← pool.utf8At descriptor .descriptor
  if settings.options.validateDescriptors then
    unless Descriptor.isMethod symbol.chars do
      malformed (.methodDescriptor symbol.text descriptor)

/-- Checks the entry of a slot, given its kind; the answer is what is to be written in its place, if
anything. -/
def checkEntry (settings : Settings) (pool : ConstantPool) (index : UInt16) :
    ConstantKind → Except Failure (Option Entry)
  | .utf8 | .integer | .float | .long | .double => return none
  | .fieldRef | .methodRef | .interfaceMethodRef => do
      let (owner, typing) ← (pool.referenceAt index).mapError .fault
      checkMember pool owner typing
      return none
  | .nameAndType => do
      let (name, descriptor) ← (pool.nameAndTypeAt index).mapError .fault
      checkNameAndType settings pool name descriptor
      return none
  | .methodHandle => do
      let (number, reference) ← (pool.methodHandleAt index).mapError .fault
      checkMethodHandle settings pool index number reference
      return none
  | .methodType => do
      let descriptor ← (pool.methodTypeAt index).mapError .fault
      checkMethodType settings pool descriptor
      return none
  | .invokeDynamic => do
      let (_, typing) ← (pool.invokeDynamicAt index).mapError .fault
      pool.requireKind typing .nameAndType (· = .nameAndType)
      return none
  | .classIndex => do
      let name ← (pool.classIndexAt index).mapError .fault
      return some (.classEntity (.unresolved (← pool.utf8At name .className)))
  | .stringIndex => do
      let text ← (pool.stringIndexAt index).mapError .fault
      return some (.string (← pool.utf8At text .string))
  | kind => throw (.fault (.linkedTooEarly kind index))

/-- Links one slot, given its kind. -/
def linkSlot (settings : Settings) (pool : ConstantPool) (index : UInt16) (kind : ConstantKind) :
    Except Failure ConstantPool := do
  match ← checkEntry settings pool index kind with
  | none => return pool
  | some linked => (pool.put index linked).mapError .fault

/-- Links the slots from `index` on. -/
def linkFrom (settings : Settings) (pool : ConstantPool) (index : UInt16) :
    Except Failure ConstantPool :=
  if index < pool.size then
    match pool.kindAt index with
    | .error fault => .error (.fault fault)
    | .ok kind =>
        match linkSlot settings pool index kind with
        | .error failure => .error failure
        | .ok pool' =>
            match h : slotAfter index kind.width with
            | .error fault => .error (.fault fault)
            | .ok next =>
                have := slotAfter_toNat h
                have := ConstantKind.width_pos kind
                linkFrom settings pool' next
  else .ok pool
termination_by UInt16.size - index.toNat
decreasing_by
  have := next.toNat_lt
  simp only [UInt16.size] at *
  omega

/-- A slot is linked before the one that its entry leaves free next. -/
theorem linkFrom_of_lt (settings : Settings) {pool : ConstantPool} {index : UInt16}
    (h : index < pool.size) : linkFrom settings pool index = (do
      let kind ← (pool.kindAt index).mapError .fault
      let pool' ← linkSlot settings pool index kind
      let next ← (slotAfter index kind.width).mapError .fault
      linkFrom settings pool' next) := by
  rw [linkFrom, if_pos h]
  cases pool.kindAt index with
  | error fault => rfl
  | ok kind =>
      dsimp only [Except.mapError, bind, Except.bind]
      cases linkSlot settings pool index kind with
      | error failure => rfl
      | ok pool' =>
          dsimp only
          split <;> simp_all

theorem linkFrom_of_le (settings : Settings) {pool : ConstantPool} {index : UInt16}
    (h : ¬index < pool.size) : linkFrom settings pool index = .ok pool := by
  rw [linkFrom, if_neg h]

end Link

/-- Links all the slots of a pool. -/
def ConstantPool.link (settings : Link.Settings) (pool : ConstantPool) :
    Except Failure ConstantPool :=
  Link.linkFrom settings pool 1

end ClassLoading
