import ClassLoading.Constant.Pool
import ClassLoading.Decoder
import ClassLoading.Symbol.Table

/-!
# Raw constants

The constants of a class file as they are written, before anything is checked against the rest of
the pool. Constants are first read one after another and then placed into the slots of a pool, their
texts interned on the way. Reading keeps what it has read when it fails, so that texts that came
before the failure are interned all the same.
-/

namespace ClassLoading

/-- A constant as a class file writes it. -/
inductive RawConstant where
  | utf8 (bytes : List UInt8)
  | integer (value : Int32)
  | float (bits : UInt32)
  | long (value : Int64)
  | double (bits : UInt64)
  | classRef (name : UInt16)
  | string (text : UInt16)
  | member (kind : MemberKind) (owner nameAndType : UInt16)
  | nameAndType (name descriptor : UInt16)
  | methodHandle (kind : UInt8) (reference : UInt16)
  | methodType (descriptor : UInt16)
  | invokeDynamic (bootstrap nameAndType : UInt16)
deriving DecidableEq, Repr

/-- The slot that follows `width` slots from `index` on. -/
def slotAfter (index width : UInt16) : Except Fault UInt16 :=
  if index.toNat + width.toNat < UInt16.size then .ok (index + width)
  else .error (.slotOverflow index)

namespace RawConstant

def kind : RawConstant → ConstantKind
  | utf8 _ => .utf8
  | integer _ => .integer
  | float _ => .float
  | long _ => .long
  | double _ => .double
  | classRef _ => .classRef
  | string _ => .string
  | member kind _ _ => kind.constantKind
  | nameAndType _ _ => .nameAndType
  | methodHandle _ _ => .methodHandle
  | methodType _ => .methodType
  | invokeDynamic _ _ => .invokeDynamic

def width (constant : RawConstant) : UInt16 := constant.kind.width

/-- What is made of two numbers of sixteen bits. -/
def readPair (make : UInt16 → UInt16 → RawConstant) : Decoder RawConstant := do
  Decoder.ensure 4
  return make (← Decoder.u16Unchecked) (← Decoder.u16Unchecked)

/-- Checks that a wide entry has its second slot. -/
def requireSecondSlot (size index : UInt16) (kind : ConstantKind) : Decoder Unit := do
  let next ← Decoder.ofExcept ((slotAfter index 1).mapError .fault)
  Decoder.require (next < size) (.malformed (.missingSecondSlot index kind))

/-- What follows the tag byte of a constant. -/
def readBody (size index : UInt16) : ConstantKind → Decoder RawConstant
  | .utf8 => do
      let length ← Decoder.u16
      return .utf8 (← Decoder.bytes length.toNat)
  | .integer => return .integer (← Decoder.u32).toInt32
  | .float => return .float (← Decoder.u32)
  | .long => do
      requireSecondSlot size index .long
      return .long (← Decoder.u64).toInt64
  | .double => do
      requireSecondSlot size index .double
      return .double (← Decoder.u64)
  | .classRef => return .classRef (← Decoder.u16)
  | .string => return .string (← Decoder.u16)
  | .fieldRef => readPair (.member .field)
  | .methodRef => readPair (.member .method)
  | .interfaceMethodRef => readPair (.member .interfaceMethod)
  | .nameAndType => readPair .nameAndType
  | .methodHandle => do
      Decoder.ensure 3
      return .methodHandle (← Decoder.u8Unchecked) (← Decoder.u16Unchecked)
  | .methodType => return .methodType (← Decoder.u16)
  | .invokeDynamic => readPair .invokeDynamic
  | kind => Decoder.ofExcept (.error (.fault (.notInFiles kind)))

/-- A constant that starts at slot `index` of a pool of `size` slots. -/
def read (size index : UInt16) : Decoder RawConstant := do
  let tag ← Decoder.u8
  match ConstantKind.ofFileTag? tag with
  | some kind => readBody size index kind
  | none => Decoder.reject (.unknownConstantTag tag index)

/-- The entry of a constant, its text interned. -/
def toEntry (constant : RawConstant) (table : SymbolTable) : Entry × SymbolTable :=
  match constant with
  | utf8 bytes =>
      let (symbol, table) := table.internBytes bytes
      (.utf8 symbol, table)
  | integer value => (.integer value, table)
  | float bits => (.float bits, table)
  | long value => (.long value, table)
  | double bits => (.double bits, table)
  | classRef name => (.classIndex name, table)
  | string text => (.stringIndex text, table)
  | member kind owner typing => (.member kind owner typing, table)
  | nameAndType name descriptor => (.nameAndType name descriptor, table)
  | methodHandle kind reference => (.methodHandle kind reference, table)
  | methodType descriptor => (.methodType descriptor, table)
  | invokeDynamic bootstrap typing => (.invokeDynamic bootstrap typing, table)

end RawConstant

theorem slotAfter_toNat {index width next : UInt16} (h : slotAfter index width = .ok next) :
    next.toNat = index.toNat + width.toNat := by
  unfold slotAfter at h
  split at h
  · rename_i hlt
    obtain rfl := Except.ok.inj h
    rw [UInt16.toNat_add]
    exact Nat.mod_eq_of_lt hlt
  · simp at h

/-- What holds of a slot once it holds of the slots that an entry there may leave free next holds of
every slot. -/
theorem slotAfter_induction {motive : UInt16 → Prop} (slot : ∀ index,
    (∀ (kind : ConstantKind) next, slotAfter index kind.width = .ok next → motive next) → motive index)
    (index : UInt16) : motive index := by
  refine slot index fun kind next hnext => ?_
  have := slotAfter_toNat hnext
  have := kind.width_pos
  exact slotAfter_induction slot next
termination_by UInt16.size - index.toNat
decreasing_by
  have := next.toNat_lt
  simp only [UInt16.size]
  omega

/-- The constants read so far, and how the reading went on from there. -/
structure RawConstants where
  constants : Array RawConstant
  outcome : Except Failure Cursor

namespace RawConstants

/-- Continues a reading from slot `index` on. -/
def readOnto (size : UInt16) (done : Array RawConstant) (index : UInt16) (c : Cursor) :
    RawConstants :=
  if index < size then
    match RawConstant.read size index c with
    | .error failure => ⟨done, .error failure⟩
    | .ok (constant, c') =>
        match h : slotAfter index constant.width with
        | .error fault => ⟨done.push constant, .error (.fault fault)⟩
        | .ok next =>
            have := slotAfter_toNat h
            have : 0 < constant.width.toNat := constant.kind.width_pos
            readOnto size (done.push constant) next c'
  else ⟨done, .ok c⟩
termination_by UInt16.size - index.toNat
decreasing_by
  have := next.toNat_lt
  simp only [UInt16.size] at *
  omega

/-- Reads the constants that fill the slots from `index` on. -/
def readFrom (size index : UInt16) (c : Cursor) : RawConstants := readOnto size #[] index c

/-- Reads the constants of a pool of `size` slots. -/
def read (size : UInt16) (c : Cursor) : RawConstants := readFrom size 1 c

theorem readOnto_eq (size : UInt16) (done : Array RawConstant) (index : UInt16) (c : Cursor) :
    readOnto size done index c =
      ⟨done ++ (readFrom size index c).constants, (readFrom size index c).outcome⟩ := by
  induction index using slotAfter_induction generalizing done c with
  | slot index ih =>
      rw [readFrom, readOnto, readOnto.eq_def size #[]]
      split
      · split
        · simp
        · rename_i constant c' _
          split
          · simp
          · rename_i next h
            rw [ih constant.kind next h (done.push constant), ih constant.kind next h (#[].push constant)]
            simp
      · simp

end RawConstants

/-- Writes constants into a pool from slot `index` on, their texts interned one after another. -/
def ConstantPool.place : List RawConstant → UInt16 → ConstantPool → SymbolTable →
    Except Fault ConstantPool × SymbolTable
  | [], _, pool, table => (.ok pool, table)
  | constant :: constants, index, pool, table =>
      let (entry, table) := constant.toEntry table
      match pool.put index entry with
      | .error fault => (.error fault, table)
      | .ok pool =>
          match slotAfter index constant.width with
          | .error fault => (.error fault, table)
          | .ok next => place constants next pool table

end ClassLoading
