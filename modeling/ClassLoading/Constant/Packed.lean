import ClassLoading.Constant.Pool

/-!
# Packed pools

How a constant pool is laid out in memory. The kinds of the entries and what they hold stand in two
arrays; most entries share one word of 64 bits, into which numbers are packed, and a class slot is a
cell that is filled once. A getter trusts the kind of a slot to know how to read the rest of it.
-/

namespace ClassLoading

/-- What a slot holds besides its kind. -/
inductive Payload where
  | vacant
  | word (bits : UInt64)
  | symbol (symbol : Symbol)
  /-- The name of a class, and the class once it is resolved. -/
  | cell (name : Symbol) (resolved : Option ClassHandle)
deriving DecidableEq, Repr

/-- A number of sixteen bits below another number. -/
def packBelow (high : UInt64) (low : UInt16) : UInt64 := high <<< 16 ||| low.toUInt64

def pack (high low : UInt16) : UInt64 := packBelow high.toUInt64 low

/-- The number above the low sixteen bits. -/
def unpackHigh (bits : UInt64) : UInt64 := bits >>> 16

/-- What is stored for an entry besides its kind. -/
def Entry.payload : Entry → Payload
  | vacant => .vacant
  | utf8 symbol => .symbol symbol
  | integer value => .word value.toUInt32.toUInt64
  | float bits => .word bits.toUInt64
  | long value => .word value.toUInt64
  | double bits => .word bits
  | classIndex name => .word name.toUInt64
  | stringIndex text => .word text.toUInt64
  | classEntity (.unresolved name) => .cell name none
  | classEntity (.resolved handle) => .cell handle.name (some handle)
  | string symbol => .symbol symbol
  | member _ owner typing => .word (pack typing owner)
  | nameAndType name descriptor => .word (pack name descriptor)
  | methodHandle kind reference => .word (packBelow kind.toUInt64 reference)
  | methodType descriptor => .word descriptor.toUInt64
  | invokeDynamic bootstrap typing => .word (pack bootstrap typing)

/-- The getters of a pool. -/
inductive Getter where
  | kind
  | classIndex
  | stringIndex
  | methodType
  /-- The name of a name and type. -/
  | name
  /-- The descriptor of a name and type. -/
  | descriptor
  /-- The bootstrap method of a dynamic call. -/
  | bootstrap
  /-- The name and type of a dynamic call. -/
  | callTyping
  /-- The class of a member. -/
  | owner
  /-- The name and type of a member. -/
  | memberTyping
  | handleKind
  | handleReference
  | integer
  | float
  | long
  | double
  | symbol
  | string
  | classEntity
deriving DecidableEq, Repr

/-- What a getter yields. -/
def Getter.Value : Getter → Type
  | kind => ConstantKind
  | classIndex | stringIndex | methodType | name | descriptor | bootstrap | callTyping | owner
  | memberTyping | handleReference => UInt16
  | handleKind => UInt8
  | integer => Int32
  | float => UInt32
  | long => Int64
  | double => UInt64
  | symbol | string => Symbol
  | classEntity => ClassEntity

/-- Why an access to a packed pool came to nothing. -/
inductive PackedFault where
  | slot (fault : Fault)
  /-- A number in place of a kind that stands for none. -/
  | corruptedKind (number : UInt8)
  /-- A slot that does not hold what its kind says. -/
  | wrongPayload (kind : ConstantKind)
deriving DecidableEq, Repr

namespace ConstantKind

/-- The kinds that only pools in memory use. -/
def inMemory : List ConstantKind := [invalid, classIndex, stringIndex, unresolvedClass]

/-- The kind that a number in a pool stands for. -/
def ofNumber? (number : UInt8) : Option ConstantKind :=
  (inMemory.find? (·.number == number)).or (ofFileTag? number)

end ConstantKind

/-- Slots `0` to `size - 1`, of which slot zero is unused. -/
structure PackedPool where
  size : UInt16
  /-- The numbers of the kinds. -/
  kinds : Vector UInt8 size.toNat
  payloads : Vector Payload size.toNat

namespace PackedPool

def vacant (size : UInt16) : PackedPool where
  size
  kinds := Vector.replicate size.toNat ConstantKind.invalid.number
  payloads := Vector.replicate size.toNat .vacant

def isValid (pool : PackedPool) (index : UInt16) : Bool := 0 < index && index < pool.size

theorem lt_of_isValid {pool : PackedPool} {index : UInt16} (h : pool.isValid index = true) :
    index.toNat < pool.size.toNat := by
  simp only [isValid, Bool.and_eq_true, decide_eq_true_eq] at h
  exact UInt16.lt_iff_toNat_lt.mp h.2

def outOfRange (pool : PackedPool) (index : UInt16) : PackedFault :=
  .slot (.indexOutOfRange index pool.size)

def kindAt (pool : PackedPool) (index : UInt16) : Except PackedFault ConstantKind :=
  if h : pool.isValid index then
    have := lt_of_isValid h
    match ConstantKind.ofNumber? pool.kinds[index.toNat] with
    | some kind => .ok kind
    | none => .error (.corruptedKind pool.kinds[index.toNat])
  else .error (pool.outOfRange index)

def payloadAt (pool : PackedPool) (index : UInt16) : Except PackedFault Payload :=
  if h : pool.isValid index then
    have := lt_of_isValid h
    .ok pool.payloads[index.toNat]
  else .error (pool.outOfRange index)

/-- What a slot of a kind holds: `accepts` says which kinds will do, and `pick` reads the payload. -/
def readAt {α : Type} (pool : PackedPool) (index : UInt16) (accepts : ConstantKind → Bool)
    (refusal : ConstantKind → Fault) (pick : Payload → Option α) : Except PackedFault α := do
  let kind ← pool.kindAt index
  if accepts kind then
    match pick (← pool.payloadAt index) with
    | some value => return value
    | none => throw (.wrongPayload kind)
  else throw (.slot (refusal kind))

def wordAt (pool : PackedPool) (index : UInt16) (kind : ConstantKind) : Except PackedFault UInt64 :=
  pool.readAt index (· = kind) (fun _ => .kindMismatch index) fun
    | .word bits => some bits
    | _ => none

def referenceWordAt (pool : PackedPool) (index : UInt16) : Except PackedFault UInt64 :=
  pool.readAt index ConstantKind.isReference (.notReference index) fun
    | .word bits => some bits
    | _ => none

def symbolAt (pool : PackedPool) (index : UInt16) (kind : ConstantKind) : Except PackedFault Symbol :=
  pool.readAt index (· = kind) (fun _ => .kindMismatch index) fun
    | .symbol symbol => some symbol
    | _ => none

/-- The name in a class slot, and the class once it is resolved. -/
def cellAt (pool : PackedPool) (index : UInt16) : Except PackedFault (Symbol × Option ClassHandle) :=
  pool.readAt index ConstantKind.isClass (.notClass index) fun
    | .cell name resolved => some (name, resolved)
    | _ => none

def entityOfCell : Symbol × Option ClassHandle → ClassEntity
  | (_, some handle) => .resolved handle
  | (name, none) => .unresolved name

/-- What a getter yields for a slot. -/
def get (pool : PackedPool) (index : UInt16) : (getter : Getter) → Except PackedFault getter.Value
  | .kind => pool.kindAt index
  | .classIndex => UInt64.toUInt16 <$> pool.wordAt index .classIndex
  | .stringIndex => UInt64.toUInt16 <$> pool.wordAt index .stringIndex
  | .methodType => UInt64.toUInt16 <$> pool.wordAt index .methodType
  | .name => (fun bits => (unpackHigh bits).toUInt16) <$> pool.wordAt index .nameAndType
  | .descriptor => UInt64.toUInt16 <$> pool.wordAt index .nameAndType
  | .bootstrap => (fun bits => (unpackHigh bits).toUInt16) <$> pool.wordAt index .invokeDynamic
  | .callTyping => UInt64.toUInt16 <$> pool.wordAt index .invokeDynamic
  | .owner => UInt64.toUInt16 <$> pool.referenceWordAt index
  | .memberTyping => (fun bits => (unpackHigh bits).toUInt16) <$> pool.referenceWordAt index
  | .handleKind => (fun bits => (unpackHigh bits).toUInt8) <$> pool.wordAt index .methodHandle
  | .handleReference => UInt64.toUInt16 <$> pool.wordAt index .methodHandle
  | .integer => (fun bits => bits.toUInt32.toInt32) <$> pool.wordAt index .integer
  | .float => UInt64.toUInt32 <$> pool.wordAt index .float
  | .long => UInt64.toInt64 <$> pool.wordAt index .long
  | .double => pool.wordAt index .double
  | .symbol => pool.symbolAt index .utf8
  | .string => pool.symbolAt index .string
  | .classEntity => entityOfCell <$> pool.cellAt index

/-- Writes a slot whose number is known to be valid. -/
def store (pool : PackedPool) (index : UInt16) (kind : ConstantKind) (payload : Payload)
    (h : pool.isValid index = true) : PackedPool :=
  have := lt_of_isValid h
  { pool with
    kinds := pool.kinds.set index.toNat kind.number
    payloads := pool.payloads.set index.toNat payload }

/-- Writes an entry; the answer comes with the pool as it is then, also after a fault. -/
def put (pool : PackedPool) (index : UInt16) (entry : Entry) : Except PackedFault Unit × PackedPool :=
  if h : pool.isValid index then (.ok (), pool.store index entry.kind entry.payload h)
  else (.error (pool.outOfRange index), pool)

/-- Links a class slot to a loaded class. The answer says whether this was the first link. -/
def resolveAt (pool : PackedPool) (index : UInt16) (handle : ClassHandle) :
    Except PackedFault Bool × PackedPool :=
  match pool.cellAt index with
  | .error fault => (.error fault, pool)
  | .ok (_, some _) => (.ok false, pool)
  | .ok (name, none) =>
      if h : pool.isValid index then
        (.ok true, pool.store index .classRef (.cell name (some handle)) h)
      else (.error (pool.outOfRange index), pool)

end PackedPool

end ClassLoading
