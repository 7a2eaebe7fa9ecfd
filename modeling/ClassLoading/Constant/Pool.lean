import ClassLoading.Fault
import ClassLoading.Symbol

/-!
# Constant pools

A pool has slots numbered from one up to, but not including, its size. Slot zero is never valid.
Each slot holds one entry, and each getter is for the entries of one kind: asking a slot for what it
does not hold is a fault. A class slot starts with the name of a class and may be linked, once, to a
loaded class.
-/

namespace ClassLoading

/-- The kinds of members that a reference can name. -/
inductive MemberKind where
  | field
  | method
  | interfaceMethod
deriving DecidableEq, Repr

/-- The kind of constant that refers to a kind of member. -/
def MemberKind.constantKind : MemberKind → ConstantKind
  | field => .fieldRef
  | method => .methodRef
  | interfaceMethod => .interfaceMethodRef

/-- A loaded class, as a pool refers to it: its number among the loaded classes and its name. -/
structure ClassHandle where
  id : Nat
  name : Symbol
deriving DecidableEq, Repr

/-- What a class slot refers to. -/
inductive ClassEntity where
  | unresolved (name : Symbol)
  | resolved (handle : ClassHandle)
deriving DecidableEq, Repr

namespace ClassEntity

def isUnresolved : ClassEntity → Bool
  | unresolved _ => true
  | resolved _ => false

/-- The name of the class, loaded or not. -/
def name : ClassEntity → Symbol
  | unresolved name => name
  | resolved handle => handle.name

/-- The loaded class, if there is one. -/
def handle? : ClassEntity → Option ClassHandle
  | unresolved _ => none
  | resolved handle => some handle

/-- The name of a class that is not loaded. -/
def unresolvedName : ClassEntity → Except Fault Symbol
  | unresolved name => .ok name
  | resolved _ => .error .alreadyResolved

/-- The kind of the slot that holds the entity. -/
def kind : ClassEntity → ConstantKind
  | unresolved _ => .unresolvedClass
  | resolved _ => .classRef

end ClassEntity

/-- The content of a slot. Floats and doubles are kept as their bits. -/
inductive Entry where
  /-- Nothing was written here, or the second slot of a wide entry. -/
  | vacant
  | utf8 (symbol : Symbol)
  | integer (value : Int32)
  | float (bits : UInt32)
  | long (value : Int64)
  | double (bits : UInt64)
  | classIndex (name : UInt16)
  | stringIndex (text : UInt16)
  | classEntity (entity : ClassEntity)
  | string (symbol : Symbol)
  | member (kind : MemberKind) (owner nameAndType : UInt16)
  | nameAndType (name descriptor : UInt16)
  | methodHandle (kind : UInt8) (reference : UInt16)
  | methodType (descriptor : UInt16)
  | invokeDynamic (bootstrap nameAndType : UInt16)
deriving DecidableEq, Repr

/-- The kind of a content. -/
def Entry.kind : Entry → ConstantKind
  | vacant => .invalid
  | utf8 _ => .utf8
  | integer _ => .integer
  | float _ => .float
  | long _ => .long
  | double _ => .double
  | classIndex _ => .classIndex
  | stringIndex _ => .stringIndex
  | classEntity entity => entity.kind
  | string _ => .string
  | member kind _ _ => kind.constantKind
  | nameAndType _ _ => .nameAndType
  | methodHandle _ _ => .methodHandle
  | methodType _ => .methodType
  | invokeDynamic _ _ => .invokeDynamic

/-- Slots `0` to `size - 1`, of which slot zero is unused. -/
structure ConstantPool where
  /-- The number of slots, slot zero included. -/
  size : UInt16
  slots : Vector Entry size.toNat
deriving DecidableEq, Repr

namespace ConstantPool

def vacant (size : UInt16) : ConstantPool := ⟨size, Vector.replicate size.toNat .vacant⟩

def isValid (pool : ConstantPool) (index : UInt16) : Bool := 0 < index && index < pool.size

theorem isValid_iff (pool : ConstantPool) (index : UInt16) :
    pool.isValid index = true ↔ 0 < index ∧ index < pool.size := by
  simp [isValid]

theorem lt_of_isValid {pool : ConstantPool} {index : UInt16} (h : pool.isValid index = true) :
    index.toNat < pool.size.toNat :=
  UInt16.lt_iff_toNat_lt.mp ((isValid_iff pool index).mp h).2

/-- The content of a valid slot. -/
def get? (pool : ConstantPool) (index : UInt16) : Option Entry :=
  if h : pool.isValid index then
    have := lt_of_isValid h
    some pool.slots[index.toNat]
  else none

/-- The content of a slot. -/
def entryAt (pool : ConstantPool) (index : UInt16) : Except Fault Entry :=
  match pool.get? index with
  | some entry => .ok entry
  | none => .error (.indexOutOfRange index pool.size)

def put (pool : ConstantPool) (index : UInt16) (entry : Entry) : Except Fault ConstantPool :=
  if h : pool.isValid index then
    have := lt_of_isValid h
    .ok ⟨pool.size, pool.slots.set index.toNat entry⟩
  else .error (.indexOutOfRange index pool.size)

@[simp] theorem get?_vacant (size index : UInt16) :
    (vacant size).get? index = if (vacant size).isValid index then some .vacant else none := by
  unfold get?
  split <;> simp [vacant]

theorem put_eq_ok_iff (pool : ConstantPool) (index : UInt16) (entry : Entry) :
    (∃ pool', pool.put index entry = .ok pool') ↔ pool.isValid index = true := by
  unfold put
  split <;> simp_all

theorem size_of_put {pool pool' : ConstantPool} {index : UInt16} {entry : Entry}
    (h : pool.put index entry = .ok pool') : pool'.size = pool.size := by
  unfold put at h
  split at h
  · rw [← Except.ok.inj h]
  · cases h

theorem isValid_of_put {pool pool' : ConstantPool} {index : UInt16} {entry : Entry}
    (h : pool.put index entry = .ok pool') (i : UInt16) : pool'.isValid i = pool.isValid i := by
  simp only [isValid, size_of_put h]

/-- After a slot is written it holds what was written, and every other slot holds what it held. -/
theorem get?_of_put {pool pool' : ConstantPool} {index : UInt16} {entry : Entry}
    (h : pool.put index entry = .ok pool') (i : UInt16) :
    pool'.get? i = if i = index then some entry else pool.get? i := by
  unfold put at h
  split at h
  · rename_i hvalid
    rw [← Except.ok.inj h]
    by_cases hi : i = index
    · subst hi
      simp only [get?, ↓reduceIte]
      rw [dif_pos (by simpa only [isValid] using hvalid)]
      simp
    · have hne : index.toNat ≠ i.toNat := fun he => hi (UInt16.toNat.inj he.symm)
      simp only [get?, isValid, if_neg hi, Vector.getElem_set_ne _ _ hne]
      rfl
  · cases h

def kindAt (pool : ConstantPool) (index : UInt16) : Except Fault ConstantKind := do
  return (← pool.entryAt index).kind

/-- A getter for one kind of entry: `pick` says what it yields, if the entry is of that kind. -/
def pickAt {α : Type} (pool : ConstantPool) (index : UInt16) (pick : Entry → Option α) : Except Fault α := do
  match pick (← pool.entryAt index) with
  | some value => return value
  | none => throw (.kindMismatch index)

def classIndexAt (pool : ConstantPool) (index : UInt16) : Except Fault UInt16 :=
  pool.pickAt index fun
    | .classIndex name => some name
    | _ => none

def stringIndexAt (pool : ConstantPool) (index : UInt16) : Except Fault UInt16 :=
  pool.pickAt index fun
    | .stringIndex text => some text
    | _ => none

def methodTypeAt (pool : ConstantPool) (index : UInt16) : Except Fault UInt16 :=
  pool.pickAt index fun
    | .methodType descriptor => some descriptor
    | _ => none

/-- The slots of a name and a descriptor. -/
def nameAndTypeAt (pool : ConstantPool) (index : UInt16) : Except Fault (UInt16 × UInt16) :=
  pool.pickAt index fun
    | .nameAndType name descriptor => some (name, descriptor)
    | _ => none

/-- The number of a bootstrap method and the slot of a name and type. -/
def invokeDynamicAt (pool : ConstantPool) (index : UInt16) : Except Fault (UInt16 × UInt16) :=
  pool.pickAt index fun
    | .invokeDynamic bootstrap nameAndType => some (bootstrap, nameAndType)
    | _ => none

/-- The kind of a method handle and the slot of its target. -/
def methodHandleAt (pool : ConstantPool) (index : UInt16) : Except Fault (UInt8 × UInt16) :=
  pool.pickAt index fun
    | .methodHandle kind reference => some (kind, reference)
    | _ => none

def integerAt (pool : ConstantPool) (index : UInt16) : Except Fault Int32 :=
  pool.pickAt index fun
    | .integer value => some value
    | _ => none

def floatAt (pool : ConstantPool) (index : UInt16) : Except Fault UInt32 :=
  pool.pickAt index fun
    | .float bits => some bits
    | _ => none

def longAt (pool : ConstantPool) (index : UInt16) : Except Fault Int64 :=
  pool.pickAt index fun
    | .long value => some value
    | _ => none

def doubleAt (pool : ConstantPool) (index : UInt16) : Except Fault UInt64 :=
  pool.pickAt index fun
    | .double bits => some bits
    | _ => none

def symbolAt (pool : ConstantPool) (index : UInt16) : Except Fault Symbol :=
  pool.pickAt index fun
    | .utf8 symbol => some symbol
    | _ => none

def stringAt (pool : ConstantPool) (index : UInt16) : Except Fault Symbol :=
  pool.pickAt index fun
    | .string symbol => some symbol
    | _ => none

/-- The slots of the owner and of the name and type of a member, whatever its kind. -/
def referenceAt (pool : ConstantPool) (index : UInt16) : Except Fault (UInt16 × UInt16) := do
  match ← pool.entryAt index with
  | .member _ owner nameAndType => return (owner, nameAndType)
  | entry => throw (.notReference index entry.kind)

/-- What a class slot refers to. -/
def classAt (pool : ConstantPool) (index : UInt16) : Except Fault ClassEntity := do
  match ← pool.entryAt index with
  | .classEntity entity => return entity
  | entry => throw (.notClass index entry.kind)

/-- Links a class slot to a loaded class. The answer says whether this was the first link; a later
one changes nothing. -/
def resolveAt (pool : ConstantPool) (index : UInt16) (handle : ClassHandle) :
    Except Fault (Bool × ConstantPool) := do
  match ← pool.classAt index with
  | .resolved _ => return (false, pool)
  | .unresolved _ => return (true, ← pool.put index (.classEntity (.resolved handle)))

/-- Continues a list of slots with those from `index` on. -/
def indicesOnto (pool : ConstantPool) (done : Array UInt16) (index : Nat) : Array UInt16 :=
  if h : index < pool.size.toNat then
    pool.indicesOnto (done.push (UInt16.ofNat index)) (index + pool.slots[index].kind.width.toNat)
  else done
termination_by pool.size.toNat - index
decreasing_by
  have := pool.slots[index].kind.width_pos
  omega

/-- The valid slots from `index` on, without the second slots of wide entries. -/
def indicesFrom (pool : ConstantPool) (index : Nat) : List UInt16 :=
  (pool.indicesOnto #[] index).toList

/-- The valid slots in order, without the second slots of wide entries. -/
def indices (pool : ConstantPool) : List UInt16 := pool.indicesFrom 1

theorem indicesOnto_eq (pool : ConstantPool) (done : Array UInt16) (index : Nat) :
    (pool.indicesOnto done index).toList = done.toList ++ pool.indicesFrom index := by
  rw [indicesFrom, indicesOnto, indicesOnto.eq_def pool #[]]
  split
  · rename_i h
    have := pool.slots[index].kind.width_pos
    rw [indicesOnto_eq, indicesOnto_eq pool (#[].push _)]
    simp
  · simp
termination_by pool.size.toNat - index
decreasing_by all_goals omega

/-- A slot is followed by the one that its entry leaves free next. -/
theorem indicesFrom_of_lt (pool : ConstantPool) {index : Nat} (h : index < pool.size.toNat) :
    pool.indicesFrom index =
      UInt16.ofNat index :: pool.indicesFrom (index + pool.slots[index].kind.width.toNat) := by
  rw [indicesFrom, indicesOnto, dif_pos h, indicesOnto_eq]
  simp

theorem indicesFrom_of_le (pool : ConstantPool) {index : Nat} (h : pool.size.toNat ≤ index) :
    pool.indicesFrom index = [] := by
  rw [indicesFrom, indicesOnto, dif_neg (by omega)]

end ConstantPool

end ClassLoading
