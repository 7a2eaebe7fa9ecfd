import ClassLoading.Constant.Packed
import ClassLoading.Proofs.Constant.Resolution

/-!
# Packing

The packed layout of a pool loses nothing: what a getter yields for a packed slot is what it yields for
the entry that was packed, bit for bit, and no slot ever holds anything but what its kind says.
-/

namespace ClassLoading

section Words

variable {high : UInt64}

theorem toNat_packBelow (h : high.toNat < 2 ^ 48) (low : UInt16) :
    (packBelow high low).toNat = high.toNat * 2 ^ 16 + low.toNat := by
  have hlow := low.toNat_lt
  have hshift : (high <<< 16).toNat = high.toNat <<< 16 := by
    rw [UInt64.toNat_shiftLeft, Nat.mod_eq_of_lt]
    · rfl
    · rw [Nat.shiftLeft_eq]
      show high.toNat * 2 ^ 16 < 2 ^ 64
      omega
  rw [packBelow, UInt64.toNat_or, hshift, UInt16.toNat_toUInt64,
    ← Nat.shiftLeft_add_eq_or_of_lt hlow, Nat.shiftLeft_eq]

theorem toUInt16_packBelow (h : high.toNat < 2 ^ 48) (low : UInt16) :
    (packBelow high low).toUInt16 = low := by
  apply UInt16.toNat.inj
  have hlow := low.toNat_lt
  rw [UInt64.toNat_toUInt16, toNat_packBelow h]
  omega

theorem unpackHigh_packBelow (h : high.toNat < 2 ^ 48) (low : UInt16) :
    unpackHigh (packBelow high low) = high := by
  apply UInt64.toNat.inj
  have hlow := low.toNat_lt
  rw [unpackHigh, UInt64.toNat_shiftRight, toNat_packBelow h, Nat.shiftRight_eq_div_pow]
  show (high.toNat * 2 ^ 16 + low.toNat) / 2 ^ 16 = high.toNat
  omega

end Words

theorem toUInt16_pack (high low : UInt16) : (pack high low).toUInt16 = low := by
  have hhigh := high.toNat_lt
  exact toUInt16_packBelow (by rw [UInt16.toNat_toUInt64]; omega) low

theorem unpackHigh_pack (high low : UInt16) : (unpackHigh (pack high low)).toUInt16 = high := by
  have hhigh := high.toNat_lt
  rw [pack, unpackHigh_packBelow (by rw [UInt16.toNat_toUInt64]; omega)]
  exact UInt16.toUInt16_toUInt64 high

theorem toUInt16_packBelow_toUInt64 (high : UInt8) (low : UInt16) :
    (packBelow high.toUInt64 low).toUInt16 = low := by
  have hhigh := high.toNat_lt
  exact toUInt16_packBelow (by rw [UInt8.toNat_toUInt64]; omega) low

theorem unpackHigh_packBelow_toUInt64 (high : UInt8) (low : UInt16) :
    (unpackHigh (packBelow high.toUInt64 low)).toUInt8 = high := by
  have hhigh := high.toNat_lt
  rw [unpackHigh_packBelow (by rw [UInt8.toNat_toUInt64]; omega)]
  exact UInt8.toUInt8_toUInt64 high

theorem toInt32_toUInt64 (value : Int32) : value.toUInt32.toUInt64.toUInt32.toInt32 = value := by
  rw [UInt32.toUInt32_toUInt64, Int32.toInt32_toUInt32]

theorem ofNumber?_number (kind : ConstantKind) : ConstantKind.ofNumber? kind.number = some kind := by
  cases kind <;> rfl

namespace Getter

/-- What a getter yields for an entry, if it is for entries of that kind. -/
def pick : (getter : Getter) → Entry → Option getter.Value
  | kind, entry => some entry.kind
  | classIndex, .classIndex index => some index
  | stringIndex, .stringIndex index => some index
  | methodType, .methodType index => some index
  | name, .nameAndType index _ => some index
  | descriptor, .nameAndType _ index => some index
  | bootstrap, .invokeDynamic number _ => some number
  | callTyping, .invokeDynamic _ index => some index
  | owner, .member _ index _ => some index
  | memberTyping, .member _ _ index => some index
  | handleKind, .methodHandle number _ => some number
  | handleReference, .methodHandle _ index => some index
  | integer, .integer value => some value
  | float, .float bits => some bits
  | long, .long value => some value
  | double, .double bits => some bits
  | symbol, .utf8 text => some text
  | string, .string text => some text
  | classEntity, .classEntity entity => some entity
  | _, _ => none

/-- How a getter refuses an entry. -/
def refusal (getter : Getter) (index : UInt16) (found : ConstantKind) : Fault :=
  match getter with
  | owner | memberTyping => .notReference index found
  | classEntity => .notClass index found
  | _ => .kindMismatch index

/-- What a getter yields for a slot of a pool of `size` slots. -/
def read (getter : Getter) (index size : UInt16) : Option Entry → Except Fault getter.Value
  | none => .error (.indexOutOfRange index size)
  | some entry =>
      match getter.pick entry with
      | some value => .ok value
      | none => .error (getter.refusal index entry.kind)

end Getter

namespace ConstantPool

/-- What a getter yields for a slot. -/
def get (pool : ConstantPool) (index : UInt16) : (getter : Getter) → Except Fault getter.Value
  | .kind => pool.kindAt index
  | .classIndex => pool.classIndexAt index
  | .stringIndex => pool.stringIndexAt index
  | .methodType => pool.methodTypeAt index
  | .name => Prod.fst <$> pool.nameAndTypeAt index
  | .descriptor => Prod.snd <$> pool.nameAndTypeAt index
  | .bootstrap => Prod.fst <$> pool.invokeDynamicAt index
  | .callTyping => Prod.snd <$> pool.invokeDynamicAt index
  | .owner => Prod.fst <$> pool.referenceAt index
  | .memberTyping => Prod.snd <$> pool.referenceAt index
  | .handleKind => Prod.fst <$> pool.methodHandleAt index
  | .handleReference => Prod.snd <$> pool.methodHandleAt index
  | .integer => pool.integerAt index
  | .float => pool.floatAt index
  | .long => pool.longAt index
  | .double => pool.doubleAt index
  | .symbol => pool.symbolAt index
  | .string => pool.stringAt index
  | .classEntity => pool.classAt index

theorem get_eq (pool : ConstantPool) (index : UInt16) (getter : Getter) :
    pool.get index getter = getter.read index pool.size (pool.get? index) := by
  cases getter <;> simp only [get, kindAt, classIndexAt, stringIndexAt, methodTypeAt, nameAndTypeAt,
    invokeDynamicAt, methodHandleAt, integerAt, floatAt, longAt, doubleAt, symbolAt, stringAt,
    referenceAt, classAt, pickAt, entryAt]
  all_goals
    cases pool.get? index with
    | none => rfl
    | some entry => cases entry <;> rfl

end ConstantPool

/-- A payload is what is stored for an entry; the name in a resolved cell may be any. -/
inductive Packs : Entry → Payload → Prop
  | payload (entry : Entry) : Packs entry entry.payload
  | resolved (name : Symbol) (handle : ClassHandle) :
      Packs (.classEntity (.resolved handle)) (.cell name (some handle))

namespace PackedPool

variable {packed : PackedPool} {index : UInt16} {entry : Entry}

structure Holds (packed : PackedPool) (index : UInt16) (entry : Entry) : Prop where
  kindAt_eq : packed.kindAt index = .ok entry.kind
  packs : ∃ payload, packed.payloadAt index = .ok payload ∧ Packs entry payload

theorem readAt_eq {α : Type} {kind : ConstantKind} {payload : Payload}
    (hkind : packed.kindAt index = .ok kind) (hpayload : packed.payloadAt index = .ok payload) (accepts : ConstantKind → Bool)
    (refusal : ConstantKind → Fault) (pick : Payload → Option α) :
    packed.readAt index accepts refusal pick =
      if accepts kind then (pick payload).elim (.error (.wrongPayload kind)) .ok
      else .error (.slot (refusal kind)) := by
  simp only [readAt, hkind, hpayload, bind, Except.bind]
  cases pick payload <;> rfl

theorem get_of_holds (h : packed.Holds index entry) (size : UInt16) (getter : Getter) :
    packed.get index getter = (getter.read index size (some entry)).mapError .slot := by
  obtain ⟨hkind, payload, hpayload, hpacks⟩ := h
  cases getter <;>
    simp only [get, wordAt, referenceWordAt, symbolAt, cellAt, readAt_eq hkind hpayload, hkind]
  -- A getter that is not for the entry refuses it by its kind; one that is undoes the packing.
  all_goals
    cases hpacks with
    | resolved name handle => rfl
    | payload =>
        cases entry with
        | classEntity entity => cases entity <;> rfl
        | classIndex low | stringIndex low | methodType low =>
            first | rfl | exact congrArg Except.ok (UInt16.toUInt16_toUInt64 low)
        | nameAndType high low | invokeDynamic high low =>
            first
              | rfl
              | exact congrArg Except.ok (toUInt16_pack high low)
              | exact congrArg Except.ok (unpackHigh_pack high low)
        | member kind low high =>
            cases kind <;> first
              | rfl
              | exact congrArg Except.ok (toUInt16_pack high low)
              | exact congrArg Except.ok (unpackHigh_pack high low)
        | methodHandle high low =>
            first
              | rfl
              | exact congrArg Except.ok (toUInt16_packBelow_toUInt64 high low)
              | exact congrArg Except.ok (unpackHigh_packBelow_toUInt64 high low)
        | integer value => first | rfl | exact congrArg Except.ok (toInt32_toUInt64 value)
        | float bits => first | rfl | exact congrArg Except.ok (UInt32.toUInt32_toUInt64 bits)
        | _ => rfl

section Store

variable {kind : ConstantKind} {payload : Payload}

theorem isValid_store (h : packed.isValid index = true) (i : UInt16) :
    (packed.store index kind payload h).isValid i = packed.isValid i := rfl

theorem kindAt_store (h : packed.isValid index = true) (i : UInt16) :
    (packed.store index kind payload h).kindAt i = if i = index then .ok kind else packed.kindAt i := by
  by_cases hi : i = index
  · subst hi
    rw [if_pos rfl, kindAt, dif_pos ((isValid_store h i).trans h)]
    simp only [store, Vector.getElem_set_self, ofNumber?_number]
  · have hne : index.toNat ≠ i.toNat := fun heq => hi (UInt16.toNat.inj heq.symm)
    simp only [kindAt, if_neg hi, store, Vector.getElem_set_ne _ _ hne]
    rfl

theorem payloadAt_store (h : packed.isValid index = true) (i : UInt16) :
    (packed.store index kind payload h).payloadAt i =
      if i = index then .ok payload else packed.payloadAt i := by
  by_cases hi : i = index
  · subst hi
    rw [if_pos rfl, payloadAt, dif_pos ((isValid_store h i).trans h)]
    simp only [store, Vector.getElem_set_self]
  · have hne : index.toNat ≠ i.toNat := fun heq => hi (UInt16.toNat.inj heq.symm)
    simp only [payloadAt, if_neg hi, store, Vector.getElem_set_ne _ _ hne]
    rfl

end Store

section Resolve

variable {fault : PackedFault} {entity : ClassEntity} {handle : ClassHandle}

theorem cellAt_of_get (h : packed.get index .classEntity = .ok entity) :
    ∃ cell, packed.cellAt index = .ok cell ∧ entityOfCell cell = entity := by
  change entityOfCell <$> packed.cellAt index = .ok entity at h
  cases hcell : packed.cellAt index with
  | error fault =>
      rw [hcell] at h
      cases h
  | ok cell =>
      rw [hcell] at h
      exact ⟨cell, rfl, Except.ok.inj h⟩

theorem resolveAt_of_error (h : packed.get index .classEntity = .error fault) (handle : ClassHandle) :
    packed.resolveAt index handle = (.error fault, packed) := by
  change entityOfCell <$> packed.cellAt index = .error fault at h
  cases hcell : packed.cellAt index with
  | ok cell =>
      rw [hcell] at h
      cases h
  | error fault' =>
      rw [hcell] at h
      rw [resolveAt, hcell, Except.error.inj h]

theorem resolveAt_of_resolved {kept : ClassHandle}
    (h : packed.get index .classEntity = .ok (.resolved kept)) (handle : ClassHandle) : packed.resolveAt index handle = (.ok false, packed) := by
  obtain ⟨⟨name, _ | kept'⟩, hcell, hentity⟩ := cellAt_of_get h
  · cases hentity
  · rw [resolveAt, hcell]

theorem resolveAt_of_unresolved {name : Symbol}
    (h : packed.get index .classEntity = .ok (.unresolved name))
    (hvalid : packed.isValid index = true) (handle : ClassHandle) :
    packed.resolveAt index handle =
      (.ok true, packed.store index .classRef (.cell name (some handle)) hvalid) := by
  obtain ⟨⟨name', _ | kept⟩, hcell, hentity⟩ := cellAt_of_get h
  · obtain rfl := ClassEntity.unresolved.inj hentity
    rw [resolveAt, hcell]
    exact dif_pos hvalid
  · cases hentity

end Resolve

/-- A packed pool holds what a pool holds. -/
structure Represents (packed : PackedPool) (pool : ConstantPool) : Prop where
  size_eq : packed.size = pool.size
  holds : ∀ {index entry}, pool.get? index = some entry → packed.Holds index entry

namespace Represents

variable {pool pool' : ConstantPool}

theorem vacant (size : UInt16) : Represents (.vacant size) (.vacant size) := by
  refine ⟨rfl, fun {index entry} hslot => ?_⟩
  have hisValid := ConstantPool.isValid_of_some hslot
  have hvalid : (PackedPool.vacant size).isValid index = true := hisValid
  rw [ConstantPool.get?_vacant, if_pos hisValid] at hslot
  obtain rfl := Option.some.inj hslot
  refine ⟨?_, .vacant, ?_, .payload .vacant⟩
  · unfold kindAt
    rw [dif_pos hvalid]
    simp only [PackedPool.vacant, Vector.getElem_replicate, ofNumber?_number]
    rfl
  · unfold payloadAt
    rw [dif_pos hvalid]
    simp [PackedPool.vacant]

theorem isValid_eq (h : Represents packed pool) (index : UInt16) :
    packed.isValid index = pool.isValid index := by
  rw [isValid, ConstantPool.isValid, h.size_eq]

theorem get_eq (h : Represents packed pool) (index : UInt16) (getter : Getter) :
    packed.get index getter = (pool.get index getter).mapError .slot := by
  rw [ConstantPool.get_eq]
  cases hslot : pool.get? index with
  | some entry => exact get_of_holds (h.holds hslot) pool.size getter
  | none =>
      have hinvalid : packed.isValid index = false :=
        (h.isValid_eq index).trans (ConstantPool.isValid_of_none hslot)
      have hkind : packed.kindAt index = .error (.slot (.indexOutOfRange index pool.size)) := by
        simp [kindAt, hinvalid, outOfRange, h.size_eq]
      cases getter <;> simp only [get, wordAt, referenceWordAt, symbolAt, cellAt, readAt, hkind] <;> rfl

/-- A slot of both is overwritten with the same entry. -/
theorem store {payload : Payload} (h : Represents packed pool) (hvalid : packed.isValid index = true)
    (hput : pool.put index entry = .ok pool') (hpacks : Packs entry payload) :
    Represents (packed.store index entry.kind payload hvalid) pool' := by
  refine ⟨h.size_eq.trans (ConstantPool.size_of_put hput).symm, fun {i found} hslot => ?_⟩
  rw [ConstantPool.get?_of_put hput] at hslot
  by_cases hi : i = index
  · rw [if_pos hi] at hslot
    obtain rfl := Option.some.inj hslot
    exact ⟨by rw [kindAt_store, if_pos hi], payload, by rw [payloadAt_store, if_pos hi], hpacks⟩
  · rw [if_neg hi] at hslot
    obtain ⟨hkind, old, hold, hpacks'⟩ := h.holds hslot
    exact ⟨by rw [kindAt_store, if_neg hi, hkind], old,
      by rw [payloadAt_store, if_neg hi, hold], hpacks'⟩

/-- A put writes to both, or to neither. -/
theorem put (h : Represents packed pool) (index : UInt16) (entry : Entry) :
    (∃ pool', pool.put index entry = .ok pool' ∧ (packed.put index entry).1 = .ok () ∧
      Represents (packed.put index entry).2 pool') ∨
    ∃ fault, pool.put index entry = .error fault ∧
      packed.put index entry = (.error (.slot fault), packed) := by
  rcases Bool.eq_false_or_eq_true (packed.isValid index) with hvalid | hinvalid
  · have hvalid' := (h.isValid_eq index).symm.trans hvalid
    obtain ⟨pool', hput⟩ := (ConstantPool.put_eq_ok_iff pool index entry).mpr hvalid'
    rw [PackedPool.put, dif_pos hvalid]
    exact Or.inl ⟨pool', hput, rfl, h.store hvalid hput (.payload entry)⟩
  · have hinvalid' := (h.isValid_eq index).symm.trans hinvalid
    rw [PackedPool.put, dif_neg (by simp [hinvalid]), outOfRange, h.size_eq, ConstantPool.put,
      dif_neg (by simp [hinvalid'])]
    exact Or.inr ⟨_, rfl, rfl⟩

/-- A resolution links both, finds both linked, or is refused by both. -/
theorem resolveAt (h : Represents packed pool) (index : UInt16) (handle : ClassHandle) :
    (∃ first pool', pool.resolveAt index handle = .ok (first, pool') ∧
      (packed.resolveAt index handle).1 = .ok first ∧
        Represents (packed.resolveAt index handle).2 pool') ∨
    ∃ fault, pool.resolveAt index handle = .error fault ∧
      packed.resolveAt index handle = (.error (.slot fault), packed) := by
  have hget := h.get_eq index .classEntity
  change packed.get index .classEntity = (pool.classAt index).mapError .slot at hget
  rw [ConstantPool.resolveAt]
  cases hclass : pool.classAt index with
  | error fault =>
      rw [hclass] at hget
      exact Or.inr ⟨fault, rfl, resolveAt_of_error hget handle⟩
  | ok entity =>
      rw [hclass] at hget
      cases entity with
      | resolved kept =>
          rw [resolveAt_of_resolved hget handle]
          exact Or.inl ⟨false, pool, rfl, rfl, h⟩
      | unresolved name =>
          have hisValid := ConstantPool.isValid_of_some (ConstantPool.classAt_eq_ok_iff.mp hclass)
          have hvalid := (h.isValid_eq index).trans hisValid
          obtain ⟨pool', hput⟩ :=
            (ConstantPool.put_eq_ok_iff pool index (.classEntity (.resolved handle))).mpr hisValid
          rw [resolveAt_of_unresolved hget hvalid handle]
          refine Or.inl ⟨true, pool', ?_, rfl, h.store hvalid hput (.resolved name handle)⟩
          simp only [bind, Except.bind, hput]
          rfl

end Represents

end PackedPool

end ClassLoading
