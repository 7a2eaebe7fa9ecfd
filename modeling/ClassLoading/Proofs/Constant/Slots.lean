import ClassLoading.Constant.Raw
import Mathlib.Algebra.Ring.Nat

/-!
# Slots

A pool is a function from slot numbers to entries, vacant from its size on. A list of raw constants
has a layout on such slots: each constant starts where the widths of those before it end, and what
lies between is the second slot of a wide constant.
-/

namespace ClassLoading

namespace ConstantPool

variable {pool pool' : ConstantPool} {index : UInt16} {entry : Entry}

/-- The content of a slot, valid or not. -/
def slot (pool : ConstantPool) (i : Nat) : Entry := pool.slots[i]?.getD .vacant

/-- The pool of `size` slots with the given contents. -/
def ofSlots (size : UInt16) (slot : Nat → Entry) : ConstantPool :=
  ⟨size, Vector.ofFn fun i => slot i⟩

theorem slot_of_lt (pool : ConstantPool) {i : Nat} (h : i < pool.size.toNat) : pool.slot i = pool.slots[i] := by
  simp [slot, h]

theorem slot_of_le (pool : ConstantPool) {i : Nat} (h : pool.size.toNat ≤ i) : pool.slot i = .vacant := by
  simp [slot, Nat.not_lt.mpr h]

theorem slot_ofSlots {size : UInt16} {slot : Nat → Entry} {i : Nat} (h : i < size.toNat) :
    (ofSlots size slot).slot i = slot i := by
  rw [slot_of_lt (ofSlots size slot) h]
  simp [ofSlots]

theorem eq_ofSlots {slot : Nat → Entry} (h : ∀ i < pool.size.toNat, pool.slot i = slot i) :
    pool = ofSlots pool.size slot := by
  obtain ⟨size, slots⟩ := pool
  have hslots : slots = Vector.ofFn fun i : Fin size.toNat => slot i := by
    apply Vector.ext
    intro i hi
    rw [Vector.getElem_ofFn, ← h i hi]
    exact (slot_of_lt ⟨size, slots⟩ hi).symm
  rw [ofSlots, ← hslots]

theorem slot_vacant (size : UInt16) (i : Nat) : (vacant size).slot i = .vacant := by
  rcases Nat.lt_or_ge i size.toNat with h | h
  · rw [slot_of_lt (vacant size) h]
    simp [vacant]
  · exact slot_of_le _ h

theorem isValid_iff_toNat : pool.isValid index = true ↔ 0 < index.toNat ∧ index.toNat < pool.size.toNat := by
  rw [isValid_iff, UInt16.lt_iff_toNat_lt, UInt16.lt_iff_toNat_lt]
  rfl

theorem get?_eq_some_iff :
    pool.get? index = some entry ↔ pool.isValid index = true ∧ pool.slot index.toNat = entry := by
  unfold get?
  split
  · rename_i h
    simp [h, slot_of_lt pool (lt_of_isValid h)]
  · rename_i h
    simp [h]

theorem toNat_index {i : Nat} (hi : i < pool.size.toNat) : (UInt16.ofNat i).toNat = i :=
  UInt16.toNat_ofNat_of_lt (Nat.lt_trans hi pool.size.toNat_lt)

theorem get?_ofNat {i : Nat} (hpos : 0 < i) (hi : i < pool.size.toNat) :
    pool.get? (UInt16.ofNat i) = some (pool.slot i) := by
  rw [get?_eq_some_iff, isValid_iff_toNat, toNat_index hi]
  exact ⟨⟨hpos, hi⟩, rfl⟩

theorem indicesFrom_slot {i : Nat} (h : i < pool.size.toNat) :
    pool.indicesFrom i = UInt16.ofNat i :: pool.indicesFrom (i + (pool.slot i).kind.width.toNat) := by
  rw [indicesFrom_of_lt pool h, slot_of_lt pool h]

/-- The slots that begin an entry depend on the widths of the entries alone. -/
theorem indicesFrom_congr (hsize : pool'.size = pool.size)
    (hwidth : ∀ i, 0 < i → i < pool.size.toNat →
      (pool'.slot i).kind.width = (pool.slot i).kind.width) {i : Nat} (hpos : 0 < i) :
    pool'.indicesFrom i = pool.indicesFrom i := by
  induction hn : pool.size.toNat - i using Nat.strongRecOn generalizing i with
  | ind n ih =>
    rcases Nat.lt_or_ge i pool.size.toNat with hi | hi
    · have hpositive := (pool.slot i).kind.width_pos
      rw [indicesFrom_slot hi, indicesFrom_slot (hsize ▸ hi), hwidth i hpos hi,
        ih _ (by omega) (by omega) rfl]
    · rw [indicesFrom_of_le pool hi, indicesFrom_of_le pool' (hsize ▸ hi)]

theorem slot_of_put (h : pool.put index entry = .ok pool') (i : Nat) :
    pool'.slot i = if i = index.toNat then entry else pool.slot i := by
  unfold put at h
  split at h
  · obtain rfl := Except.ok.inj h
    simp only [slot, Vector.getElem?_set, eq_comm (a := i)]
    split <;> rfl
  · cases h

end ConstantPool

/-- The slot after an entry that ends within a pool. -/
theorem slotAfter_of_le {index width : UInt16} (size : UInt16)
    (h : index.toNat + width.toNat ≤ size.toNat) :
    slotAfter index width = .ok (index + width) := by
  have hsize := size.toNat_lt
  have hlt : index.toNat + width.toNat < UInt16.size := by
    simp only [UInt16.size]
    omega
  rw [slotAfter, if_pos hlt]

namespace RawConstant

/-- The number of slots that a constant takes. -/
def span : RawConstant → Nat
  | long _ | double _ => 2
  | _ => 1

/-- The number of slots that constants take together. -/
def slotCount (constants : List RawConstant) : Nat := (constants.map span).sum

/-- The constant that starts at slot `i`, if the first of them starts at slot `start`. -/
def at? : List RawConstant → Nat → Nat → Option RawConstant
  | [], _, _ => none
  | constant :: constants, start, i =>
      if i = start then some constant else at? constants (start + constant.span) i

variable {constants before after : List RawConstant} {constant : RawConstant} {start i : Nat}

theorem width_pos (constant : RawConstant) : 0 < constant.width.toNat := constant.kind.width_pos

/-- The widths of the decoder: two slots for longs and doubles, and one for all others. -/
theorem toNat_width (constant : RawConstant) : constant.width.toNat = constant.span := by
  cases constant with
  | member kind _ _ => cases kind <;> rfl
  | _ => rfl

theorem at?_cons : at? (constant :: constants) start i =
    if i = start then some constant else at? constants (start + constant.width.toNat) i := by
  rw [at?, toNat_width]

@[simp] theorem slotCount_nil : slotCount [] = 0 := rfl

@[simp] theorem slotCount_cons (constant : RawConstant) (constants : List RawConstant) :
    slotCount (constant :: constants) = constant.width.toNat + slotCount constants := by
  simp [slotCount, toNat_width]

@[simp] theorem slotCount_append (before after : List RawConstant) :
    slotCount (before ++ after) = slotCount before + slotCount after := by
  simp [slotCount]

/-- A constant starts where the widths of those before it end. -/
theorem at?_eq_some_iff : at? constants start i = some constant ↔
    ∃ before after, constants = before ++ constant :: after ∧ i = start + slotCount before := by
  induction constants generalizing start with
  | nil => simp [at?]
  | cons first constants ih =>
      have hpos := first.width_pos
      rw [at?_cons]
      constructor
      · intro h
        split at h
        · rename_i hi
          obtain rfl := Option.some.inj h
          exact ⟨[], constants, rfl, by simpa using hi⟩
        · obtain ⟨before, after, rfl, hi⟩ := ih.mp h
          exact ⟨first :: before, after, rfl, by rw [hi, slotCount_cons, Nat.add_assoc]⟩
      · intro hgiven
        obtain ⟨before, after, hconstants, hi⟩ := hgiven
        cases before with
        | nil =>
            obtain ⟨rfl, rfl⟩ := List.cons.inj hconstants
            rw [if_pos (by simpa using hi)]
        | cons other before =>
            obtain ⟨rfl, rfl⟩ := List.cons.inj hconstants
            rw [slotCount_cons] at hi
            rw [if_neg (by omega)]
            exact ih.mpr ⟨before, after, rfl, by rw [hi, Nat.add_assoc]⟩

theorem at?_of_append (before after : List RawConstant) (constant : RawConstant) (start : Nat) :
    at? (before ++ constant :: after) start (start + slotCount before) = some constant :=
  at?_eq_some_iff.mpr ⟨before, after, rfl, rfl⟩

theorem mem_of_at? (h : at? constants start i = some constant) : constant ∈ constants := by
  obtain ⟨before, after, rfl, -⟩ := at?_eq_some_iff.mp h
  simp

/-- A constant lies within the slots that all of them take. -/
theorem bounds_of_at? (h : at? constants start i = some constant) :
    start ≤ i ∧ i + constant.width.toNat ≤ start + slotCount constants := by
  obtain ⟨before, after, rfl, rfl⟩ := at?_eq_some_iff.mp h
  simp only [slotCount_append, slotCount_cons]
  omega

theorem at?_of_lt (h : i < start) : at? constants start i = none := by
  cases hi : at? constants start i with
  | none => rfl
  | some constant =>
      have := bounds_of_at? hi
      omega

/-- No constant starts in the second slot of another. -/
theorem at?_of_inside (hlo : start + slotCount before < i)
    (hhi : i < start + slotCount before + constant.width.toNat) :
    at? (before ++ constant :: after) start i = none := by
  induction before generalizing start with
  | nil =>
      simp only [slotCount_nil, Nat.add_zero] at hlo hhi
      rw [List.nil_append, at?_cons, if_neg (by omega)]
      exact at?_of_lt hhi
  | cons first before ih =>
      have hpos := first.width_pos
      simp only [slotCount_cons] at hlo hhi
      rw [List.cons_append, at?_cons, if_neg (by omega)]
      exact ih (by omega) (by omega)

end RawConstant

end ClassLoading
