import ClassLoading.Proofs.Constant.Slots
import ClassLoading.Proofs.Decoder

/-!
# The spelling of constants

A constant is spelt by the byte that announces it and what belongs to its kind. The constants of a pool
follow one another until they fill its slots.
-/

namespace ClassLoading

namespace ConstantKind

/-- A byte announces a kind exactly if it is the number of one that occurs in files. -/
theorem ofFileTag?_eq_some_iff {tag : UInt8} {kind : ConstantKind} :
    ofFileTag? tag = some kind ↔ kind ∈ inFiles ∧ kind.number = tag := by
  constructor
  · intro h
    have hnumber := List.find?_some h
    exact ⟨List.mem_of_find?_eq_some h, by simpa using hnumber⟩
  · intro hgiven
    obtain ⟨hkind, rfl⟩ := hgiven
    revert hkind
    cases kind <;> decide

end ConstantKind

namespace RawConstant

def body : RawConstant → List UInt8
  | utf8 bytes => BigEndian.ofNat 2 bytes.length ++ bytes
  | integer value => BigEndian.ofUInt32 value.toUInt32
  | float bits => BigEndian.ofUInt32 bits
  | long value => BigEndian.ofUInt64 value.toUInt64
  | double bits => BigEndian.ofUInt64 bits
  | classRef name => BigEndian.ofUInt16 name
  | string text => BigEndian.ofUInt16 text
  | member _ owner typing => BigEndian.ofUInt16 owner ++ BigEndian.ofUInt16 typing
  | nameAndType name descriptor => BigEndian.ofUInt16 name ++ BigEndian.ofUInt16 descriptor
  | methodHandle kind reference => kind :: BigEndian.ofUInt16 reference
  | methodType descriptor => BigEndian.ofUInt16 descriptor
  | invokeDynamic bootstrap typing => BigEndian.ofUInt16 bootstrap ++ BigEndian.ofUInt16 typing

/-- The byte that announces a constant. -/
def tag : RawConstant → UInt8
  | utf8 _ => 1
  | integer _ => 3
  | float _ => 4
  | long _ => 5
  | double _ => 6
  | classRef _ => 7
  | string _ => 8
  | member .field _ _ => 9
  | member .method _ _ => 10
  | member .interfaceMethod _ _ => 11
  | nameAndType _ _ => 12
  | methodHandle _ _ => 15
  | methodType _ => 16
  | invokeDynamic _ _ => 18

def encode (constant : RawConstant) : List UInt8 := constant.tag :: constant.body

/-- The numbers of the kinds, as far as they occur in files. -/
theorem number_kind (constant : RawConstant) : constant.kind.number = constant.tag := by
  cases constant with
  | member kind _ _ => cases kind <;> rfl
  | _ => rfl

/-- The length of a text fits its counter. -/
def Fits : RawConstant → Prop
  | utf8 bytes => bytes.length < UInt16.size
  | _ => True

theorem kind_mem_inFiles (constant : RawConstant) : constant.kind ∈ ConstantKind.inFiles := by
  cases constant with
  | member kind owner typing => cases kind <;> simp [kind, MemberKind.constantKind, ConstantKind.inFiles]
  | _ => simp [kind, ConstantKind.inFiles]

theorem shape (constant : RawConstant) :
    match constant.kind with
    | .utf8 => ∃ bytes, constant = utf8 bytes
    | .integer => ∃ value, constant = integer value
    | .float => ∃ bits, constant = float bits
    | .long => ∃ value, constant = long value
    | .double => ∃ bits, constant = double bits
    | .classRef => ∃ name, constant = classRef name
    | .string => ∃ text, constant = string text
    | .fieldRef => ∃ owner typing, constant = member .field owner typing
    | .methodRef => ∃ owner typing, constant = member .method owner typing
    | .interfaceMethodRef => ∃ owner typing, constant = member .interfaceMethod owner typing
    | .nameAndType => ∃ name descriptor, constant = nameAndType name descriptor
    | .methodHandle => ∃ kind reference, constant = methodHandle kind reference
    | .methodType => ∃ descriptor, constant = methodType descriptor
    | .invokeDynamic => ∃ bootstrap typing, constant = invokeDynamic bootstrap typing
    | _ => False := by
  cases constant with
  | member kind owner typing => cases kind <;> simp [RawConstant.kind, MemberKind.constantKind]
  | _ => simp [RawConstant.kind]

/-- A constant of the given kind, and the bytes that follow the one of its kind. -/
structure Spelled (kind : ConstantKind) (bytes : List UInt8) (constant : RawConstant) : Prop where
  kind_eq : constant.kind = kind
  bytes_eq : bytes = constant.body
  fits : constant.Fits

section Reading

open Decoder

variable {α : Type} {size index : UInt16} {kind : ConstantKind} {make : α → RawConstant}
  {spell : α → List UInt8}

/-- If the constants of a kind are those that `make` makes, what is made of the things read has the
spellings of that kind. -/
theorem reads_of_make {d : Decoder RawConstant} {covered : Nat}
    (hd : Reads covered d fun bytes constant => ∃ a, bytes = spell a ∧ constant = make a)
    (hmake : ∀ a, Spelled kind (spell a) (make a)) (hshape : ∀ c, c.kind = kind → ∃ a, c = make a) :
    Reads covered d (Spelled kind) := by
  apply hd.congr
  intro bytes constant
  constructor
  · intro h
    obtain ⟨a, rfl, rfl⟩ := h
    exact hmake a
  · intro h
    obtain ⟨hkind, rfl, -⟩ := h
    obtain ⟨a, rfl⟩ := hshape constant hkind
    exact ⟨a, (hmake a).bytes_eq.symm, rfl⟩

theorem readWord_reads {d : Decoder α} {width : Nat} (make : α → RawConstant)
    (hd : Reads 0 d fun bytes a => bytes = spell a) (hwidth : ∀ a, (spell a).length = width) :
    Reads 0 (d >>= fun a => pure (make a)) fun bytes constant =>
      ∃ a, bytes = spell a ∧ constant = make a := by
  apply (hd.step hwidth fun a => Reads.pure (make a)).congr
  intro bytes constant
  simp

theorem readPair_reads (make : UInt16 → UInt16 → RawConstant) :
    Reads 0 (readPair make) fun bytes constant => ∃ pair : UInt16 × UInt16,
      bytes = BigEndian.ofUInt16 pair.1 ++ BigEndian.ofUInt16 pair.2 ∧
        constant = make pair.1 pair.2 := by
  have hpair : Reads 4 (do return make (← Decoder.u16Unchecked) (← Decoder.u16Unchecked)) _ :=
    (Reads.u16Unchecked (by decide)).step BigEndian.length_ofUInt16 fun a =>
      (Reads.u16Unchecked (by decide)).step BigEndian.length_ofUInt16 fun b => Reads.pure (make a b)
  refine (Reads.ensure hpair ?_).congr fun bytes constant => ?_
  · intro bytes _ h
    obtain ⟨a, _, rfl, b, _, rfl, -⟩ := h
    simp only [List.length_append, BigEndian.length_ofUInt16]
    omega
  · simp

theorem requireSecondSlot_reads (hindex : index < size) (kind : ConstantKind) :
    Reads 0 (requireSecondSlot size index kind)
      fun bytes _ => bytes = [] ∧ index.toNat + 1 < size.toNat := by
  have hlt := UInt16.lt_iff_toNat_lt.mp hindex
  have hsize := size.toNat_lt
  have hnext : slotAfter index 1 = .ok (index + 1) := by
    have : index.toNat + (1 : UInt16).toNat < UInt16.size := by
      simp only [UInt16.size, UInt16.toNat_one]
      omega
    rw [slotAfter, if_pos this]
  have hcondition : decide (index + 1 < size) = true ↔ index.toNat + 1 < size.toNat := by
    rw [decide_eq_true_iff, UInt16.lt_iff_toNat_lt, slotAfter_toNat hnext, UInt16.toNat_one]
  have hrequire : requireSecondSlot size index kind = (do
      let next ← Decoder.ofExcept ((slotAfter index 1).mapError .fault)
      Decoder.require (next < size) (.malformed (.missingSecondSlot index kind))
      return ()) := by
    simp only [requireSecondSlot, bind_pure_unit]
  rw [hrequire, hnext]
  refine (Reads.lookup (Answers.pure (index + 1)) fun next _ => Reads.require fun _ =>
    Reads.pure ()).congr fun bytes _ => ?_
  constructor
  · intro h
    obtain ⟨next, rfl, hless, rfl, -⟩ := h
    exact ⟨rfl, hcondition.mp hless⟩
  · intro h
    obtain ⟨rfl, hless⟩ := h
    exact ⟨index + 1, rfl, hcondition.mpr hless, rfl, rfl⟩

theorem readText_reads : Reads 0 (readBody size index .utf8) (Spelled .utf8) := by
  refine (Reads.u16.step BigEndian.length_ofUInt16 fun length =>
    (Reads.bytes length.toNat).bind fun _ text _ => Reads.pure (utf8 text)).congr
    fun bytes constant => ?_
  constructor
  · intro h
    obtain ⟨length, _, rfl, text, _, _, ⟨hlength, rfl⟩, ⟨rfl, rfl⟩, rfl⟩ := h
    refine ⟨rfl, ?_, ?_⟩
    · simp [body, hlength, BigEndian.ofUInt16]
    · simp only [Fits, hlength]
      exact length.toNat_lt
  · intro h
    obtain ⟨hkind, rfl, hfits⟩ := h
    obtain ⟨text, rfl⟩ : ∃ text, constant = utf8 text := by simpa [hkind] using constant.shape
    have hlength : (UInt16.ofNat text.length).toNat = text.length := UInt16.toNat_ofNat_of_lt hfits
    refine ⟨UInt16.ofNat text.length, text, ?_, text, text, [], ⟨hlength.symm, rfl⟩, ⟨rfl, rfl⟩, ?_⟩
    · rw [body, BigEndian.ofUInt16, hlength]
    · rw [List.append_nil]

theorem readHandle_reads : Reads 0 (readBody size index .methodHandle) (Spelled .methodHandle) := by
  have hparts : Reads 3 (do return methodHandle (← Decoder.u8Unchecked) (← Decoder.u16Unchecked)) _ :=
    (Reads.u8Unchecked (by decide)).step (fun n => List.length_singleton) fun kind =>
      (Reads.u16Unchecked (by decide)).step BigEndian.length_ofUInt16 fun reference =>
        Reads.pure (methodHandle kind reference)
  have hread : Reads 0 (readBody size index .methodHandle) fun bytes constant =>
      ∃ parts : UInt8 × UInt16, bytes = parts.1 :: BigEndian.ofUInt16 parts.2 ∧
        constant = methodHandle parts.1 parts.2 := by
    refine (Reads.ensure hparts ?_).congr fun bytes constant => ?_
    · intro bytes _ hgiven
      obtain ⟨kind, _, rfl, reference, _, rfl, -⟩ := hgiven
      simp only [List.length_append, List.length_singleton, BigEndian.length_ofUInt16]
      omega
    · simp
  exact reads_of_make hread (fun parts => ⟨rfl, rfl, trivial⟩) fun c h => by simpa [h] using c.shape

/-- What follows the byte of a narrow kind is read as a constant of that kind. -/
theorem readNarrow_reads (hkind : kind ∈ ConstantKind.inFiles) (hwide : kind.isWide = false) :
    Reads 0 (readBody size index kind) (Spelled kind) := by
  cases kind with
  | utf8 => exact readText_reads
  | integer =>
      refine reads_of_make (readWord_reads (fun n : UInt32 => integer n.toInt32) Reads.u32
        BigEndian.length_ofUInt32) (fun n => ⟨rfl, by simp [body], trivial⟩) fun c h => ?_
      obtain ⟨value, rfl⟩ : ∃ value, c = integer value := by simpa [h] using c.shape
      exact ⟨value.toUInt32, by simp⟩
  | float =>
      exact reads_of_make (readWord_reads float Reads.u32 BigEndian.length_ofUInt32)
        (fun n => ⟨rfl, rfl, trivial⟩) fun c h => by simpa [h] using c.shape
  | classRef =>
      exact reads_of_make (readWord_reads classRef Reads.u16 BigEndian.length_ofUInt16)
        (fun n => ⟨rfl, rfl, trivial⟩) fun c h => by simpa [h] using c.shape
  | string =>
      exact reads_of_make (readWord_reads string Reads.u16 BigEndian.length_ofUInt16)
        (fun n => ⟨rfl, rfl, trivial⟩) fun c h => by simpa [h] using c.shape
  | methodType =>
      exact reads_of_make (readWord_reads methodType Reads.u16 BigEndian.length_ofUInt16)
        (fun n => ⟨rfl, rfl, trivial⟩) fun c h => by simpa [h] using c.shape
  | fieldRef | methodRef | interfaceMethodRef | nameAndType | invokeDynamic =>
      exact reads_of_make (readPair_reads _)
        (fun pair => ⟨rfl, rfl, trivial⟩) fun c h => by simpa [h] using c.shape
  | methodHandle => exact readHandle_reads
  | long | double => cases hwide
  | _ => simp [ConstantKind.inFiles] at hkind

/-- What follows the byte of a wide kind is read as a constant of that kind, if it has its second
slot. -/
theorem readWide_reads (hindex : index < size) (hwide : kind.isWide = true) :
    Reads 0 (readBody size index kind) fun bytes constant =>
      Spelled kind bytes constant ∧ index.toNat + 1 < size.toNat := by
  have hsecond := requireSecondSlot_reads hindex kind
  cases kind with
  | long =>
      have hvalue : Reads 0 (do return long (← Decoder.u64).toInt64) (Spelled .long) := by
        refine reads_of_make (readWord_reads (fun n : UInt64 => long n.toInt64) Reads.u64
          BigEndian.length_ofUInt64) (fun n => ⟨rfl, by simp [body], trivial⟩) fun c h => ?_
        obtain ⟨value, rfl⟩ : ∃ value, c = long value := by simpa [h] using c.shape
        exact ⟨value.toUInt64, by simp⟩
      apply (hsecond.bind fun _ _ _ => hvalue.mono (Nat.zero_le _)).congr
      intro bytes constant
      simp [and_comm]
  | double =>
      have hvalue : Reads 0 (do return double (← Decoder.u64)) (Spelled .double) :=
        reads_of_make (readWord_reads double Reads.u64 BigEndian.length_ofUInt64)
          (fun n => ⟨rfl, rfl, trivial⟩) fun c h => by simpa [h] using c.shape
      apply (hsecond.bind fun _ _ _ => hvalue.mono (Nat.zero_le _)).congr
      intro bytes constant
      simp [and_comm]
  | _ => cases hwide

theorem readTagged_reads (hindex : index < size) (tag : UInt8) :
    Reads 0 (match ConstantKind.ofFileTag? tag with
      | some kind => readBody size index kind
      | none => Decoder.reject (.unknownConstantTag tag index))
      fun bytes constant => constant.kind.number = tag ∧ bytes = constant.body ∧ constant.Fits ∧
        index.toNat + constant.width.toNat ≤ size.toNat := by
  have hlt := UInt16.lt_iff_toNat_lt.mp hindex
  cases htag : ConstantKind.ofFileTag? tag with
  | none =>
      apply (Reads.reject _).congr
      intro bytes constant
      constructor
      · intro h
        exact h.elim
      · intro hgiven
        obtain ⟨hnumber, -⟩ := hgiven
        have := ConstantKind.ofFileTag?_eq_some_iff.mpr ⟨constant.kind_mem_inFiles, hnumber⟩
        rw [htag] at this
        cases this
  | some kind =>
      obtain ⟨hkind, hnumber⟩ := ConstantKind.ofFileTag?_eq_some_iff.mp htag
      have hsame (constant : RawConstant) (h : constant.kind.number = tag) : constant.kind = kind := by
        have := ConstantKind.ofFileTag?_eq_some_iff.mpr ⟨constant.kind_mem_inFiles, h⟩
        rw [htag] at this
        exact (Option.some.inj this).symm
      cases hwide : kind.isWide with
      | false =>
          apply (readNarrow_reads hkind hwide).congr
          intro bytes constant
          constructor
          · intro hgiven
            obtain ⟨rfl, hbytes, hfits⟩ := hgiven
            refine ⟨hnumber, hbytes, hfits, ?_⟩
            simp [width, ConstantKind.width, hwide]
            omega
          · intro hgiven
            obtain ⟨h, hbytes, hfits, -⟩ := hgiven
            exact ⟨hsame constant h, hbytes, hfits⟩
      | true =>
          apply (readWide_reads hindex hwide).congr
          intro bytes constant
          constructor
          · intro hgiven
            obtain ⟨⟨rfl, hbytes, hfits⟩, hnext⟩ := hgiven
            refine ⟨hnumber, hbytes, hfits, ?_⟩
            simp [width, ConstantKind.width, hwide]
            omega
          · intro hgiven
            obtain ⟨h, hbytes, hfits, hnext⟩ := hgiven
            obtain rfl := hsame constant h
            refine ⟨⟨rfl, hbytes, hfits⟩, ?_⟩
            simp [width, ConstantKind.width, hwide] at hnext
            omega

/-- A constant is read exactly where it is spelt, if a wide one has its second slot. -/
theorem read_reads (hindex : index < size) :
    Reads 0 (RawConstant.read size index) fun bytes constant =>
      bytes = constant.encode ∧ constant.Fits ∧
        index.toNat + constant.width.toNat ≤ size.toNat := by
  apply (Reads.u8.step (fun n => List.length_singleton) (readTagged_reads hindex)).congr
  intro bytes constant
  rw [RawConstant.number_kind]
  constructor
  · intro hgiven
    obtain ⟨tag, _, rfl, rfl, rfl, h⟩ := hgiven
    exact ⟨rfl, h⟩
  · intro hgiven
    obtain ⟨rfl, h⟩ := hgiven
    exact ⟨_, _, rfl, rfl, rfl, h⟩

end Reading

end RawConstant

namespace RawConstants

variable {size index : UInt16} {c c' : Cursor} {constant : RawConstant}

theorem readFrom_of_full (h : ¬index < size) : readFrom size index c = ⟨#[], .ok c⟩ := by
  rw [readFrom, readOnto, if_neg h]

theorem readFrom_of_error {failure : Failure} (hindex : index < size)
    (h : RawConstant.read size index c = .error failure) :
    readFrom size index c = ⟨#[], .error failure⟩ := by
  rw [readFrom, readOnto, if_pos hindex, h]

theorem readFrom_of_ok {next : UInt16} (hindex : index < size)
    (h : RawConstant.read size index c = .ok (constant, c'))
    (hnext : slotAfter index constant.width = .ok next) :
    readFrom size index c =
      ⟨#[constant] ++ (readFrom size next c').constants, (readFrom size next c').outcome⟩ := by
  rw [readFrom, readOnto, if_pos hindex, h]
  dsimp only
  split
  · rename_i hfault
    rw [hnext] at hfault
    cases hfault
  · rename_i next' hnext'
    rw [hnext] at hnext'
    obtain rfl := Except.ok.inj hnext'
    exact readOnto_eq size _ next c'

/-- Induction along the reading of constants, slot after slot, until they fill the pool or an entry is
none. -/
theorem readFrom_induction {motive : UInt16 → Cursor → RawConstants → Prop}
    (full : ∀ index c, ¬index < size → motive index c ⟨#[], .ok c⟩)
    (broken : ∀ index c failure, index < size → RawConstant.read size index c = .error failure →
      motive index c ⟨#[], .error failure⟩)
    (entry : ∀ index next c c' constant rest, index < size →
      RawConstant.read size index c = .ok (constant, c') → slotAfter index constant.width = .ok next →
        next.toNat ≤ size.toNat → motive next c' rest →
          motive index c ⟨#[constant] ++ rest.constants, rest.outcome⟩)
    (index : UInt16) (c : Cursor) : motive index c (readFrom size index c) := by
  induction hn : size.toNat - index.toNat using Nat.strongRecOn generalizing index c with
  | ind n ih =>
    by_cases hindex : index < size
    · cases hread : RawConstant.read size index c with
      | error failure =>
          rw [readFrom_of_error hindex hread]
          exact broken index c failure hindex hread
      | ok result =>
          obtain ⟨constant, c'⟩ := result
          obtain ⟨_, ⟨-, -, hwidth⟩, -⟩ :=
            ((RawConstant.read_reads hindex).yields (Nat.zero_le _) constant c').mp hread
          have hlt := UInt16.lt_iff_toNat_lt.mp hindex
          have hpos := constant.width_pos
          have hnext := slotAfter_of_le size hwidth
          have hvalue := slotAfter_toNat hnext
          have hle : (index + constant.width).toNat ≤ size.toNat := by omega
          rw [readFrom_of_ok hindex hread hnext]
          exact entry index _ c c' constant _ hindex hread hnext hle (ih _ (by omega) _ c' rfl)
    · rw [readFrom_of_full hindex]
      exact full index c hindex

/-- What a reading of the constants from slot `index` on comes to: those read stay within the pool,
nothing is at fault, and the reading succeeds exactly on the spellings of constants that fill the
pool. -/
structure Filled (size index : UInt16) (c : Cursor) (result : RawConstants) : Prop where
  within : index.toNat + RawConstant.slotCount result.constants.toList ≤ size.toNat
  safe : ∀ fault, result.outcome ≠ .error (.fault fault)
  yields : ∀ constants c', result.constants.toList = constants ∧ result.outcome = .ok c' ↔
    (index.toNat + RawConstant.slotCount constants = size.toNat ∧
      ∀ constant ∈ constants, constant.Fits) ∧ c.Consumes (constants.flatMap RawConstant.encode) c'

theorem filled_of_full (hindex : index.toNat = size.toNat) : Filled size index c ⟨#[], .ok c⟩ where
  within := by simpa using Nat.le_of_eq hindex
  safe := by simp
  yields := by
    intro constants c'
    constructor
    · intro h
      obtain ⟨rfl, hc⟩ := h
      obtain rfl := Except.ok.inj hc
      exact ⟨⟨by simpa using hindex, by simp⟩, Cursor.Consumes.refl c⟩
    · intro h
      obtain ⟨⟨hfull, -⟩, hbytes⟩ := h
      cases constants with
      | nil => exact ⟨rfl, by rw [Cursor.consumes_nil_iff.mp hbytes]⟩
      | cons constant constants =>
          have := constant.width_pos
          rw [RawConstant.slotCount_cons] at hfull
          omega

/-- Constants that fill the pool begin with one that is read at the first slot. -/
theorem read_of_filling {constant : RawConstant} {constants : List RawConstant} (hindex : index < size)
    (hfull : index.toNat + RawConstant.slotCount (constant :: constants) = size.toNat)
    (hfits : constant.Fits)
    (hbytes : c.Consumes ((constant :: constants).flatMap RawConstant.encode) c') :
    ∃ c₁, RawConstant.read size index c = .ok (constant, c₁) ∧
      c₁.Consumes (constants.flatMap RawConstant.encode) c' := by
  obtain ⟨c₁, hfirst, hrest⟩ := Cursor.Consumes.split hbytes
  rw [RawConstant.slotCount_cons] at hfull
  refine ⟨c₁, ((RawConstant.read_reads hindex).yields (Nat.zero_le _) constant c₁).mpr ?_, hrest⟩
  exact ⟨_, ⟨rfl, hfits, by omega⟩, hfirst⟩

theorem filled_of_error {failure : Failure} (hindex : index < size)
    (hread : RawConstant.read size index c = .error failure) :
    Filled size index c ⟨#[], .error failure⟩ where
  within := by
    have := UInt16.lt_iff_toNat_lt.mp hindex
    simp only [RawConstant.slotCount_nil]
    omega
  safe := by
    intro fault hfault
    obtain rfl := Except.error.inj hfault
    exact (RawConstant.read_reads hindex).safe (Nat.zero_le _) fault hread
  yields := by
    intro constants c'
    simp only [reduceCtorEq, and_false, false_iff, not_and]
    intro h hbytes
    obtain ⟨hfull, hfits⟩ := h
    cases constants with
    | nil =>
        have := UInt16.lt_iff_toNat_lt.mp hindex
        rw [RawConstant.slotCount_nil] at hfull
        omega
    | cons constant constants =>
        obtain ⟨c₁, hok, -⟩ :=
          read_of_filling hindex hfull (hfits constant List.mem_cons_self) hbytes
        rw [hread] at hok
        cases hok

theorem filled_of_ok {next : UInt16} {c₁ : Cursor} {rest : RawConstants} (hindex : index < size)
    (hread : RawConstant.read size index c = .ok (constant, c₁))
    (hnext : next.toNat = index.toNat + constant.width.toNat) (hrest : Filled size next c₁ rest) :
    Filled size index c ⟨#[constant] ++ rest.constants, rest.outcome⟩ := by
  obtain ⟨_, ⟨rfl, hfits, hwidth⟩, hfirst⟩ :=
    ((RawConstant.read_reads hindex).yields (Nat.zero_le _) constant c₁).mp hread
  refine ⟨?_, hrest.safe, ?_⟩
  · have := hrest.within
    simp only [Array.toList_append, List.singleton_append, RawConstant.slotCount_cons]
    omega
  · intro constants c'
    simp only [Array.toList_append, List.singleton_append]
    constructor
    · intro h
      obtain ⟨rfl, houtcome⟩ := h
      obtain ⟨⟨hfull, hall⟩, hbytes⟩ := (hrest.yields _ c').mp ⟨rfl, houtcome⟩
      refine ⟨⟨?_, List.forall_mem_cons.mpr ⟨hfits, hall⟩⟩, hfirst.trans hbytes⟩
      rw [RawConstant.slotCount_cons]
      omega
    · intro h
      obtain ⟨⟨hfull, hall⟩, hbytes⟩ := h
      cases constants with
      | nil =>
          have := UInt16.lt_iff_toNat_lt.mp hindex
          rw [RawConstant.slotCount_nil] at hfull
          omega
      | cons other constants =>
          obtain ⟨hother, hothers⟩ := List.forall_mem_cons.mp hall
          obtain ⟨c₂, hok, hrestBytes⟩ := read_of_filling hindex hfull hother hbytes
          rw [hread] at hok
          obtain ⟨rfl, rfl⟩ := Prod.mk.inj (Except.ok.inj hok)
          rw [RawConstant.slotCount_cons] at hfull
          obtain ⟨hconstants, houtcome⟩ :=
            (hrest.yields constants c').mpr ⟨⟨by omega, hothers⟩, hrestBytes⟩
          exact ⟨by rw [hconstants], houtcome⟩

theorem readFrom_filled (size index : UInt16) (c : Cursor) :
    index.toNat ≤ size.toNat → Filled size index c (readFrom size index c) := by
  refine readFrom_induction (motive := fun index c result =>
    index.toNat ≤ size.toNat → Filled size index c result) ?full ?broken ?entry index c
  case full =>
    intro index c hindex hle
    have := mt UInt16.lt_iff_toNat_lt.mpr hindex
    exact filled_of_full (by omega)
  case broken =>
    intro index c failure hindex hread _
    exact filled_of_error hindex hread
  case entry =>
    intro index next c c₁ constant rest hindex hread hnext hle ih _
    exact filled_of_ok hindex hread (slotAfter_toNat hnext) (ih hle)

end RawConstants

end ClassLoading
