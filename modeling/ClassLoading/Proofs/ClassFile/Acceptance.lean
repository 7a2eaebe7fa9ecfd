import ClassLoading.Proofs.ClassFile.Declaration

/-!
# Acceptance

The decoder accepts exactly the byte strings that begin with a class file that obeys the rules, and
answers with the class that it declares. Whatever the input and the symbol table, it is never at
fault.
-/

namespace ClassLoading

open Decoder

namespace ConstantPool

/-- No class slot is linked to a loaded class. -/
def Unresolved (pool : ConstantPool) : Prop :=
  ∀ index entity, pool.get? index = some (.classEntity entity) → ∃ name, entity = .unresolved name

theorem unresolved_ofConstants {size : UInt16} {constants : List RawConstant}
    (hsize : size.toNat = RawConstant.slotCount constants + 1) (symbol : List UInt8 → Symbol) :
    (ofConstants size constants symbol).Unresolved := by
  intro index entity hentity
  have hlinked : (ofConstants size constants symbol).LinkedBelow size.toNat constants symbol :=
    .ofSlots_content hsize _
  obtain ⟨constant, -, hform⟩ := hlinked.inSlot?_of_get? hentity (by simp)
  cases constant <;> rcases hform with h | h <;>
    simp [RawConstant.unlinked, RawConstant.linked, RawConstant.rewritten] at h
  exact ⟨_, h⟩

end ConstantPool

namespace ClassFile

variable {options : Options} {pool : ConstantPool} {index : UInt16} {role : IndexRole}
  {expected : ConstantKind → Bool} {covered : Nat}

theorem classNameAt_reads (hpool : pool.Unresolved)
    (hexpected : ∀ kind, expected kind = true → kind.isClass = true)
    (hunresolved : expected .unresolvedClass = true) :
    Reads covered (classNameAt pool index role expected) fun bytes name =>
      bytes = [] ∧ BodyDeclaration.NamesClass pool index name := by
  have hname (h : ∃ entry, pool.get? index = some entry ∧ expected entry.kind = true) :
      Answers ((pool.classAt index).mapError Failure.fault)
        fun entity => pool.get? index = some (.classEntity entity) := by
    obtain ⟨entry, hentry, hkind⟩ := h
    have hclass := hexpected _ hkind
    rw [ConstantPool.classAt, ConstantPool.entryAt_of_some hentry]
    cases entry with
    | classEntity entity =>
        apply (Answers.pure entity).congr
        intro other
        rw [hentry]
        simp [eq_comm]
    | member kind owner typing => cases kind <;> cases hclass
    | _ => cases hclass
  refine (Reads.lookup ConstantPool.requireKind_answers fun _ h =>
    Reads.lookup (hname h) fun entity _ => Reads.pure entity.name).congr fun bytes name => ?_
  constructor
  · intro hgiven
    obtain ⟨-, -, entity, hentity, rfl, rfl⟩ := hgiven
    obtain ⟨name, rfl⟩ := hpool index entity hentity
    exact ⟨rfl, hentity⟩
  · intro hgiven
    obtain ⟨rfl, hentity⟩ := hgiven
    exact ⟨(), ⟨_, hentity, hunresolved⟩, _, hentity, rfl, rfl⟩

theorem readHeader_reads : Reads 0 (readHeader options) fun bytes result =>
    bytes = [0xCA, 0xFE, 0xBA, 0xBE] ++ (BigEndian.ofUInt16 result.1.minor ++
      (BigEndian.ofUInt16 result.1.major ++ BigEndian.ofUInt16 result.2)) ∧
    options.accepts result.1.major = true ∧ result.2 ≠ 0 := by
  have hparts : Reads 4 (do
      let minor ← Decoder.u16Unchecked
      let major ← Decoder.u16Unchecked
      Decoder.require (options.accepts major) (.unsupportedVersion major minor)
      let size ← Decoder.u16
      Decoder.require (size != 0) (.malformed .emptyPool)
      return (Version.mk minor major, size)) _ :=
    (Reads.u16Unchecked (by decide)).step BigEndian.length_ofUInt16 fun minor =>
      (Reads.u16Unchecked (by decide)).step BigEndian.length_ofUInt16 fun major =>
        Reads.require fun _ => (Reads.u16.mono (Nat.zero_le _)).step BigEndian.length_ofUInt16 fun size =>
          Reads.require fun _ => Reads.pure (Version.mk minor major, size)
  have hensured : Reads 0 (Decoder.ensure 4 >>= fun _ => _) _ := Reads.ensure hparts (by
    intro bytes result h
    obtain ⟨minor, _, rfl, major, rest, rfl, -⟩ := h
    simp only [List.length_append, BigEndian.length_ofUInt16]
    omega)
  refine (Reads.u32.step BigEndian.length_ofUInt32 fun found =>
    Reads.require fun _ => hensured).congr fun bytes result => ?_
  constructor
  · intro h
    obtain ⟨found, _, rfl, hfound, minor, _, rfl, major, _, rfl, haccepts, size, _, rfl, hsize, rfl, rfl⟩ := h
    obtain rfl := of_decide_eq_true hfound
    exact ⟨by rw [List.append_nil, ofUInt32_magic], haccepts, by simpa using hsize⟩
  · intro h
    obtain ⟨rfl, haccepts, hsize⟩ := h
    rw [← ofUInt32_magic]
    exact ⟨magic, _, rfl, decide_eq_true rfl, _, _, rfl, _, _, rfl, haccepts, _, [],
      (List.append_nil _).symm, by simpa using hsize, rfl, rfl⟩

theorem readFlags_reads : Reads covered readFlags fun bytes flags =>
    ∃ word, bytes = BigEndian.ofUInt16 word ∧ flags = ClassFlags.ofBits word ∧ AllowedForClass word := by
  refine ((Reads.u16.mono (Nat.zero_le _)).step BigEndian.length_ofUInt16 fun word =>
    Reads.require fun _ => Reads.pure (ClassFlags.ofBits word)).congr fun bytes flags => ?_
  simp only [ClassFlags.isLegal_ofBits_iff]
  constructor
  · intro h
    obtain ⟨word, _, rfl, hallowed, rfl, rfl⟩ := h
    exact ⟨word, List.append_nil _, rfl, hallowed⟩
  · intro h
    obtain ⟨word, rfl, rfl, hallowed⟩ := h
    exact ⟨word, [], (List.append_nil _).symm, hallowed, rfl, rfl⟩

theorem readName_reads (hpool : pool.Unresolved) : Reads 0 (readName pool) fun bytes name =>
    ∃ index, bytes = BigEndian.ofUInt16 index ∧ BodyDeclaration.NamesClass pool index name := by
  refine (Reads.u16.step BigEndian.length_ofUInt16 fun index =>
    classNameAt_reads hpool (by simp [ConstantKind.isClass]) rfl).congr fun bytes name => ?_
  simp

theorem readSuperName_reads (hpool : pool.Unresolved) :
    Reads 0 (readSuperName pool) fun bytes name => ∃ index, bytes = BigEndian.ofUInt16 index ∧
      (index = 0 ∧ name = none ∨
        ∃ named, BodyDeclaration.NamesClass pool index named ∧ name = some named) := by
  have hnext (index : UInt16) : Reads 0 (if index = 0 then return none
      else return some (← classNameAt pool index .superClass ConstantKind.isClass))
      fun bytes name => bytes = [] ∧ (index = 0 ∧ name = none ∨
        ∃ named, BodyDeclaration.NamesClass pool index named ∧ name = some named) := by
    by_cases hindex : index = 0
    · have hnone (named : Symbol) : ¬BodyDeclaration.NamesClass pool index named := by
        intro h
        have hvalid := ConstantPool.isValid_iff_toNat.mp (ConstantPool.isValid_of_some h)
        simp [hindex] at hvalid
      subst hindex
      rw [if_pos rfl]
      exact (Reads.pure none).congr fun bytes name => by simp [hnone]
    · rw [if_neg hindex]
      refine ((classNameAt_reads hpool (fun _ h => h) rfl).bind fun _ named _ =>
        Reads.pure (some named)).congr fun bytes name => ?_
      constructor
      · intro hgiven
        obtain ⟨named, _, _, ⟨rfl, hnamed⟩, ⟨rfl, rfl⟩, rfl⟩ := hgiven
        exact ⟨rfl, Or.inr ⟨named, hnamed, rfl⟩⟩
      · intro hgiven
        obtain ⟨rfl, ⟨hzero, -⟩ | ⟨named, hnamed, rfl⟩⟩ := hgiven
        · exact absurd hzero hindex
        · exact ⟨named, [], [], ⟨rfl, hnamed⟩, ⟨rfl, rfl⟩, rfl⟩
  apply (Reads.u16.step BigEndian.length_ofUInt16 hnext).congr
  intro bytes name
  simp

/-- The values that some declarations declare one after another. -/
theorem counted_declared_iff {δ α : Type} {encode : δ → List UInt8} {D : δ → α → Prop}
    {bytes : List UInt8} {xs : List α} :
    Counted (fun bytes x => ∃ d, bytes = encode d ∧ D d x) bytes xs ↔
      ∃ ds : List δ, ds.length < UInt16.size ∧
        bytes = BigEndian.ofNat 2 ds.length ++ ds.flatMap encode ∧ List.Forall₂ D ds xs := by
  constructor
  · intro hgiven
    obtain ⟨hlength, hall⟩ := hgiven
    have hdeclared {bytes : List UInt8} {xs : List α}
        (hall : SpelledAll (fun bytes x => ∃ d, bytes = encode d ∧ D d x) bytes xs) :
        ∃ ds : List δ, bytes = ds.flatMap encode ∧ List.Forall₂ D ds xs := by
      induction hall with
      | nil => exact ⟨[], rfl, .nil⟩
      | cons h _ ih =>
          obtain ⟨d, rfl, hd⟩ := h
          obtain ⟨ds, rfl, hds⟩ := ih
          exact ⟨d :: ds, rfl, .cons hd hds⟩
    obtain ⟨ds, rfl, hds⟩ := hdeclared hall
    rw [← hds.length_eq] at hlength ⊢
    exact ⟨ds, hlength, rfl, hds⟩
  · intro hgiven
    obtain ⟨ds, hlength, rfl, hds⟩ := hgiven
    rw [hds.length_eq] at hlength ⊢
    refine .mk hlength ?_
    clear hlength
    induction hds with
    | nil => exact .nil
    | cons hd _ ih => exact .cons ⟨_, rfl, hd⟩ ih

theorem readInterfaces_reads (hpool : pool.Unresolved) :
    Reads 0 (readInterfaces pool) fun bytes names => ∃ indices : List UInt16,
      indices.length < UInt16.size ∧
        bytes = BigEndian.ofNat 2 indices.length ++ indices.flatMap BigEndian.ofUInt16 ∧
          List.Forall₂ (BodyDeclaration.NamesClass pool) indices names := by
  have hvalue : Reads 2 (do
      classNameAt pool (← Decoder.u16Unchecked) .interface ConstantKind.isClass)
      fun bytes name => ∃ index, bytes = BigEndian.ofUInt16 index ∧
        BodyDeclaration.NamesClass pool index name := by
    refine ((Reads.u16Unchecked (Nat.le_refl 2)).step BigEndian.length_ofUInt16 fun index =>
      classNameAt_reads hpool (fun _ h => h) rfl).congr fun bytes name => ?_
    simp
  have hwidth : 0 < 2 → ∀ bytes name, (∃ index, bytes = BigEndian.ofUInt16 index ∧
      BodyDeclaration.NamesClass pool index name) → bytes.length ≤ 2 := by
    intro _ bytes name hgiven
    obtain ⟨index, rfl, -⟩ := hgiven
    exact Nat.le_of_eq (BigEndian.length_ofUInt16 index)
  have hnext (count : UInt16) := (Reads.replicate hvalue hwidth count.toNat)
  refine (Reads.u16.step BigEndian.length_ofUInt16 fun count =>
    Reads.ensure ((hnext count).mono ?_) ?_).congr fun bytes names => ?_
  · omega
  · intro bytes names hgiven
    obtain ⟨hcount, hall⟩ := hgiven
    rw [← hcount]
    clear hcount
    induction hall with
    | nil => simp
    | cons h _ ih =>
        obtain ⟨index, rfl, -⟩ := h
        simp only [List.length_cons, List.length_append, BigEndian.length_ofUInt16]
        omega
  · rw [← counted_declared_iff, counted_iff]

theorem readFields_reads (inInterface : Bool) :
    Reads 0 (readFields options pool inInterface) fun bytes fields =>
      ∃ declarations : List FieldDeclaration, declarations.length < UInt16.size ∧
        bytes = BigEndian.ofNat 2 declarations.length ++ declarations.flatMap FieldDeclaration.encode ∧
          List.Forall₂ (FieldDeclaration.Declares options pool inInterface) declarations fields :=
  (Reads.counted Field.read_reads).congr fun _ _ => counted_declared_iff

/-- What follows the constants is read as a body that obeys the rules over the linked pool. -/
theorem readBody_reads (hpool : pool.Unresolved) (version : Version) :
    Reads 0 (readBody options version pool) fun bytes file => ∃ declaration : BodyDeclaration,
      bytes = declaration.encode ∧ declaration.Declares options pool file ∧
        file.minor = version.minor ∧ file.major = version.major ∧ file.pool = pool := by
  refine (readFlags_reads.bind fun _ flags _ =>
    ((readName_reads hpool).mono (Nat.zero_le _)).bind fun _ name _ =>
      ((readSuperName_reads hpool).mono (Nat.zero_le _)).bind fun _ superName _ =>
        ((readInterfaces_reads hpool).mono (Nat.zero_le _)).bind fun _ interfaces _ =>
          ((readFields_reads flags.isInterface).mono (Nat.zero_le _)).bind fun _ fields _ =>
            Reads.pure (ClassFile.mk version.minor version.major pool flags name superName interfaces
              fields)).congr fun bytes file => ?_
  constructor
  · intro h
    obtain ⟨_, _, _, ⟨flags, rfl, rfl, hallowed⟩, ⟨name, _, _, ⟨thisClass, rfl, hname⟩, ⟨superName, _, _,
      ⟨superClass, rfl, hsuper⟩, ⟨names, _, _, ⟨interfaces, hinterfaces, rfl, hnames⟩, ⟨fields, _, _,
      ⟨declarations, hdeclarations, rfl, hfields⟩, ⟨rfl, rfl⟩, rfl⟩, rfl⟩, rfl⟩, rfl⟩, rfl⟩ := h
    rw [ClassFlags.isInterface_ofBits] at hfields
    refine ⟨⟨flags, thisClass, superClass, interfaces, declarations, hinterfaces, hdeclarations⟩, ?_,
      ⟨ClassFlags.bits_ofBits flags, hallowed, hname, hsuper, hnames, hfields⟩, rfl, rfl, rfl⟩
    simp only [BodyDeclaration.encode, List.append_assoc, List.append_nil]
  · intro h
    obtain ⟨declaration, rfl, hdeclares, hminor, hmajor, hpoolEq⟩ := h
    obtain ⟨minor, major, _, flags, name, superName, names, fields⟩ := file
    obtain rfl := hminor
    obtain rfl := hmajor
    obtain rfl := hpoolEq
    obtain rfl := ClassFlags.eq_ofBits_iff.mpr hdeclares.flags_eq
    have hfields := hdeclares.fields
    rw [← ClassFlags.isInterface_ofBits] at hfields
    exact ⟨_, _, _, ⟨_, rfl, rfl, hdeclares.flags_allowed⟩,
      ⟨name, _, _, ⟨_, rfl, hdeclares.thisClass⟩,
        ⟨superName, _, _, ⟨_, rfl, hdeclares.superClass⟩,
          ⟨names, _, _, ⟨_, declaration.interfaces_lt, rfl, hdeclares.interfaces⟩,
            ⟨fields, _, [], ⟨_, declaration.fields_lt, rfl, hfields⟩, ⟨rfl, rfl⟩, rfl⟩,
            rfl⟩, rfl⟩, rfl⟩, by
      simp only [BodyDeclaration.encode, List.append_assoc, List.append_nil]⟩

variable {c c' : Cursor} {table : SymbolTable}

theorem one_le_toNat {size : UInt16} (h : size ≠ 0) : 1 ≤ size.toNat := by
  rcases Nat.eq_zero_or_pos size.toNat with hzero | hpos
  · exact absurd (UInt16.toNat.inj hzero) h
  · exact hpos

theorem slotCount_readFrom_le {size : UInt16} (hsize : size ≠ 0) (c : Cursor) :
    RawConstant.slotCount (RawConstants.readFrom size 1 c).constants.toList + 1 ≤ size.toNat := by
  rw [Nat.add_comm]
  exact (RawConstants.readFrom_filled size 1 c (one_le_toNat hsize)).within

theorem exists_placed_of_header {version : Version} {size : UInt16} (table : SymbolTable)
    (hsize : size ≠ 0) (hheader : readHeader options c = .ok ((version, size), c')) :
    ∃ placed, read options c table = (match (RawConstants.readFrom size 1 c').outcome with
        | .error failure => .error failure
        | .ok c'' => readLinked options version placed c'',
        table.internAll (RawConstant.texts (RawConstants.readFrom size 1 c').constants.toList)) ∧
      (size.toNat = RawConstant.slotCount (RawConstants.readFrom size 1 c').constants.toList + 1 →
        placed.LinkedBelow 1 (RawConstants.readFrom size 1 c').constants.toList
          (table.internAll (RawConstant.texts
            (RawConstants.readFrom size 1 c').constants.toList)).instanceOf) := by
  obtain ⟨placed, hplace, hlinked⟩ :=
    ConstantPool.place_vacant (slotCount_readFrom_le hsize c') table
  refine ⟨placed, ?_, hlinked⟩
  simp only [read, hheader, RawConstants.read, hplace]
  cases (RawConstants.readFrom size 1 c').outcome <;> rfl

/-- How a reading goes on after the header: the texts of all the constants that were read are
interned, and if they fill the pool, it is linked and what follows it is read. -/
theorem read_of_header {version : Version} {size : UInt16} (table : SymbolTable) (hsize : size ≠ 0)
    (hheader : readHeader options c = .ok ((version, size), c')) :
    ∃ raw placed, RawConstants.Filled size 1 c' raw ∧
      read options c table = (match raw.outcome with
        | .error failure => .error failure
        | .ok c'' => readLinked options version placed c'',
        table.internAll (RawConstant.texts raw.constants.toList)) ∧
      (size.toNat = RawConstant.slotCount raw.constants.toList + 1 →
        placed.LinkedBelow 1 raw.constants.toList
          (table.internAll (RawConstant.texts raw.constants.toList)).instanceOf) := by
  obtain ⟨placed, hread, hlinked⟩ := exists_placed_of_header table hsize hheader
  exact ⟨_, placed, RawConstants.readFrom_filled size 1 c' (one_le_toNat hsize), hread, hlinked⟩

theorem readLinked_reads {placed : ConstantPool} {constants : List RawConstant} {size : UInt16}
    (hsize : size.toNat = RawConstant.slotCount constants + 1)
    (hplaced : placed.LinkedBelow 1 constants table.instanceOf) (version : Version) :
    Reads 0 (readLinked options version placed) fun bytes file =>
      (∀ constant ∈ constants, constant.Refers ⟨version.major, options⟩ constants) ∧
        ∃ declaration : BodyDeclaration, bytes = declaration.encode ∧
          declaration.Declares options file.pool file ∧
            file.minor = version.minor ∧ file.major = version.major ∧
              file.pool = .ofConstants size constants table.instanceOf := by
  have hlink : Answers (placed.link ⟨version.major, options⟩) _ :=
    ConstantPool.link_answers hsize hplaced table.bytes_instanceOf
  have hpool := ConstantPool.unresolved_ofConstants hsize table.instanceOf
  refine (Reads.lookup hlink fun linked hlinked =>
    readBody_reads (hlinked.2 ▸ hpool) version).congr fun bytes file => ?_
  constructor
  · intro h
    obtain ⟨linked, ⟨hrefers, rfl⟩, declaration, rfl, hdeclares, hminor, hmajor, hpoolEq⟩ := h
    exact ⟨hrefers, declaration, rfl, hpoolEq ▸ hdeclares, hminor, hmajor, hpoolEq⟩
  · intro h
    obtain ⟨hrefers, declaration, rfl, hdeclares, hminor, hmajor, hpoolEq⟩ := h
    exact ⟨_, ⟨hrefers, rfl⟩, declaration, rfl, hpoolEq ▸ hdeclares, hminor, hmajor, hpoolEq⟩

theorem read_safe (options : Options) (c : Cursor) (table : SymbolTable) (fault : Fault) :
    (read options c table).1 ≠ .error (.fault fault) := by
  intro h
  cases hheader : readHeader options c with
  | error failure =>
      rw [read, hheader] at h
      obtain rfl := Except.error.inj h
      exact readHeader_reads.safe (Nat.zero_le _) fault hheader
  | ok result =>
      obtain ⟨⟨version, size⟩, c'⟩ := result
      obtain ⟨_, ⟨-, -, hsize⟩, -⟩ := (readHeader_reads.yields (Nat.zero_le _) _ _).mp hheader
      obtain ⟨raw, placed, hfilled, hread, hplaced⟩ := read_of_header table hsize hheader
      rw [hread] at h
      cases houtcome : raw.outcome with
      | error failure =>
          rw [houtcome] at h
          obtain rfl := Except.error.inj h
          exact hfilled.safe fault houtcome
      | ok c'' =>
          rw [houtcome] at h
          obtain ⟨⟨hfull, -⟩, -⟩ := (hfilled.yields _ c'').mp ⟨rfl, houtcome⟩
          have hfull' : size.toNat = RawConstant.slotCount raw.constants.toList + 1 := by
            rw [← hfull, Nat.add_comm]
            rfl
          exact (readLinked_reads hfull' (hplaced hfull') version).safe (Nat.zero_le _) fault h

theorem accepts_iff {major : UInt16} : options.accepts major = true ↔
    (options.enforceVersion = true → options.minMajor ≤ major ∧ major ≤ options.maxMajor) := by
  rw [Options.accepts]
  cases options.enforceVersion <;> simp

/-- What is read off a cursor is a class file that obeys the rules. -/
theorem declares_of_read {file : ClassFile} {after : SymbolTable}
    (h : read options c table = (.ok (file, c'), after)) : ∃ declaration : ClassDeclaration,
      c.Consumes declaration.encode c' ∧
        after = table.internAll (RawConstant.texts declaration.constants) ∧
          declaration.Declares options after.instanceOf file := by
  cases hheader : readHeader options c with
  | error failure =>
      rw [read, hheader] at h
      cases h
  | ok result =>
      obtain ⟨⟨version, size⟩, c₁⟩ := result
      obtain ⟨_, ⟨rfl, haccepts, hsize⟩, hheaderBytes⟩ :=
        (readHeader_reads.yields (Nat.zero_le _) _ _).mp hheader
      obtain ⟨raw, placed, hfilled, hread, hplaced⟩ := read_of_header table hsize hheader
      rw [hread] at h
      obtain ⟨hresult, rfl⟩ := Prod.mk.inj h
      cases houtcome : raw.outcome with
      | error failure =>
          rw [houtcome] at hresult
          cases hresult
      | ok c₂ =>
          rw [houtcome] at hresult
          obtain ⟨⟨hfull, hfits⟩, hconstantBytes⟩ := (hfilled.yields _ c₂).mp ⟨rfl, houtcome⟩
          have hfull' : size.toNat = RawConstant.slotCount raw.constants.toList + 1 := by
            rw [← hfull, Nat.add_comm]
            rfl
          obtain ⟨_, ⟨hrefers, body, rfl, hdeclares, hminor, hmajor, hpool⟩, hbodyBytes⟩ :=
            ((readLinked_reads hfull' (hplaced hfull') version).yields (Nat.zero_le _) file c').mp hresult
          let declaration : ClassDeclaration := ⟨version.minor, version.major, raw.constants.toList, body,
            hfull' ▸ size.toNat_lt, hfits⟩
          have hpoolSize : declaration.poolSize = size :=
            UInt16.toNat.inj (declaration.toNat_poolSize.trans hfull'.symm)
          refine ⟨declaration, ?_, rfl, hminor, hmajor, accepts_iff.mp haccepts, hrefers, ?_, hdeclares⟩
          · rw [ClassDeclaration.encode, hpoolSize]
            exact hheaderBytes.trans (hconstantBytes.trans hbodyBytes)
          · rw [ClassDeclaration.pool, hpoolSize]
            exact hpool

/-- A class file that obeys the rules is read where it is spelt. -/
theorem read_of_declares {file : ClassFile} {declaration : ClassDeclaration}
    (hbytes : c.Consumes declaration.encode c')
    (hdeclares : declaration.Declares options
      (table.internAll (RawConstant.texts declaration.constants)).instanceOf file) :
    read options c table =
      (.ok (file, c'), table.internAll (RawConstant.texts declaration.constants)) := by
  obtain ⟨c₁, hheaderBytes, hrestBytes⟩ := hbytes.split
  obtain ⟨c₂, hconstantBytes, hbodyBytes⟩ := hrestBytes.split
  have hfull := declaration.toNat_poolSize
  have hsize : declaration.poolSize ≠ 0 := by
    intro hzero
    rw [hzero] at hfull
    simp at hfull
  have hheader : readHeader options c =
      .ok ((⟨declaration.minor, declaration.major⟩, declaration.poolSize), c₁) :=
    (readHeader_reads.yields (Nat.zero_le _) _ _).mpr
      ⟨_, ⟨rfl, accepts_iff.mpr hdeclares.version_accepted, hsize⟩, hheaderBytes⟩
  obtain ⟨raw, placed, hfilled, hread, hplaced⟩ := read_of_header table hsize hheader
  have hfull' : (1 : UInt16).toNat + RawConstant.slotCount declaration.constants =
      declaration.poolSize.toNat := by
    rw [hfull, Nat.add_comm]
    rfl
  obtain ⟨hconstants, houtcome⟩ :=
    (hfilled.yields _ c₂).mpr ⟨⟨hfull', declaration.constants_fit⟩, hconstantBytes⟩
  rw [hconstants] at hread hplaced
  have hbody : Reads 0 (readLinked options _ placed) _ :=
    readLinked_reads hfull (hplaced hfull) ⟨declaration.minor, declaration.major⟩
  rw [hread, houtcome]
  exact Prod.ext ((hbody.yields (Nat.zero_le _) file c').mpr ⟨_, ⟨hdeclares.refers, declaration.body,
    rfl, hdeclares.body, hdeclares.minor_eq, hdeclares.major_eq, hdeclares.pool_eq⟩, hbodyBytes⟩) rfl

theorem decode_eq (options : Options) (data : List UInt8) (table : SymbolTable) :
    decode options data table = ((read options (Cursor.start data) table).1.map Prod.fst,
      (read options (Cursor.start data) table).2) := rfl

section Decoding

variable {data : List UInt8} {file : ClassFile} {after : SymbolTable}

theorem read_of_decode_error {failure : Failure} (h : (decode options data table).1 = .error failure) :
    (read options (Cursor.start data) table).1 = .error failure := by
  rw [decode_eq] at h
  cases hread : (read options (Cursor.start data) table).1 with
  | ok result =>
      rw [hread] at h
      cases h
  | error failure' =>
      rw [hread] at h
      exact congrArg Except.error (Except.error.inj h)

theorem exists_read_of_decode_ok (h : (decode options data table).1 = .ok file) :
    ∃ c, (read options (Cursor.start data) table).1 = .ok (file, c) := by
  rw [decode_eq] at h
  cases hread : (read options (Cursor.start data) table).1 with
  | error failure =>
      rw [hread] at h
      cases h
  | ok result =>
      rw [hread] at h
      obtain rfl := Except.ok.inj h
      exact ⟨result.2, rfl⟩

theorem decode_safe (options : Options) (data : List UInt8) (table : SymbolTable) (fault : Fault) :
    (decode options data table).1 ≠ .error (.fault fault) := fun h =>
  read_safe options (Cursor.start data) table fault (read_of_decode_error h)

/-- Decoding ends with a class or with a format error, whatever the bytes, the options and the symbol
table: no read goes past the end, no slot is asked for what it does not hold, no slot number
overflows, and no case that should be impossible is reached. -/
theorem decode_ok_or_format_error (options : Options) (data : List UInt8) (table : SymbolTable) :
    (∃ file, (decode options data table).1 = .ok file) ∨
      ∃ error, (decode options data table).1 = .error (.format error) := by
  have hsafe := decode_safe options data table
  cases hresult : (decode options data table).1 with
  | ok file => exact Or.inl ⟨file, rfl⟩
  | error failure =>
      cases failure with
      | format error => exact Or.inr ⟨error, rfl⟩
      | fault fault => exact absurd hresult (hsafe fault)

theorem declares_of_decode (h : decode options data table = (.ok file, after)) :
    ∃ (declaration : ClassDeclaration) (tail : List UInt8), data = declaration.encode ++ tail ∧
      after = table.internAll (RawConstant.texts declaration.constants) ∧
        declaration.Declares options after.instanceOf file := by
  have hafter : (read options (Cursor.start data) table).2 = after := congrArg Prod.snd h
  obtain ⟨c, hread⟩ := exists_read_of_decode_ok (congrArg Prod.fst h)
  obtain ⟨declaration, hbytes, htable, hdeclares⟩ := declares_of_read (Prod.ext hread hafter)
  obtain ⟨tail, htail⟩ := Cursor.consumes_start_iff.mp ⟨c, hbytes⟩
  exact ⟨declaration, tail, htail, htable, hdeclares⟩

/-- A class that was just decoded has no class slot that is resolved. -/
theorem unresolved_of_decode (h : decode options data table = (.ok file, after)) :
    file.pool.Unresolved := by
  obtain ⟨declaration, _, -, -, hdeclares⟩ := declares_of_decode h
  rw [hdeclares.pool_eq]
  exact ConstantPool.unresolved_ofConstants declaration.toNat_poolSize after.instanceOf

theorem decode_of_declares {declaration : ClassDeclaration} (tail : List UInt8)
    (hdeclares : declaration.Declares options
      (table.internAll (RawConstant.texts declaration.constants)).instanceOf file) :
    decode options (declaration.encode ++ tail) table =
      (.ok file, table.internAll (RawConstant.texts declaration.constants)) := by
  obtain ⟨c', hbytes⟩ := Cursor.consumes_start_iff.mpr ⟨tail, rfl⟩
  rw [decode, read_of_declares hbytes hdeclares]
  rfl

end Decoding

end ClassFile

end ClassLoading
