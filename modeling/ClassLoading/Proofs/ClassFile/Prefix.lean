import ClassLoading.Proofs.ClassFile.Acceptance
import ClassLoading.Proofs.Constant.Causal
import ClassLoading.Proofs.Loader.WellLinked

/-!
# Prefixes of class files

The decoder of class files is causal: it never looks at a byte before it knows that the byte is there,
and checks nothing that a later byte could change. What it makes of a byte string is therefore what it
makes of every longer one, unless it says that bytes are missing.
-/

namespace ClassLoading

open Decoder

namespace ElementValue

variable {value : Decoder ElementValue}

theorem readUtf8_causal (pool : ConstantPool) (role : IndexRole) : Causal (readUtf8 pool role) :=
  Causal.u16.bind fun index => .ofExcept (pool.utf8At_neverShort index role)

theorem readUse_causal (pool : ConstantPool) (hvalue : Causal value) : Causal (readUse pool value) :=
  (Causal.ensure 4).bind fun _ => Causal.u16Unchecked.bind fun _ =>
    Causal.u16Unchecked.bind fun count => (Causal.ofExcept (pool.utf8At_neverShort _ _)).bind fun _ =>
      (Causal.replicate count.toNat <|
        (readUtf8_causal pool _).bind fun _ => hvalue.bind fun _ => .pure _).bind fun _ => .pure _

theorem readConstant_causal (pool : ConstantPool) (tag : ElementTag) (kind : ConstantKind) :
    Causal (readConstant pool tag kind) :=
  Causal.u16.bind fun index =>
    (Causal.ofExcept (pool.requireKind_neverShort index _ _)).bind fun _ => .pure _

theorem readEnumConstant_causal (pool : ConstantPool) : Causal (readEnumConstant pool) :=
  (Causal.ensure 4).bind fun _ => Causal.u16Unchecked.bind fun _ => Causal.u16Unchecked.bind fun _ =>
    (Causal.ofExcept (pool.utf8At_neverShort _ _)).bind fun _ =>
      (Causal.ofExcept (pool.utf8At_neverShort _ _)).bind fun _ => .pure _

theorem readBody_causal (pool : ConstantPool) (hvalue : Causal value) (tag : ElementTag) :
    Causal (readBody pool value tag) := by
  cases tag with
  | enumConstant => exact readEnumConstant_causal pool
  | classInfo => exact (readUtf8_causal pool _).bind fun _ => .pure _
  | nested => exact (readUse_causal pool hvalue).bind fun _ => .pure _
  | array =>
      exact Causal.u16.bind fun count => (Causal.replicate count.toNat hvalue).bind fun _ => .pure _
  | _ => exact readConstant_causal pool _ _

theorem read_causal (pool : ConstantPool) (levels : Nat) : Causal (read pool levels) := by
  induction levels with
  | zero => exact .reject nofun
  | succ levels ih =>
      refine Causal.u8.bind fun code => ?_
      cases ElementTag.ofCode? code with
      | none => exact .reject nofun
      | some tag => exact readBody_causal pool ih tag

end ElementValue

theorem AnnotationUse.readAll_causal (pool : ConstantPool) : Causal (readAll pool) :=
  Causal.u16.bind fun count =>
    .replicate count.toNat (ElementValue.readUse_causal pool (ElementValue.read_causal pool _))

namespace FieldAttribute

theorem requireFirst_causal (head : FieldHead) («attribute» : FieldAttribute) (seen : Bool) :
    Causal (requireFirst head «attribute» seen) := .require nofun

theorem requireLength_causal («attribute» : FieldAttribute) (length expected : Nat) :
    Causal (requireLength «attribute» length expected) := .require nofun

theorem requireTyped_causal (context : Context) (index : UInt16) :
    Causal (requireTyped context index) := by
  rw [requireTyped]
  split
  · split
    · exact (Causal.ofExcept (.mapError _)).bind fun _ => .require nofun
    · exact .pure ()
  · exact .pure ()

theorem readConstantValue_causal (context : Context) : Causal (readConstantValue context) :=
  Causal.u16Unchecked.bind fun index =>
    (Causal.ofExcept (context.pool.requireKind_neverShort index _ _)).bind fun _ =>
      (requireTyped_causal context index).bind fun _ => .pure _

theorem readSignature_causal (context : Context) : Causal (readSignature context) :=
  Causal.u16Unchecked.bind fun index => .ofExcept (context.pool.utf8At_neverShort index _)

theorem readContent_causal (context : Context) (length : Nat) (notes : FieldNotes)
    («attribute» : FieldAttribute) : Causal (readContent context length notes «attribute») := by
  cases «attribute» with
  | constantValue =>
      exact (requireFirst_causal _ _ _).bind fun _ => (requireLength_causal _ _ _).bind fun _ =>
        (readConstantValue_causal context).bind fun _ => .pure _
  | synthetic | deprecated => exact (requireLength_causal _ _ _).bind fun _ => .pure _
  | signature =>
      exact (requireFirst_causal _ _ _).bind fun _ => (requireLength_causal _ _ _).bind fun _ =>
        (readSignature_causal context).bind fun _ => .pure _
  | visibleAnnotations | invisibleAnnotations =>
      exact (requireFirst_causal _ _ _).bind fun _ =>
        (AnnotationUse.readAll_causal context.pool).bind fun _ => .pure _

theorem readBody_causal (context : Context) (length : Nat) (notes : FieldNotes)
    («attribute» : Option FieldAttribute) : Causal (readBody context length notes «attribute») := by
  cases «attribute» with
  | none => exact (Causal.skipUnchecked length).bind fun _ => .pure _
  | some «attribute» => exact readContent_causal context length notes «attribute»

theorem read_causal (context : Context) (notes : FieldNotes) : Causal (read context notes) :=
  (Causal.ensure 6).bind fun _ => Causal.u16Unchecked.bind fun nameIndex =>
    Causal.u32Unchecked.bind fun length =>
      (Causal.ofExcept (context.pool.utf8At_neverShort nameIndex _)).bind fun _ =>
        (Causal.ensure length.toNat).bind fun _ =>
          (readBody_causal context length.toNat notes _).framed fun _ => nofun

end FieldAttribute

theorem FieldHead.read_causal (options : Options) (pool : ConstantPool) (inInterface : Bool) :
    Causal (read options pool inInterface) :=
  (Causal.ensure 8).bind fun _ => Causal.u16Unchecked.bind fun _ => Causal.u16Unchecked.bind fun name =>
    Causal.u16Unchecked.bind fun descriptor => Causal.u16Unchecked.bind fun _ =>
      (Causal.require (by nofun)).bind fun _ =>
        (Causal.ofExcept (pool.utf8At_neverShort name _)).bind fun _ => (Causal.ofExcept (pool.utf8At_neverShort descriptor _)).bind fun _ =>
          (Causal.require (by nofun)).bind fun _ => .pure _

theorem Field.read_causal (options : Options) (pool : ConstantPool) (inInterface : Bool) :
    Causal (read options pool inInterface) :=
  (FieldHead.read_causal options pool inInterface).bind fun head =>
    (Causal.iterate (FieldAttribute.read_causal ⟨options, pool, head.1⟩) head.2 {}).bind fun _ => .pure _

namespace ClassFile

variable {options : Options}

theorem readHeader_causal (options : Options) : Causal (readHeader options) :=
  Causal.u32.bind fun _ => (Causal.require (by nofun)).bind fun _ => (Causal.ensure 4).bind fun _ =>
    Causal.u16Unchecked.bind fun _ => Causal.u16Unchecked.bind fun _ =>
      (Causal.require (by nofun)).bind fun _ => Causal.u16.bind fun _ => (Causal.require (by nofun)).bind fun _ => .pure _

theorem classNameAt_causal (pool : ConstantPool) (index : UInt16) (role : IndexRole)
    (expected : ConstantKind → Bool) : Causal (classNameAt pool index role expected) :=
  (Causal.ofExcept (pool.requireKind_neverShort index role expected)).bind fun _ =>
    (Causal.ofExcept (.mapError _)).bind fun _ => .pure _

theorem readSuperName_causal (pool : ConstantPool) : Causal (readSuperName pool) := by
  refine Causal.u16.bind fun index => ?_
  split
  · exact .pure none
  · exact (classNameAt_causal pool index _ _).bind fun _ => .pure _

theorem readInterfaces_causal (pool : ConstantPool) : Causal (readInterfaces pool) :=
  Causal.u16.bind fun count => (Causal.ensure (2 * count.toNat)).bind fun _ =>
    .replicate count.toNat <| Causal.u16Unchecked.bind fun index => classNameAt_causal pool index _ _

theorem readBody_causal (options : Options) (version : Version) (pool : ConstantPool) :
    Causal (readBody options version pool) :=
  (Causal.u16.bind fun _ => (Causal.require (by nofun)).bind fun _ => .pure _).bind fun flags =>
    (Causal.u16.bind fun index => classNameAt_causal pool index _ _).bind fun _ =>
      (readSuperName_causal pool).bind fun _ => (readInterfaces_causal pool).bind fun _ =>
        (Causal.u16.bind fun count => .replicate count.toNat
          (Field.read_causal options pool flags.isInterface)).bind fun _ => .pure _

theorem readLinked_causal (options : Options) (version : Version) (pool : ConstantPool) :
    Causal (readLinked options version pool) :=
  (Causal.ofExcept (Link.linkFrom_neverShort _ pool 1)).bind (readBody_causal options version)

/-- How a reading goes on after its constants. -/
def readPlaced (options : Options) (version : Version) (size : UInt16) (table : SymbolTable)
    (raw : RawConstants) : Except Failure (ClassFile × Cursor) × SymbolTable :=
  match ConstantPool.place raw.constants.toList 1 (ConstantPool.vacant size) table, raw.outcome with
  | (.error fault, table), _ => (.error (.fault fault), table)
  | (.ok _, table), .error failure => (.error failure, table)
  | (.ok pool, table), .ok c => (readLinked options version pool c, table)

theorem readPlaced_causal (options : Options) (version : Version) (size : UInt16)
    (table : SymbolTable) : CausalRun fun c => readPlaced options version size table (RawConstants.readFrom size 1 c) where
  yields := by
    intro c file c' after h
    have hraw := RawConstants.readFrom_causal size 1 c
    generalize RawConstants.readFrom size 1 c = raw at h hraw
    obtain ⟨constants, outcome⟩ := raw
    -- More bytes leave the constants, so they are placed in the same way.
    cases hplaced : ConstantPool.place constants.toList 1 (ConstantPool.vacant size) table with
    | mk placed symbols =>
        simp only [readPlaced, hplaced] at h ⊢
        cases placed with
        | error fault => cases h
        | ok pool =>
            cases outcome with
            | error failure => cases h
            | ok c₁ =>
                obtain ⟨hfile, rfl⟩ := Prod.mk.inj h
                obtain ⟨hlimit, hraw'⟩ := hraw.yields rfl
                obtain ⟨hlimit', hfile'⟩ := (readLinked_causal options version pool).yields hfile
                refine ⟨hlimit'.trans hlimit, fun more => ?_⟩
                simp only [hraw' more, hplaced, hfile' more]
  fails := by
    intro c failure after h
    have hraw := RawConstants.readFrom_causal size 1 c
    generalize RawConstants.readFrom size 1 c = raw at h hraw
    obtain ⟨constants, outcome⟩ := raw
    cases hplaced : ConstantPool.place constants.toList 1 (ConstantPool.vacant size) table with
    | mk placed symbols =>
        simp only [readPlaced, hplaced] at h ⊢
        cases placed with
        | error fault =>
            obtain ⟨hfailure, rfl⟩ := Prod.mk.inj h
            obtain rfl := Except.error.inj hfailure
            exact ⟨trivial, fun more hstands => hstands.elim⟩
        | ok pool =>
            cases outcome with
            | error failure' =>
                obtain ⟨hfailure, rfl⟩ := Prod.mk.inj h
                obtain rfl := Except.error.inj hfailure
                obtain ⟨hwithin, hraw'⟩ := hraw.fails rfl
                refine ⟨hwithin, fun more hstands => ?_⟩
                simp only [hraw' more hstands, hplaced]
            | ok c₁ =>
                obtain ⟨hfailed, rfl⟩ := Prod.mk.inj h
                obtain ⟨hlimit, hraw'⟩ := hraw.yields rfl
                obtain ⟨hwithin, hfailed'⟩ := (readLinked_causal options version pool).fails hfailed
                refine ⟨hlimit ▸ hwithin, fun more hstands => ?_⟩
                simp only [hraw' more, hplaced, hfailed' more hstands]

theorem read_eq (options : Options) (table : SymbolTable) : (read options · table) =
    (readHeader options).before table fun header c =>
      readPlaced options header.1 header.2 table (RawConstants.readFrom header.2 1 c) := by
  funext c
  cases hheader : readHeader options c with
  | error failure => rw [before_of_error hheader, read, hheader]
  | ok result =>
      obtain ⟨⟨version, size⟩, c'⟩ := result
      rw [before_of_ok hheader, read, hheader]
      simp only [RawConstants.read, readPlaced]
      generalize RawConstants.readFrom size 1 c' = raw
      obtain ⟨constants, outcome⟩ := raw
      cases ConstantPool.place constants.toList 1 (ConstantPool.vacant size) table with
      | mk placed symbols => cases placed <;> cases outcome <;> rfl

theorem read_causal (options : Options) (table : SymbolTable) : CausalRun (read options · table) := by
  rw [read_eq]
  exact .before (readHeader_causal options) fun header =>
    readPlaced_causal options header.1 header.2 table

section Prefixes

open Loader (plainClass plainFile plainClass_declares)

variable {data : List UInt8} {table : SymbolTable} {file : ClassFile}

/-- A reading that failed fails on every longer byte string as well, unless that makes up for a
shortage. -/
theorem decode_append_of_error {failure : Failure} {more : List UInt8}
    (h : (decode options data table).1 = .error failure) (hstands : failure.Stands more.length) :
    decode options (data ++ more) table =
      (.error (failure.after more.length), (decode options data table).2) := by
  obtain ⟨-, hmore⟩ := (read_causal options table).fails (Prod.ext (read_of_decode_error h) rfl)
  rw [decode_eq, decode_eq, Cursor.start_append, hmore more hstands]
  rfl

theorem decode_append_of_ok (h : (decode options data table).1 = .ok file) (more : List UInt8) :
    decode options (data ++ more) table = decode options data table := by
  obtain ⟨c, hread⟩ := exists_read_of_decode_ok h
  obtain ⟨-, hmore⟩ := (read_causal options table).yields (Prod.ext hread rfl)
  rw [decode_eq, decode_eq, Cursor.start_append, hmore more, hread]
  rfl

theorem decode_append_of_final
    (h : ∀ shortage, (decode options data table).1 ≠ .error (.format (.truncated shortage)))
    (more : List UInt8) : decode options (data ++ more) table = decode options data table := by
  cases hresult : (decode options data table).1 with
  | ok file => exact decode_append_of_ok hresult more
  | error failure =>
      cases failure with
      | fault fault => exact absurd hresult (decode_safe options data table fault)
      | format error =>
          have hfinal : (Failure.format error).IsFinal := by
            intro shortage hshortage
            exact h shortage (hresult.trans (congrArg Except.error hshortage))
          rw [decode_append_of_error hresult (hfinal.stands more.length), hfinal.after_eq, ← hresult]

theorem within_of_decode {failure : Failure} (h : (decode options data table).1 = .error failure) :
    failure.Within data.length := by
  have hwithin := ((read_causal options table).fails (Prod.ext (read_of_decode_error h) rfl)).1
  rwa [Cursor.limit_start] at hwithin

/-- A byte string that ends before the reading of a class file did is too short, and nothing else is
wrong with it. -/
theorem truncated_of_take {c : Cursor} {n : Nat}
    (h : (read options (Cursor.start data) table).1 = .ok (file, c)) (hn : n < c.position) :
    ∃ shortage, (decode options (data.take n) table).1 = .error (.format (.truncated shortage)) := by
  have hdata : Cursor.start data = (Cursor.start (data.take n)).append (data.drop n) := by
    rw [← Cursor.start_append, List.take_append_drop]
  rw [hdata] at h
  cases hread : (read options (Cursor.start (data.take n)) table).1 with
  | ok result =>
      -- The reading would have ended in the part, and would have ended there in the whole as well.
      obtain ⟨hlimit, hmore⟩ := (read_causal options table).yields (Prod.ext hread rfl)
      rw [hmore] at h
      obtain ⟨-, rfl⟩ := Prod.mk.inj (Except.ok.inj h)
      have hposition : result.2.position ≤ (data.take n).length := by
        have hle := result.2.position_le_limit
        rwa [hlimit, Cursor.limit_start] at hle
      have hlength := List.length_take_le n data
      have hsame : (result.2.append (data.drop n)).position = result.2.position := rfl
      omega
  | error failure =>
      obtain ⟨-, hmore⟩ := (read_causal options table).fails (Prod.ext hread rfl)
      have hstands (herror : failure.Stands (data.drop n).length) : False := by
        rw [hmore _ herror] at h
        cases h
      rw [decode_eq, hread]
      cases failure with
      | fault fault => exact absurd hread (read_safe options _ table fault)
      | format error =>
          cases error with
          | truncated shortage => exact ⟨shortage, rfl⟩
          | _ => exact (hstands trivial).elim

/-- What a byte string is decoded to is what every longer one is decoded to, with the same symbol
table, unless bytes are missing. If bytes are missing, they are missing at a position in the byte
string, up to the end of it, and the error is the same, but for the number of bytes that remain, as
long as not as many bytes follow as were needed. So each part of a class file that ends before the
class file does is short of bytes. -/
theorem decode_prefix (options : Options) (data : List UInt8) (table : SymbolTable) :
    ((∀ shortage, (decode options data table).1 ≠ .error (.format (.truncated shortage))) →
      ∀ more, decode options (data ++ more) table = decode options data table) ∧
    (∀ shortage, (decode options data table).1 = .error (.format (.truncated shortage)) →
      shortage.offset ≤ data.length ∧ shortage.remaining = data.length - shortage.offset ∧
        shortage.remaining < shortage.needed ∧
          ∀ more : List UInt8, data.length + more.length < shortage.offset + shortage.needed →
            decode options (data ++ more) table =
              (.error (.format (.truncated ⟨shortage.offset, shortage.needed,
                data.length + more.length - shortage.offset⟩)), (decode options data table).2)) ∧
    ∀ file c, (read options (Cursor.start data) table).1 = .ok (file, c) →
      c.position ≤ data.length ∧ ∀ n < c.position,
        ∃ shortage, (decode options (data.take n) table).1 = .error (.format (.truncated shortage)) := by
  refine ⟨decode_append_of_final, ?_, ?_⟩
  · intro shortage h
    obtain ⟨hlimit, hneeded⟩ := within_of_decode h
    refine ⟨by omega, by omega, hneeded, fun more hmore => ?_⟩
    have hstands : shortage.remaining + more.length < shortage.needed := by omega
    have hremaining : data.length + more.length - shortage.offset =
        shortage.remaining + more.length := by omega
    rw [decode_append_of_error h hstands, hremaining]
    rfl
  · intro file c h
    obtain ⟨hlimit, -⟩ := (read_causal options table).yields (Prod.ext h rfl)
    refine ⟨?_, fun n hn => truncated_of_take h hn⟩
    have hle := c.position_le_limit
    rwa [hlimit, Cursor.limit_start] at hle

/-- The plain class with a byte behind it, the first byte of any class file, and the plain class
without its last byte. -/
theorem decode_prefix_plainClass : ∃ file, (decode {} (plainClass.encode ++ [0]) .empty).1 = .ok file ∧
    (decode {} ([0xCA] ++ [0xFE]) .empty).1 = .error (.format (.truncated ⟨0, 4, 2⟩)) ∧
      ∃ shortage, (decode {} (plainClass.encode.take 26) .empty).1 =
        .error (.format (.truncated shortage)) := by
  let symbols := SymbolTable.empty.internAll (RawConstant.texts plainClass.constants)
  have hdeclares := plainClass_declares symbols.instanceOf
  have hdecode : decode {} plainClass.encode .empty =
      (.ok (plainFile symbols.instanceOf), symbols) := by
    rw [← List.append_nil plainClass.encode]
    exact decode_of_declares [] hdeclares
  obtain ⟨hsame, -, hshort⟩ := decode_prefix {} plainClass.encode .empty
  obtain ⟨-, hmissing, -⟩ := decode_prefix {} [0xCA] .empty
  refine ⟨plainFile symbols.instanceOf, ?_, ?_, ?_⟩
  · rw [hsame (by simp [hdecode]), hdecode]
  · have hfirst : (decode {} [0xCA] .empty).1 = .error (.format (.truncated ⟨0, 4, 1⟩)) := rfl
    rw [(hmissing _ hfirst).2.2.2 [0xFE] (by decide)]
    rfl
  · obtain ⟨c, hbytes⟩ : ∃ c, (Cursor.start plainClass.encode).Consumes plainClass.encode c :=
      Cursor.consumes_start_iff.mpr ⟨[], (List.append_nil _).symm⟩
    have hread := read_of_declares hbytes hdeclares
    have hlength : 26 < plainClass.encode.length := by decide
    have hposition : c.position = 0 + plainClass.encode.length := hbytes.2
    exact (hshort _ c (congrArg Prod.fst hread)).2 26 (by omega)

end Prefixes

end ClassFile

end ClassLoading
