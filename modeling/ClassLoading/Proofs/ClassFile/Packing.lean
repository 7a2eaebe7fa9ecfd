import ClassLoading.Proofs.ClassFile.Acceptance
import ClassLoading.Proofs.Constant.Program

/-!
# Decoding with packed pools

A class file can be decoded with a packed pool in place of its pool. The constants are placed into it
and linked with the same outcome, and what is read afterwards looks slots up only behind a check of
their kinds. So no call of a decode ever finds a slot of a packed pool to hold anything but what its
kind says, and none is at fault in any other way.
-/

namespace ClassLoading

open PoolProgram

namespace PoolProgram

/-- The kind of an initial value. -/
def constantKindAt (index : UInt16) : PoolProgram ConstantKind :=
  lookup index .constantValue ConstantKind.isConstantValue .kind

theorem constantKindAt_finds (pool : ConstantPool) (index : UInt16) :
    (constantKindAt index).Finds pool (do
      pool.requireKind index .constantValue ConstantKind.isConstantValue
      (pool.kindAt index).mapError .fault) :=
  lookup_finds index .constantValue ConstantKind.isConstantValue .kind

end PoolProgram

section Lookups

variable {packed : PackedPool} {pool : ConstantPool} {expected : ConstantKind → Bool}

theorem requireKind_safe (h : packed.Represents pool) (index : UInt16) (role : IndexRole)
    (fault : PackedFault) :
    (requireKind index role expected).runPacked packed ≠ .error (.fault fault) :=
  runPacked_safe h ((requireKind_finds index role expected).safe
    ConstantPool.requireKind_answers.safe) fault

theorem utf8At_safe (h : packed.Represents pool) (index : UInt16) (role : IndexRole)
    (fault : PackedFault) : (utf8At index role).runPacked packed ≠ .error (.fault fault) :=
  runPacked_safe h ((utf8At_finds index role).safe ConstantPool.utf8At_answers.safe) fault

theorem constantKindAt_safe (h : packed.Represents pool) (index : UInt16) (fault : PackedFault) :
    (constantKindAt index).runPacked packed ≠ .error (.fault fault) :=
  lookup_safe (fun _ _ => rfl) h index .constantValue fault

/-- Where classes alone are expected, what the slot refers to can be asked for. -/
theorem classEntity_lookup_safe (h : packed.Represents pool)
    (hclass : ∀ kind, expected kind = true → kind.isClass = true) (index : UInt16) (role : IndexRole)
    (fault : PackedFault) :
    (lookup index role expected .classEntity).runPacked packed ≠ .error (.fault fault) := by
  refine lookup_safe (fun entry hentry => ?_) h index role fault
  have hkind := hclass entry.kind hentry
  cases entry with
  | classEntity entity => rfl
  | member kind owner typing => cases kind <;> cases hkind
  | _ => cases hkind

theorem classNameAt_eq (pool : ConstantPool) (index : UInt16) (role : IndexRole)
    (expected : ConstantKind → Bool) (c : Cursor) :
    ClassFile.classNameAt pool index role expected c =
      ((lookup index role expected .classEntity).run pool).map fun found =>
        (ClassEntity.name found.1, c) := by
  rw [lookup_finds, ClassFile.classNameAt]
  cases hkind : pool.requireKind index role expected with
  | error failure => rfl
  | ok _ =>
      change _ = Except.map _ (Except.map _ ((pool.classAt index).mapError Failure.fault))
      cases pool.classAt index <;> rfl

/-- The kind of an initial value, where it has to fit the type of the field, is asked for behind the
check of the slot. -/
theorem requireTyped_eq {context : FieldAttribute.Context} {type : FieldType}
    (htype : context.head.type = some type)
    (hvalidate : context.options.validateConstantValueKinds = true) (index : UInt16) (c : Cursor) :
    (do
        Decoder.ofExcept (context.pool.requireKind index .constantValue ConstantKind.isConstantValue)
        FieldAttribute.requireTyped context index : Decoder Unit) c = (do
      let (kind, _) ← (constantKindAt index).run context.pool
      Decoder.require (decide (type.constantKind? = some kind))
        (.malformed (.constantValueKind kind context.head.name.text context.head.descriptor.text)) c) := by
  rw [constantKindAt_finds]
  cases context.pool.requireKind index .constantValue ConstantKind.isConstantValue with
  | error failure => rfl
  | ok _ =>
      simp only [FieldAttribute.requireTyped, htype, hvalidate, if_true]
      change Decoder.ofExcept ((context.pool.kindAt index).mapError .fault) c >>= _ =
        Except.map _ ((context.pool.kindAt index).mapError Failure.fault) >>= _
      cases context.pool.kindAt index <;> rfl

end Lookups

namespace ClassFile

variable {options : Options} {data : List UInt8} {version : Version} {size : UInt16} {c c' : Cursor}

theorem exists_place_of_header (table : SymbolTable)
    (hheader : readHeader options (Cursor.start data) = .ok ((version, size), c)) :
    ∃ placed, (ConstantPool.vacant size).place (RawConstants.read size c).constants.toList 1 table =
      (.ok placed, table.internAll (RawConstant.texts (RawConstants.read size c).constants.toList)) := by
  obtain ⟨_, ⟨-, -, hsize⟩, -⟩ := (readHeader_reads.yields (Nat.zero_le _) _ _).mp hheader
  obtain ⟨placed, hplace, -⟩ := ConstantPool.place_vacant (slotCount_readFrom_le hsize c) table
  exact ⟨placed, hplace⟩

/-- The constants that were read, all of them or those before a failure, are placed into a packed pool
without a fault. -/
theorem exists_packed_of_header (table : SymbolTable)
    (hheader : readHeader options (Cursor.start data) = .ok ((version, size), c)) :
    ∃ packed, (place (RawConstants.read size c).constants.toList 1 table).runPacked (.vacant size) =
      .ok ((), packed) := by
  obtain ⟨placed, hplace⟩ := exists_place_of_header table hheader
  have halike := endsAlike_run (.vacant size) (place (RawConstants.read size c).constants.toList 1 table)
  rw [run_place, hplace] at halike
  obtain ⟨packed, hpacked, -⟩ := halike.exists_represents
  exact ⟨packed, hpacked⟩

/-- Where the constants of a class file can be read, a packed pool is built from them as its pool is:
both are linked with the same content and what follows is read, or both are refused alike. -/
theorem decode_packed (table : SymbolTable)
    (hheader : readHeader options (Cursor.start data) = .ok ((version, size), c))
    (hconstants : (RawConstants.read size c).outcome = .ok c') :
    (∃ linked packed, (build ⟨version.major, options⟩ (RawConstants.read size c).constants.toList
          table).runPacked (.vacant size) = .ok ((), packed) ∧ packed.Represents linked ∧
        (decode options data table).1 = (readBody options version linked c').map Prod.fst) ∨
      ∃ error, (build ⟨version.major, options⟩ (RawConstants.read size c).constants.toList
          table).runPacked (.vacant size) = .error (.format error) ∧
        (decode options data table).1 = .error (.format error) := by
  obtain ⟨placed, hplace⟩ := exists_place_of_header table hheader
  have hread : (read options (Cursor.start data) table).1 = readLinked options version placed c' := by
    simp only [read, hheader, hplace, hconstants]
  have halike := endsAlike_run (.vacant size)
    (build ⟨version.major, options⟩ (RawConstants.read size c).constants.toList table)
  rw [run_build _ hplace] at halike
  cases hlink : placed.link ⟨version.major, options⟩ with
  | ok linked =>
      rw [hlink] at halike
      obtain ⟨packed, hpacked, hrepresents⟩ := halike.exists_represents
      refine Or.inl ⟨linked, packed, hpacked, hrepresents, ?_⟩
      rw [decode_eq, hread, readLinked, hlink]
      rfl
  | error failure =>
      rw [hlink] at halike
      have hdecode : (decode options data table).1 = .error failure := by
        rw [decode_eq, hread, readLinked, hlink]
        rfl
      cases failure with
      | fault fault => exact absurd hdecode (decode_safe options data table fault)
      | format error => exact Or.inr ⟨error, halike.eq_error, hdecode⟩

end ClassFile

end ClassLoading
