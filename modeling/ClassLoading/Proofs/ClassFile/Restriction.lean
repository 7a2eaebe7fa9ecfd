import ClassLoading.Proofs.ClassFile.Prefix
import ClassLoading.Proofs.Constant.Restriction

/-!
# Class files under stricter options

A class file that is accepted under stricter options is the same class under the others. One that is
refused is refused under the others with the same error, unless the error is one that only the
stricter options look for.
-/

namespace ClassLoading

open Decoder

variable {strict lenient : Options}

theorem Options.Restricts.accepts (h : strict.Restricts lenient) {major : UInt16}
    (hmajor : strict.accepts major = true) : lenient.accepts major = true := by
  rw [ClassFile.accepts_iff] at hmajor ⊢
  intro hlenient
  rcases h.versions with hfree | ⟨hstrict, -, hrange⟩
  · rw [hlenient] at hfree
    cases hfree
  · obtain ⟨hmin, hmax⟩ := hmajor hstrict
    exact hrange major hmin hmax

namespace FieldAttribute

variable {pool : ConstantPool} {head : FieldHead}

/-- The check finds a kind, since it is made of a slot that is in the pool. -/
theorem requireTyped_stricter (h : strict.Restricts lenient)
    (htype : head.type = FieldType.ofChars? head.descriptor.chars) {index : UInt16} {entry : Entry}
    (hentry : pool.get? index = some entry) : Stricter (strict.Objects lenient)
      (requireTyped ⟨strict, pool, head⟩ index) (requireTyped ⟨lenient, pool, head⟩ index) := by
  simp only [requireTyped, ConstantPool.kindAt_of_some hentry]
  cases hspelled : head.type with
  | none => exact .refl _
  | some type =>
      rw [htype, ← Symbol.toList_text] at hspelled
      cases hlenient : lenient.validateConstantValueKinds with
      | true =>
          rw [h.constantValueKinds hlenient]
          exact .refl _
      | false =>
          cases hstrict : strict.validateConstantValueKinds with
          | false => exact .refl _
          | true =>
              exact .require (fun _ => rfl) fun hkind _ =>
                .constantValueKind hstrict hlenient hspelled (of_decide_eq_false hkind)

theorem readConstantValue_stricter (h : strict.Restricts lenient)
    (htype : head.type = FieldType.ofChars? head.descriptor.chars) : Stricter (strict.Objects lenient)
      (readConstantValue ⟨strict, pool, head⟩) (readConstantValue ⟨lenient, pool, head⟩) := by
  refine .after _ fun index => .lookup fun _ hkind => ?_
  obtain ⟨entry, hentry, -⟩ := (ConstantPool.requireKind_answers.ok_iff _).mp hkind
  exact (requireTyped_stricter h htype hentry).bind fun _ => .refl _

theorem readContent_stricter (h : strict.Restricts lenient)
    (htype : head.type = FieldType.ofChars? head.descriptor.chars) (length : Nat) (notes : FieldNotes)
    («attribute» : FieldAttribute) : Stricter (strict.Objects lenient)
      (readContent ⟨strict, pool, head⟩ length notes «attribute»)
      (readContent ⟨lenient, pool, head⟩ length notes «attribute») := by
  cases «attribute» with
  | constantValue =>
      exact .after _ fun _ => .after _ fun _ =>
        (readConstantValue_stricter h htype).bind fun _ => .refl _
  | _ => exact .refl _

theorem read_stricter (h : strict.Restricts lenient)
    (htype : head.type = FieldType.ofChars? head.descriptor.chars) (notes : FieldNotes) :
    Stricter (strict.Objects lenient)
      (read ⟨strict, pool, head⟩ notes) (read ⟨lenient, pool, head⟩ notes) := by
  refine .after _ fun _ => .after _ fun _ => .after _ fun length => .after _ fun symbol =>
    .after _ fun _ => .framed ?_
  cases interpreted? head symbol.text with
  | none => exact .refl _
  | some «attribute» => exact readContent_stricter h htype length.toNat notes «attribute»

end FieldAttribute

theorem FieldHead.read_stricter (h : strict.Restricts lenient) (pool : ConstantPool)
    (inInterface : Bool) : Stricter (strict.Objects lenient)
      (read strict pool inInterface) (read lenient pool inInterface) := by
  refine .after _ fun _ => .after _ fun _ => .after _ fun _ => .after _ fun _ => .after _ fun _ =>
    .after _ fun _ => .after _ fun _ => .after _ fun _ => .bind ?_ fun _ => .refl _
  exact .check h.descriptors fun hstrict hlenient hvalid =>
    .fieldDescriptor hstrict hlenient (by rwa [Symbol.toList_text])

theorem FieldHead.type_eq_of_read {options : Options} {pool : ConstantPool} {inInterface : Bool}
    {c c' : Cursor} {head : FieldHead × Nat} (h : read options pool inInterface c = .ok (head, c')) :
    head.1.type = FieldType.ofChars? head.1.descriptor.chars := by
  obtain ⟨_, ⟨_, _, _, _, hspelled, -⟩, -⟩ := (read_reads.yields (Nat.zero_le _) head c').mp h
  exact hspelled.type_eq

theorem Field.read_stricter (h : strict.Restricts lenient) (pool : ConstantPool) (inInterface : Bool) :
    Stricter (strict.Objects lenient) (read strict pool inInterface) (read lenient pool inInterface) :=
  (FieldHead.read_stricter h pool inInterface).bind_of FieldHead.type_eq_of_read fun head htype =>
    (Stricter.iterate (FieldAttribute.read_stricter h htype) head.2 {}).bind fun _ => .refl _

namespace ClassFile

open Loader (plainClass)

theorem readHeader_stricter (h : strict.Restricts lenient) :
    Stricter (strict.Objects lenient) (readHeader strict) (readHeader lenient) := by
  refine .after _ fun _ => .after _ fun _ => .after _ fun _ => .after _ fun _ => .after _ fun _ =>
    .bind ?_ fun _ => .refl _
  exact .require h.accepts fun hstrict hlenient => .version hstrict hlenient

theorem readBody_stricter (h : strict.Restricts lenient) (version : Version) (pool : ConstantPool) :
    Stricter (strict.Objects lenient) (readBody strict version pool)
      (readBody lenient version pool) := by
  refine .after _ fun flags => .after _ fun _ => .after _ fun _ => .after _ fun _ =>
    .bind ?_ fun _ => .refl _
  exact .after _ fun count => .replicate count.toNat (Field.read_stricter h pool flags.isInterface)

theorem readLinked_stricter (h : strict.Restricts lenient) (version : Version) (pool : ConstantPool) :
    Stricter (strict.Objects lenient) (readLinked strict version pool)
      (readLinked lenient version pool) :=
  .bind (.ofExcept (Link.linkFrom_narrows h version.major pool 1)) fun linked =>
    readBody_stricter h version linked

/-- A reading under stricter options ends as under the others, with the same symbol table, or with an
objection. -/
theorem read_narrows (h : strict.Restricts lenient) (c : Cursor) (table : SymbolTable) :
    read strict c table = read lenient c table ∨
      ∃ error, strict.Objects lenient error ∧ (read strict c table).1 = .error (.format error) := by
  have hread (options : Options) : read options c table = (readHeader options).before table _ c :=
    congrFun (read_eq options table) c
  rw [hread, hread]
  rcases readHeader_stricter h c with heq | ⟨error, herror, hheader⟩
  · cases hheader : readHeader lenient c with
    | error failure =>
        rw [before_of_error (heq.trans hheader), before_of_error hheader]
        exact Or.inl rfl
    | ok result =>
        obtain ⟨⟨version, size⟩, c'⟩ := result
        rw [before_of_ok (heq.trans hheader), before_of_ok hheader]
        simp only [readPlaced]
        -- Up to here nothing but the header has looked at the options.
        split
        · exact Or.inl rfl
        · exact Or.inl rfl
        · rename_i pool after c'' _ _
          rcases readLinked_stricter h version pool c'' with heq | ⟨error, herror, hlinked⟩
          · exact Or.inl (congrArg (·, after) heq)
          · exact Or.inr ⟨error, herror, hlinked⟩
  · rw [before_of_error hheader]
    exact Or.inr ⟨error, herror, rfl⟩

theorem decode_narrows (h : strict.Restricts lenient) (data : List UInt8) (table : SymbolTable) :
    decode strict data table = decode lenient data table ∨
      ∃ error, strict.Objects lenient error ∧
        (decode strict data table).1 = .error (.format error) := by
  simp only [decode_eq]
  rcases read_narrows h (Cursor.start data) table with heq | ⟨error, herror, hread⟩
  · rw [heq]
    exact Or.inl rfl
  · rw [hread]
    exact Or.inr ⟨error, herror, rfl⟩

/-- Options only restrict what is accepted. What is accepted under stricter options is accepted under
the others as the same class, with the same symbol table behind it. What is accepted under the others
alone is refused with an error that the stricter options alone look for: a version, a descriptor or
the kind of an initial value. -/
theorem decode_restricts (h : strict.Restricts lenient) (data : List UInt8) (table : SymbolTable) :
    (∀ file after, decode strict data table = (.ok file, after) →
      decode lenient data table = (.ok file, after)) ∧
    ∀ file after failure, decode lenient data table = (.ok file, after) →
      (decode strict data table).1 = .error failure →
        ∃ error, failure = .format error ∧ strict.Objects lenient error := by
  constructor
  · intro file after hstrict
    rcases decode_narrows h data table with heq | ⟨error, -, hrefused⟩
    · rw [← heq, hstrict]
    · rw [hstrict] at hrefused
      cases hrefused
  · intro file after failure hlenient hfailure
    rcases decode_narrows h data table with heq | ⟨error, herror, hrefused⟩
    · rw [heq, hlenient] at hfailure
      cases hfailure
    · exact ⟨error, Except.error.inj (hfailure.symm.trans hrefused), herror⟩

/-- The plain class, which is of version 52: without any check it is the class that it is with the
usual ones, and it is refused where versions begin at 53. -/
theorem decode_restricts_plainClass :
    (∃ file after, decode {} plainClass.encode .empty = (.ok file, after) ∧
      decode { enforceVersion := false, validateDescriptors := false } plainClass.encode .empty =
        (.ok file, after)) ∧
    (decode { minMajor := 53 } plainClass.encode .empty).1 =
        .error (.format (.unsupportedVersion 52 0)) ∧
      Options.Objects { minMajor := 53 } {} (.unsupportedVersion 52 0) := by
  have hdecode := Loader.decode_plainClass .empty
  rw [List.append_nil] at hdecode
  have hrefused : (decode { minMajor := 53 } plainClass.encode .empty).1 =
      .error (.format (.unsupportedVersion 52 0)) := rfl
  have hfree : Options.Restricts {} { enforceVersion := false, validateDescriptors := false } :=
    ⟨Or.inl rfl, nofun, nofun⟩
  have hlater : Options.Restricts { minMajor := 53 } {} := by
    refine ⟨Or.inr ⟨rfl, rfl, fun major hmin hmax => ⟨?_, hmax⟩⟩, fun _ => rfl, nofun⟩
    exact UInt16.le_trans (by decide) hmin
  refine ⟨⟨_, _, hdecode, (decode_restricts hfree plainClass.encode .empty).1 _ _ hdecode⟩,
    hrefused, ?_⟩
  obtain ⟨error, herror, hobjects⟩ :=
    (decode_restricts hlater plainClass.encode .empty).2 _ _ _ hdecode hrefused
  obtain rfl := Failure.format.inj herror
  exact hobjects

end ClassFile

end ClassLoading
