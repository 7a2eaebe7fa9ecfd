import ClassLoading.Proofs.ClassFile.AttributeSpelling

/-!
# Fields

A field as a class file writes it, and the fields that it may declare. Attributes count only by the
bodies that belong to each of the interpreted ones.
-/

namespace ClassLoading

open Decoder

structure FieldDeclaration where
  flags : UInt16
  name : UInt16
  descriptor : UInt16
  attributes : List AttributeDeclaration
  count_lt : attributes.length < UInt16.size

namespace FieldDeclaration

def encode (declaration : FieldDeclaration) : List UInt8 :=
  BigEndian.ofUInt16 declaration.flags ++ (BigEndian.ofUInt16 declaration.name ++
    (BigEndian.ofUInt16 declaration.descriptor ++
      (BigEndian.ofNat 2 declaration.attributes.length ++
        declaration.attributes.flatMap AttributeDeclaration.encode)))

/-- The bodies of the attributes that are interpreted in the same way. -/
def bodies (pool : ConstantPool) (declaration : FieldDeclaration) («attribute» : FieldAttribute) :
    List (List UInt8) :=
  AttributeDeclaration.bodies pool declaration.flags declaration.attributes «attribute»

/-- The declaration obeys the rules, and declares this field. -/
structure Declares (options : Options) (pool : ConstantPool) (inInterface : Bool)
    (declaration : FieldDeclaration) (field : Field) : Prop where
  flags_eq : field.flags.bits = declaration.flags &&& 0x50DF
  flags_allowed : AllowedForField inInterface declaration.flags
  name_slot : pool.get? declaration.name = some (.utf8 field.name)
  descriptor_slot : pool.get? declaration.descriptor = some (.utf8 field.descriptor)
  descriptor_valid : options.validateDescriptors = true →
    Descriptor.IsFieldBytes field.descriptor.bytes
  named : ∀ attributeDeclaration ∈ declaration.attributes, attributeDeclaration.Named pool
  constantValue :
    AtMostOne (InitialValue options pool (Descriptor.AllowsInitial field.descriptor.bytes))
      (declaration.bodies pool .constantValue) field.constantValue
  signature : AtMostOne (TextSlot pool) (declaration.bodies pool .signature) field.signature
  synthetic : (∀ body ∈ declaration.bodies pool .synthetic, body = []) ∧
    field.markedSynthetic = !(declaration.bodies pool .synthetic).isEmpty
  deprecated : (∀ body ∈ declaration.bodies pool .deprecated, body = []) ∧
    field.deprecated = !(declaration.bodies pool .deprecated).isEmpty
  visible : ∃ uses, AtMostOne (Annotations pool) (declaration.bodies pool .visibleAnnotations) uses ∧
    field.visible = uses.getD []
  invisible : ∃ uses,
    AtMostOne (Annotations pool) (declaration.bodies pool .invisibleAnnotations) uses ∧
      field.invisible = uses.getD []

/-- The head that the decoder makes of a declaration and the texts of its name and descriptor. -/
def head (declaration : FieldDeclaration) (name descriptor : Symbol) : FieldHead :=
  ⟨FieldFlags.ofBits declaration.flags, name, descriptor, FieldType.ofChars? descriptor.chars⟩

variable {options : Options} {pool : ConstantPool} {inInterface : Bool}
  {declaration : FieldDeclaration} {field : Field}

theorem gathered_none_iff {α : Type} {R : List UInt8 → α → Prop} {bodies : List (List UInt8)}
    {value : Option α} : FieldAttribute.Gathered R bodies none value ↔ AtMostOne R bodies value := by
  simp [FieldAttribute.Gathered, AtMostOne]

section Head

variable {name descriptor : Symbol} {notes : FieldNotes}

theorem bodies_head («attribute» : FieldAttribute) :
    AttributeDeclaration.bodies pool (declaration.head name descriptor).flags.bits declaration.attributes
      «attribute» = declaration.bodies pool «attribute» := by
  have hstatic : Carries (declaration.head name descriptor).flags.bits 0x0008 ↔
      Carries declaration.flags 0x0008 := FieldFlags.carries_static_ofBits
  rw [bodies, AttributeDeclaration.bodies, AttributeDeclaration.bodies,
    AttributeDeclaration.isFor_congr hstatic]

theorem allows_head :
    (declaration.head name descriptor).Allows = Descriptor.AllowsInitial descriptor.bytes := by
  funext kind
  exact propext Descriptor.allowsInitial_iff.symm

/-- What the attributes of a declaration contribute to a field of which nothing was noted before. -/
theorem steps_head_iff :
    FieldAttribute.Steps ⟨options, pool, declaration.head name descriptor⟩ declaration.attributes {}
        notes ↔
      (∀ attributeDeclaration ∈ declaration.attributes, attributeDeclaration.Named pool) ∧
        ∀ a, FieldAttribute.Contributes ⟨options, pool, declaration.head name descriptor⟩ {} notes
          (declaration.bodies pool a) a := by
  simp only [FieldAttribute.steps_iff, bodies_head]

end Head

/-- The attributes of a declaration, noted one after another, make the field that it declares. -/
theorem declares_iff : declaration.Declares options pool inInterface field ↔
    ∃ name descriptor, pool.get? declaration.name = some (.utf8 name) ∧
      pool.get? declaration.descriptor = some (.utf8 descriptor) ∧
      AllowedForField inInterface declaration.flags ∧
      (options.validateDescriptors = true → Descriptor.IsFieldBytes descriptor.bytes) ∧
      ∃ notes, FieldAttribute.Steps ⟨options, pool, declaration.head name descriptor⟩
        declaration.attributes {} notes ∧
        field = (declaration.head name descriptor).toField notes := by
  constructor
  · intro h
    obtain ⟨visible, hvisible, hvisibleEq⟩ := h.visible
    obtain ⟨invisible, hinvisible, hinvisibleEq⟩ := h.invisible
    refine ⟨field.name, field.descriptor, h.name_slot, h.descriptor_slot, h.flags_allowed,
      h.descriptor_valid, ⟨field.constantValue, field.signature, field.markedSynthetic,
        field.deprecated, visible, invisible⟩, steps_head_iff.mpr ⟨h.named, fun a => ?_⟩, ?_⟩
    · cases a with
      | constantValue =>
          rw [FieldAttribute.Contributes, allows_head]
          exact gathered_none_iff.mpr h.constantValue
      | synthetic => exact h.synthetic
      | deprecated => exact h.deprecated
      | signature => exact gathered_none_iff.mpr h.signature
      | visibleAnnotations => exact gathered_none_iff.mpr hvisible
      | invisibleAnnotations => exact gathered_none_iff.mpr hinvisible
    · obtain ⟨flags, name, descriptor, _, _, _, _, _, _⟩ := field
      obtain rfl := FieldFlags.eq_ofBits_iff.mpr h.flags_eq
      obtain rfl := hvisibleEq
      obtain rfl := hinvisibleEq
      rfl
  · intro hgiven
    obtain ⟨name, descriptor, hname, hdescriptor, hallowed, hvalid, notes, hsteps, rfl⟩ := hgiven
    obtain ⟨hnamed, hparts⟩ := steps_head_iff.mp hsteps
    have hvalue := hparts .constantValue
    rw [FieldAttribute.Contributes, allows_head] at hvalue
    exact {
      flags_eq := FieldFlags.bits_ofBits declaration.flags
      flags_allowed := hallowed
      name_slot := hname
      descriptor_slot := hdescriptor
      descriptor_valid := hvalid
      named := hnamed
      constantValue := gathered_none_iff.mp hvalue
      signature := gathered_none_iff.mp (hparts .signature)
      synthetic := hparts .synthetic
      deprecated := hparts .deprecated
      visible := ⟨notes.visible, gathered_none_iff.mp (hparts .visibleAnnotations), rfl⟩
      invisible := ⟨notes.invisible, gathered_none_iff.mp (hparts .invisibleAnnotations), rfl⟩ }

end FieldDeclaration

section Reading

variable {options : Options} {pool : ConstantPool} {inInterface : Bool}

/-- What precedes the attributes of a field, and their number. -/
structure FieldHead.Spelled (options : Options) (pool : ConstantPool) (inInterface : Bool)
    (bytes : List UInt8) (head : FieldHead) (count : UInt16) (flags name descriptor : UInt16) : Prop where
  bytes_eq : bytes = BigEndian.ofUInt16 flags ++ (BigEndian.ofUInt16 name ++
    (BigEndian.ofUInt16 descriptor ++ BigEndian.ofUInt16 count))
  flags_eq : head.flags = FieldFlags.ofBits flags
  allowed : AllowedForField inInterface flags
  name_slot : pool.get? name = some (.utf8 head.name)
  descriptor_slot : pool.get? descriptor = some (.utf8 head.descriptor)
  type_eq : head.type = FieldType.ofChars? head.descriptor.chars
  valid : options.validateDescriptors = true → Descriptor.IsFieldBytes head.descriptor.bytes

theorem FieldHead.read_reads : Reads 0 (FieldHead.read options pool inInterface)
    fun bytes result => ∃ count flags name descriptor,
      FieldHead.Spelled options pool inInterface bytes result.1 count flags name descriptor ∧
        result.2 = count.toNat := by
  have hparts : Reads 8 (do
      let flags := FieldFlags.ofBits (← Decoder.u16Unchecked)
      let nameIndex ← Decoder.u16Unchecked
      let descriptorIndex ← Decoder.u16Unchecked
      let attributes ← Decoder.u16Unchecked
      Decoder.require (flags.isLegal inInterface) (.accessFlags .field flags.bits)
      let name ← Decoder.ofExcept (pool.utf8At nameIndex .fieldName)
      let descriptor ← Decoder.ofExcept (pool.utf8At descriptorIndex .fieldDescriptor)
      let type := FieldType.ofChars? descriptor.chars
      Decoder.require (!options.validateDescriptors || type.isSome)
        (.malformed (.fieldDescriptor descriptor.text descriptorIndex))
      return (FieldHead.mk flags name descriptor type, attributes.toNat)) _ :=
    (Reads.u16Unchecked (by decide)).step BigEndian.length_ofUInt16 fun flags =>
      (Reads.u16Unchecked (by decide)).step BigEndian.length_ofUInt16 fun nameIndex =>
        (Reads.u16Unchecked (by decide)).step BigEndian.length_ofUInt16 fun descriptorIndex =>
          (Reads.u16Unchecked (by decide)).step BigEndian.length_ofUInt16 fun count =>
            Reads.require fun _ => Reads.lookup ConstantPool.utf8At_answers fun name _ =>
              Reads.lookup ConstantPool.utf8At_answers fun descriptor _ =>
                Reads.require fun _ => Reads.pure (FieldHead.mk (FieldFlags.ofBits flags) name descriptor
                  (FieldType.ofChars? descriptor.chars), count.toNat)
  refine (Reads.ensure hparts ?_).congr fun bytes result => ?_
  · intro bytes _ hgiven
    obtain ⟨flags, _, rfl, name, _, rfl, descriptor, _, rfl, count, rest, rfl, -⟩ := hgiven
    simp only [List.length_append, BigEndian.length_ofUInt16]
    omega
  · have hvalid (descriptor : Symbol) :
        (!options.validateDescriptors || (FieldType.ofChars? descriptor.chars).isSome) = true ↔
          (options.validateDescriptors = true → Descriptor.IsFieldBytes descriptor.bytes) := by
      rw [← Descriptor.isField_charsOfBytes_iff]
      cases options.validateDescriptors <;> simp [Descriptor.isField, Symbol.chars]
    simp only [hvalid, FieldFlags.isLegal_ofBits_iff]
    constructor
    · intro hgiven
      obtain ⟨flags, _, rfl, nameIndex, _, rfl, descriptorIndex, _, rfl, count, _, rfl, hallowed, name,
        hname, descriptor, hdescriptor, hvalid, rfl, rfl⟩ := hgiven
      exact ⟨count, flags, nameIndex, descriptorIndex,
        ⟨by rw [List.append_nil], rfl, hallowed, hname, hdescriptor, rfl, hvalid⟩, rfl⟩
    · intro hgiven
      obtain ⟨count, flags, nameIndex, descriptorIndex, h, hcount⟩ := hgiven
      obtain ⟨⟨headFlags, name, descriptor, type⟩, _⟩ := result
      obtain rfl := h.bytes_eq
      obtain rfl : headFlags = _ := h.flags_eq
      obtain rfl : type = FieldType.ofChars? descriptor.chars := h.type_eq
      obtain rfl : _ = count.toNat := hcount
      exact ⟨flags, _, rfl, nameIndex, _, rfl, descriptorIndex, _, rfl, count, [],
        (List.append_nil _).symm, h.allowed, name, h.name_slot, descriptor, h.descriptor_slot, h.valid,
        rfl, rfl⟩

/-- A field is read exactly where a declaration of it is spelt. -/
theorem Field.read_reads : Reads 0 (Field.read options pool inInterface) fun bytes field =>
    ∃ declaration : FieldDeclaration, bytes = declaration.encode ∧
      declaration.Declares options pool inInterface field := by
  refine (FieldHead.read_reads.bind fun _ result _ =>
    ((FieldAttribute.iterate_reads result.2).mono (Nat.zero_le _)).bind fun _ notes _ =>
      Reads.pure (result.1.toField notes)).congr fun bytes field => ?_
  constructor
  · intro hgiven
    obtain ⟨⟨head, _⟩, _, _, ⟨count, flags, name, descriptor, h, rfl⟩, ⟨notes, _, _,
      ⟨attributes, hcount, rfl, hsteps⟩, ⟨rfl, rfl⟩, rfl⟩, rfl⟩ := hgiven
    obtain ⟨headFlags, headName, headDescriptor, type⟩ := head
    obtain rfl := h.bytes_eq
    obtain rfl : headFlags = _ := h.flags_eq
    obtain rfl : type = FieldType.ofChars? headDescriptor.chars := h.type_eq
    dsimp only at hcount
    refine ⟨⟨flags, name, descriptor, attributes, hcount ▸ count.toNat_lt⟩, ?_, ?_⟩
    · simp only [FieldDeclaration.encode, hcount, BigEndian.ofUInt16, List.append_nil,
        List.append_assoc]
    · exact FieldDeclaration.declares_iff.mpr ⟨headName, headDescriptor, h.name_slot,
        h.descriptor_slot, h.allowed, h.valid, notes, hsteps, rfl⟩
  · intro hgiven
    obtain ⟨⟨flags, nameIndex, descriptorIndex, attributes, hlt⟩, rfl, hdeclares⟩ := hgiven
    obtain ⟨name, descriptor, hname, hdescriptor, hallowed, hvalid, notes, hsteps, rfl⟩ :=
      FieldDeclaration.declares_iff.mp hdeclares
    have hcount : (UInt16.ofNat attributes.length).toNat = attributes.length :=
      UInt16.toNat_ofNat_of_lt hlt
    refine ⟨(_, attributes.length), _, _, ⟨UInt16.ofNat attributes.length, flags, nameIndex,
      descriptorIndex, ⟨rfl, rfl, hallowed, hname, hdescriptor, rfl, hvalid⟩, hcount.symm⟩,
      ⟨notes, _, [], ⟨attributes, rfl, rfl, hsteps⟩, ⟨rfl, rfl⟩, rfl⟩, ?_⟩
    simp only [FieldDeclaration.encode, hcount, BigEndian.ofUInt16, List.append_nil,
      List.append_assoc]

end Reading

end ClassLoading
