import ClassLoading.Proofs.ClassFile.PrefixFree
import ClassLoading.Proofs.Loader.WellLinked

/-!
# Recognised attributes

Which attributes of a field count is a matter of the bytes of their names. A class does not depend on
the order of these attributes, nor on any others that stand among them: class files that agree but
for that are accepted alike and declare the same class.
-/

namespace ClassLoading

open RawConstant

namespace FieldAttribute

/-- The bytes are the name of an attribute that counts. -/
def isRecognised (flags : UInt16) (name : List UInt8) : Bool :=
  all.any fun «attribute» => name = «attribute».nameBytes && «attribute».countsOn flags

/-- An attribute that counts is recognised by its name. -/
theorem isRecognised_of_countsOn {flags : UInt16} {name : List UInt8} {«attribute» : FieldAttribute}
    (h : (decide (name = «attribute».nameBytes) && «attribute».countsOn flags) = true) :
    isRecognised flags name = true := by
  have hmem : «attribute» ∈ all := by cases «attribute» <;> decide
  exact List.any_eq_true.mpr ⟨«attribute», hmem, h⟩

end FieldAttribute

namespace FieldDeclaration

/-- The names and bodies of the attributes that count. -/
def recognised (constants : List RawConstant) (declaration : FieldDeclaration) :
    List (List UInt8 × List UInt8) :=
  (declaration.attributes.map fun a => (textIn constants a.name, a.body)).filter
    fun part => FieldAttribute.isRecognised declaration.flags part.1

variable {constants : List RawConstant} {symbol : List UInt8 → Symbol} {pool : ConstantPool}
  {declaration declaration' : FieldDeclaration}

/-- The texts of some constants stand in a pool, each as a symbol of its bytes. -/
structure TextsIn (constants : List RawConstant) (symbol : List UInt8 → Symbol) (pool : ConstantPool) :
    Prop where
  bytes_eq : ∀ text, (symbol text).bytes = text
  get?_eq : ∀ index text, HasText constants index text → pool.get? index = some (.utf8 (symbol text))

theorem isFor_eq (h : TextsIn constants symbol pool) {a : AttributeDeclaration}
    (hnamed : ∃ text, HasText constants a.name text) (flags : UInt16) («attribute» : FieldAttribute) :
    a.isFor pool flags «attribute» =
      (decide (textIn constants a.name = «attribute».nameBytes) && «attribute».countsOn flags) := by
  obtain ⟨text, htext⟩ := hnamed
  rw [AttributeDeclaration.isFor, h.get?_eq _ _ htext, textIn_of_hasText htext]
  simp only [h.bytes_eq]

/-- The bodies of an attribute are those that are recognised under its name. -/
theorem bodies_eq (h : TextsIn constants symbol pool)
    (hnamed : ∀ a ∈ declaration.attributes, ∃ text, HasText constants a.name text)
    («attribute» : FieldAttribute) :
    declaration.bodies pool «attribute» = ((declaration.recognised constants).filter fun part =>
      decide (part.1 = «attribute».nameBytes) && «attribute».countsOn declaration.flags).map Prod.snd := by
  rw [bodies, AttributeDeclaration.bodies, recognised, List.filter_filter, List.filter_map, List.map_map]
  have hfilter : declaration.attributes.filter
      (AttributeDeclaration.isFor pool declaration.flags «attribute») = _ :=
    List.filter_congr fun a ha => isFor_eq h (hnamed a ha) _ _
  rw [hfilter]
  refine congrArg (List.map AttributeDeclaration.body) (List.filter_congr fun a _ => ?_)
  refine Bool.eq_iff_iff.mpr ⟨fun hcounts => ?_, fun hboth => (Bool.and_eq_true_iff.mp hboth).1⟩
  exact Bool.and_eq_true_iff.mpr ⟨hcounts, FieldAttribute.isRecognised_of_countsOn hcounts⟩

theorem atMostOne_of_perm {α : Type} {R : List UInt8 → α → Prop} {bodies bodies' : List (List UInt8)}
    {value : Option α} (hperm : bodies.Perm bodies') (h : AtMostOne R bodies value) :
    AtMostOne R bodies' value := by
  rcases h with ⟨rfl, hnone⟩ | ⟨body, x, rfl, hbody, hsome⟩
  · exact Or.inl ⟨hperm.nil_eq.symm, hnone⟩
  · exact Or.inr ⟨body, x, hperm.singleton_eq.symm, hbody, hsome⟩

/-- Empty bodies of a mark, in any order. -/
theorem marked_of_perm {bodies bodies' : List (List UInt8)} {mark : Bool} (hperm : bodies.Perm bodies')
    (h : (∀ body ∈ bodies, body = []) ∧ mark = !bodies.isEmpty) :
    (∀ body ∈ bodies', body = []) ∧ mark = !bodies'.isEmpty :=
  ⟨fun body hbody => h.1 body (hperm.mem_iff.mpr hbody), by rw [h.2, hperm.isEmpty_eq]⟩

variable {options : Options} {inInterface : Bool} {field : Field}

/-- What a declaration declares does not depend on the order of the bodies of an attribute. -/
theorem Declares.perm (h : declaration.Declares options pool inInterface field)
    (hflags : declaration'.flags = declaration.flags) (hname : declaration'.name = declaration.name)
    (hdescriptor : declaration'.descriptor = declaration.descriptor)
    (hnamed : ∀ a ∈ declaration'.attributes, a.Named pool)
    (hbodies : ∀ a, (declaration.bodies pool a).Perm (declaration'.bodies pool a)) :
    declaration'.Declares options pool inInterface field := by
  obtain ⟨visible, hvisible, hvisibleEq⟩ := h.visible
  obtain ⟨invisible, hinvisible, hinvisibleEq⟩ := h.invisible
  exact {
    flags_eq := hflags ▸ h.flags_eq
    flags_allowed := hflags ▸ h.flags_allowed
    name_slot := hname ▸ h.name_slot
    descriptor_slot := hdescriptor ▸ h.descriptor_slot
    descriptor_valid := h.descriptor_valid
    named := hnamed
    constantValue := atMostOne_of_perm (hbodies .constantValue) h.constantValue
    signature := atMostOne_of_perm (hbodies .signature) h.signature
    synthetic := marked_of_perm (hbodies .synthetic) h.synthetic
    deprecated := marked_of_perm (hbodies .deprecated) h.deprecated
    visible := ⟨visible, atMostOne_of_perm (hbodies .visibleAnnotations) hvisible, hvisibleEq⟩
    invisible := ⟨invisible, atMostOne_of_perm (hbodies .invisibleAnnotations) hinvisible, hinvisibleEq⟩ }

/-- Two declarations agree but for their attributes, which are named by texts of the constants, and
the recognised ones of which are the same up to their order. -/
structure AgreesWith (constants : List RawConstant) (declaration declaration' : FieldDeclaration) :
    Prop where
  flags_eq : declaration'.flags = declaration.flags
  name_eq : declaration'.name = declaration.name
  descriptor_eq : declaration'.descriptor = declaration.descriptor
  named : ∀ a ∈ declaration.attributes, ∃ text, HasText constants a.name text
  named' : ∀ a ∈ declaration'.attributes, ∃ text, HasText constants a.name text
  recognised_perm : (declaration.recognised constants).Perm (declaration'.recognised constants)

theorem AgreesWith.symm (h : AgreesWith constants declaration declaration') :
    AgreesWith constants declaration' declaration :=
  ⟨h.flags_eq.symm, h.name_eq.symm, h.descriptor_eq.symm, h.named', h.named, h.recognised_perm.symm⟩

theorem AgreesWith.declares (hagrees : AgreesWith constants declaration declaration')
    (htexts : TextsIn constants symbol pool) (h : declaration.Declares options pool inInterface field) :
    declaration'.Declares options pool inInterface field := by
  refine h.perm hagrees.flags_eq hagrees.name_eq hagrees.descriptor_eq (fun a ha => ?_) fun a => ?_
  · obtain ⟨text, htext⟩ := hagrees.named' a ha
    exact ⟨_, htexts.get?_eq _ _ htext⟩
  · rw [bodies_eq htexts hagrees.named, bodies_eq htexts hagrees.named', hagrees.flags_eq]
    exact (hagrees.recognised_perm.filter _).map _

end FieldDeclaration

namespace ClassFile

open Loader (plainClass)

variable {opening : Opening} {declaration declaration' : FieldDeclaration}

/-- One thing of a list may be replaced by another that goes with the same. -/
theorem forall₂_replace {α β : Type} {R : α → β → Prop} {before after : List α} {x x' : α}
    {others : List β} (h : List.Forall₂ R (before ++ x :: after) others) (hx : ∀ y, R x y → R x' y) :
    List.Forall₂ R (before ++ x' :: after) others := by
  induction before generalizing others with
  | nil =>
      cases h with
      | cons hfirst hrest => exact .cons (hx _ hfirst) hrest
  | cons first before ih =>
      cases h with
      | cons hfirst hrest => exact .cons hfirst (ih hrest)

/-- If a class file declares a class, so does one that agrees with it on a field but for attributes
that do not count. -/
theorem declares_close {options : Options} {symbol : List UInt8 → Symbol} {file : ClassFile}
    {more : List FieldDeclaration}
    (hagrees : declaration.AgreesWith opening.constants declaration')
    (hcount : (opening.fields ++ declaration :: more).length = opening.fieldCount.toNat)
    (hcount' : (opening.fields ++ declaration' :: more).length = opening.fieldCount.toNat)
    (hsymbol : ∀ text, (symbol text).bytes = text)
    (h : (opening.close declaration more hcount).Declares options symbol file) :
    (opening.close declaration' more hcount').Declares options symbol file := by
  have htexts : FieldDeclaration.TextsIn opening.constants symbol file.pool := by
    refine ⟨hsymbol, fun index text htext => ?_⟩
    rw [h.pool_eq]
    exact ConstantPool.get?_ofConstants_text (opening.close declaration more hcount).toNat_poolSize htext
  exact {
    minor_eq := h.minor_eq
    major_eq := h.major_eq
    version_accepted := h.version_accepted
    refers := h.refers
    pool_eq := h.pool_eq
    body := {
      flags_eq := h.body.flags_eq
      flags_allowed := h.body.flags_allowed
      thisClass := h.body.thisClass
      superClass := h.body.superClass
      interfaces := h.body.interfaces
      fields := forall₂_replace h.body.fields fun _ => hagrees.declares htexts } }

/-- What is decoded with one of two fields that agree is decoded with the other. -/
theorem decode_of_agreesWith {options : Options} {table after : SymbolTable} {file : ClassFile}
    {rest : List UInt8} (hagrees : declaration.AgreesWith opening.constants declaration')
    (h : decode options (opening.encode ++ (declaration.encode ++ rest)) table = (.ok file, after)) :
    decode options (opening.encode ++ (declaration'.encode ++ rest)) table = (.ok file, after) := by
  obtain ⟨found, tail, hbytes, rfl, hdeclares⟩ := declares_of_decode h
  obtain ⟨more, hcount, rfl, rfl⟩ := Opening.exists_close hbytes
  have hcount' : (opening.fields ++ declaration' :: more).length = opening.fieldCount.toNat := by
    rw [← hcount]
    simp
  have hdeclares' := declares_close hagrees hcount hcount' (SymbolTable.bytes_instanceOf _) hdeclares
  have hdecode : decode options ((opening.close declaration' more hcount').encode ++ tail) table = _ :=
    decode_of_declares tail hdeclares'
  rw [Opening.encode_close, List.append_assoc, List.append_assoc] at hdecode
  exact hdecode

/-- A class depends on the attributes of a field only by those that are recognised, not on their
order, nor on what stands among them: two byte strings that differ in the attributes of one field
only, the recognised ones being the same up to their order, are decoded to the same class, or both
refused. -/
theorem decode_eq_of_recognised (options : Options) (table : SymbolTable)
    (hagrees : declaration.AgreesWith opening.constants declaration') (rest : List UInt8)
    (file : ClassFile) (after : SymbolTable) :
    decode options (opening.encode ++ (declaration.encode ++ rest)) table = (.ok file, after) ↔
      decode options (opening.encode ++ (declaration'.encode ++ rest)) table = (.ok file, after) :=
  ⟨decode_of_agreesWith hagrees, decode_of_agreesWith hagrees.symm⟩

/-- The plain class with one field, up to that field. Slot 3 has the text `I`, slot 4 one that is not
valid, and slot 5 the name of an attribute. -/
def markedOpening : Opening where
  minor := plainClass.minor
  major := plainClass.major
  constants := plainClass.constants ++
    [.utf8 [0x49], .utf8 [0xFF, 0x80], .utf8 (FieldAttribute.nameBytes .deprecated)]
  flags := plainClass.body.flags
  thisClass := plainClass.body.thisClass
  superClass := plainClass.body.superClass
  interfaces := plainClass.body.interfaces
  fieldCount := 1
  fields := []
  slotCount_lt := by decide
  constants_fit := by
    simp [plainClass, RawConstant.Fits, UInt16.size, FieldAttribute.nameBytes, Symbol.plainBytes]
  interfaces_lt := plainClass.body.interfaces_lt
  fields_lt := by decide

/-- The field with the given attributes in front of the one that marks it as deprecated. -/
def markedField (attributes : List AttributeDeclaration) (h : attributes.length + 1 < UInt16.size) :
    FieldDeclaration where
  flags := 0
  name := 2
  descriptor := 3
  attributes := attributes ++ [⟨5, [], by decide⟩]
  count_lt := by simpa using h

theorem markedField_agrees : (markedField [] (by decide)).AgreesWith markedOpening.constants
    (markedField [⟨4, [1, 2, 3], by decide⟩] (by decide)) := by
  refine ⟨rfl, rfl, rfl, fun a ha => ?_, fun a ha => ?_, List.Perm.of_eq (by decide)⟩
  · obtain rfl : a = _ := List.mem_singleton.mp ha
    exact ⟨_, rfl⟩
  · simp only [markedField, List.cons_append, List.nil_append, List.mem_cons, List.not_mem_nil,
      or_false] at ha
    rcases ha with rfl | rfl <;> exact ⟨_, rfl⟩

/-- The class file without further attributes. -/
def markedClass : ClassDeclaration := markedOpening.close (markedField [] (by decide)) [] (by decide)

def markedFile (symbol : List UInt8 → Symbol) : ClassFile where
  minor := 0
  major := 52
  pool := markedClass.pool symbol
  flags := ClassFlags.ofBits 0x0021
  name := symbol [0x41]
  superName := none
  interfaces := []
  fields := [⟨FieldFlags.ofBits 0, symbol [0x41], symbol [0x49], none, none, false, true, [], []⟩]

theorem markedClass_declares {symbol : List UInt8 → Symbol} (hsymbol : ∀ text, (symbol text).bytes = text) :
    markedClass.Declares {} symbol (markedFile symbol) where
  minor_eq := rfl
  major_eq := rfl
  version_accepted _ := by decide
  refers constant hconstant := by
    simp only [markedClass, Opening.close, markedOpening, plainClass, List.cons_append, List.nil_append,
      List.mem_cons, List.not_mem_nil, or_false] at hconstant
    rcases hconstant with rfl | rfl | rfl | rfl | rfl
    · exact ⟨[0x41], rfl⟩
    all_goals trivial
  pool_eq := rfl
  body := by
    have htexts : FieldDeclaration.TextsIn markedOpening.constants symbol (markedFile symbol).pool :=
      ⟨hsymbol, fun _ _ => ConstantPool.get?_ofConstants_text markedClass.toNat_poolSize⟩
    have hclass : inSlot? markedClass.constants 1 = some (.classRef 2) := rfl
    have hbodies (a : FieldAttribute) : (markedField [] (by decide)).bodies (markedFile symbol).pool a =
        if a = .deprecated then [[]] else [] := by
      rw [FieldDeclaration.bodies_eq htexts markedField_agrees.named]
      cases a <;> decide
    exact {
      flags_eq := rfl
      flags_allowed := show AllowedForClass 0x0021 by decide
      thisClass := ConstantPool.get?_ofConstants markedClass.toNat_poolSize hclass
      superClass := Or.inl ⟨rfl, rfl⟩
      interfaces := .nil
      fields := .cons {
        flags_eq := rfl
        flags_allowed := show AllowedForField (decide (Carries 0x0021 0x0200)) 0 by decide
        name_slot := htexts.get?_eq 2 [0x41] rfl
        descriptor_slot := htexts.get?_eq 3 [0x49] rfl
        descriptor_valid := fun _ => by
          have hbytes : (symbol [0x49]).bytes = [0x49] := hsymbol [0x49]
          rw [hbytes, ← Descriptor.isField_charsOfBytes_iff]
          decide
        named := fun a ha => by
          obtain ⟨text, htext⟩ := markedField_agrees.named a ha
          exact ⟨_, htexts.get?_eq _ _ htext⟩
        constantValue := Or.inl ⟨hbodies _, rfl⟩
        signature := Or.inl ⟨hbodies _, rfl⟩
        synthetic := by
          rw [hbodies, if_neg (by decide)]
          exact ⟨fun _ hbody => absurd hbody List.not_mem_nil, rfl⟩
        deprecated := by
          rw [hbodies]
          exact ⟨fun body hbody => List.mem_singleton.mp hbody, rfl⟩
        visible := ⟨none, Or.inl ⟨hbodies _, rfl⟩, rfl⟩
        invisible := ⟨none, Or.inl ⟨hbodies _, rfl⟩, rfl⟩ } .nil }

/-- An attribute with an invalid name is put in front of the one that counts. -/
theorem decode_eq_of_recognised_deprecated : ∃ file after,
    decode {} (markedOpening.encode ++
      ((markedField [⟨4, [1, 2, 3], by decide⟩] (by decide)).encode ++ [])) .empty = (.ok file, after) ∧
    file.fields.map Field.deprecated = [true] := by
  let symbols := SymbolTable.empty.internAll (texts markedClass.constants)
  have hdecode : decode {} (markedClass.encode ++ []) .empty = (.ok (markedFile symbols.instanceOf), symbols) :=
    decode_of_declares [] (markedClass_declares (SymbolTable.bytes_instanceOf _))
  have hencode : markedClass.encode ++ [] =
      markedOpening.encode ++ ((markedField [] (by decide)).encode ++ []) := by
    rw [List.append_nil]
    exact Opening.encode_close _
  rw [hencode] at hdecode
  exact ⟨markedFile symbols.instanceOf, symbols,
    (decode_eq_of_recognised {} .empty markedField_agrees [] _ symbols).mp hdecode, rfl⟩

end ClassFile

end ClassLoading
