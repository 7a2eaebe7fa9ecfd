import ClassLoading.Proofs.ClassFile.Acceptance
import ClassLoading.Proofs.Constant.Resolution

/-!
# Well-linked classes

What the references of a decoded class lead to, in terms of the pool that the class carries. It holds
when the class is decoded, and it does not matter which class slots are resolved afterwards.
-/

namespace ClassLoading

/-- What an entry refers to is there and is of the right kind; entries that do not outlast linking
do not occur. -/
def Entry.Links (settings : Link.Settings) (pool : ConstantPool) : Entry → Prop
  | .vacant | .classIndex _ | .stringIndex _ => False
  | .utf8 _ | .integer _ | .float _ | .long _ | .double _ | .string _ | .classEntity _ => True
  | .member _ owner typing =>
      (∃ entity, pool.get? owner = some (.classEntity entity)) ∧
        ∃ name descriptor, pool.get? typing = some (.nameAndType name descriptor)
  | .nameAndType name descriptor =>
      (∃ s, pool.get? name = some (.utf8 s)) ∧ ∃ s, pool.get? descriptor = some (.utf8 s) ∧
        (settings.options.validateDescriptors = true →
          Descriptor.IsFieldBytes s.bytes ∨ Descriptor.IsMethodBytes s.bytes)
  | .methodHandle number reference =>
      ∃ target, pool.get? reference = some target ∧
        target.kind ∈ handleTargets settings.major number
  | .methodType descriptor => ∃ s, pool.get? descriptor = some (.utf8 s) ∧
      (settings.options.validateDescriptors = true → Descriptor.IsMethodBytes s.bytes)
  | .invokeDynamic _ typing =>
      ∃ name descriptor, pool.get? typing = some (.nameAndType name descriptor)

/-- A value occurs in another one, at any depth. -/
inductive ElementValue.Inside (value : ElementValue) : ElementValue → Prop
  | refl : Inside value value
  | nested {typeName name : Symbol} {elements : List (Symbol × ElementValue)} {inner : ElementValue} :
      (name, inner) ∈ elements → Inside value inner → Inside value (.nested typeName elements)
  | array {values : List ElementValue} {inner : ElementValue} :
      inner ∈ values → Inside value inner → Inside value (.array values)

/-- All references of a class lead to slots of the right kind. -/
structure ClassFile.WellLinked (options : Options) (file : ClassFile) : Prop where
  entries : ∀ index ∈ file.pool.indices, ∃ entry, file.pool.get? index = some entry ∧
    entry.Links ⟨file.major, options⟩ file.pool
  constantValues : ∀ field ∈ file.fields, ∀ index, field.constantValue = some index →
    Carries field.flags.bits 0x0008 ∧ ∃ entry, file.pool.get? index = some entry ∧
      entry.kind ∈ [.integer, .float, .long, .double, .string] ∧
      (options.validateConstantValueKinds = true →
        Descriptor.AllowsInitial field.descriptor.bytes entry.kind)
  elementConstants : ∀ field ∈ file.fields, ∀ use ∈ field.visible ++ field.invisible,
    ∀ element ∈ use.elements, ∀ tag index, (ElementValue.constant tag index).Inside element.2 →
      ∃ entry, file.pool.get? index = some entry ∧
        (tag.letter, entry.kind) ∈ ElementTag.constantLetters

/-- The class with some class slots resolved, one after another; a resolution that fails changes
nothing. -/
def ClassFile.resolveAll (file : ClassFile) (resolutions : List (UInt16 × ClassHandle)) : ClassFile :=
  resolutions.foldl (fun file (index, handle) =>
    match file.pool.resolveAt index handle with
    | .ok (_, pool) => { file with pool }
    | .error _ => file) file

namespace ConstantPool

open RawConstant

variable {size : UInt16} {constants : List RawConstant} {symbol : List UInt8 → Symbol}
  {index : UInt16} {constant : RawConstant} {text : List UInt8}

theorem get?_ofConstants (hsize : size.toNat = slotCount constants + 1)
    (h : inSlot? constants index = some constant) :
    (ofConstants size constants symbol).get? index = some (constant.linked constants symbol) := by
  have hlinked : (ofConstants size constants symbol).LinkedBelow size.toNat constants symbol :=
    .ofSlots_content hsize _
  refine hlinked.get?_eq_some_iff.mpr ⟨hlinked.isValid_of_inSlot? h, ?_⟩
  have hbounds := bounds_of_at? h
  have hpos := constant.width_pos
  rw [inSlot?] at h
  rw [content, h]
  exact if_pos (by omega)

theorem get?_ofConstants_text (hsize : size.toNat = slotCount constants + 1)
    (h : HasText constants index text) :
    (ofConstants size constants symbol).get? index = some (.utf8 (symbol text)) :=
  get?_ofConstants hsize h

theorem get?_ofConstants_class (hsize : size.toNat = slotCount constants + 1)
    (h : HasKind constants index .classRef) :
    ∃ entity, (ofConstants size constants symbol).get? index = some (.classEntity entity) := by
  obtain ⟨constant, hconstant, hkind⟩ := h
  obtain ⟨name, rfl⟩ : ∃ name, constant = .classRef name := by simpa [hkind] using constant.shape
  exact ⟨_, get?_ofConstants hsize hconstant⟩

theorem get?_ofConstants_nameAndType (hsize : size.toNat = slotCount constants + 1)
    (h : HasKind constants index .nameAndType) : ∃ name descriptor,
      (ofConstants size constants symbol).get? index = some (.nameAndType name descriptor) := by
  obtain ⟨constant, hconstant, hkind⟩ := h
  obtain ⟨name, descriptor, rfl⟩ : ∃ name descriptor, constant = .nameAndType name descriptor := by
    simpa [hkind] using constant.shape
  exact ⟨name, descriptor, get?_ofConstants hsize hconstant⟩

/-- A constant that refers to what it should becomes an entry that does so too. -/
theorem links_of_refers {settings : Link.Settings} (hsize : size.toNat = slotCount constants + 1)
    (hsymbol : ∀ text, (symbol text).bytes = text) (h : constant.Refers settings constants) :
    (constant.linked constants symbol).Links settings (ofConstants size constants symbol) := by
  cases constant with
  | utf8 _ | integer _ | float _ | long _ | double _ | classRef _ | string _ => trivial
  | member kind owner typing =>
      exact ⟨get?_ofConstants_class hsize h.1, get?_ofConstants_nameAndType hsize h.2⟩
  | nameAndType name descriptor =>
      obtain ⟨⟨text, htext⟩, text', htext', hvalid⟩ := h
      refine ⟨⟨_, get?_ofConstants_text hsize htext⟩, _, get?_ofConstants_text hsize htext', ?_⟩
      rwa [hsymbol]
  | methodHandle number reference =>
      obtain ⟨target, htarget, other, hother, rfl⟩ := h
      refine ⟨_, get?_ofConstants hsize hother, ?_⟩
      exact (Link.mem_handleTargets_of_form (Or.inr rfl)).mpr htarget
  | methodType descriptor =>
      obtain ⟨text, htext, hvalid⟩ := h
      refine ⟨_, get?_ofConstants_text hsize htext, ?_⟩
      rwa [hsymbol]
  | invokeDynamic bootstrap typing => exact get?_ofConstants_nameAndType hsize h

end ConstantPool

/-- A value inside one that is spelt over a pool is spelt over the pool as well. -/
theorem ElementValue.spelled_of_inside {pool : ConstantPool} {bytes : List UInt8}
    {inner value : ElementValue} (hinside : inner.Inside value) (h : Spelled pool bytes value) :
    ∃ bytes, Spelled pool bytes inner := by
  induction hinside generalizing bytes with
  | refl => exact ⟨bytes, h⟩
  | nested hmem _ ih =>
      obtain ⟨hbody⟩ := h
      cases hbody with
      | nested huse =>
          obtain ⟨_, helements⟩ := huse
          obtain ⟨bytes, helement⟩ := helements.of_mem hmem
          cases helement with
          | mk _ hvalue => exact ih hvalue
  | array hmem _ ih =>
      obtain ⟨hbody⟩ := h
      cases hbody with
      | array hvalues =>
          obtain ⟨bytes, hvalue⟩ := hvalues.of_mem hmem
          exact ih hvalue

/-- Every constant inside a value that is spelt over a pool lies in a slot of the kind of its tag. -/
theorem ElementValue.slot_of_inside {pool : ConstantPool} {tag : ElementTag} {index : UInt16}
    {bytes : List UInt8} {value : ElementValue} (hinside : (constant tag index).Inside value)
    (h : Spelled pool bytes value) :
    ∃ entry, pool.get? index = some entry ∧
      (tag.letter, entry.kind) ∈ ElementTag.constantLetters := by
  obtain ⟨_, ⟨hbody⟩⟩ := spelled_of_inside hinside h
  cases hbody with
  | constant hletter hentry hkind => exact ⟨_, hentry, hkind ▸ hletter⟩

section Decoded

variable {options : Options} {pool : ConstantPool} {inInterface : Bool}
  {declaration : FieldDeclaration} {field : Field} {index : UInt16}

theorem mem_of_atMostOne {α : Type} {R : List UInt8 → α → Prop} {bodies : List (List UInt8)} {x : α}
    (h : AtMostOne R bodies (some x)) : ∃ body ∈ bodies, R body x := by
  rcases h with ⟨-, hnone⟩ | ⟨body, y, rfl, hR, hy⟩
  · cases hnone
  · obtain rfl := Option.some.inj hy
    exact ⟨body, List.mem_singleton_self body, hR⟩

theorem carries_static_of_mem_bodies {body : List UInt8}
    (h : body ∈ declaration.bodies pool .constantValue) : Carries declaration.flags 0x0008 := by
  obtain ⟨attributeDeclaration, hmem, -⟩ := List.mem_map.mp h
  have hfor := (List.mem_filter.mp hmem).2
  rw [AttributeDeclaration.isFor] at hfor
  split at hfor
  · simpa [FieldAttribute.countsOn] using (Bool.and_eq_true_iff.mp hfor).2
  · cases hfor

theorem FieldDeclaration.Declares.initialValue
    (h : declaration.Declares options pool inInterface field) (hindex : field.constantValue = some index) :
    Carries field.flags.bits 0x0008 ∧ ∃ entry, pool.get? index = some entry ∧
      entry.kind ∈ [.integer, .float, .long, .double, .string] ∧
      (options.validateConstantValueKinds = true →
        Descriptor.AllowsInitial field.descriptor.bytes entry.kind) := by
  have hvalue := h.constantValue
  rw [hindex] at hvalue
  obtain ⟨body, hbody, -, hslot⟩ := mem_of_atMostOne hvalue
  rw [h.flags_eq]
  exact ⟨(carries_and_iff (by decide)).mpr (carries_static_of_mem_bodies hbody), hslot⟩

theorem exists_useSpelled_of_mem {bodies : List (List UInt8)} {uses : List AnnotationUse}
    {use : AnnotationUse}
    (h : ∃ found, AtMostOne (Annotations pool) bodies found ∧ uses = found.getD []) (huse : use ∈ uses) :
    ∃ bytes,
      UseSpelled pool (DepthWithin 256 (ElementValue.Spelled pool)) bytes use := by
  obtain ⟨found, hfound, rfl⟩ := h
  cases found with
  | none => cases huse
  | some uses =>
      obtain ⟨body, -, hannotations⟩ := mem_of_atMostOne hfound
      exact Decoder.Counted.of_mem hannotations huse

theorem exists_spelled_of_mem {bodies : List (List UInt8)} {uses : List AnnotationUse}
    {use : AnnotationUse} {element : Symbol × ElementValue}
    (h : ∃ found, AtMostOne (Annotations pool) bodies found ∧ uses = found.getD []) (huse : use ∈ uses)
    (helement : element ∈ use.elements) : ∃ bytes, ElementValue.Spelled pool bytes element.2 := by
  obtain ⟨_, hspelled⟩ := exists_useSpelled_of_mem h huse
  cases hspelled with
  | mk _ helements =>
      obtain ⟨bytes, hspelled⟩ := helements.of_mem helement
      cases hspelled with
      | mk _ hvalue => exact ⟨_, hvalue.1⟩

theorem FieldDeclaration.Declares.elementConstant
    (h : declaration.Declares options pool inInterface field) {use : AnnotationUse}
    (huse : use ∈ field.visible ++ field.invisible) {element : Symbol × ElementValue}
    (helement : element ∈ use.elements) {tag : ElementTag}
    (hinside : (ElementValue.constant tag index).Inside element.2) :
    ∃ entry, pool.get? index = some entry ∧
      (tag.letter, entry.kind) ∈ ElementTag.constantLetters := by
  rcases List.mem_append.mp huse with huse | huse
  · obtain ⟨bytes, hspelled⟩ := exists_spelled_of_mem h.visible huse helement
    exact ElementValue.slot_of_inside hinside hspelled
  · obtain ⟨bytes, hspelled⟩ := exists_spelled_of_mem h.invisible huse helement
    exact ElementValue.slot_of_inside hinside hspelled

end Decoded

namespace Entry

variable {settings : Link.Settings} {pool pool' : ConstantPool} {entry : Entry}

/-- References do not depend on what class slots refer to. -/
theorem Links.relink (h : entry.Links settings pool) (hpool : pool.Relinks pool') :
    entry.Links settings pool' := by
  have hnameAndType {typing : UInt16}
      (h : ∃ name descriptor, pool.get? typing = some (.nameAndType name descriptor)) :
      ∃ name descriptor, pool'.get? typing = some (.nameAndType name descriptor) := by
    obtain ⟨name, descriptor, hentry⟩ := h
    exact ⟨name, descriptor, hpool.get?_other hentry rfl⟩
  cases entry with
  | vacant | classIndex _ | stringIndex _ => exact h.elim
  | utf8 _ | integer _ | float _ | long _ | double _ | string _ | classEntity _ => trivial
  | member kind owner typing =>
      obtain ⟨⟨entity, hentity⟩, htyping⟩ := h
      exact ⟨hpool.get?_class hentity, hnameAndType htyping⟩
  | nameAndType name descriptor =>
      obtain ⟨⟨s, hname⟩, s', hdescriptor, hvalid⟩ := h
      exact ⟨⟨s, hpool.get?_other hname rfl⟩, s', hpool.get?_other hdescriptor rfl, hvalid⟩
  | methodHandle number reference =>
      obtain ⟨target, htarget, hkind⟩ := h
      have hreference := isReference_of_mem_handleTargets hkind
      refine ⟨target, hpool.get?_other htarget ?_, hkind⟩
      cases hclass : target.kind <;> simp [hclass, ConstantKind.isReference, ConstantKind.isClass] at *
  | methodType descriptor =>
      obtain ⟨s, hdescriptor, hvalid⟩ := h
      exact ⟨s, hpool.get?_other hdescriptor rfl, hvalid⟩
  | invokeDynamic bootstrap typing => exact hnameAndType h

end Entry

namespace ClassFile

variable {options : Options} {file : ClassFile}

theorem exists_of_mem_forall₂ {α β : Type} {R : α → β → Prop} {xs : List α} {ys : List β}
    (h : List.Forall₂ R xs ys) {y : β} (hy : y ∈ ys) : ∃ x, R x y := by
  induction h with
  | nil => cases hy
  | cons hR _ ih =>
      rcases List.mem_cons.mp hy with rfl | hy
      · exact ⟨_, hR⟩
      · exact ih hy

/-- A class that a class file declares is well linked. -/
theorem wellLinked_of_declares {declaration : ClassDeclaration} {symbol : List UInt8 → Symbol}
    (hsymbol : ∀ text, (symbol text).bytes = text) (h : declaration.Declares options symbol file) :
    file.WellLinked options := by
  have hsize := declaration.toNat_poolSize
  refine ⟨fun index hindex => ?_, fun field hfield index hindex => ?_,
    fun field hfield use huse element helement tag index hinside => ?_⟩
  · have hpool : file.pool.LinkedBelow declaration.poolSize.toNat declaration.constants symbol := by
      rw [h.pool_eq]
      exact .ofSlots_content hsize _
    obtain ⟨constant, hconstant⟩ :=
      hpool.inSlot?_of_mem_indicesFrom (List.nil_append declaration.constants).symm hindex
    have hrefers := h.refers constant (RawConstant.mem_of_at? hconstant)
    rw [h.pool_eq, h.major_eq]
    exact ⟨_, ConstantPool.get?_ofConstants hsize hconstant,
      ConstantPool.links_of_refers hsize hsymbol hrefers⟩
  · obtain ⟨declared, hdeclared⟩ := exists_of_mem_forall₂ h.body.fields hfield
    exact hdeclared.initialValue hindex
  · obtain ⟨declared, hdeclared⟩ := exists_of_mem_forall₂ h.body.fields hfield
    exact hdeclared.elementConstant huse helement hinside

/-- Whatever class slots come to refer to, a class stays well linked. -/
theorem WellLinked.relink {pool : ConstantPool} (h : file.WellLinked options)
    (hpool : file.pool.Relinks pool) : { file with pool }.WellLinked options := by
  have hslot {index : UInt16} {entry : Entry} (hentry : file.pool.get? index = some entry)
      (hkind : entry.kind.isClass = false) : pool.get? index = some entry :=
    hpool.get?_other hentry hkind
  refine ⟨fun index hindex => ?_, fun field hfield index hindex => ?_,
    fun field hfield use huse element helement tag index hinside => ?_⟩
  · have hindex' : index ∈ file.pool.indices := hpool.indices_eq ▸ hindex
    obtain ⟨entry, hentry, hlinks⟩ := h.entries index hindex'
    rcases hpool.slots index with heq | ⟨entity, entity', -, hentity'⟩
    · exact ⟨entry, heq.trans hentry, hlinks.relink hpool⟩
    · exact ⟨_, hentity', trivial⟩
  · obtain ⟨hstatic, entry, hentry, hkind, htyped⟩ := h.constantValues field hfield index hindex
    have hclass : ∀ kind ∈ ([.integer, .float, .long, .double, .string] : List ConstantKind),
        kind.isClass = false := by decide
    exact ⟨hstatic, entry, hslot hentry (hclass _ hkind), hkind, htyped⟩
  · obtain ⟨entry, hentry, hletter⟩ :=
      h.elementConstants field hfield use huse element helement tag index hinside
    have hclass : ∀ part ∈ ElementTag.constantLetters, part.2.isClass = false := by decide
    exact ⟨entry, hslot hentry (hclass _ hletter), hletter⟩

theorem wellLinked_of_decode {data : List UInt8} {table after : SymbolTable}
    (h : decode options data table = (.ok file, after)) : file.WellLinked options := by
  obtain ⟨declaration, -, -, -, hdeclares⟩ := declares_of_decode h
  exact wellLinked_of_declares after.bytes_instanceOf hdeclares

theorem WellLinked.resolveAll (h : file.WellLinked options)
    (resolutions : List (UInt16 × ClassHandle)) : (file.resolveAll resolutions).WellLinked options := by
  induction resolutions generalizing file with
  | nil => exact h
  | cons resolution resolutions ih =>
      apply ih
      cases hresolve : file.pool.resolveAt resolution.1 resolution.2 with
      | error fault => simpa only [hresolve] using h
      | ok result =>
          simp only [hresolve]
          exact h.relink (ConstantPool.Relinks.of_resolveAt hresolve)

end ClassFile

end ClassLoading
