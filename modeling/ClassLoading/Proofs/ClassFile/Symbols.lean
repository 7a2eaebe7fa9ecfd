import ClassLoading.Proofs.ClassFile.WellLinked
import ClassLoading.Proofs.Symbol.Growth

/-!
# The symbols of a class

Every symbol that can be reached from a decoded class stands in a slot of its pool, and every symbol in
a slot is the instance that the symbol table holds for its content.
-/

namespace ClassLoading

/-- The symbol in an entry. -/
def Entry.symbol? : Entry → Option Symbol
  | utf8 symbol | string symbol => some symbol
  | classEntity entity => some entity.name
  | _ => none

def ConstantPool.HasSymbol (pool : ConstantPool) (s : Symbol) : Prop :=
  ∃ index entry, pool.get? index = some entry ∧ entry.symbol? = some s

/-- A value has a symbol, leaving aside the values inside it. -/
inductive ElementValue.Names (s : Symbol) : ElementValue → Prop
  | enumType {constantName : Symbol} : Names s (.enumConstant s constantName)
  | enumConstant {typeName : Symbol} : Names s (.enumConstant typeName s)
  | classInfo : Names s (.classInfo s)
  | annotationType {elements : List (Symbol × ElementValue)} : Names s (.nested s elements)
  | elementName {typeName : Symbol} {elements : List (Symbol × ElementValue)} {value : ElementValue} :
      (s, value) ∈ elements → Names s (.nested typeName elements)

inductive AnnotationUse.Mentions (use : AnnotationUse) (s : Symbol) : Prop
  | type : use.typeName = s → Mentions use s
  | elementName {value : ElementValue} : (s, value) ∈ use.elements → Mentions use s
  | value {element : Symbol × ElementValue} {inner : ElementValue} : element ∈ use.elements →
      inner.Inside element.2 → inner.Names s → Mentions use s

inductive Field.Mentions (field : Field) (s : Symbol) : Prop
  | name : field.name = s → Mentions field s
  | descriptor : field.descriptor = s → Mentions field s
  | signature : field.signature = some s → Mentions field s
  | annotation {use : AnnotationUse} : use ∈ field.visible ++ field.invisible → use.Mentions s →
      Mentions field s

/-- A symbol can be reached from a class. -/
inductive ClassFile.Mentions (file : ClassFile) (s : Symbol) : Prop
  | slot : file.pool.HasSymbol s → Mentions file s
  | name : file.name = s → Mentions file s
  | superName : file.superName = some s → Mentions file s
  | interface : s ∈ file.interfaces → Mentions file s
  | field {field : Field} : field ∈ file.fields → field.Mentions s → Mentions file s

section Spelled

variable {pool : ConstantPool} {index : UInt16} {s : Symbol} {bytes : List UInt8}

theorem hasSymbol_of_utf8 (h : pool.get? index = some (.utf8 s)) : pool.HasSymbol s :=
  ⟨index, _, h, rfl⟩

theorem BodyDeclaration.NamesClass.hasSymbol (h : BodyDeclaration.NamesClass pool index s) :
    pool.HasSymbol s := ⟨index, _, h, rfl⟩

theorem UseSpelled.hasSymbol {R : List UInt8 → ElementValue → Prop} {use : AnnotationUse}
    (h : UseSpelled pool R bytes use) :
    pool.HasSymbol use.typeName ∧ ∀ element ∈ use.elements, pool.HasSymbol element.1 := by
  obtain ⟨htype, helements⟩ := h
  refine ⟨hasSymbol_of_utf8 htype, fun element helement => ?_⟩
  obtain ⟨_, hspelled⟩ := helements.of_mem helement
  cases hspelled with
  | mk hname _ => exact hasSymbol_of_utf8 hname

theorem ElementValue.Names.hasSymbol {value : ElementValue} (h : value.Names s)
    (hspelled : ElementValue.Spelled pool bytes value) : pool.HasSymbol s := by
  obtain ⟨hbody⟩ := hspelled
  cases h with
  | enumType =>
      cases hbody with
      | enumConstant htype _ => exact hasSymbol_of_utf8 htype
  | enumConstant =>
      cases hbody with
      | enumConstant _ hname => exact hasSymbol_of_utf8 hname
  | classInfo =>
      cases hbody with
      | classInfo hentry => exact hasSymbol_of_utf8 hentry
  | annotationType =>
      cases hbody with
      | nested huse => exact huse.hasSymbol.1
  | elementName hmem =>
      cases hbody with
      | nested huse => exact huse.hasSymbol.2 _ hmem

theorem AnnotationUse.Mentions.hasSymbol {use : AnnotationUse} {n : Nat} (h : use.Mentions s)
    (hspelled : UseSpelled pool (DepthWithin n (ElementValue.Spelled pool)) bytes use) :
    pool.HasSymbol s := by
  cases h with
  | type htype => exact htype ▸ hspelled.hasSymbol.1
  | elementName hmem => exact hspelled.hasSymbol.2 _ hmem
  | value helement hinside hnames =>
      obtain ⟨_, helements⟩ := hspelled
      obtain ⟨_, helementSpelled⟩ := helements.of_mem helement
      cases helementSpelled with
      | mk _ hvalue =>
          obtain ⟨_, hinner⟩ := ElementValue.spelled_of_inside hinside hvalue.1
          exact hnames.hasSymbol hinner

theorem Field.Mentions.hasSymbol {options : Options} {inInterface : Bool}
    {declaration : FieldDeclaration} {field : Field} (h : field.Mentions s)
    (hdeclares : declaration.Declares options pool inInterface field) : pool.HasSymbol s := by
  cases h with
  | name hname => exact hname ▸ hasSymbol_of_utf8 hdeclares.name_slot
  | descriptor hdescriptor => exact hdescriptor ▸ hasSymbol_of_utf8 hdeclares.descriptor_slot
  | signature hsignature =>
      have hbodies := hdeclares.signature
      rw [hsignature] at hbodies
      obtain ⟨_, -, index, -, hslot⟩ := mem_of_atMostOne hbodies
      exact hasSymbol_of_utf8 hslot
  | annotation huse hmentions =>
      rcases List.mem_append.mp huse with huse | huse
      · obtain ⟨_, hspelled⟩ := exists_useSpelled_of_mem hdeclares.visible huse
        exact hmentions.hasSymbol hspelled
      · obtain ⟨_, hspelled⟩ := exists_useSpelled_of_mem hdeclares.invisible huse
        exact hmentions.hasSymbol hspelled

end Spelled

namespace ClassFile

open RawConstant

variable {options : Options} {file : ClassFile} {declaration : ClassDeclaration} {s : Symbol}

theorem Mentions.hasSymbol {symbol : List UInt8 → Symbol} (h : file.Mentions s)
    (hdeclares : declaration.Declares options symbol file) : file.pool.HasSymbol s := by
  have hbody := hdeclares.body
  cases h with
  | slot hslot => exact hslot
  | name hname => exact hname ▸ hbody.thisClass.hasSymbol
  | superName hsuper =>
      rcases hbody.superClass with ⟨-, hnone⟩ | ⟨name, hnames, hsome⟩
      · rw [hsuper] at hnone
        cases hnone
      · rw [hsuper] at hsome
        obtain rfl := Option.some.inj hsome
        exact hnames.hasSymbol
  | interface hmem =>
      obtain ⟨_, hnames⟩ := exists_of_mem_forall₂ hbody.interfaces hmem
      exact hnames.hasSymbol
  | field hmem hmentions =>
      obtain ⟨_, hfield⟩ := exists_of_mem_forall₂ hbody.fields hmem
      exact hmentions.hasSymbol hfield

theorem mem_texts {constants : List RawConstant} {text : List UInt8} :
    text ∈ texts constants ↔ .utf8 text ∈ constants := by
  rw [texts, List.mem_filterMap]
  constructor
  · rintro ⟨constant, hmem, htext⟩
    cases constant with
    | utf8 bytes =>
        obtain rfl := Option.some.inj htext
        exact hmem
    | _ => cases htext
  · intro hmem
    exact ⟨_, hmem, rfl⟩

theorem mem_texts_of_hasText {constants : List RawConstant} {index : UInt16} {text : List UInt8}
    (h : HasText constants index text) : text ∈ texts constants := mem_texts.mpr (mem_of_at? h)

theorem exists_inSlot?_of_mem {constants : List RawConstant} {constant : RawConstant}
    (hlt : slotCount constants + 1 < UInt16.size) (h : constant ∈ constants) :
    ∃ index, inSlot? constants index = some constant := by
  obtain ⟨before, after, rfl⟩ := List.append_of_mem h
  have hconstant := at?_of_append before after constant 1
  have hbounds := bounds_of_at? hconstant
  have hindex : (UInt16.ofNat (1 + slotCount before)).toNat = 1 + slotCount before :=
    UInt16.toNat_ofNat_of_lt (by omega)
  exact ⟨UInt16.ofNat (1 + slotCount before), by rw [inSlot?, hindex, hconstant]⟩

section Slots

variable {symbol : List UInt8 → Symbol}

theorem exists_constant_of_get? {index : UInt16} {entry : Entry}
    (hdeclares : declaration.Declares options symbol file) (hentry : file.pool.get? index = some entry)
    (hvacant : entry ≠ .vacant) : ∃ constant, inSlot? declaration.constants index = some constant ∧
      entry = constant.linked declaration.constants symbol := by
  have hsize := declaration.toNat_poolSize
  rw [hdeclares.pool_eq] at hentry
  have hpool : (declaration.pool symbol).LinkedBelow
      declaration.poolSize.toNat declaration.constants symbol := .ofSlots_content hsize _
  obtain ⟨constant, hconstant, -⟩ := hpool.inSlot?_of_get? hentry hvacant
  have hlinked : (declaration.pool symbol).get? index =
      some (constant.linked declaration.constants symbol) := ConstantPool.get?_ofConstants hsize hconstant
  exact ⟨constant, hconstant, Option.some.inj (hentry.symm.trans hlinked)⟩

/-- A symbol in a slot stands for a text among the constants. -/
theorem exists_text_of_hasSymbol (hdeclares : declaration.Declares options symbol file)
    (h : file.pool.HasSymbol s) : ∃ text ∈ texts declaration.constants, s = symbol text := by
  obtain ⟨index, entry, hentry, hsymbol⟩ := h
  have hvacant : entry ≠ .vacant := by
    rintro rfl
    cases hsymbol
  obtain ⟨constant, hconstant, rfl⟩ := exists_constant_of_get? hdeclares hentry hvacant
  have hrefers := hdeclares.refers constant (mem_of_at? hconstant)
  cases constant with
  | utf8 text => exact ⟨text, mem_texts_of_hasText hconstant, (Option.some.inj hsymbol).symm⟩
  | classRef name | string name =>
      obtain ⟨text, htext⟩ := hrefers
      refine ⟨text, mem_texts_of_hasText htext, ?_⟩
      rw [← textIn_of_hasText htext]
      exact (Option.some.inj hsymbol).symm
  | _ => cases hsymbol

/-- The texts among the constants are those in the slots of texts. -/
theorem mem_texts_iff_get? (hdeclares : declaration.Declares options symbol file)
    (hbytes : ∀ text, (symbol text).bytes = text) {text : List UInt8} :
    text ∈ texts declaration.constants ↔
      ∃ index s, file.pool.get? index = some (.utf8 s) ∧ s.bytes = text := by
  constructor
  · intro hmem
    obtain ⟨index, hconstant⟩ := exists_inSlot?_of_mem declaration.slotCount_lt (mem_texts.mp hmem)
    refine ⟨index, symbol text, ?_, hbytes text⟩
    rw [hdeclares.pool_eq]
    exact ConstantPool.get?_ofConstants_text declaration.toNat_poolSize hconstant
  · rintro ⟨index, s, hslot, rfl⟩
    obtain ⟨text, htext, rfl⟩ := exists_text_of_hasSymbol hdeclares (hasSymbol_of_utf8 hslot)
    rwa [hbytes]

end Slots

/-- Every symbol of a class that was decoded is the instance that the table then holds. -/
theorem find?_of_decode {data : List UInt8} {table after : SymbolTable}
    (h : decode options data table = (.ok file, after)) (hs : file.Mentions s) :
    after.find? s.bytes = some s := by
  obtain ⟨declaration, -, -, rfl, hdeclares⟩ := declares_of_decode h
  obtain ⟨text, htext, rfl⟩ := exists_text_of_hasSymbol hdeclares (hs.hasSymbol hdeclares)
  rw [SymbolTable.bytes_instanceOf]
  exact SymbolTable.find?_internAll_of_mem htext

end ClassFile

end ClassLoading
