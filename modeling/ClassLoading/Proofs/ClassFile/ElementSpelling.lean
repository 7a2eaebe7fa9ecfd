import ClassLoading.ClassFile.ElementValue
import ClassLoading.Proofs.Constant.Lookup

/-!
# The spelling of annotations

The grammar of annotations over a linked pool, without regard to how deep values are nested, and the
depth of a value. The decoder reads exactly the spellings of those values that are not nested deeper
than its levels allow.
-/

namespace ClassLoading

open Decoder

namespace ElementTag

/-- The character that announces a value. -/
def letter : ElementTag → Char
  | byte => 'B'
  | char => 'C'
  | double => 'D'
  | float => 'F'
  | int => 'I'
  | long => 'J'
  | short => 'S'
  | boolean => 'Z'
  | string => 's'
  | enumConstant => 'e'
  | classInfo => 'c'
  | nested => '@'
  | array => '['

/-- The letters that announce a constant, and the kinds of slot that hold it. -/
def constantLetters : List (Char × ConstantKind) :=
  [('B', .integer), ('C', .integer), ('S', .integer), ('I', .integer), ('Z', .integer), ('J', .long),
    ('F', .float), ('D', .double), ('s', .utf8)]

theorem code_eq (tag : ElementTag) : tag.code = UInt8.ofNat tag.letter.toNat := by
  cases tag <;> rfl

theorem constantKind?_eq_some_iff {tag : ElementTag} {kind : ConstantKind} :
    tag.constantKind? = some kind ↔ (tag.letter, kind) ∈ constantLetters := by
  cases tag <;> cases kind <;> decide

theorem ofCode?_eq_some_iff {code : UInt8} {tag : ElementTag} :
    ofCode? code = some tag ↔ tag.code = code := by
  constructor
  · intro h
    have := List.find?_some h
    simpa using this
  · intro heq
    subst heq
    cases tag <;> decide

end ElementTag

/-- The spelling of an element, whose value is spelt as `R` says. -/
inductive ElementSpelled (pool : ConstantPool) (R : List UInt8 → ElementValue → Prop) :
    List UInt8 → Symbol × ElementValue → Prop
  | mk {index : UInt16} {name : Symbol} {bytes : List UInt8} {value : ElementValue} :
      pool.get? index = some (.utf8 name) → R bytes value →
        ElementSpelled pool R (BigEndian.ofUInt16 index ++ bytes) (name, value)

/-- The spelling of a type and its elements. -/
inductive UseSpelled (pool : ConstantPool) (R : List UInt8 → ElementValue → Prop) :
    List UInt8 → AnnotationUse → Prop
  | mk {index : UInt16} {bytes : List UInt8} {use : AnnotationUse} :
      pool.get? index = some (.utf8 use.typeName) →
        Counted (ElementSpelled pool R) bytes use.elements →
          UseSpelled pool R (BigEndian.ofUInt16 index ++ bytes) use

namespace ElementValue

/-- The spelling of what follows a tag, where the values inside are spelt as `R` says. -/
inductive BodySpelled (pool : ConstantPool) (R : List UInt8 → ElementValue → Prop) :
    ElementTag → List UInt8 → ElementValue → Prop
  | constant {tag : ElementTag} {kind : ConstantKind} {index : UInt16} {entry : Entry} :
      (tag.letter, kind) ∈ ElementTag.constantLetters → pool.get? index = some entry →
        entry.kind = kind →
        BodySpelled pool R tag (BigEndian.ofUInt16 index) (.constant tag index)
  | enumConstant {typeIndex nameIndex : UInt16} {typeName constantName : Symbol} :
      pool.get? typeIndex = some (.utf8 typeName) →
        pool.get? nameIndex = some (.utf8 constantName) →
          BodySpelled pool R .enumConstant
            (BigEndian.ofUInt16 typeIndex ++ BigEndian.ofUInt16 nameIndex)
            (.enumConstant typeName constantName)
  | classInfo {index : UInt16} {descriptor : Symbol} :
      pool.get? index = some (.utf8 descriptor) →
        BodySpelled pool R .classInfo (BigEndian.ofUInt16 index) (.classInfo descriptor)
  | nested {bytes : List UInt8} {use : AnnotationUse} :
      UseSpelled pool R bytes use →
        BodySpelled pool R .nested bytes (.nested use.typeName use.elements)
  | array {bytes : List UInt8} {values : List ElementValue} :
      Counted R bytes values → BodySpelled pool R .array bytes (.array values)

/-- The spelling of an element value, which the letter of its tag opens. -/
inductive Spelled (pool : ConstantPool) : List UInt8 → ElementValue → Prop
  | mk {tag : ElementTag} {bytes : List UInt8} {value : ElementValue} :
      BodySpelled pool (Spelled pool) tag bytes value →
        Spelled pool (UInt8.ofNat tag.letter.toNat :: bytes) value

mutual

/-- The number of values around and including the innermost one. -/
def depth : ElementValue → Nat
  | .constant _ _ | .enumConstant _ _ | .classInfo _ => 1
  | .nested _ elements => depthOfElements elements + 1
  | .array values => depthOfValues values + 1

def depthOfValues : List ElementValue → Nat
  | [] => 0
  | value :: values => max value.depth (depthOfValues values)

def depthOfElements : List (Symbol × ElementValue) → Nat
  | [] => 0
  | element :: elements => max (depthOfElement element) (depthOfElements elements)

def depthOfElement : Symbol × ElementValue → Nat
  | (_, value) => value.depth

end

theorem depth_pos (value : ElementValue) : 0 < value.depth := by
  cases value <;> simp [depth]

theorem depthOfValues_le_iff {values : List ElementValue} {n : Nat} :
    depthOfValues values ≤ n ↔ ∀ value ∈ values, value.depth ≤ n := by
  induction values with
  | nil => simp [depthOfValues]
  | cons value values ih => rw [depthOfValues, Nat.max_le, ih, List.forall_mem_cons]

theorem depthOfElements_le_iff {elements : List (Symbol × ElementValue)} {n : Nat} :
    depthOfElements elements ≤ n ↔ ∀ element ∈ elements, element.2.depth ≤ n := by
  induction elements with
  | nil => simp [depthOfElements]
  | cons element elements ih =>
      rw [depthOfElements, Nat.max_le, ih, List.forall_mem_cons, depthOfElement]

end ElementValue

section Depth

variable {pool : ConstantPool} {R : List UInt8 → ElementValue → Prop} {bytes : List UInt8} {n : Nat}

/-- The spellings of values of at most some depth. -/
def DepthWithin (n : Nat) (R : List UInt8 → ElementValue → Prop) (bytes : List UInt8)
    (value : ElementValue) : Prop :=
  R bytes value ∧ value.depth ≤ n

theorem elementSpelled_depthWithin_iff {element : Symbol × ElementValue} :
    ElementSpelled pool (DepthWithin n R) bytes element ↔
      ElementSpelled pool R bytes element ∧ element.2.depth ≤ n := by
  constructor
  · intro h
    obtain ⟨hname, hvalue, hdepth⟩ := h
    exact ⟨.mk hname hvalue, hdepth⟩
  · intro h
    obtain ⟨⟨hname, hvalue⟩, hdepth⟩ := h
    exact .mk hname ⟨hvalue, hdepth⟩

theorem useSpelled_depthWithin_iff {use : AnnotationUse} :
    UseSpelled pool (DepthWithin n R) bytes use ↔
      UseSpelled pool R bytes use ∧ ElementValue.depthOfElements use.elements ≤ n := by
  have helements (bytes : List UInt8) :
      Counted (ElementSpelled pool (DepthWithin n R)) bytes use.elements ↔
        Counted (ElementSpelled pool R) bytes use.elements ∧
          ElementValue.depthOfElements use.elements ≤ n := by
    have heq : ElementSpelled pool (DepthWithin n R) =
        fun bytes element => ElementSpelled pool R bytes element ∧ element.2.depth ≤ n := by
      funext bytes element
      exact propext elementSpelled_depthWithin_iff
    rw [ElementValue.depthOfElements_le_iff, ← counted_and_iff, heq]
  constructor
  · intro h
    obtain ⟨htype, hall⟩ := h
    obtain ⟨hcounted, hdepth⟩ := (helements _).mp hall
    exact ⟨.mk htype hcounted, hdepth⟩
  · intro h
    obtain ⟨⟨htype, hcounted⟩, hdepth⟩ := h
    exact .mk htype ((helements _).mpr ⟨hcounted, hdepth⟩)

theorem bodySpelled_depthWithin_iff {tag : ElementTag} {value : ElementValue} :
    ElementValue.BodySpelled pool (DepthWithin n R) tag bytes value ↔
      ElementValue.BodySpelled pool R tag bytes value ∧ value.depth ≤ n + 1 := by
  constructor
  · intro h
    cases h with
    | constant htag hentry hkind => exact ⟨.constant htag hentry hkind, by simp [ElementValue.depth]⟩
    | enumConstant htype hname => exact ⟨.enumConstant htype hname, by simp [ElementValue.depth]⟩
    | classInfo hentry => exact ⟨.classInfo hentry, by simp [ElementValue.depth]⟩
    | nested huse =>
        obtain ⟨huse, hdepth⟩ := useSpelled_depthWithin_iff.mp huse
        exact ⟨.nested huse, Nat.succ_le_succ hdepth⟩
    | array hall =>
        obtain ⟨hall, hdepth⟩ := counted_and_iff.mp hall
        exact ⟨.array hall, Nat.succ_le_succ (ElementValue.depthOfValues_le_iff.mpr hdepth)⟩
  · intro hgiven
    obtain ⟨h, hdepth⟩ := hgiven
    cases h with
    | constant htag hentry hkind => exact .constant htag hentry hkind
    | enumConstant htype hname => exact .enumConstant htype hname
    | classInfo hentry => exact .classInfo hentry
    | nested huse =>
        exact .nested (useSpelled_depthWithin_iff.mpr ⟨huse, Nat.le_of_succ_le_succ hdepth⟩)
    | array hall =>
        have hvalues := ElementValue.depthOfValues_le_iff.mp (Nat.le_of_succ_le_succ hdepth)
        exact .array (counted_and_iff.mpr ⟨hall, hvalues⟩)

end Depth

section Reading

variable {pool : ConstantPool} {value : Decoder ElementValue}
  {R : List UInt8 → ElementValue → Prop}

namespace ElementValue

theorem readUtf8_reads (role : IndexRole) : Reads 0 (readUtf8 pool role)
    fun bytes symbol => ∃ index, bytes = BigEndian.ofUInt16 index ∧
      pool.get? index = some (.utf8 symbol) := by
  refine (Reads.u16.step BigEndian.length_ofUInt16 fun index =>
    Reads.answer ConstantPool.utf8At_answers).congr fun bytes symbol => ?_
  simp

theorem readElement_reads (hvalue : Reads 0 value R) :
    Reads 0 (do return (← readUtf8 pool .elementName, ← value)) (ElementSpelled pool R) := by
  refine ((readUtf8_reads .elementName).bind fun _ name _ =>
    (hvalue.mono (Nat.zero_le _)).bind fun _ x _ => Reads.pure (name, x)).congr fun bytes element => ?_
  constructor
  · intro hgiven
    obtain ⟨name, _, _, ⟨index, rfl, hname⟩, ⟨x, rest, _, hR, ⟨rfl, rfl⟩, rfl⟩, rfl⟩ := hgiven
    rw [List.append_nil]
    exact .mk hname hR
  · intro h
    cases h with
    | mk hname hR => exact ⟨_, _, _, ⟨_, rfl, hname⟩, ⟨_, _, [], hR, ⟨rfl, rfl⟩, rfl⟩, by simp⟩

theorem readUse_reads (hvalue : Reads 0 value R) :
    Reads 0 (readUse pool value) (UseSpelled pool R) := by
  have helements (count : UInt16) := Reads.replicate (@readElement_reads pool _ _ hvalue)
    (fun h => absurd h (Nat.lt_irrefl 0)) count.toNat
  have hparts : Reads 4 (do
      let typeIndex ← Decoder.u16Unchecked
      let count ← Decoder.u16Unchecked
      let typeName ← Decoder.ofExcept (pool.utf8At typeIndex .annotationType)
      let elements ← Decoder.replicate count.toNat do
        let name ← readUtf8 pool .elementName
        return (name, ← value)
      return (⟨typeName, elements⟩ : AnnotationUse)) _ :=
    (Reads.u16Unchecked (by decide)).step BigEndian.length_ofUInt16 fun typeIndex =>
      (Reads.u16Unchecked (by decide)).step BigEndian.length_ofUInt16 fun count =>
        Reads.lookup ConstantPool.utf8At_answers fun typeName _ =>
          ((helements count).mono (Nat.zero_le _)).bind fun _ elements _ =>
            Reads.pure (AnnotationUse.mk typeName elements)
  refine (Reads.ensure hparts ?_).congr fun bytes use => ?_
  · intro bytes use hgiven
    obtain ⟨typeIndex, _, rfl, count, rest, rfl, -⟩ := hgiven
    simp only [List.length_append, BigEndian.length_ofUInt16]
    omega
  · constructor
    · intro hgiven
      obtain ⟨typeIndex, _, rfl, count, _, rfl, typeName, htype, elements, rest, _,
        ⟨hcount, hall⟩, ⟨rfl, rfl⟩, rfl⟩ := hgiven
      rw [List.append_nil]
      exact .mk htype (counted_iff.mpr ⟨count, rest, rfl, hcount, hall⟩)
    · intro h
      cases h with
      | mk htype hall =>
          obtain ⟨count, rest, rfl, hcount, hall⟩ := counted_iff.mp hall
          exact ⟨_, _, rfl, count, _, rfl, _, htype, _, rest, [], ⟨hcount, hall⟩, ⟨rfl, rfl⟩, by simp⟩

theorem readConstant_reads {tag : ElementTag} {kind : ConstantKind} (htag : tag.constantKind? = some kind) :
    Reads 0 (readConstant pool tag kind) (BodySpelled pool R tag) := by
  refine (Reads.u16.step BigEndian.length_ofUInt16 fun index =>
    Reads.lookup ConstantPool.requireKind_answers fun _ _ => Reads.pure (constant tag index)).congr
    fun bytes x => ?_
  constructor
  · intro hgiven
    obtain ⟨index, _, rfl, _, ⟨entry, hentry, hkind⟩, rfl, rfl⟩ := hgiven
    rw [List.append_nil]
    exact .constant (ElementTag.constantKind?_eq_some_iff.mp htag) hentry (of_decide_eq_true hkind)
  · intro h
    cases h with
    | constant hletter hentry hkind =>
        rw [ElementTag.constantKind?_eq_some_iff.mpr hletter] at htag
        obtain rfl := Option.some.inj htag
        exact ⟨_, [], by simp, (), ⟨_, hentry, decide_eq_true hkind⟩, rfl, rfl⟩
    | _ => cases htag

theorem readEnumConstant_reads :
    Reads 0 (readEnumConstant pool) (BodySpelled pool R .enumConstant) := by
  have hparts : Reads 4 (do
      let typeIndex ← Decoder.u16Unchecked
      let constantIndex ← Decoder.u16Unchecked
      let typeName ← Decoder.ofExcept (pool.utf8At typeIndex .enumType)
      let constantName ← Decoder.ofExcept (pool.utf8At constantIndex .enumConstant)
      return ElementValue.enumConstant typeName constantName) _ :=
    (Reads.u16Unchecked (by decide)).step BigEndian.length_ofUInt16 fun typeIndex =>
      (Reads.u16Unchecked (by decide)).step BigEndian.length_ofUInt16 fun constantIndex =>
        Reads.lookup ConstantPool.utf8At_answers fun typeName _ =>
          Reads.lookup ConstantPool.utf8At_answers fun constantName _ =>
            Reads.pure (ElementValue.enumConstant typeName constantName)
  refine (Reads.ensure hparts ?_).congr fun bytes x => ?_
  · intro bytes x hgiven
    obtain ⟨typeIndex, _, rfl, constantIndex, rest, rfl, -⟩ := hgiven
    simp only [List.length_append, BigEndian.length_ofUInt16]
    omega
  · constructor
    · intro hgiven
      obtain ⟨typeIndex, _, rfl, constantIndex, _, rfl, typeName, htype, constantName, hname, rfl, rfl⟩ := hgiven
      rw [List.append_nil]
      exact .enumConstant htype hname
    · intro h
      cases h with
      | constant hletter _ _ => cases ElementTag.constantKind?_eq_some_iff.mpr hletter
      | enumConstant htype hname =>
          exact ⟨_, _, rfl, _, [], by simp, _, htype, _, hname, rfl, rfl⟩

theorem readClassInfo_reads : Reads 0 (do return classInfo (← readUtf8 pool .classInfo))
    (BodySpelled pool R .classInfo) := by
  refine ((readUtf8_reads .classInfo).bind fun _ descriptor _ =>
    Reads.pure (classInfo descriptor)).congr fun bytes x => ?_
  constructor
  · intro hgiven
    obtain ⟨descriptor, _, _, ⟨index, rfl, hentry⟩, ⟨rfl, rfl⟩, rfl⟩ := hgiven
    rw [List.append_nil]
    exact .classInfo hentry
  · intro h
    cases h with
    | constant hletter _ _ => cases ElementTag.constantKind?_eq_some_iff.mpr hletter
    | classInfo hentry => exact ⟨_, _, [], ⟨_, rfl, hentry⟩, ⟨rfl, rfl⟩, by simp⟩

theorem readNested_reads (hvalue : Reads 0 value R) :
    Reads 0 (do
      let use ← readUse pool value
      return nested use.typeName use.elements) (BodySpelled pool R .nested) := by
  refine ((readUse_reads hvalue).bind fun _ use _ =>
    Reads.pure (nested use.typeName use.elements)).congr fun bytes x => ?_
  constructor
  · intro hgiven
    obtain ⟨use, _, _, huse, ⟨rfl, rfl⟩, rfl⟩ := hgiven
    rw [List.append_nil]
    exact .nested huse
  · intro h
    cases h with
    | constant hletter _ _ => cases ElementTag.constantKind?_eq_some_iff.mpr hletter
    | nested huse => exact ⟨_, _, [], huse, ⟨rfl, rfl⟩, by simp⟩

theorem readArray_reads (hvalue : Reads 0 value R) :
    Reads 0 (do
      let count ← Decoder.u16
      return array (← Decoder.replicate count.toNat value)) (BodySpelled pool R .array) := by
  have hall (count : UInt16) := Reads.replicate hvalue (fun h => absurd h (Nat.lt_irrefl 0)) count.toNat
  refine (Reads.u16.step BigEndian.length_ofUInt16 fun count =>
    ((hall count).mono (Nat.zero_le _)).bind fun _ values _ =>
      Reads.pure (array values)).congr fun bytes x => ?_
  constructor
  · intro hgiven
    obtain ⟨count, _, rfl, values, rest, _, ⟨hcount, hall⟩, ⟨rfl, rfl⟩, rfl⟩ := hgiven
    rw [List.append_nil]
    exact .array (counted_iff.mpr ⟨count, rest, rfl, hcount, hall⟩)
  · intro h
    cases h with
    | constant hletter _ _ => cases ElementTag.constantKind?_eq_some_iff.mpr hletter
    | array hall =>
        obtain ⟨count, rest, rfl, hcount, hall⟩ := counted_iff.mp hall
        exact ⟨count, _, rfl, _, rest, [], ⟨hcount, hall⟩, ⟨rfl, rfl⟩, by simp⟩

/-- What follows a tag is read as the grammar has it, if the values inside are. -/
theorem readBody_reads (hvalue : Reads 0 value R) (tag : ElementTag) :
    Reads 0 (readBody pool value tag) (BodySpelled pool R tag) := by
  cases tag with
  | enumConstant => exact readEnumConstant_reads
  | classInfo => exact readClassInfo_reads
  | nested => exact readNested_reads hvalue
  | array => exact readArray_reads hvalue
  | _ => exact readConstant_reads rfl

theorem readTagged_reads {levels : Nat} (h : Reads 0 (read pool levels) (DepthWithin levels (Spelled pool)))
    (code : UInt8) : Reads 0 (match ElementTag.ofCode? code with
      | none => Decoder.malformed (.elementTag code)
      | some tag => readBody pool (read pool levels) tag)
      fun bytes x => ∃ tag, tag.code = code ∧
        BodySpelled pool (DepthWithin levels (Spelled pool)) tag bytes x := by
  cases hcode : ElementTag.ofCode? code with
  | none =>
      apply (Reads.reject _).congr
      intro bytes x
      constructor
      · intro hnone
        exact hnone.elim
      · intro hgiven
        obtain ⟨tag, htag, -⟩ := hgiven
        rw [ElementTag.ofCode?_eq_some_iff.mpr htag] at hcode
        cases hcode
  | some tag =>
      apply (readBody_reads h tag).congr
      intro bytes x
      constructor
      · intro hbody
        exact ⟨tag, ElementTag.ofCode?_eq_some_iff.mp hcode, hbody⟩
      · intro hgiven
        obtain ⟨other, hother, hbody⟩ := hgiven
        rw [ElementTag.ofCode?_eq_some_iff.mpr hother] at hcode
        obtain rfl := Option.some.inj hcode
        exact hbody

/-- The decoder reads the values that are nested no deeper than its levels. -/
theorem read_reads (pool : ConstantPool) (levels : Nat) :
    Reads 0 (read pool levels) (DepthWithin levels (Spelled pool)) := by
  induction levels with
  | zero =>
      apply (Reads.reject _).congr
      intro bytes x
      constructor
      · intro h
        exact h.elim
      · intro hgiven
        obtain ⟨-, hdepth⟩ := hgiven
        have := depth_pos x
        omega
  | succ levels ih =>
      refine (Reads.u8.step (fun _ => List.length_singleton) fun code =>
        (readTagged_reads ih code).mono (Nat.zero_le _)).congr fun bytes x => ?_
      constructor
      · intro hgiven
        obtain ⟨_, rest, rfl, tag, rfl, hbody⟩ := hgiven
        obtain ⟨hbody, hdepth⟩ := bodySpelled_depthWithin_iff.mp hbody
        rw [tag.code_eq]
        exact ⟨.mk hbody, hdepth⟩
      · intro hgiven
        obtain ⟨⟨hbody⟩, hdepth⟩ := hgiven
        exact ⟨_, _, rfl, _, ElementTag.code_eq _, bodySpelled_depthWithin_iff.mpr ⟨hbody, hdepth⟩⟩

end ElementValue

theorem AnnotationUse.readAll_reads (pool : ConstantPool) :
    Reads 0 (AnnotationUse.readAll pool) (Counted (UseSpelled pool
      (DepthWithin ElementValue.maxDepth (ElementValue.Spelled pool)))) :=
  Reads.counted (ElementValue.readUse_reads (ElementValue.read_reads pool ElementValue.maxDepth))

end Reading

end ClassLoading
