import ClassLoading.Proofs.Descriptor
import ClassLoading.Proofs.Text.Plain

/-!
# Descriptors in bytes

The grammar of descriptors, over the codes of bytes or of characters alike, with the shape of the types
that are spelt: what they are made of, without the names of classes. All delimiters are plain, so a
byte string spells the same shape as the text that it is read as, even if that text replaces ill-formed
bytes.
-/

namespace ClassLoading

/-- What a type is without its array layers; of a class, the name is left out. -/
inductive BaseKind where
  | byte
  | char
  | double
  | float
  | int
  | long
  | object
  | short
  | boolean
deriving DecidableEq, Repr

namespace BaseKind

/-- The letter that spells a primitive type. -/
def letter? : BaseKind → Option Char
  | byte => some 'B'
  | char => some 'C'
  | double => some 'D'
  | float => some 'F'
  | int => some 'I'
  | long => some 'J'
  | object => none
  | short => some 'S'
  | boolean => some 'Z'

end BaseKind

structure TypeShape where
  base : BaseKind
  layers : Nat
deriving DecidableEq, Repr

structure MethodShape where
  parameters : List TypeShape
  result : Option TypeShape
deriving DecidableEq, Repr

namespace FieldType

def base : FieldType → BaseKind
  | byte => .byte
  | char => .char
  | double => .double
  | float => .float
  | int => .int
  | long => .long
  | object _ => .object
  | short => .short
  | boolean => .boolean
  | array t => t.base

def shape (t : FieldType) : TypeShape := ⟨t.base, t.layers⟩

end FieldType

def MethodType.shape (m : MethodType) : MethodShape :=
  ⟨m.parameters.map FieldType.shape, m.result.map FieldType.shape⟩

/-- The codes of a class name: parts between slashes, none of them empty, without the codes that end a
name. -/
structure SpellsName (codes : List Nat) : Prop where
  nonempty : codes ≠ []
  plain : ∀ n ∈ codes, n ≠ ';'.toNat ∧ n ≠ '.'.toNat ∧ n ≠ '['.toNat
  parts : [] ∉ codes.splitOn '/'.toNat

/-- The codes of a type without array layers. -/
inductive SpellsBase : List Nat → BaseKind → Prop where
  | letter {c : Char} {base : BaseKind} (h : base.letter? = some c) : SpellsBase [c.toNat] base
  | object {name : List Nat} (h : SpellsName name) :
      SpellsBase ('L'.toNat :: (name ++ [';'.toNat])) .object

/-- The codes of a type, each array layer being a bracket. -/
inductive SpellsType : List Nat → TypeShape → Prop where
  | layered {depth : Nat} {codes : List Nat} {base : BaseKind} (hdepth : depth ≤ 255)
      (h : SpellsBase codes base) : SpellsType (List.replicate depth '['.toNat ++ codes) ⟨base, depth⟩

/-- The codes of a result type. -/
inductive SpellsResult : List Nat → Option TypeShape → Prop where
  | void : SpellsResult ['V'.toNat] none
  | type {codes : List Nat} {shape : TypeShape} (h : SpellsType codes shape) :
      SpellsResult codes (some shape)

/-- The codes of a method descriptor: the parameters in parentheses, and the result. -/
inductive SpellsMethod : List Nat → MethodShape → Prop where
  | method {spelled : List (List Nat)} {codes : List Nat} {parameters : List TypeShape}
      {result : Option TypeShape} (hparameters : List.Forall₂ SpellsType spelled parameters)
      (hresult : SpellsResult codes result) :
      SpellsMethod ('('.toNat :: (spelled.flatten ++ ')'.toNat :: codes)) ⟨parameters, result⟩

section Carry

variable {xs ys zs codes : List Nat} {base : BaseKind} {shape : TypeShape}

theorem SpellsName.carry (h : SpellsName xs) (ha : Aligned xs ys) : SpellsName ys where
  nonempty := fun hnil => h.nonempty (ha.symm.eq_nil hnil)
  plain := by
    intro n hn
    have hback {c : Char} (hc : IsPlain c.toNat) (heq : n = c.toNat) : c.toNat ∈ xs :=
      ha.symm.mem_of_isPlain hc (heq ▸ hn)
    refine ⟨fun heq => ?_, fun heq => ?_, fun heq => ?_⟩
    · exact (h.plain _ (hback (by decide) heq)).1 rfl
    · exact (h.plain _ (hback (by decide) heq)).2.1 rfl
    · exact (h.plain _ (hback (by decide) heq)).2.2 rfl
  parts := fun hnil => h.parts (ha.symm.nil_mem_splitOn (by decide) hnil)

/-- The spelling at the front of one list has a counterpart at the front of any list aligned with it. -/
theorem SpellsBase.carry (h : SpellsBase codes base) (ha : Aligned (codes ++ xs) zs) :
    ∃ codes' ys, zs = codes' ++ ys ∧ SpellsBase codes' base ∧ Aligned xs ys := by
  cases h with
  | @letter c base h =>
      have hc : IsPlain c.toNat := by
        cases base <;> cases h <;> decide
      obtain ⟨ys, rfl, hys⟩ := ha.cut_plain (by simpa using hc)
      exact ⟨[c.toNat], ys, rfl, .letter h, hys⟩
  | @object name h =>
      have hL : Aligned (['L'.toNat] ++ (name ++ ';'.toNat :: xs)) zs := by
        simpa using ha
      obtain ⟨zs, rfl, hname⟩ := hL.cut_plain (by decide)
      obtain ⟨name', ys, rfl, hname', hys⟩ := hname.cut (by decide)
      exact ⟨'L'.toNat :: (name' ++ [';'.toNat]), ys, by simp, .object (h.carry hname'), hys⟩

theorem SpellsType.carry (h : SpellsType codes shape) (ha : Aligned (codes ++ xs) zs) :
    ∃ codes' ys, zs = codes' ++ ys ∧ SpellsType codes' shape ∧ Aligned xs ys := by
  cases h with
  | @layered depth codes base hdepth h =>
      rw [List.append_assoc] at ha
      have hbrackets : ∀ n ∈ List.replicate depth '['.toNat, IsPlain n := by
        intro n hn
        rw [List.eq_of_mem_replicate hn]
        decide
      obtain ⟨zs, rfl, hcodes⟩ := ha.cut_plain hbrackets
      obtain ⟨codes', ys, rfl, hspells, hys⟩ := h.carry hcodes
      exact ⟨_, ys, (List.append_assoc ..).symm, .layered hdepth hspells, hys⟩

theorem carry_parameters {spelled : List (List Nat)} {parameters : List TypeShape}
    (h : List.Forall₂ SpellsType spelled parameters) (ha : Aligned (spelled.flatten ++ xs) zs) :
    ∃ spelled' ys, zs = spelled'.flatten ++ ys ∧ List.Forall₂ SpellsType spelled' parameters ∧
      Aligned xs ys := by
  induction h generalizing zs with
  | nil => exact ⟨[], zs, rfl, .nil, ha⟩
  | @cons codes _ spelled _ hfirst _ ih =>
      rw [List.flatten_cons, List.append_assoc] at ha
      obtain ⟨codes', zs, rfl, hcodes', hrest⟩ := hfirst.carry ha
      obtain ⟨spelled', ys, rfl, hspelled', hys⟩ := ih hrest
      exact ⟨codes' :: spelled', ys, by simp, .cons hcodes' hspelled', hys⟩

theorem SpellsType.of_aligned (h : SpellsType xs shape) (ha : Aligned xs ys) : SpellsType ys shape := by
  rw [← List.append_nil xs] at ha
  obtain ⟨codes', rest, rfl, hspells, hrest⟩ := h.carry ha
  obtain rfl := hrest.eq_nil rfl
  rwa [List.append_nil]

theorem SpellsResult.of_aligned {result : Option TypeShape} (h : SpellsResult xs result)
    (ha : Aligned xs ys) : SpellsResult ys result := by
  cases h with
  | void => exact ha.eq_of_isPlain (by decide) ▸ .void
  | type h => exact .type (h.of_aligned ha)

theorem SpellsMethod.of_aligned {shape : MethodShape} (h : SpellsMethod xs shape)
    (ha : Aligned xs ys) : SpellsMethod ys shape := by
  cases h with
  | @method spelled codes parameters result hparameters hresult =>
      have hopen : Aligned (['('.toNat] ++ (spelled.flatten ++ ')'.toNat :: codes)) ys := ha
      obtain ⟨ys, rfl, hrest⟩ := hopen.cut_plain (by decide)
      obtain ⟨spelled', ys, rfl, hspelled', hrest⟩ := carry_parameters hparameters hrest
      have hclose : Aligned ([')'.toNat] ++ codes) ys := hrest
      obtain ⟨ys, rfl, hcodes⟩ := hclose.cut_plain (by decide)
      exact .method hspelled' (hresult.of_aligned hcodes)

/-- Aligned lists spell the same. -/
theorem SpellsType.congr (ha : Aligned xs ys) : SpellsType xs shape ↔ SpellsType ys shape :=
  ⟨fun h => h.of_aligned ha, fun h => h.of_aligned ha.symm⟩

theorem SpellsMethod.congr {shape : MethodShape} (ha : Aligned xs ys) :
    SpellsMethod xs shape ↔ SpellsMethod ys shape :=
  ⟨fun h => h.of_aligned ha, fun h => h.of_aligned ha.symm⟩

end Carry

section Text

variable {text : List Char} {base : BaseKind} {shape : TypeShape}

theorem splitOn_map_toNat (c : Char) (name : List Char) :
    (name.map Char.toNat).splitOn c.toNat = (name.splitOn c).map (List.map Char.toNat) := by
  induction name with
  | nil => rfl
  | cons d name ih =>
      have htail : (name.map Char.toNat).splitOnP (· == c.toNat) =
          (name.splitOnP (· == c)).map (List.map Char.toNat) := ih
      have hsame : (d.toNat == c.toNat) = (d == c) := by
        rw [Bool.eq_iff_iff, beq_iff_eq, beq_iff_eq, Char.toNat_inj]
      rw [List.map_cons, List.splitOn, List.splitOn, List.splitOnP_cons_eq_if_modifyHead,
        List.splitOnP_cons_eq_if_modifyHead, hsame, htail]
      split
      · rfl
      · cases name.splitOnP (· == c) <;> rfl

theorem spellsName_iff {name : List Char} : SpellsName (name.map Char.toNat) ↔ IsClassName name := by
  have hparts : [] ∈ (name.map Char.toNat).splitOn '/'.toNat ↔ [] ∈ name.splitOn '/' := by
    rw [splitOn_map_toNat, List.mem_map]
    simp
  constructor
  · intro h
    refine ⟨fun hnil => h.nonempty (List.map_eq_nil_iff.mpr hnil), fun c hc => ?_,
      fun hnil => h.parts (hparts.mpr hnil)⟩
    have hplain := h.plain c.toNat (List.mem_map_of_mem hc)
    simpa only [Ne, Char.toNat_inj] using hplain
  · intro h
    refine ⟨fun hnil => h.nonempty (List.map_eq_nil_iff.mp hnil), fun n hn => ?_,
      fun hnil => h.parts (hparts.mp hnil)⟩
    obtain ⟨c, hc, rfl⟩ := List.mem_map.mp hn
    simpa only [Ne, Char.toNat_inj] using h.plain c hc

theorem exists_primitive {c : Char} (h : base.letter? = some c) :
    ∃ t : FieldType, t.IsElement ∧ t.render = [c] ∧ t.base = base := by
  cases base with
  | object => cases h
  | _ =>
      obtain rfl := Option.some.inj h
      exact ⟨_, and_assoc.mp ⟨FieldType.isElement_of_ofLetter? rfl, rfl⟩⟩

theorem spellsBase_iff : SpellsBase (text.map Char.toNat) base ↔
    ∃ t : FieldType, t.IsElement ∧ text = t.render ∧ t.base = base := by
  constructor
  · intro h
    generalize hcodes : text.map Char.toNat = codes at h
    cases h with
    | letter h =>
        obtain ⟨c, rfl, hc⟩ := List.map_eq_singleton_iff.mp hcodes
        rw [Char.toNat_inj] at hc
        obtain ⟨t, helement, hrender, hbase⟩ := exists_primitive (hc ▸ h)
        exact ⟨t, helement, hrender.symm, hbase⟩
    | object h =>
        obtain ⟨c, rest, rfl, hc, hrest⟩ := List.map_eq_cons_iff.mp hcodes
        obtain ⟨name, last, rfl, rfl, hlast⟩ := List.map_eq_append_iff.mp hrest
        obtain ⟨d, rfl, hd⟩ := List.map_eq_singleton_iff.mp hlast
        rw [Char.toNat_inj] at hc hd
        refine ⟨.object (String.ofList name), ?_, ?_, rfl⟩
        · rw [FieldType.IsElement, String.toList_ofList]
          exact spellsName_iff.mp h
        · rw [FieldType.render, String.toList_ofList, hc, hd]
          rfl
  · intro hgiven
    obtain ⟨t, helement, rfl, rfl⟩ := hgiven
    cases t with
    | array t => exact helement.elim
    | object className =>
        have hcodes : (FieldType.object className).render.map Char.toNat =
            'L'.toNat :: (className.toList.map Char.toNat ++ [';'.toNat]) := by
          simp [FieldType.render]
        rw [hcodes]
        exact .object (spellsName_iff.mpr helement)
    | _ => exact .letter rfl

theorem FieldType.base_layered (depth : Nat) (t : FieldType) : (layered depth t).base = t.base := by
  induction depth with
  | zero => rfl
  | succ depth ih => rw [layered, FieldType.base, ih]

theorem spellsType_iff : SpellsType (text.map Char.toNat) shape ↔
    ∃ t : FieldType, t.WellFormed ∧ text = t.render ∧ t.shape = shape := by
  constructor
  · intro h
    generalize hcodes : text.map Char.toNat = codes at h
    cases h with
    | @layered depth codes base hdepth h =>
        obtain ⟨brackets, text, rfl, hbrackets, rfl⟩ := List.map_eq_append_iff.mp hcodes
        obtain rfl : brackets = List.replicate depth '[' := by
          rw [← List.map_replicate] at hbrackets
          exact List.map_injective_iff.mpr (fun _ _ => Char.toNat_inj.mp) hbrackets
        obtain ⟨t, helement, rfl, rfl⟩ := spellsBase_iff.mp h
        refine ⟨FieldType.layered depth t, ⟨?_, ?_⟩, (FieldType.render_layered depth t).symm, ?_⟩
        · rwa [helement.layers_layered]
        · rwa [helement.innermost_layered]
        · rw [FieldType.shape, FieldType.base_layered, helement.layers_layered]
  · intro hgiven
    obtain ⟨t, hwell, rfl, rfl⟩ := hgiven
    have hbase : SpellsBase (t.innermost.render.map Char.toNat) t.innermost.base :=
      spellsBase_iff.mpr ⟨t.innermost, hwell.innermost, rfl, rfl⟩
    have hspells := SpellsType.layered hwell.layers_le hbase
    rw [← List.map_replicate, ← List.map_append, ← FieldType.render_layered, FieldType.layered_layers,
      ← FieldType.base_layered t.layers, FieldType.layered_layers] at hspells
    exact hspells

theorem spellsResult_iff {result : Option TypeShape} : SpellsResult (text.map Char.toNat) result ↔
    ∃ t : Option FieldType, ResultWellFormed t ∧ text = MethodType.renderResult t ∧
      t.map FieldType.shape = result := by
  constructor
  · intro h
    generalize hcodes : text.map Char.toNat = codes at h
    cases h with
    | void =>
        obtain ⟨c, rfl, hc⟩ := List.map_eq_singleton_iff.mp hcodes
        rw [Char.toNat_inj] at hc
        exact ⟨none, trivial, by rw [hc]; rfl, rfl⟩
    | type h =>
        subst hcodes
        obtain ⟨t, hwell, htext, hshape⟩ := spellsType_iff.mp h
        exact ⟨some t, hwell, htext, congrArg some hshape⟩
  · intro hgiven
    obtain ⟨t, hwell, rfl, rfl⟩ := hgiven
    cases t with
    | none => exact .void
    | some t => exact .type (spellsType_iff.mpr ⟨t, hwell, rfl, rfl⟩)

theorem spellsParameters_iff {parameters : List TypeShape} :
    (∃ spelled, text.map Char.toNat = spelled.flatten ∧ List.Forall₂ SpellsType spelled parameters) ↔
      ∃ ts : List FieldType, (∀ t ∈ ts, t.WellFormed) ∧ text = ts.flatMap FieldType.render ∧
        ts.map FieldType.shape = parameters := by
  constructor
  · intro hgiven
    obtain ⟨spelled, htext, hspelled⟩ := hgiven
    induction hspelled generalizing text with
    | nil => exact ⟨[], by simp, List.map_eq_nil_iff.mp htext, rfl⟩
    | cons hfirst _ ih =>
        rw [List.flatten_cons] at htext
        obtain ⟨first, others, rfl, rfl, hothers⟩ := List.map_eq_append_iff.mp htext
        obtain ⟨t, hwell, rfl, rfl⟩ := spellsType_iff.mp hfirst
        obtain ⟨ts, hall, rfl, rfl⟩ := ih hothers
        exact ⟨t :: ts, List.forall_mem_cons.mpr ⟨hwell, hall⟩, List.flatMap_cons.symm, rfl⟩
  · intro hgiven
    obtain ⟨ts, hall, rfl, rfl⟩ := hgiven
    induction ts with
    | nil => exact ⟨[], rfl, .nil⟩
    | cons t ts ih =>
        obtain ⟨hwell, hall⟩ := List.forall_mem_cons.mp hall
        obtain ⟨spelled, htext, hspelled⟩ := ih hall
        have hfirst : SpellsType (t.render.map Char.toNat) t.shape :=
          spellsType_iff.mpr ⟨t, hwell, rfl, rfl⟩
        refine ⟨t.render.map Char.toNat :: spelled, ?_, .cons hfirst hspelled⟩
        rw [List.flatMap_cons, List.map_append, htext, List.flatten_cons]

theorem spellsMethod_iff {shape : MethodShape} : SpellsMethod (text.map Char.toNat) shape ↔
    ∃ m : MethodType, m.WellFormed ∧ text = m.render ∧ m.shape = shape := by
  constructor
  · intro h
    generalize hcodes : text.map Char.toNat = codes at h
    cases h with
    | method hparameters hresult =>
        obtain ⟨c, text, rfl, hc, htext⟩ := List.map_eq_cons_iff.mp hcodes
        obtain ⟨inner, text, rfl, hinner, htext⟩ := List.map_eq_append_iff.mp htext
        obtain ⟨d, last, rfl, hd, rfl⟩ := List.map_eq_cons_iff.mp htext
        rw [Char.toNat_inj] at hc hd
        obtain ⟨ts, hall, rfl, rfl⟩ := spellsParameters_iff.mp ⟨_, hinner, hparameters⟩
        obtain ⟨t, hwell, rfl, rfl⟩ := spellsResult_iff.mp hresult
        exact ⟨⟨ts, t⟩, ⟨hall, hwell⟩, by rw [hc, hd]; rfl, rfl⟩
  · intro hgiven
    obtain ⟨m, hwell, rfl, rfl⟩ := hgiven
    obtain ⟨spelled, hspelled, hparameters⟩ :=
      spellsParameters_iff.mpr ⟨m.parameters, hwell.parameters, rfl, rfl⟩
    have hresult : SpellsResult ((MethodType.renderResult m.result).map Char.toNat)
        (m.result.map FieldType.shape) := spellsResult_iff.mpr ⟨m.result, hwell.result, rfl, rfl⟩
    have hcodes : m.render.map Char.toNat =
        '('.toNat :: (spelled.flatten ++
          ')'.toNat :: (MethodType.renderResult m.result).map Char.toNat) := by
      rw [← hspelled]
      simp [MethodType.render]
    rw [hcodes]
    exact .method hparameters hresult

end Text

namespace Descriptor

variable {bytes : List UInt8}

/-- The bytes of the descriptor of a field. -/
def IsFieldBytes (bytes : List UInt8) : Prop := ∃ shape, SpellsType (bytes.map UInt8.toNat) shape

/-- The bytes of the descriptor of a method. -/
def IsMethodBytes (bytes : List UInt8) : Prop := ∃ shape, SpellsMethod (bytes.map UInt8.toNat) shape

theorem exists_ofChars?_iff (bytes : List UInt8) (shape : TypeShape) :
    (∃ t, FieldType.ofChars? (Symbol.charsOfBytes bytes) = some t ∧ t.shape = shape) ↔
      SpellsType (bytes.map UInt8.toNat) shape := by
  simp only [FieldType.ofChars?_eq_some_iff, and_assoc]
  rw [← spellsType_iff, ← SpellsType.congr (Symbol.aligned_charsOfBytes bytes)]

theorem exists_method_ofChars?_iff (bytes : List UInt8) (shape : MethodShape) :
    (∃ m, MethodType.ofChars? (Symbol.charsOfBytes bytes) = some m ∧ m.shape = shape) ↔
      SpellsMethod (bytes.map UInt8.toNat) shape := by
  simp only [MethodType.ofChars?_eq_some_iff, and_assoc]
  rw [← spellsMethod_iff, ← SpellsMethod.congr (Symbol.aligned_charsOfBytes bytes)]

theorem isField_charsOfBytes_iff : isField (Symbol.charsOfBytes bytes) = true ↔ IsFieldBytes bytes := by
  simp only [isField, IsFieldBytes, Option.isSome_iff_exists, ← exists_ofChars?_iff]
  exact ⟨fun ⟨t, ht⟩ => ⟨t.shape, t, ht, rfl⟩, fun ⟨_, t, ht, _⟩ => ⟨t, ht⟩⟩

theorem isMethod_charsOfBytes_iff :
    isMethod (Symbol.charsOfBytes bytes) = true ↔ IsMethodBytes bytes := by
  simp only [isMethod, IsMethodBytes, Option.isSome_iff_exists, ← exists_method_ofChars?_iff]
  exact ⟨fun ⟨m, hm⟩ => ⟨m.shape, m, hm, rfl⟩, fun ⟨_, m, hm, _⟩ => ⟨m, hm⟩⟩

/-- Descriptors are checked on the text of a symbol, and that is as good as checking its bytes: whatever
the bytes, valid or not, a type is read from their text exactly if the bytes follow the grammar, and it
has the shape that they spell; and so for the types of a method. -/
theorem read_iff_bytes (bytes : List UInt8) :
    (∀ shape, (∃ t, FieldType.ofChars? (Symbol.charsOfBytes bytes) = some t ∧ t.shape = shape) ↔
        SpellsType (bytes.map UInt8.toNat) shape) ∧
      (∀ shape, (∃ m, MethodType.ofChars? (Symbol.charsOfBytes bytes) = some m ∧ m.shape = shape) ↔
        SpellsMethod (bytes.map UInt8.toNat) shape) ∧
      (isField (Symbol.charsOfBytes bytes) = true ↔
        ∃ shape, SpellsType (bytes.map UInt8.toNat) shape) ∧
      (isMethod (Symbol.charsOfBytes bytes) = true ↔
        ∃ shape, SpellsMethod (bytes.map UInt8.toNat) shape) :=
  ⟨exists_ofChars?_iff bytes, exists_method_ofChars?_iff bytes, isField_charsOfBytes_iff,
    isMethod_charsOfBytes_iff⟩

/-- An array of a class whose name has a lone surrogate in it, which makes the reading lenient. -/
example : isField (Symbol.charsOfBytes [0x5B, 0x4C, 0x61, 0xED, 0xA0, 0x80, 0x62, 0x3B]) = true := by
  decide

/-- The descriptors of fields that may have an initial value, and the kinds of constant that it is. -/
def initialKinds : List (String × ConstantKind) :=
  [("B", .integer), ("C", .integer), ("S", .integer), ("I", .integer), ("Z", .integer), ("J", .long),
    ("F", .float), ("D", .double), ("Ljava/lang/String;", .string)]

/-- A field with this descriptor may have an initial value of this kind; what is no descriptor of a field
excludes none. -/
def AllowsInitial (descriptor : List UInt8) (kind : ConstantKind) : Prop :=
  IsFieldBytes descriptor → ∃ type, (type, kind) ∈ initialKinds ∧ descriptor = Symbol.plainBytes type

variable {t : FieldType} {kind : ConstantKind}

theorem isPlain_of_mem_initialKinds {type : String} (h : (type, kind) ∈ initialKinds) :
    ∀ c ∈ type.toList, IsPlain c.toNat := by
  have hall : initialKinds.all (fun entry => entry.1.toList.all fun c => decide (IsPlain c.toNat)) = true := by
    decide
  have htype := List.all_eq_true.mp hall _ h
  simpa using htype

/-- The table of the decoder, on the spellings of types. -/
theorem constantKind?_eq_some_iff :
    t.constantKind? = some kind ↔ (String.ofList t.render, kind) ∈ initialKinds := by
  have hlist (type : String) : String.ofList t.render = type ↔ t.render = type.toList :=
    ⟨fun h => by rw [← h, String.toList_ofList], fun h => by rw [h, String.ofList_toList]⟩
  simp only [initialKinds, List.mem_cons, Prod.mk.injEq, hlist]
  cases t with
  | object className =>
      have hname : className.toList ++ [';'] = "java/lang/String;".toList ↔
          className = "java/lang/String" := by
        have hsplit : "java/lang/String;".toList = "java/lang/String".toList ++ [';'] := by decide
        rw [hsplit, List.append_left_inj, String.toList_inj]
      have hkind : (FieldType.object className).constantKind? = some kind ↔
          className = "java/lang/String" ∧ kind = .string := by
        by_cases h : className = "java/lang/String" <;> simp [FieldType.constantKind?, h, eq_comm]
      rw [hkind, ← hname]
      simp [FieldType.render]
  | array t => simp [FieldType.render, FieldType.constantKind?]
  | _ => cases kind <;> decide

/-- The kinds that are allowed by the type that a descriptor is read as. -/
theorem allowsInitial_iff {descriptor : List UInt8} :
    AllowsInitial descriptor kind ↔
      ∀ t, FieldType.ofChars? (Symbol.charsOfBytes descriptor) = some t → t.constantKind? = some kind := by
  have hread (t : FieldType) (ht : FieldType.ofChars? (Symbol.charsOfBytes descriptor) = some t) :
      t.constantKind? = some kind ↔
        ∃ type, (type, kind) ∈ initialKinds ∧ descriptor = Symbol.plainBytes type := by
    obtain ⟨-, hchars⟩ := FieldType.ofChars?_eq_some_iff.mp ht
    rw [constantKind?_eq_some_iff, ← hchars]
    constructor
    · intro h
      exact ⟨_, h, (Symbol.textOfBytes_eq_iff (isPlain_of_mem_initialKinds h)).mp rfl⟩
    · intro hgiven
      obtain ⟨type, h, hbytes⟩ := hgiven
      have htext : Symbol.textOfBytes descriptor = type :=
        (Symbol.textOfBytes_eq_iff (isPlain_of_mem_initialKinds h)).mpr hbytes
      rw [Symbol.textOfBytes] at htext
      rwa [htext]
  rw [AllowsInitial, ← isField_charsOfBytes_iff, isField, Option.isSome_iff_exists]
  constructor
  · intro h t ht
    exact (hread t ht).mpr (h ⟨t, ht⟩)
  · intro h hgiven
    obtain ⟨t, ht⟩ := hgiven
    exact (hread t ht).mp (h t ht)

end Descriptor

end ClassLoading
