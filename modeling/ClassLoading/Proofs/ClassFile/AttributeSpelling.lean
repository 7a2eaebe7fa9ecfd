import ClassLoading.ClassFile.Field
import ClassLoading.Proofs.AccessFlags
import ClassLoading.Proofs.ClassFile.ElementSpelling
import ClassLoading.Proofs.Descriptor.Shape

/-!
# The attributes of a field

What an attribute contributes to the notes on a field, and what a list of attributes contributes
taken together: of each attribute that is interpreted only the bodies matter, not where they stand
among the others.
-/

namespace ClassLoading

open Decoder

namespace FieldAttribute

/-- The name of an attribute as a class file writes it. -/
def nameBytes : FieldAttribute → List UInt8
  | constantValue => Symbol.plainBytes "ConstantValue"
  | synthetic => Symbol.plainBytes "Synthetic"
  | deprecated => Symbol.plainBytes "Deprecated"
  | signature => Symbol.plainBytes "Signature"
  | visibleAnnotations => Symbol.plainBytes "RuntimeVisibleAnnotations"
  | invisibleAnnotations => Symbol.plainBytes "RuntimeInvisibleAnnotations"

/-- The attribute is one that counts on a field with these flags; initial values do so on static
fields only. -/
def countsOn (flags : UInt16) («attribute» : FieldAttribute) : Bool :=
  «attribute» ≠ .constantValue || Carries flags 0x0008

theorem nameBytes_eq («attribute» : FieldAttribute) :
    «attribute».nameBytes = Symbol.plainBytes «attribute».name := by
  cases «attribute» <;> rfl

theorem isPlain_of_mem_name («attribute» : FieldAttribute) : ∀ c ∈ «attribute».name.toList, IsPlain c.toNat := by
  have hall : «attribute».name.toList.all (fun c => decide (IsPlain c.toNat)) = true := by
    cases «attribute» <;> decide
  simpa using hall

/-- The text of some bytes is the name of an attribute if they are its bytes, and not otherwise. -/
theorem textOfBytes_eq_name_iff {bytes : List UInt8} {«attribute» : FieldAttribute} :
    Symbol.textOfBytes bytes = «attribute».name ↔ bytes = «attribute».nameBytes := by
  rw [nameBytes_eq, Symbol.textOfBytes_eq_iff (isPlain_of_mem_name «attribute»)]

end FieldAttribute

structure AttributeDeclaration where
  name : UInt16
  body : List UInt8
  length_lt : body.length < UInt32.size

namespace AttributeDeclaration

/-- The spelling of an attribute: the slot of its name, the length of its body, and the body. -/
def encode (declaration : AttributeDeclaration) : List UInt8 :=
  BigEndian.ofUInt16 declaration.name ++
    (BigEndian.ofNat 4 declaration.body.length ++ declaration.body)

/-- The name of the attribute is the text of some slot. -/
def Named (pool : ConstantPool) (declaration : AttributeDeclaration) : Prop :=
  ∃ symbol, pool.get? declaration.name = some (.utf8 symbol)

/-- The attribute has the name of one of those interpreted, and counts on a field with these flags. -/
def isFor (pool : ConstantPool) (flags : UInt16) («attribute» : FieldAttribute)
    (declaration : AttributeDeclaration) : Bool :=
  match pool.get? declaration.name with
  | some (.utf8 symbol) => symbol.bytes = «attribute».nameBytes && «attribute».countsOn flags
  | _ => false

/-- Of the flags only the static one matters. -/
theorem isFor_congr {flags flags' : UInt16} (h : Carries flags 0x0008 ↔ Carries flags' 0x0008)
    (pool : ConstantPool) («attribute» : FieldAttribute) :
    isFor pool flags «attribute» = isFor pool flags' «attribute» := by
  funext declaration
  simp only [isFor, FieldAttribute.countsOn, h]

/-- The bodies of the attributes that are interpreted in the same way. -/
def bodies (pool : ConstantPool) (flags : UInt16) (declarations : List AttributeDeclaration)
    («attribute» : FieldAttribute) : List (List UInt8) :=
  (declarations.filter (isFor pool flags «attribute»)).map body

end AttributeDeclaration

/-- At most one of some bodies, and the value that it spells. -/
def AtMostOne {α : Type} (R : List UInt8 → α → Prop) (bodies : List (List UInt8)) (value : Option α) :
    Prop :=
  bodies = [] ∧ value = none ∨ ∃ body x, bodies = [body] ∧ R body x ∧ value = some x

/-- The slot of an initial value: it holds a number or a string, of a kind that is allowed if that is
checked. -/
def InitialValue (options : Options) (pool : ConstantPool) (allowed : ConstantKind → Prop)
    (body : List UInt8) (index : UInt16) : Prop :=
  body = BigEndian.ofUInt16 index ∧ ∃ entry, pool.get? index = some entry ∧
    entry.kind ∈ [.integer, .float, .long, .double, .string] ∧
    (options.validateConstantValueKinds = true → allowed entry.kind)

def TextSlot (pool : ConstantPool) (body : List UInt8) (symbol : Symbol) : Prop :=
  ∃ index, body = BigEndian.ofUInt16 index ∧ pool.get? index = some (.utf8 symbol)

/-- The spelling of a counted list of annotations with values nested at most 256 deep. -/
def Annotations (pool : ConstantPool) : List UInt8 → List AnnotationUse → Prop :=
  Counted (UseSpelled pool (DepthWithin 256 (ElementValue.Spelled pool)))

/-- A field with this head may have an initial value of this kind, as far as its type is known. -/
def FieldHead.Allows (head : FieldHead) (kind : ConstantKind) : Prop :=
  ∀ t, head.type = some t → t.constantKind? = some kind

namespace FieldAttribute

variable {context : Context} {notes notes' between : FieldNotes} {«attribute» other : FieldAttribute}
  {body : List UInt8} {bodies : List (List UInt8)}

/-- What one body of an attribute does to the notes. -/
inductive Noted (context : Context) (notes : FieldNotes) :
    FieldAttribute → List UInt8 → FieldNotes → Prop
  | constantValue {body : List UInt8} {index : UInt16} : notes.constantValue = none →
      InitialValue context.options context.pool context.head.Allows body index →
        Noted context notes .constantValue body { notes with constantValue := some index }
  | synthetic : Noted context notes .synthetic [] { notes with synthetic := true }
  | deprecated : Noted context notes .deprecated [] { notes with deprecated := true }
  | signature {body : List UInt8} {symbol : Symbol} : notes.signature = none →
      TextSlot context.pool body symbol →
        Noted context notes .signature body { notes with signature := some symbol }
  | visible {body : List UInt8} {uses : List AnnotationUse} : notes.visible = none →
      Annotations context.pool body uses →
        Noted context notes .visibleAnnotations body { notes with visible := some uses }
  | invisible {body : List UInt8} {uses : List AnnotationUse} : notes.invisible = none →
      Annotations context.pool body uses →
        Noted context notes .invisibleAnnotations body { notes with invisible := some uses }

/-- What bodies make of a value of which there may be one: the first becomes the value, and there
is no second. -/
def Gathered {α : Type} (R : List UInt8 → α → Prop) (bodies : List (List UInt8))
    (value value' : Option α) : Prop :=
  bodies = [] ∧ value' = value ∨ value = none ∧ ∃ body x, bodies = [body] ∧ R body x ∧ value' = some x

/-- What empty bodies make of a mark. -/
def Marked (bodies : List (List UInt8)) (mark mark' : Bool) : Prop :=
  (∀ body ∈ bodies, body = []) ∧ mark' = (mark || !bodies.isEmpty)

/-- What the bodies of one attribute do to the part of the notes that belongs to it. -/
def Contributes (context : Context) (notes notes' : FieldNotes) (bodies : List (List UInt8)) :
    FieldAttribute → Prop
  | .constantValue =>
      Gathered (InitialValue context.options context.pool context.head.Allows) bodies
        notes.constantValue notes'.constantValue
  | .synthetic => Marked bodies notes.synthetic notes'.synthetic
  | .deprecated => Marked bodies notes.deprecated notes'.deprecated
  | .signature => Gathered (TextSlot context.pool) bodies notes.signature notes'.signature
  | .visibleAnnotations => Gathered (Annotations context.pool) bodies notes.visible notes'.visible
  | .invisibleAnnotations =>
      Gathered (Annotations context.pool) bodies notes.invisible notes'.invisible

theorem gathered_cons_iff {α : Type} {R : List UInt8 → α → Prop} {value value' : Option α} :
    Gathered R (body :: bodies) value value' ↔
      value = none ∧ ∃ x, R body x ∧ Gathered R bodies (some x) value' := by
  unfold Gathered
  constructor
  · intro h
    rcases h with ⟨hnil, -⟩ | ⟨hnone, other, x, hone, hR, hvalue⟩
    · cases hnil
    · obtain ⟨rfl, rfl⟩ := List.cons.inj hone
      exact ⟨hnone, x, hR, Or.inl ⟨rfl, hvalue⟩⟩
  · intro h
    obtain ⟨hnone, x, hR, (⟨rfl, hvalue⟩ | ⟨hsome, -⟩)⟩ := h
    · exact Or.inr ⟨hnone, body, x, rfl, hR, hvalue⟩
    · cases hsome

theorem marked_cons_iff {mark mark' : Bool} :
    Marked (body :: bodies) mark mark' ↔ body = [] ∧ Marked bodies true mark' := by
  simp [Marked, and_assoc]

/-- The first body of an attribute is noted before the others. -/
theorem contributes_cons_iff :
    Contributes context notes notes' (body :: bodies) «attribute» ↔
      ∃ between, Noted context notes «attribute» body between ∧
        Contributes context between notes' bodies «attribute» := by
  constructor
  · intro h
    cases «attribute» with
    | constantValue =>
        obtain ⟨hnone, index, hindex, hrest⟩ := gathered_cons_iff.mp h
        exact ⟨_, .constantValue hnone hindex, hrest⟩
    | synthetic =>
        obtain ⟨rfl, hrest⟩ := marked_cons_iff.mp h
        exact ⟨_, .synthetic, hrest⟩
    | deprecated =>
        obtain ⟨rfl, hrest⟩ := marked_cons_iff.mp h
        exact ⟨_, .deprecated, hrest⟩
    | signature =>
        obtain ⟨hnone, symbol, hsymbol, hrest⟩ := gathered_cons_iff.mp h
        exact ⟨_, .signature hnone hsymbol, hrest⟩
    | visibleAnnotations =>
        obtain ⟨hnone, uses, huses, hrest⟩ := gathered_cons_iff.mp h
        exact ⟨_, .visible hnone huses, hrest⟩
    | invisibleAnnotations =>
        obtain ⟨hnone, uses, huses, hrest⟩ := gathered_cons_iff.mp h
        exact ⟨_, .invisible hnone huses, hrest⟩
  · intro hgiven
    obtain ⟨between, hnoted, hrest⟩ := hgiven
    cases hnoted with
    | constantValue hnone hindex => exact gathered_cons_iff.mpr ⟨hnone, _, hindex, hrest⟩
    | synthetic => exact marked_cons_iff.mpr ⟨rfl, hrest⟩
    | deprecated => exact marked_cons_iff.mpr ⟨rfl, hrest⟩
    | signature hnone hsymbol => exact gathered_cons_iff.mpr ⟨hnone, _, hsymbol, hrest⟩
    | visible hnone huses => exact gathered_cons_iff.mpr ⟨hnone, _, huses, hrest⟩
    | invisible hnone huses => exact gathered_cons_iff.mpr ⟨hnone, _, huses, hrest⟩

/-- A body of one attribute does not touch what belongs to another. -/
theorem contributes_iff_of_noted (h : Noted context notes «attribute» body between)
    (hne : other ≠ «attribute») :
    Contributes context between notes' bodies other ↔
      Contributes context notes notes' bodies other := by
  cases h <;> cases other <;> first | exact Iff.rfl | exact absurd rfl hne

/-- One body more is noted first, whatever bodies other attributes have. -/
theorem contributes_first_iff {parts parts' : FieldAttribute → List (List UInt8)}
    (hfirst : parts' «attribute» = body :: parts «attribute»)
    (hothers : ∀ other, other ≠ «attribute» → parts' other = parts other) :
    (∀ a, Contributes context notes notes' (parts' a) a) ↔
      ∃ between, Noted context notes «attribute» body between ∧
        ∀ a, Contributes context between notes' (parts a) a := by
  constructor
  · intro h
    have hattribute := h «attribute»
    rw [hfirst] at hattribute
    obtain ⟨between, hnoted, hrest⟩ := contributes_cons_iff.mp hattribute
    refine ⟨between, hnoted, fun a => ?_⟩
    by_cases ha : a = «attribute»
    · exact ha ▸ hrest
    · have hother := h a
      rw [hothers a ha] at hother
      exact (contributes_iff_of_noted hnoted ha).mpr hother
  · intro hgiven a
    obtain ⟨between, hnoted, h⟩ := hgiven
    by_cases ha : a = «attribute»
    · rw [ha, hfirst]
      exact contributes_cons_iff.mpr ⟨between, hnoted, h «attribute»⟩
    · rw [hothers a ha]
      exact (contributes_iff_of_noted hnoted ha).mp (h a)

theorem contributes_nil_iff :
    (∀ a, Contributes context notes notes' [] a) ↔ notes' = notes := by
  constructor
  · intro h
    have hvalue := h .constantValue
    have hsynthetic := h .synthetic
    have hdeprecated := h .deprecated
    have hsignature := h .signature
    have hvisible := h .visibleAnnotations
    have hinvisible := h .invisibleAnnotations
    simp only [Contributes, Gathered, Marked, true_and, List.isEmpty_nil, Bool.not_true, Bool.or_false,
      reduceCtorEq, false_and, exists_false, and_false, or_false, List.not_mem_nil, false_imp_iff,
      implies_true] at hvalue hsynthetic hdeprecated hsignature hvisible hinvisible
    cases notes
    cases notes'
    simp_all
  · intro heq a
    subst heq
    cases a <;> simp [Contributes, Gathered, Marked]

theorem ofName?_eq_some_iff {name : String} :
    ofName? name = some «attribute» ↔ «attribute».name = name := by
  constructor
  · intro h
    have := List.find?_some h
    simpa using this
  · intro heq
    subst heq
    cases «attribute» <;> decide

theorem interpreted?_eq_some_iff {head : FieldHead} {name : String} :
    interpreted? head name = some «attribute» ↔
      name = «attribute».name ∧ («attribute» = .constantValue → head.flags.isStatic = true) := by
  rw [eq_comm (a := name), ← ofName?_eq_some_iff, interpreted?]
  cases ofName? name with
  | none => simp
  | some found =>
      cases found <;> cases hstatic : head.flags.isStatic <;> simp <;> rintro rfl <;> simp

theorem isFor_eq_true_iff {declaration : AttributeDeclaration} {symbol : Symbol}
    (h : context.pool.get? declaration.name = some (.utf8 symbol)) :
    declaration.isFor context.pool context.head.flags.bits «attribute» = true ↔
      interpreted? context.head symbol.text = some «attribute» := by
  rw [interpreted?_eq_some_iff, AttributeDeclaration.isFor, h, Symbol.text, textOfBytes_eq_name_iff]
  simp only [countsOn, FieldFlags.isStatic_iff, Bool.and_eq_true, decide_eq_true_iff, Bool.or_eq_true,
    ne_eq]
  exact and_congr_right fun _ => Decidable.imp_iff_not_or.symm

/-- What one attribute does to the notes, if its name is the text of a slot. -/
def Step (context : Context) (declaration : AttributeDeclaration) (notes notes' : FieldNotes) : Prop :=
  ∃ symbol, context.pool.get? declaration.name = some (.utf8 symbol) ∧
    match interpreted? context.head symbol.text with
    | some a => Noted context notes a declaration.body notes'
    | none => notes' = notes

theorem step_iff {declaration : AttributeDeclaration} {symbol : Symbol}
    (hsymbol : context.pool.get? declaration.name = some (.utf8 symbol)) :
    Step context declaration notes notes' ↔
      match interpreted? context.head symbol.text with
      | some a => Noted context notes a declaration.body notes'
      | none => notes' = notes := by
  constructor
  · intro hstep
    obtain ⟨other, hother, h⟩ := hstep
    rw [hsymbol] at hother
    obtain rfl : symbol = other := by simpa using hother
    exact h
  · intro h
    exact ⟨symbol, hsymbol, h⟩

/-- What some attributes do to the notes, one after another. -/
def Steps (context : Context) : List AttributeDeclaration → FieldNotes → FieldNotes → Prop
  | [], notes, notes' => notes' = notes
  | declaration :: declarations, notes, notes' =>
      ∃ between, Step context declaration notes between ∧ Steps context declarations between notes'

theorem bodies_cons (pool : ConstantPool) (flags : UInt16) (declaration : AttributeDeclaration)
    (declarations : List AttributeDeclaration) (a : FieldAttribute) :
    AttributeDeclaration.bodies pool flags (declaration :: declarations) a =
      if declaration.isFor pool flags a = true then
        declaration.body :: AttributeDeclaration.bodies pool flags declarations a
      else AttributeDeclaration.bodies pool flags declarations a := by
  unfold AttributeDeclaration.bodies
  split
  · rename_i h
    rw [List.filter_cons_of_pos h, List.map_cons]
  · rename_i h
    rw [List.filter_cons_of_neg h]

/-- Attributes taken one after another contribute what their bodies contribute. -/
theorem steps_iff {declarations : List AttributeDeclaration} :
    Steps context declarations notes notes' ↔
      (∀ declaration ∈ declarations, declaration.Named context.pool) ∧
        ∀ a, Contributes context notes notes'
          (AttributeDeclaration.bodies context.pool context.head.flags.bits declarations a) a := by
  induction declarations generalizing notes with
  | nil =>
      rw [Steps, ← @contributes_nil_iff context]
      simp [AttributeDeclaration.bodies]
  | cons declaration declarations ih =>
      simp only [Steps, ih, List.forall_mem_cons]
      by_cases hnamed : declaration.Named context.pool
      · obtain ⟨symbol, hsymbol⟩ := hnamed
        have hparts := bodies_cons context.pool context.head.flags.bits declaration declarations
        simp only [step_iff hsymbol, isFor_eq_true_iff hsymbol] at hparts ⊢
        cases hinterpreted : interpreted? context.head symbol.text with
        | none =>
            simp only [hinterpreted, reduceCtorEq, if_false] at hparts
            simp only [hparts]
            constructor
            · intro hgiven
              obtain ⟨_, rfl, hall, h⟩ := hgiven
              exact ⟨⟨⟨symbol, hsymbol⟩, hall⟩, h⟩
            · intro hgiven
              obtain ⟨⟨-, hall⟩, h⟩ := hgiven
              exact ⟨notes, rfl, hall, h⟩
        | some a =>
            have hfirst := hparts a
            rw [hinterpreted, if_pos rfl] at hfirst
            have hothers (other : FieldAttribute) (hne : other ≠ a) := hparts other
            simp only [hinterpreted, Option.some.injEq] at hothers
            rw [contributes_first_iff hfirst fun other hne => by
              rw [hothers other hne, if_neg (Ne.symm hne)]]
            constructor
            · intro hgiven
              obtain ⟨between, hnoted, hall, h⟩ := hgiven
              exact ⟨⟨⟨symbol, hsymbol⟩, hall⟩, between, hnoted, h⟩
            · intro hgiven
              obtain ⟨⟨-, hall⟩, between, hnoted, h⟩ := hgiven
              exact ⟨between, hnoted, hall, h⟩
      · constructor
        · intro hgiven
          obtain ⟨between, ⟨symbol, hsymbol, -⟩, -⟩ := hgiven
          exact absurd ⟨symbol, hsymbol⟩ hnamed
        · intro hgiven
          obtain ⟨⟨h, -⟩, -⟩ := hgiven
          exact absurd h hnamed

section Reading

variable {covered length : Nat}

theorem isConstantValue_iff {kind : ConstantKind} :
    kind.isConstantValue = true ↔ kind ∈ [.integer, .float, .long, .double, .string] := by
  cases kind <;> decide

theorem requireTyped_reads {index : UInt16} {entry : Entry}
    (hentry : context.pool.get? index = some entry) :
    Reads covered (requireTyped context index) fun bytes _ => bytes = [] ∧
      (context.options.validateConstantValueKinds = true → context.head.Allows entry.kind) := by
  unfold requireTyped FieldHead.Allows
  cases context.head.type with
  | none => exact (Reads.pure ()).congr fun bytes _ => by simp
  | some t =>
      cases context.options.validateConstantValueKinds with
      | false => exact (Reads.pure ()).congr fun bytes _ => by simp
      | true =>
          have hkind : Answers ((context.pool.kindAt index).mapError Failure.fault) (· = entry.kind) := by
            rw [ConstantPool.kindAt_of_some hentry]
            exact Answers.pure entry.kind
          have hrequire : Reads covered (do
              let kind ← Decoder.ofExcept ((context.pool.kindAt index).mapError .fault)
              Decoder.require (t.constantKind? = some kind) (.malformed
                (.constantValueKind kind context.head.name.text context.head.descriptor.text))
              return ()) _ :=
            Reads.lookup hkind fun kind _ => Reads.require fun _ => Reads.pure ()
          simp only [bind_pure_unit] at hrequire
          apply hrequire.congr
          intro bytes _
          simp [and_comm]

theorem readConstantValue_reads (h : 2 ≤ covered) : Reads covered (readConstantValue context)
    (InitialValue context.options context.pool context.head.Allows) := by
  have htyped (index : UInt16) (hindex : ∃ entry, context.pool.get? index = some entry ∧
      entry.kind.isConstantValue = true) :
      Reads (covered - 2) (do requireTyped context index; return index) fun bytes value =>
        (bytes = [] ∧ value = index) ∧ ∀ entry, context.pool.get? index = some entry →
          (context.options.validateConstantValueKinds = true → context.head.Allows entry.kind) := by
    obtain ⟨entry, hentry, -⟩ := hindex
    apply ((requireTyped_reads hentry).bind fun _ _ _ => Reads.pure index).congr
    intro bytes value
    simp only [hentry, Option.some.injEq]
    constructor
    · intro hgiven
      obtain ⟨_, _, _, ⟨rfl, htyped⟩, ⟨rfl, rfl⟩, rfl⟩ := hgiven
      refine ⟨⟨rfl, rfl⟩, ?_⟩
      intro _ heq
      subst heq
      exact htyped
    · intro hgiven
      obtain ⟨⟨rfl, rfl⟩, htyped⟩ := hgiven
      exact ⟨(), [], [], ⟨rfl, htyped entry rfl⟩, ⟨rfl, rfl⟩, rfl⟩
  refine ((Reads.u16Unchecked h).step BigEndian.length_ofUInt16 fun index =>
    Reads.lookup ConstantPool.requireKind_answers fun _ => htyped index).congr fun bytes value => ?_
  constructor
  · intro hgiven
    obtain ⟨index, _, rfl, -, ⟨entry, hentry, hkind⟩, ⟨rfl, rfl⟩, htyped⟩ := hgiven
    exact ⟨List.append_nil _, entry, hentry, isConstantValue_iff.mp hkind, htyped entry hentry⟩
  · intro hgiven
    obtain ⟨rfl, entry, hentry, hkind, htyped⟩ := hgiven
    refine ⟨value, [], (List.append_nil _).symm, (), ⟨entry, hentry, isConstantValue_iff.mpr hkind⟩,
      ⟨rfl, rfl⟩, ?_⟩
    intro other hother
    rw [hentry] at hother
    obtain rfl := Option.some.inj hother
    exact htyped

theorem readSignature_reads (h : 2 ≤ covered) :
    Reads covered (readSignature context) (TextSlot context.pool) := by
  refine ((Reads.u16Unchecked h).step BigEndian.length_ofUInt16 fun index =>
    Reads.answer ConstantPool.utf8At_answers).congr fun bytes symbol => ?_
  simp [TextSlot]

/-- A value of two bytes that is noted if there is none yet. -/
theorem readOnce_reads {value : Option α} {d : Decoder α} {R : List UInt8 → α → Prop}
    {first size : FormatError} (note : α → FieldNotes)
    (hd : 2 ≤ length → Reads length d R) :
    Reads length (do
      Decoder.require (!value.isSome) first
      Decoder.require (length = 2) size
      return note (← d)) fun bytes notes' =>
        value = none ∧ length = 2 ∧ ∃ x, R bytes x ∧ notes' = note x := by
  refine (Reads.require fun _ => Reads.require fun hlength =>
    (hd (Nat.le_of_eq (of_decide_eq_true hlength).symm)).bind fun _ x _ =>
      Reads.pure (note x)).congr fun bytes notes' => ?_
  constructor
  · intro h
    obtain ⟨hfirst, hlength, x, _, _, hR, ⟨rfl, rfl⟩, rfl⟩ := h
    rw [List.append_nil]
    exact ⟨by simpa using hfirst, of_decide_eq_true hlength, x, hR, rfl⟩
  · intro h
    obtain ⟨rfl, rfl, x, hR, rfl⟩ := h
    exact ⟨rfl, rfl, x, _, [], hR, ⟨rfl, rfl⟩, by simp⟩

theorem readMark_reads {size : FormatError} (marked : FieldNotes) :
    Reads length (do
      Decoder.require (length = 0) size
      return marked) fun bytes notes' => length = 0 ∧ bytes = [] ∧ notes' = marked := by
  apply (Reads.require fun _ => Reads.pure marked).congr
  intro bytes notes'
  rw [decide_eq_true_iff]

theorem readUses_reads {value : Option (List AnnotationUse)} {first : FormatError}
    (note : List AnnotationUse → FieldNotes) :
    Reads length (do
      Decoder.require (!value.isSome) first
      return note (← AnnotationUse.readAll context.pool)) fun bytes notes' =>
        value = none ∧ ∃ uses, Annotations context.pool bytes uses ∧ notes' = note uses := by
  refine (Reads.require fun _ => ((AnnotationUse.readAll_reads context.pool).mono
    (Nat.zero_le _)).bind fun _ uses _ => Reads.pure (note uses)).congr fun bytes notes' => ?_
  constructor
  · intro h
    obtain ⟨hfirst, uses, _, _, huses, ⟨rfl, rfl⟩, rfl⟩ := h
    rw [List.append_nil]
    exact ⟨by simpa using hfirst, uses, huses, rfl⟩
  · intro h
    obtain ⟨rfl, uses, huses, rfl⟩ := h
    exact ⟨rfl, uses, _, [], huses, ⟨rfl, rfl⟩, by simp⟩

theorem length_of_initialValue {options : Options} {pool : ConstantPool} {allowed : ConstantKind → Prop}
    {index : UInt16} (h : InitialValue options pool allowed body index) : body.length = 2 := by
  rw [h.1, BigEndian.length_ofUInt16]

theorem length_of_textSlot {pool : ConstantPool} {symbol : Symbol} (h : TextSlot pool body symbol) :
    body.length = 2 := by
  obtain ⟨index, rfl, -⟩ := h
  exact BigEndian.length_ofUInt16 index

/-- The content of an attribute, framed by its length, is read as what its body does to the notes. -/
theorem readContent_reads (error : Nat → FormatError) (a : FieldAttribute) :
    Reads length (Decoder.framed length error (readContent context length notes a))
      fun bytes notes' => bytes.length = length ∧ Noted context notes a bytes notes' := by
  cases a with
  | constantValue =>
      apply (Reads.framed (readOnce_reads _ readConstantValue_reads)).congr
      intro bytes notes'
      refine and_congr_right fun hlength => ⟨?_, ?_⟩
      · intro hgiven
        obtain ⟨hnone, -, index, hindex, rfl⟩ := hgiven
        exact .constantValue hnone hindex
      · intro h
        cases h with
        | constantValue hnone hindex =>
            exact ⟨hnone, hlength ▸ length_of_initialValue hindex, _, hindex, rfl⟩
  | synthetic =>
      apply (Reads.framed (readMark_reads _)).congr
      intro bytes notes'
      refine and_congr_right fun hlength => ⟨?_, ?_⟩
      · intro hgiven
        obtain ⟨-, rfl, rfl⟩ := hgiven
        exact .synthetic
      · intro h
        cases h with
        | synthetic => exact ⟨hlength.symm, rfl, rfl⟩
  | deprecated =>
      apply (Reads.framed (readMark_reads _)).congr
      intro bytes notes'
      refine and_congr_right fun hlength => ⟨?_, ?_⟩
      · intro hgiven
        obtain ⟨-, rfl, rfl⟩ := hgiven
        exact .deprecated
      · intro h
        cases h with
        | deprecated => exact ⟨hlength.symm, rfl, rfl⟩
  | signature =>
      apply (Reads.framed (readOnce_reads _ readSignature_reads)).congr
      intro bytes notes'
      refine and_congr_right fun hlength => ⟨?_, ?_⟩
      · intro hgiven
        obtain ⟨hnone, -, symbol, hsymbol, rfl⟩ := hgiven
        exact .signature hnone hsymbol
      · intro h
        cases h with
        | signature hnone hsymbol =>
            exact ⟨hnone, hlength ▸ length_of_textSlot hsymbol, _, hsymbol, rfl⟩
  | visibleAnnotations =>
      apply (Reads.framed (readUses_reads _)).congr
      intro bytes notes'
      refine and_congr_right fun _ => ⟨?_, ?_⟩
      · intro hgiven
        obtain ⟨hnone, uses, huses, rfl⟩ := hgiven
        exact .visible hnone huses
      · intro h
        cases h with
        | visible hnone huses => exact ⟨hnone, _, huses, rfl⟩
  | invisibleAnnotations =>
      apply (Reads.framed (readUses_reads _)).congr
      intro bytes notes'
      refine and_congr_right fun _ => ⟨?_, ?_⟩
      · intro hgiven
        obtain ⟨hnone, uses, huses, rfl⟩ := hgiven
        exact .invisible hnone huses
      · intro h
        cases h with
        | invisible hnone huses => exact ⟨hnone, _, huses, rfl⟩

theorem readBody_reads (error : Nat → FormatError) (interpreted : Option FieldAttribute) :
    Reads length (Decoder.framed length error (readBody context length notes interpreted))
      fun bytes notes' => bytes.length = length ∧
        match interpreted with
        | some a => Noted context notes a bytes notes'
        | none => notes' = notes := by
  cases interpreted with
  | some a => exact readContent_reads error a
  | none =>
      refine (Reads.framed ((Reads.skipUnchecked (Nat.le_refl length)).bind fun _ _ _ =>
        Reads.pure notes)).congr fun bytes notes' => ?_
      refine and_congr_right fun hlength => ⟨?_, ?_⟩
      · intro h
        obtain ⟨_, _, _, -, ⟨rfl, rfl⟩, rfl⟩ := h
        rfl
      · intro heq
        subst heq
        exact ⟨(), bytes, [], hlength, ⟨rfl, rfl⟩, by simp⟩

/-- An attribute is read exactly where it is spelt, and does to the notes what it declares. -/
theorem read_reads : Reads 0 (read context notes) fun bytes notes' =>
    ∃ declaration : AttributeDeclaration,
      bytes = declaration.encode ∧ Step context declaration notes notes' := by
  have hparts : Reads 6 (do
      let nameIndex ← Decoder.u16Unchecked
      let length := (← Decoder.u32Unchecked).toNat
      let name := (← Decoder.ofExcept (context.pool.utf8At nameIndex .attributeName)).text
      Decoder.ensure length
      Decoder.framed length (fun taken => .malformed (.attributeContents name length taken))
        (readBody context length notes (interpreted? context.head name))) _ :=
    (Reads.u16Unchecked (by decide)).step BigEndian.length_ofUInt16 fun nameIndex =>
      (Reads.u32Unchecked (by decide)).step BigEndian.length_ofUInt32 fun length =>
        Reads.lookup ConstantPool.utf8At_answers fun name _ =>
          Reads.ensure ((readBody_reads _ _).mono (Nat.le_max_right _ _))
            fun bytes _ h => Nat.le_of_eq h.1.symm
  refine (Reads.ensure hparts ?_).congr fun bytes notes' => ?_
  · intro bytes notes' hgiven
    obtain ⟨nameIndex, _, rfl, length, rest, rfl, -⟩ := hgiven
    simp only [List.length_append, BigEndian.length_ofUInt16, BigEndian.length_ofUInt32]
    omega
  · constructor
    · intro hgiven
      obtain ⟨nameIndex, _, rfl, length, body, rfl, symbol, hsymbol, hlength, hbody⟩ := hgiven
      refine ⟨⟨nameIndex, body, hlength ▸ length.toNat_lt⟩, ?_, symbol, hsymbol, hbody⟩
      simp only [AttributeDeclaration.encode, hlength, BigEndian.ofUInt32]
    · intro hgiven
      obtain ⟨⟨nameIndex, body, hlt⟩, rfl, symbol, hsymbol, hbody⟩ := hgiven
      have hlength : (UInt32.ofNat body.length).toNat = body.length := UInt32.toNat_ofNat_of_lt hlt
      refine ⟨nameIndex, _, rfl, UInt32.ofNat body.length, body, ?_, symbol, hsymbol, hlength.symm, hbody⟩
      rw [BigEndian.ofUInt32, hlength]

theorem iterate_reads (count : Nat) : Reads 0 (Decoder.iterate (read context) count notes)
    fun bytes notes' => ∃ declarations : List AttributeDeclaration, declarations.length = count ∧
      bytes = declarations.flatMap AttributeDeclaration.encode ∧
        Steps context declarations notes notes' := by
  apply (Reads.iterate (fun notes => read_reads) count notes).congr
  intro bytes notes'
  constructor
  · intro h
    induction h with
    | refl notes => exact ⟨[], rfl, rfl, rfl⟩
    | step hstep _ ih =>
        obtain ⟨declaration, rfl, hdeclaration⟩ := hstep
        obtain ⟨declarations, hcount, rfl, hsteps⟩ := ih
        exact ⟨declaration :: declarations, congrArg (· + 1) hcount, rfl, _, hdeclaration, hsteps⟩
  · intro hgiven
    obtain ⟨declarations, rfl, rfl, hsteps⟩ := hgiven
    induction declarations generalizing notes with
    | nil =>
        obtain rfl : notes' = notes := hsteps
        exact .refl notes'
    | cons declaration declarations ih =>
        obtain ⟨between, hdeclaration, hsteps⟩ := hsteps
        exact .step ⟨declaration, rfl, hdeclaration⟩ (ih hsteps)

end Reading

end FieldAttribute

end ClassLoading
