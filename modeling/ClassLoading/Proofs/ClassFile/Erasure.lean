import ClassLoading.ClassFile.Decode
import ClassLoading.Proofs.Constant.Erasure
import ClassLoading.Proofs.Constant.Lookup

/-!
# Decoding up to instances

Decoding a class file looks at the content of symbols and never at the instances: whatever the symbol
table, the outcome is the same with the instances erased.
-/

namespace ClassLoading

def ElementValue.erase : ElementValue → ElementValue
  | constant tag index => constant tag index
  | enumConstant typeName constantName => enumConstant typeName.erase constantName.erase
  | classInfo descriptor => classInfo descriptor.erase
  | nested typeName elements =>
      nested typeName.erase (elements.map fun element => (element.1.erase, element.2.erase))
  | array values => array (values.map fun value => value.erase)
decreasing_by
  · rename_i hmem
    have hlt := List.sizeOf_lt_of_mem hmem
    cases element
    simp only [nested.sizeOf_spec, Prod.mk.sizeOf_spec] at *
    omega
  · rename_i hmem
    have hlt := List.sizeOf_lt_of_mem hmem
    simp only [array.sizeOf_spec]
    omega

def AnnotationUse.erase (use : AnnotationUse) : AnnotationUse where
  typeName := use.typeName.erase
  elements := use.elements.map fun element => (element.1.erase, element.2.erase)

def Field.erase (field : Field) : Field :=
  { field with
    name := field.name.erase
    descriptor := field.descriptor.erase
    signature := field.signature.map Symbol.erase
    visible := field.visible.map AnnotationUse.erase
    invisible := field.invisible.map AnnotationUse.erase }

def FieldNotes.erase (notes : FieldNotes) : FieldNotes :=
  { notes with
    signature := notes.signature.map Symbol.erase
    visible := notes.visible.map (List.map AnnotationUse.erase)
    invisible := notes.invisible.map (List.map AnnotationUse.erase) }

def FieldHead.erase (head : FieldHead) : FieldHead :=
  { head with name := head.name.erase, descriptor := head.descriptor.erase }

def ClassFile.erase (file : ClassFile) : ClassFile :=
  { file with
    pool := file.pool.erase
    name := file.name.erase
    superName := file.superName.map Symbol.erase
    interfaces := file.interfaces.map Symbol.erase
    fields := file.fields.map Field.erase }

namespace Decoder

variable {α β σ τ : Type}

theorem ofExcept_map (f : α → β) (x : Except Failure α) : ofExcept (f <$> x) = f <$> ofExcept x := by
  cases x <;> rfl

theorem replicate_map (f : α → β) (count : Nat) (value : Decoder α) :
    replicate count (f <$> value) = List.map f <$> replicate count value := by
  induction count with
  | zero => rfl
  | succ count ih => simp only [replicate_succ, ih, bind_map_left, map_bind, map_pure, List.map_cons]

theorem iterate_map {f : σ → τ} {step : σ → Decoder σ} {step' : τ → Decoder τ}
    (h : ∀ s, step' (f s) = f <$> step s) (count : Nat) (s : σ) :
    iterate step' count (f s) = @Functor.map Decoder _ σ τ f (iterate step count s) := by
  induction count generalizing s with
  | zero => rfl
  | succ count ih =>
      rw [iterate_succ, iterate_succ, h, bind_map_left, map_bind]
      exact bind_congr ih

theorem framed_map (f : α → β) (length : Nat) (error : Nat → FormatError) (value : Decoder α) :
    framed length error (f <$> value) = f <$> framed length error value := by
  simp only [framed, bind_map_left, map_bind, map_pure]

end Decoder

open Decoder

namespace ElementValue

variable {pool : ConstantPool}

theorem readUtf8_erase (pool : ConstantPool) (role : IndexRole) :
    readUtf8 pool.erase role = Symbol.erase <$> readUtf8 pool role := by
  simp only [readUtf8, ConstantPool.utf8At_erase, ofExcept_map, map_bind]

theorem readUse_erase (pool : ConstantPool) (value : Decoder ElementValue) :
    readUse pool.erase (erase <$> value) = AnnotationUse.erase <$> readUse pool value := by
  have helements (count : Nat) : (replicate count do
      let name ← readUtf8 pool.erase .elementName
      return (name, ← erase <$> value)) =
        List.map (fun element => (element.1.erase, element.2.erase)) <$> (replicate count do
          let name ← readUtf8 pool .elementName
          return (name, ← value)) := by
    rw [← replicate_map]
    simp only [readUtf8_erase, map_bind, bind_map_left, map_pure]
  unfold readUse
  simp only [helements]
  simp only [ConstantPool.utf8At_erase, ofExcept_map, map_bind, bind_map_left, map_pure,
    AnnotationUse.erase]

theorem readConstant_erase (pool : ConstantPool) (tag : ElementTag) (kind : ConstantKind) :
    readConstant pool.erase tag kind = erase <$> readConstant pool tag kind := by
  simp only [readConstant, ConstantPool.requireKind_erase, map_bind, map_pure, erase]

theorem readEnumConstant_erase (pool : ConstantPool) :
    readEnumConstant pool.erase = erase <$> readEnumConstant pool := by
  simp only [readEnumConstant, ConstantPool.utf8At_erase, ofExcept_map, map_bind, bind_map_left,
    map_pure, erase]

theorem readBody_erase (pool : ConstantPool) (value : Decoder ElementValue) (tag : ElementTag) :
    readBody pool.erase (erase <$> value) tag = erase <$> readBody pool value tag := by
  cases tag with
  | classInfo => simp only [readBody, ElementTag.constantKind?, readUtf8_erase, map_bind, bind_map_left,
      map_pure, erase]
  | nested => simp only [readBody, ElementTag.constantKind?, readUse_erase, map_bind, bind_map_left,
      map_pure, erase, AnnotationUse.erase]
  | array => simp only [readBody, ElementTag.constantKind?, replicate_map, map_bind, bind_map_left,
      map_pure, erase]
  | enumConstant => exact readEnumConstant_erase pool
  | _ => exact readConstant_erase pool _ _

theorem read_erase (pool : ConstantPool) (levels : Nat) :
    read pool.erase levels = erase <$> read pool levels := by
  induction levels with
  | zero => rfl
  | succ levels ih =>
      simp only [read, map_bind]
      apply bind_congr
      intro code
      cases ElementTag.ofCode? code with
      | none => rfl
      | some tag => exact ih ▸ readBody_erase pool (read pool levels) tag

end ElementValue

theorem AnnotationUse.readAll_erase (pool : ConstantPool) :
    readAll pool.erase = List.map erase <$> readAll pool := by
  simp only [readAll, ElementValue.read_erase, ElementValue.readUse_erase, replicate_map, map_bind]

namespace FieldAttribute

def Context.erase (context : Context) : Context :=
  { context with pool := context.pool.erase, head := context.head.erase }

theorem requireFirst_erase (head : FieldHead) («attribute» : FieldAttribute) (seen : Bool) :
    requireFirst head.erase «attribute» seen = requireFirst head «attribute» seen := rfl

theorem requireTyped_erase (context : Context) (index : UInt16) :
    requireTyped context.erase index = requireTyped context index := by
  simp only [requireTyped, Context.erase, FieldHead.erase, ConstantPool.kindAt_erase, Symbol.text_erase]

theorem readConstantValue_erase (context : Context) :
    readConstantValue context.erase = readConstantValue context := by
  simp only [readConstantValue, requireTyped_erase]
  simp only [Context.erase, ConstantPool.requireKind_erase]

theorem readSignature_erase (context : Context) :
    readSignature context.erase = Symbol.erase <$> readSignature context := by
  simp only [readSignature, Context.erase, ConstantPool.utf8At_erase, ofExcept_map, map_bind]

theorem readContent_erase (context : Context) (length : Nat) (notes : FieldNotes)
    («attribute» : FieldAttribute) : readContent context.erase length notes.erase «attribute» =
      FieldNotes.erase <$> readContent context length notes «attribute» := by
  have hall : AnnotationUse.readAll context.erase.pool =
      List.map AnnotationUse.erase <$> AnnotationUse.readAll context.pool :=
    AnnotationUse.readAll_erase context.pool
  have hfirst («attribute» : FieldAttribute) (seen : Bool) :
      requireFirst context.erase.head «attribute» seen = requireFirst context.head «attribute» seen :=
    requireFirst_erase context.head «attribute» seen
  cases «attribute» <;>
    simp only [readContent, hall, hfirst, readConstantValue_erase, readSignature_erase, map_bind,
      bind_map_left, map_pure, FieldNotes.erase, Option.isSome_map, Option.map_some]

theorem readBody_erase (context : Context) (length : Nat) (notes : FieldNotes)
    («attribute» : Option FieldAttribute) : readBody context.erase length notes.erase «attribute» =
      FieldNotes.erase <$> readBody context length notes «attribute» := by
  cases «attribute» with
  | none => simp only [readBody, map_bind, map_pure]
  | some «attribute» => exact readContent_erase context length notes «attribute»

theorem read_erase (context : Context) (notes : FieldNotes) :
    read context.erase notes.erase = FieldNotes.erase <$> read context notes := by
  have hname (index : UInt16) : context.erase.pool.utf8At index .attributeName =
      Symbol.erase <$> context.pool.utf8At index .attributeName :=
    ConstantPool.utf8At_erase context.pool index .attributeName
  have hinterpreted : interpreted? context.erase.head = interpreted? context.head := rfl
  simp only [read, hname, hinterpreted, readBody_erase, ofExcept_map, framed_map, map_bind,
    bind_map_left, Symbol.text_erase]

end FieldAttribute

variable (options : Options) (pool : ConstantPool) (inInterface : Bool)

theorem FieldHead.read_erase : read options pool.erase inInterface =
    (fun result => (result.1.erase, result.2)) <$> read options pool inInterface := by
  simp only [read, ConstantPool.utf8At_erase, ofExcept_map, map_bind, bind_map_left, map_pure,
    Symbol.chars_erase, Symbol.text_erase, erase]

theorem Field.read_erase :
    read options pool.erase inInterface = Field.erase <$> read options pool inInterface := by
  simp only [read, FieldHead.read_erase, map_bind, bind_map_left, map_pure]
  apply bind_congr
  intro result
  have hiterate := iterate_map (FieldAttribute.read_erase ⟨options, pool, result.1⟩) result.2 {}
  have hempty : FieldNotes.erase {} = {} := rfl
  rw [hempty] at hiterate
  refine (congrArg (fun notes => notes >>= fun notes => pure (result.1.erase.toField notes))
    hiterate).trans ?_
  rw [bind_map_left]
  refine bind_congr fun notes => congrArg pure ?_
  cases hvisible : notes.visible <;> cases hinvisible : notes.invisible <;>
    simp [FieldHead.toField, FieldNotes.erase, FieldHead.erase, erase, hvisible, hinvisible]

namespace ClassFile

theorem classNameAt_erase (index : UInt16) (role : IndexRole) (expected : ConstantKind → Bool) :
    classNameAt pool.erase index role expected = Symbol.erase <$> classNameAt pool index role expected := by
  simp only [classNameAt, ConstantPool.requireKind_erase, ConstantPool.classAt_erase,
    Except.mapError_map, ofExcept_map, map_bind, bind_map_left, map_pure, ClassEntity.name_erase]

theorem readName_erase : readName pool.erase = Symbol.erase <$> readName pool := by
  simp only [readName, classNameAt_erase, map_bind]

theorem readSuperName_erase :
    readSuperName pool.erase = Option.map Symbol.erase <$> readSuperName pool := by
  simp only [readSuperName, classNameAt_erase, map_bind, bind_map_left]
  apply bind_congr
  intro index
  by_cases hindex : index = 0
  · rw [if_pos hindex, if_pos hindex]
    rfl
  · rw [if_neg hindex, if_neg hindex]
    simp only [map_bind, map_pure, Option.map_some]

theorem readInterfaces_erase :
    readInterfaces pool.erase = List.map Symbol.erase <$> readInterfaces pool := by
  simp only [readInterfaces, classNameAt_erase, map_bind, ← replicate_map]

theorem readFields_erase : readFields options pool.erase inInterface =
    List.map Field.erase <$> readFields options pool inInterface := by
  simp only [readFields, Field.read_erase, replicate_map, map_bind]

theorem readBody_erase (version : Version) :
    readBody options version pool.erase = erase <$> readBody options version pool := by
  simp only [readBody, readName_erase, readSuperName_erase, readInterfaces_erase, readFields_erase,
    map_bind, bind_map_left, map_pure, erase]

theorem readLinked_erase (version : Version) :
    readLinked options version pool.erase = erase <$> readLinked options version pool := by
  simp only [readLinked, ConstantPool.link_erase, ofExcept_map, map_bind, bind_map_left, readBody_erase]

theorem read_erase (c : Cursor) (table table' : SymbolTable) :
    (fun result => (result.1.erase, result.2)) <$> (read options c table).1 =
      (fun result => (result.1.erase, result.2)) <$> (read options c table').1 := by
  cases hheader : readHeader options c with
  | error failure => simp only [read, hheader]
  | ok result =>
      obtain ⟨⟨version, size⟩, c'⟩ := result
      have hplace := ConstantPool.place_erase (RawConstants.read size c').constants.toList 1
        (Eq.refl (ConstantPool.vacant size).erase) table table'
      simp only [read, hheader]
      rcases Except.cases_of_map_eq hplace with
        ⟨fault, hplaced, hplaced'⟩ | ⟨placed, placed', hplaced, hplaced', herase⟩
      · rw [hplaced, hplaced']
      · rw [hplaced, hplaced']
        cases (RawConstants.read size c').outcome with
        | error failure => rfl
        | ok c'' =>
            have hlinked := readLinked_erase options placed version
            rw [herase, readLinked_erase] at hlinked
            exact (congrFun hlinked c'').symm

/-- With instances erased, the outcome of decoding does not depend on what was interned before. -/
theorem decode_erase (data : List UInt8) (table table' : SymbolTable) :
    erase <$> (decode options data table).1 = erase <$> (decode options data table').1 := by
  have hread := congrArg (Functor.map Prod.fst) (read_erase options (Cursor.start data) table table')
  simp only [Functor.map_map] at hread
  have hdecode (table : SymbolTable) : (decode options data table).1 =
      Prod.fst <$> (read options (Cursor.start data) table).1 := rfl
  rw [hdecode, hdecode, Functor.map_map, Functor.map_map]
  exact hread

end ClassFile

section Content

/-- A class slot as linking left it, whether it was resolved since or not. -/
def Entry.unresolve : Entry → Entry
  | classEntity entity => classEntity (.unresolved entity.name)
  | entry => entry

/-- A pool as linking left it. -/
def ConstantPool.unresolve (pool : ConstantPool) : ConstantPool :=
  ⟨pool.size, pool.slots.map Entry.unresolve⟩

/-- What a class consists of, whatever the instances and whatever class slots were resolved. -/
def ClassFile.content (file : ClassFile) : ClassFile :=
  { file.erase with pool := file.pool.erase.unresolve }

theorem ConstantPool.unresolve_of_put {pool pool' : ConstantPool} {index : UInt16}
    {entity entity' : ClassEntity} (h : pool.get? index = some (.classEntity entity))
    (hput : pool.put index (.classEntity entity') = .ok pool') (hname : entity'.name = entity.name) :
    pool'.unresolve = pool.unresolve := by
  have hvalid := isValid_of_some h
  have hlt := lt_of_isValid hvalid
  rw [get?, dif_pos hvalid] at h
  rw [put, dif_pos hvalid] at hput
  obtain rfl := Except.ok.inj hput
  have hentry : Entry.unresolve (.classEntity entity') = Entry.unresolve pool.slots[index.toNat] := by
    rw [Option.some.inj h, Entry.unresolve, Entry.unresolve, hname]
  simp only [unresolve, Vector.map_set, hentry]
  refine congrArg (ConstantPool.mk pool.size) ?_
  rw [← Vector.getElem_map Entry.unresolve hlt, Vector.set_getElem_self]

namespace ClassFile

variable {file file' : ClassFile}

theorem content_eq_of_erase_eq (h : file.erase = file'.erase) : file.content = file'.content := by
  have hcontent (file : ClassFile) :
      file.content = { file.erase with pool := file.erase.pool.unresolve } := rfl
  rw [hcontent, hcontent, h]

/-- Resolving a class slot to a class of the name that it has does not change the content. -/
theorem content_of_put {index : UInt16} {entity entity' : ClassEntity} {pool : ConstantPool}
    (h : file.pool.get? index = some (.classEntity entity))
    (hput : file.pool.put index (.classEntity entity') = .ok pool)
    (hname : entity'.name.bytes = entity.name.bytes) : { file with pool }.content = file.content := by
  have hslot : file.pool.erase.get? index = some (.classEntity entity.erase) := by
    rw [ConstantPool.get?_erase, h]
    rfl
  have hputErased : file.pool.erase.put index (.classEntity entity'.erase) = .ok pool.erase := by
    have herase := ConstantPool.put_erase file.pool index (.classEntity entity')
    rwa [hput] at herase
  have hnames : entity'.erase.name = entity.erase.name := by
    rw [ClassEntity.name_erase, ClassEntity.name_erase, Symbol.erase_inj]
    exact hname
  have hpool := ConstantPool.unresolve_of_put hslot hputErased hnames
  rw [content, content]
  dsimp only [erase]
  rw [hpool]

end ClassFile

end Content

end ClassLoading
