import ClassLoading.Loader
import ClassLoading.Proofs.Constant.Resolution
import Mathlib.Logic.Relation

/-!
# Steps of a loader

What the operations of a loader come to, guards included, and the few ways in which they change its
state. Properties of all runs are proved step by step.
-/

namespace ClassLoading.Loader

variable {loader : Loader} {name : List UInt8} {id target : ClassId} {index : UInt16}

def searchFor (loader : Loader) (name : List UInt8) : Search :=
  search loader.classPath (classFileName (Symbol.textOfBytes name))

inductive Loads (loader : Loader) (name : List UInt8) : Report → Prop
  | known {id : ClassId} : loader.find? name = some id → Loads loader name ⟨.ok id, [], loader⟩
  | failed {error : LoadError} : loader.find? name = none →
      (loader.searchFor name).found = .error error →
        Loads loader name ⟨.error (.error error), (loader.searchFor name).lookups, loader⟩
  | missed : loader.find? name = none → (loader.searchFor name).found = .ok none →
      Loads loader name ⟨.error (.error (.notFound (Symbol.textOfBytes name))),
        (loader.searchFor name).lookups, loader⟩
  | malformed {bytes : List UInt8} {failure : Failure} {symbols : SymbolTable} :
      loader.find? name = none → (loader.searchFor name).found = .ok (some bytes) →
        ClassFile.decode loader.options bytes loader.symbols = (.error failure, symbols) →
          Loads loader name ⟨.error (.ofDecoding (Symbol.textOfBytes name) failure),
            (loader.searchFor name).lookups, { loader with symbols }⟩
  | misnamed {bytes : List UInt8} {file : ClassFile} {symbols : SymbolTable} :
      loader.find? name = none → (loader.searchFor name).found = .ok (some bytes) →
        ClassFile.decode loader.options bytes loader.symbols = (.ok file, symbols) →
          file.name.bytes ≠ name →
            Loads loader name
              ⟨.error (.error (.wrongName (Symbol.textOfBytes name) file.name.text)),
                (loader.searchFor name).lookups, { loader with symbols }⟩
  | loaded {bytes : List UInt8} {file : ClassFile} {symbols : SymbolTable} :
      loader.find? name = none → (loader.searchFor name).found = .ok (some bytes) →
        ClassFile.decode loader.options bytes loader.symbols = (.ok file, symbols) →
          file.name.bytes = name →
            Loads loader name ⟨.ok loader.classes.size, (loader.searchFor name).lookups,
              ({ loader with symbols }.register file).2⟩

theorem loads_load (loader : Loader) (name : List UInt8) : Loads loader name (loader.load name) := by
  unfold load
  cases hfind : loader.find? name with
  | some id => exact .known hfind
  | none =>
      dsimp only
      have hsearch : search loader.classPath (classFileName (Symbol.textOfBytes name)) =
          loader.searchFor name := rfl
      rw [hsearch]
      cases hfound : (loader.searchFor name).found with
      | error error => exact .failed hfind hfound
      | ok content =>
          cases content with
          | none => exact .missed hfind hfound
          | some bytes =>
              cases hdecode : ClassFile.decode loader.options bytes loader.symbols with
              | mk result symbols =>
                  cases result with
                  | error failure =>
                      simp only [accept, Loader.decode, hdecode, Except.mapError_error]
                      exact .malformed hfind hfound hdecode
                  | ok file =>
                      simp only [accept, Loader.decode, hdecode, Except.mapError_ok, beq_iff_eq]
                      split
                      · rename_i hname
                        exact .loaded hfind hfound hdecode hname
                      · rename_i hname
                        exact .misnamed hfind hfound hdecode hname

theorem load_eq_of_loads {report : Report} (h : Loads loader name report) : loader.load name = report := by
  unfold load
  cases h with
  | known hfind => rw [hfind]
  | failed hfind hfound | missed hfind hfound =>
      rw [searchFor] at hfound
      rw [hfind]
      simp only [hfound, searchFor]
  | malformed hfind hfound hdecode =>
      rw [searchFor] at hfound
      rw [hfind]
      simp only [hfound, searchFor, accept, Loader.decode, hdecode, Except.mapError_error]
  | misnamed hfind hfound hdecode hname | loaded hfind hfound hdecode hname =>
      rw [searchFor] at hfound
      rw [hfind]
      simp [hfound, searchFor, accept, Loader.decode, hdecode, Except.mapError_ok, hname, register]

section Registry

variable {file file' : ClassFile}

theorem classAt_eq_ok_iff : loader.classAt id = .ok file ↔ loader.classes[id]? = some file := by
  unfold classAt
  cases loader.classes[id]? <;> simp

theorem find?_register (loader : Loader) (file : ClassFile) (name : List UInt8) :
    (loader.register file).2.find? name =
      if name = file.name.bytes then some loader.classes.size else loader.find? name := by
  simp only [register, find?, Std.HashMap.getElem?_insert, beq_iff_eq]
  simp only [eq_comm]

theorem classAt_register_self (loader : Loader) (file : ClassFile) :
    (loader.register file).2.classAt loader.classes.size = .ok file := by
  rw [classAt_eq_ok_iff]
  exact Array.getElem?_push_size

theorem classAt_register_of_ok (h : loader.classAt id = .ok file) :
    (loader.register file').2.classAt id = .ok file := by
  rw [classAt_eq_ok_iff] at h ⊢
  obtain ⟨hlt, -⟩ := Array.getElem?_eq_some_iff.mp h
  exact (Array.getElem?_push_lt hlt).trans (by rw [← Array.getElem?_eq_getElem hlt, h])

/-- A class that a registration leaves in some place was there before, or is the one registered. -/
theorem classAt_of_register (h : (loader.register file').2.classAt id = .ok file) :
    loader.classAt id = .ok file ∨ id = loader.classes.size ∧ file = file' := by
  rw [classAt_eq_ok_iff] at h ⊢
  have hpush : (loader.classes.push file')[id]? = some file := h
  rw [Array.getElem?_push] at hpush
  split at hpush
  · rename_i hid
    exact Or.inr ⟨hid, (Option.some.inj hpush).symm⟩
  · exact Or.inl hpush

theorem classAt_set (loader : Loader) (id : ClassId) (file : ClassFile) (other : ClassId) :
    { loader with classes := loader.classes.setIfInBounds id file }.classAt other =
      if other = id ∧ id < loader.classes.size then .ok file else loader.classAt other := by
  unfold classAt
  dsimp only
  rw [Array.getElem?_setIfInBounds]
  by_cases hid : id = other
  · subst hid
    by_cases hlt : id < loader.classes.size
    · simp [hlt]
    · simp [hlt]
  · simp [hid, Ne.symm hid]

theorem find?_of_load {report : Report} (h : Loads loader name report) (hid : report.result = .ok id) :
    report.after.find? name = some id := by
  cases h with
  | known hfind => exact Except.ok.inj hid ▸ hfind
  | loaded _ _ _ hname =>
      obtain rfl := Except.ok.inj hid
      rw [find?_register, if_pos hname.symm]
  | _ => cases hid

theorem classAt_of_load {report : Report} (h : Loads loader name report)
    (hfile : loader.classAt id = .ok file) : report.after.classAt id = .ok file := by
  cases h with
  | loaded => exact classAt_register_of_ok hfile
  | _ => exact hfile

end Registry

inductive Defines (loader : Loader) (label : String) (bytes : List UInt8) : Report → Prop
  | malformed {failure : Failure} {symbols : SymbolTable} :
      ClassFile.decode loader.options bytes loader.symbols = (.error failure, symbols) →
        Defines loader label bytes ⟨.error (.ofDecoding label failure), [], { loader with symbols }⟩
  | known {file : ClassFile} {symbols : SymbolTable} {id : ClassId} :
      ClassFile.decode loader.options bytes loader.symbols = (.ok file, symbols) →
        loader.find? file.name.bytes = some id →
          Defines loader label bytes ⟨.ok id, [], { loader with symbols }⟩
  | defined {file : ClassFile} {symbols : SymbolTable} :
      ClassFile.decode loader.options bytes loader.symbols = (.ok file, symbols) →
        loader.find? file.name.bytes = none →
          Defines loader label bytes
            ⟨.ok loader.classes.size, [], ({ loader with symbols }.register file).2⟩

theorem defines_define (loader : Loader) (label : String) (bytes : List UInt8) :
    Defines loader label bytes (loader.define label bytes) := by
  cases hdecode : ClassFile.decode loader.options bytes loader.symbols with
  | mk result symbols =>
      cases result with
      | error failure =>
          simp only [define, Loader.decode, hdecode, Except.mapError_error]
          exact .malformed hdecode
      | ok file =>
          simp only [define, Loader.decode, hdecode, Except.mapError_ok]
          split
          · rename_i id hfind
            exact .known hdecode hfind
          · rename_i hfind
            exact .defined hdecode hfind

theorem entityAt_eq_ok_iff {entity : ClassEntity} : loader.entityAt id index = .ok entity ↔
    ∃ file, loader.classAt id = .ok file ∧ file.pool.get? index = some (.classEntity entity) := by
  unfold entityAt
  cases loader.classAt id with
  | error fault => simp [bind, Except.bind]
  | ok file => simp [bind, Except.bind, ConstantPool.classAt_eq_ok_iff]

/-- The loader after a class slot was linked. -/
def linked (loader : Loader) (id : ClassId) (file : ClassFile) (pool : ConstantPool) : Loader :=
  { loader with classes := loader.classes.setIfInBounds id { file with pool } }

theorem settle_of_unresolved {file : ClassFile} {name : Symbol} (target : ClassId)
    (hfile : loader.classAt id = .ok file)
    (hslot : file.pool.get? index = some (.classEntity (.unresolved name))) :
    (∃ fault, loader.classAt target = .error fault ∧
      loader.settle id index target = .error fault) ∨
    ∃ targetFile pool, loader.classAt target = .ok targetFile ∧
      file.pool.put index (.classEntity (.resolved ⟨target, targetFile.name⟩)) = .ok pool ∧
        loader.settle id index target = .ok (target, loader.linked id file pool) := by
  have hclass := ConstantPool.classAt_eq_ok_iff.mpr hslot
  cases htarget : loader.classAt target with
  | error fault =>
      refine Or.inl ⟨fault, rfl, ?_⟩
      simp [settle, linkSlot, handle, hfile, htarget, bind, Except.bind]
  | ok targetFile =>
      obtain ⟨pool, hput⟩ := (ConstantPool.put_eq_ok_iff file.pool index
        (.classEntity (.resolved ⟨target, targetFile.name⟩))).mpr (ConstantPool.isValid_of_some hslot)
      have hlink : loader.linkSlot id index target = .ok (loader.linked id file pool) := by
        simp [linkSlot, handle, hfile, htarget, ConstantPool.resolveAt, hclass, hput, linked, bind,
          Except.bind, pure, Except.pure]
      have hentity : (loader.linked id file pool).entityAt id index =
          .ok (.resolved ⟨target, targetFile.name⟩) := by
        obtain ⟨hlt, -⟩ := Array.getElem?_eq_some_iff.mp (classAt_eq_ok_iff.mp hfile)
        rw [entityAt_eq_ok_iff, linked]
        refine ⟨_, (classAt_set _ _ _ _).trans (if_pos ⟨rfl, hlt⟩), ?_⟩
        exact (ConstantPool.get?_of_put hput index).trans (if_pos rfl)
      refine Or.inr ⟨targetFile, pool, rfl, hput, ?_⟩
      simp [settle, hlink, hentity, bind, Except.bind, pure, Except.pure]

inductive Resolves (loader : Loader) (id : ClassId) (index : UInt16) : Report → Prop
  | fault {fault : Fault} : loader.entityAt id index = .error fault →
      Resolves loader id index ⟨.error (.fault fault), [], loader⟩
  | known {file : ClassFile} {handle : ClassHandle} : loader.classAt id = .ok file →
      file.pool.get? index = some (.classEntity (.resolved handle)) →
        Resolves loader id index ⟨.ok handle.id, [], loader⟩
  | failed {file : ClassFile} {name : Symbol} {failure : LoadFailure} : loader.classAt id = .ok file →
      file.pool.get? index = some (.classEntity (.unresolved name)) →
        (loader.load name.bytes).result = .error failure →
          Resolves loader id index
            ⟨.error failure, (loader.load name.bytes).lookups, (loader.load name.bytes).after⟩
  | unknown {file : ClassFile} {name : Symbol} {target : ClassId} {fault : Fault} :
      loader.classAt id = .ok file →
        file.pool.get? index = some (.classEntity (.unresolved name)) →
          (loader.load name.bytes).result = .ok target →
            (loader.load name.bytes).after.classAt target = .error fault →
              Resolves loader id index ⟨.error (.fault fault), (loader.load name.bytes).lookups,
                (loader.load name.bytes).after⟩
  | linked {file targetFile : ClassFile} {name : Symbol} {target : ClassId} {pool : ConstantPool} :
      loader.classAt id = .ok file →
        file.pool.get? index = some (.classEntity (.unresolved name)) →
          (loader.load name.bytes).result = .ok target →
            (loader.load name.bytes).after.classAt target = .ok targetFile →
              file.pool.put index (.classEntity (.resolved ⟨target, targetFile.name⟩)) = .ok pool →
                Resolves loader id index ⟨.ok target, (loader.load name.bytes).lookups,
                  (loader.load name.bytes).after.linked id file pool⟩

theorem resolve_of_unresolved {name : Symbol} (h : loader.entityAt id index = .ok (.unresolved name)) :
    loader.resolve id index =
      match (loader.load name.bytes).result with
      | .error failure =>
          ⟨.error failure, (loader.load name.bytes).lookups, (loader.load name.bytes).after⟩
      | .ok target =>
          match (loader.load name.bytes).after.settle id index target with
          | .ok (target, after) => ⟨.ok target, (loader.load name.bytes).lookups, after⟩
          | .error fault =>
              ⟨.error (.fault fault), (loader.load name.bytes).lookups,
                (loader.load name.bytes).after⟩ := by
  unfold resolve
  rw [h]
  dsimp only
  obtain ⟨result, lookups, after⟩ := loader.load name.bytes
  cases result <;> rfl

theorem resolves_resolve (loader : Loader) (id : ClassId) (index : UInt16) :
    Resolves loader id index (loader.resolve id index) := by
  cases hentity : loader.entityAt id index with
  | error fault =>
      unfold resolve
      rw [hentity]
      exact .fault hentity
  | ok entity =>
      obtain ⟨file, hfile, hslot⟩ := entityAt_eq_ok_iff.mp hentity
      cases entity with
      | resolved handle =>
          unfold resolve
          rw [hentity]
          exact .known hfile hslot
      | unresolved name =>
          rw [resolve_of_unresolved hentity]
          cases hresult : (loader.load name.bytes).result with
          | error failure => exact .failed hfile hslot hresult
          | ok target =>
              dsimp only
              have hafter := classAt_of_load (loads_load loader name.bytes) hfile
              rcases settle_of_unresolved target hafter hslot with
                ⟨fault, htarget, hsettle⟩ | ⟨targetFile, pool, htarget, hput, hsettle⟩
              · rw [hsettle]
                exact .unknown hfile hslot hresult htarget
              · rw [hsettle]
                exact .linked hfile hslot hresult htarget hput

/-- A way in which an operation changes a loader. -/
inductive Step (loader : Loader) : Loader → Prop
  | addEntry (entry : ClassPathEntry) : Step loader (loader.addEntry entry)
  | decode {bytes : List UInt8} {result : Except Failure ClassFile} {symbols : SymbolTable} :
      ClassFile.decode loader.options bytes loader.symbols = (result, symbols) →
        Step loader { loader with symbols }
  | register {bytes : List UInt8} {file : ClassFile} {symbols : SymbolTable} :
      ClassFile.decode loader.options bytes loader.symbols = (.ok file, symbols) →
        loader.find? file.name.bytes = none → Step loader ({ loader with symbols }.register file).2
  | link {id target : ClassId} {index : UInt16} {file targetFile : ClassFile} {name : Symbol}
      {pool : ConstantPool} : loader.classAt id = .ok file →
        file.pool.get? index = some (.classEntity (.unresolved name)) →
          loader.find? name.bytes = some target → loader.classAt target = .ok targetFile →
            file.pool.put index (.classEntity (.resolved ⟨target, targetFile.name⟩)) = .ok pool →
              Step loader (loader.linked id file pool)

abbrev Steps : Loader → Loader → Prop := Relation.ReflTransGen Step

theorem options_of_step {loader' : Loader} (h : Step loader loader') : loader'.options = loader.options := by
  cases h <;> rfl

theorem options_of_steps {loader' : Loader} (h : Steps loader loader') :
    loader'.options = loader.options := by
  induction h with
  | refl => rfl
  | tail _ hstep ih => exact (options_of_step hstep).trans ih

theorem find?_of_step {loader' : Loader} (h : Step loader loader') (hfind : loader.find? name = some id) :
    loader'.find? name = some id := by
  cases h with
  | addEntry | decode | link => exact hfind
  | @register bytes file symbols hdecode hnone =>
      have hne : name ≠ file.name.bytes := by
        intro heq
        subst heq
        rw [hnone] at hfind
        cases hfind
      rw [find?_register, if_neg hne]
      exact hfind

/-- A name stays registered for the class that it was registered for first. -/
theorem find?_of_steps {loader' : Loader} (h : Steps loader loader')
    (hfind : loader.find? name = some id) : loader'.find? name = some id := by
  induction h with
  | refl => exact hfind
  | tail _ hstep ih => exact find?_of_step hstep ih

theorem steps_of_load {report : Report} (h : Loads loader name report) : Steps loader report.after := by
  cases h with
  | known | failed | missed => exact .refl
  | malformed _ _ hdecode => exact .single (.decode hdecode)
  | misnamed _ _ hdecode _ => exact .single (.decode hdecode)
  | loaded hfind _ hdecode hname => exact .single (.register hdecode (hname ▸ hfind))

inductive Request where
  | addEntry (entry : ClassPathEntry)
  | find (name : List UInt8)
  | load (name : List UInt8)
  | define (label : String) (bytes : List UInt8)
  | resolve (id : ClassId) (index : UInt16)

def perform (loader : Loader) : Request → Loader
  | .addEntry entry => loader.addEntry entry
  | .find _ => loader
  | .load name => (loader.load name).after
  | .define label bytes => (loader.define label bytes).after
  | .resolve id index => (loader.resolve id index).after

def run (loader : Loader) (requests : List Request) : Loader := requests.foldl perform loader

theorem steps_of_define {label : String} {bytes : List UInt8} {report : Report}
    (h : Defines loader label bytes report) : Steps loader report.after := by
  cases h with
  | malformed hdecode => exact .single (.decode hdecode)
  | known hdecode _ => exact .single (.decode hdecode)
  | defined hdecode hfind => exact .single (.register hdecode hfind)

theorem steps_of_resolve {report : Report} (h : Resolves loader id index report) :
    Steps loader report.after := by
  have hload (name : Symbol) := steps_of_load (loads_load loader name.bytes)
  cases h with
  | fault | known => exact .refl
  | failed _ _ _ | unknown _ _ _ _ => exact hload _
  | @linked file targetFile name target pool hfile hslot hresult htarget hput =>
      have hfind := find?_of_load (loads_load loader name.bytes) hresult
      have hafter := classAt_of_load (loads_load loader name.bytes) hfile
      exact (hload name).tail (.link hafter hslot hfind htarget hput)

theorem steps_perform (loader : Loader) (request : Request) : Steps loader (loader.perform request) := by
  cases request with
  | addEntry entry => exact .single (.addEntry entry)
  | find name => exact .refl
  | load name => exact steps_of_load (loads_load loader name)
  | define label bytes => exact steps_of_define (defines_define loader label bytes)
  | resolve id index => exact steps_of_resolve (resolves_resolve loader id index)

/-- Whatever is asked of a loader, its state changes in steps. -/
theorem steps_run (loader : Loader) (requests : List Request) : Steps loader (loader.run requests) := by
  induction requests generalizing loader with
  | nil => exact .refl
  | cons request requests ih => exact (steps_perform loader request).trans (ih _)

end ClassLoading.Loader
