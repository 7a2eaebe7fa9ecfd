import ClassLoading.Proofs.Loader.WellLinked

/-!
# Coherence

The registry of a loader and the class slots of its classes agree: a class slot keeps the name it was
decoded with, until it refers to the class that the registry holds under that name. Nothing else about
a registered class ever changes.
-/

namespace ClassLoading.Loader

variable {loader loader' loader'' : Loader} {name : List UInt8} {id target : ClassId} {index : UInt16}
  {file origin : ClassFile} {handle : ClassHandle} {report : Report} {requests : List Request}

theorem handle_eq_ok_iff : loader.handle id = .ok handle ↔
    ∃ file, loader.classAt id = .ok file ∧ handle = ⟨id, file.name⟩ := by
  unfold Loader.handle
  cases loader.classAt id with
  | error fault => simp [bind, Except.bind]
  | ok file => simp [bind, Except.bind, pure, Except.pure, eq_comm]

theorem classAt_linked (pool : ConstantPool) (hfile : loader.classAt id = .ok file) (other : ClassId) :
    (loader.linked id file pool).classAt other =
      if other = id then .ok { file with pool } else loader.classAt other := by
  obtain ⟨hlt, -⟩ := Array.getElem?_eq_some_iff.mp (classAt_eq_ok_iff.mp hfile)
  rw [Loader.linked, classAt_set]
  simp only [hlt, and_true]

/-- The registry holds the class of a handle under a name, which is the name of that class. -/
structure Registers (loader : Loader) (name : Symbol) (handle : ClassHandle) : Prop where
  find?_eq : loader.find? name.bytes = some handle.id
  handle_eq : loader.handle handle.id = .ok handle
  bytes_eq : handle.name.bytes = name.bytes

/-- Every name is registered for a class of that name, every class is registered, and a resolved slot
refers to a registered class. -/
structure Coherent (loader : Loader) : Prop where
  registered : ∀ {name id}, loader.find? name = some id →
    ∃ file, loader.classAt id = .ok file ∧ file.name.bytes = name
  listed : ∀ {id file}, loader.classAt id = .ok file → loader.find? file.name.bytes = some id
  resolved : ∀ {id file index handle}, loader.classAt id = .ok file →
    file.pool.get? index = some (.classEntity (.resolved handle)) → loader.Registers handle.name handle

theorem Coherent.registers (h : loader.Coherent) {slotName : Symbol}
    (hfind : loader.find? slotName.bytes = some target) (htarget : loader.classAt target = .ok file) :
    loader.Registers slotName ⟨target, file.name⟩ := by
  obtain ⟨_, htarget', hbytes⟩ := h.registered hfind
  obtain rfl := Except.ok.inj (htarget.symm.trans htarget')
  exact ⟨hfind, handle_eq_ok_iff.mpr ⟨_, htarget, rfl⟩, hbytes⟩

/-- A pool may have class slots resolved that were not, if `touched` allows it, and then to the class
that `loader` has registered under the name of the slot. Its other slots are as they were. -/
structure Settles (loader : Loader) (touched : UInt16 → Prop) (pool pool' : ConstantPool) : Prop where
  size_eq : pool'.size = pool.size
  slots : ∀ index, pool'.get? index = pool.get? index ∨ touched index ∧ ∃ name handle,
    pool.get? index = some (.classEntity (.unresolved name)) ∧
      pool'.get? index = some (.classEntity (.resolved handle)) ∧ loader.Registers name handle

namespace Settles

variable {touched : UInt16 → Prop} {pool pool' pool'' : ConstantPool}

theorem refl (pool : ConstantPool) : Settles loader touched pool pool := ⟨rfl, fun _ => Or.inl rfl⟩

theorem trans (h : Settles loader touched pool pool') (h' : Settles loader' touched pool' pool'')
    (hkept : ∀ {name handle}, loader.Registers name handle → loader'.Registers name handle) :
    Settles loader' touched pool pool'' := by
  refine ⟨h'.size_eq.trans h.size_eq, fun index => ?_⟩
  rcases h.slots index with hsame | ⟨htouched, name, handle, hname, hhandle, hregisters⟩
  · rw [← hsame]
    exact h'.slots index
  · -- What was resolved once is not unresolved, so it stays.
    rcases h'.slots index with hsame' | ⟨-, _, _, hname', -, -⟩
    · exact Or.inr ⟨htouched, name, handle, hname, hsame'.trans hhandle, hkept hregisters⟩
    · rw [hhandle] at hname'
      cases hname'

end Settles

/-- The registered classes stay what they are, where they are and under their names, but for slots that
`touched` allows to be resolved. -/
structure Extends (touched : ClassId → UInt16 → Prop) (loader loader' : Loader) : Prop where
  find?_eq : ∀ {name id}, loader.find? name = some id → loader'.find? name = some id
  classes : ∀ {id file}, loader.classAt id = .ok file → ∃ pool,
    loader'.classAt id = .ok { file with pool } ∧ Settles loader' (touched id) file.pool pool

namespace Extends

variable {touched touched' : ClassId → UInt16 → Prop}

theorem of_eq (hclasses : loader'.classes = loader.classes)
    (hregistry : loader'.registry = loader.registry) : Extends touched loader loader' := by
  constructor
  · intro name id hfind
    rw [find?, hregistry]
    exact hfind
  · intro id file hfile
    refine ⟨file.pool, ?_, .refl file.pool⟩
    rw [classAt, hclasses]
    exact hfile

theorem refl (loader : Loader) : Extends touched loader loader := of_eq rfl rfl

theorem registers (h : Extends touched loader loader') {slotName : Symbol}
    (hregisters : loader.Registers slotName handle) : loader'.Registers slotName handle := by
  obtain ⟨file, hfile, hhandle⟩ := handle_eq_ok_iff.mp hregisters.handle_eq
  obtain ⟨pool, hfile', -⟩ := h.classes hfile
  exact ⟨h.find?_eq hregisters.find?_eq, handle_eq_ok_iff.mpr ⟨_, hfile', hhandle⟩, hregisters.bytes_eq⟩

theorem trans (h : Extends touched loader loader') (h' : Extends touched loader' loader'') :
    Extends touched loader loader'' := by
  refine ⟨fun hfind => h'.find?_eq (h.find?_eq hfind), fun hfile => ?_⟩
  obtain ⟨pool, hfile', hsettles⟩ := h.classes hfile
  obtain ⟨pool', hfile'', hsettles'⟩ := h'.classes hfile'
  exact ⟨pool', hfile'', hsettles.trans hsettles' h'.registers⟩

theorem mono (h : Extends touched loader loader')
    (hle : ∀ id index, touched id index → touched' id index) : Extends touched' loader loader' := by
  refine ⟨h.find?_eq, fun hfile => ?_⟩
  obtain ⟨pool, hfile', hsize, hslots⟩ := h.classes hfile
  exact ⟨pool, hfile', hsize, fun index => (hslots index).imp_right fun ⟨htouched, hresolved⟩ =>
    ⟨hle _ _ htouched, hresolved⟩⟩

theorem register (hnew : loader.find? file.name.bytes = none) :
    Extends touched loader (loader.register file).2 := by
  constructor
  · intro name id hfind
    have hne : name ≠ file.name.bytes := by
      rintro rfl
      rw [hnew] at hfind
      cases hfind
    rw [find?_register, if_neg hne]
    exact hfind
  · intro id old hold
    exact ⟨old.pool, classAt_register_of_ok hold, .refl old.pool⟩

theorem linked {slotName : Symbol} {pool : ConstantPool} (hfile : loader.classAt id = .ok file)
    (hslot : file.pool.get? index = some (.classEntity (.unresolved slotName)))
    (hregisters : loader.Registers slotName handle)
    (hput : file.pool.put index (.classEntity (.resolved handle)) = .ok pool) :
    Extends (fun other i => other = id ∧ i = index) loader (loader.linked id file pool) := by
  have hkept : (loader.linked id file pool).Registers slotName handle := by
    refine ⟨hregisters.find?_eq, ?_, hregisters.bytes_eq⟩
    obtain ⟨target, htarget, hhandle⟩ := handle_eq_ok_iff.mp hregisters.handle_eq
    rw [handle_eq_ok_iff, classAt_linked pool hfile]
    split
    · rename_i hid
      rw [hid, hfile] at htarget
      obtain rfl := Except.ok.inj htarget
      exact ⟨_, rfl, hhandle⟩
    · exact ⟨target, htarget, hhandle⟩
  refine ⟨fun hfind => hfind, fun {other old} hold => ?_⟩
  rw [classAt_linked pool hfile]
  split
  · rename_i hid
    subst hid
    obtain rfl := Except.ok.inj (hfile.symm.trans hold)
    refine ⟨pool, rfl, ConstantPool.size_of_put hput, fun i => ?_⟩
    rw [ConstantPool.get?_of_put hput]
    split
    · rename_i hi
      subst hi
      exact Or.inr ⟨⟨rfl, rfl⟩, slotName, handle, hslot, rfl, hkept⟩
    · exact Or.inl rfl
  · exact ⟨old.pool, hold, .refl old.pool⟩

end Extends

namespace Coherent

theorem empty (options : Options) (symbols : SymbolTable) : Coherent (.empty options symbols) := by
  constructor
  · intro name id hfind
    simp [Loader.empty, find?] at hfind
  all_goals
    intro id file
    intros
    simp_all [classAt_eq_ok_iff, Loader.empty]

theorem of_eq (h : loader.Coherent) (hclasses : loader'.classes = loader.classes)
    (hregistry : loader'.registry = loader.registry) : loader'.Coherent := by
  have hextends : Extends (fun _ _ => False) loader loader' := .of_eq hclasses hregistry
  have hclassAt (id : ClassId) : loader'.classAt id = loader.classAt id := by
    rw [classAt, hclasses, classAt]
  have hfind? (name : List UInt8) : loader'.find? name = loader.find? name := by
    rw [find?, hregistry, find?]
  constructor
  · intro name id hfind
    rw [hfind?] at hfind
    rw [hclassAt]
    exact h.registered hfind
  · intro id file hfile
    rw [hclassAt] at hfile
    exact hextends.find?_eq (h.listed hfile)
  · intro id file index handle hfile hslot
    rw [hclassAt] at hfile
    exact hextends.registers (h.resolved hfile hslot)

theorem register (h : loader.Coherent) (hnew : loader.find? file.name.bytes = none)
    (hpool : file.pool.Unresolved) : (loader.register file).2.Coherent := by
  have hextends : Extends (fun _ _ => False) loader (loader.register file).2 := .register hnew
  constructor
  · intro name id hname
    rw [find?_register] at hname
    split at hname
    · rename_i hself
      obtain rfl := Option.some.inj hname
      exact ⟨file, classAt_register_self loader file, hself.symm⟩
    · obtain ⟨old, hold, hbytes⟩ := h.registered hname
      exact ⟨old, classAt_register_of_ok hold, hbytes⟩
  · intro id other hother
    rcases classAt_of_register hother with hold | ⟨rfl, rfl⟩
    · exact hextends.find?_eq (h.listed hold)
    · rw [find?_register, if_pos rfl]
  · intro id other index handle hother hslot
    rcases classAt_of_register hother with hold | ⟨-, rfl⟩
    · exact hextends.registers (h.resolved hold hslot)
    · -- A class that was just decoded has no resolved slot.
      obtain ⟨name, hname⟩ := hpool index _ hslot
      cases hname

theorem linked (h : loader.Coherent) {slotName : Symbol} {pool : ConstantPool}
    (hfile : loader.classAt id = .ok file)
    (hslot : file.pool.get? index = some (.classEntity (.unresolved slotName)))
    (hregisters : loader.Registers slotName handle)
    (hput : file.pool.put index (.classEntity (.resolved handle)) = .ok pool) :
    (loader.linked id file pool).Coherent := by
  have hextends := Extends.linked hfile hslot hregisters hput
  have hback {other : ClassId} {file' : ClassFile}
      (hfile' : (loader.linked id file pool).classAt other = .ok file') :
      ∃ old, loader.classAt other = .ok old ∧ file' = { old with pool := file'.pool } ∧
        Settles (loader.linked id file pool) (fun i => other = id ∧ i = index) old.pool file'.pool := by
    cases hold : loader.classAt other with
    | ok old =>
        obtain ⟨pool', hpool', hsettles⟩ := hextends.classes hold
        obtain rfl := Except.ok.inj (hfile'.symm.trans hpool')
        exact ⟨old, rfl, rfl, hsettles⟩
    | error fault =>
        rw [classAt_linked pool hfile] at hfile'
        split at hfile'
        · rename_i hid
          rw [hid, hfile] at hold
          cases hold
        · rw [hold] at hfile'
          cases hfile'
  constructor
  · intro name other hother
    obtain ⟨old, hold, hbytes⟩ := h.registered hother
    obtain ⟨pool', hfile', -⟩ := hextends.classes hold
    exact ⟨_, hfile', hbytes⟩
  · intro other file' hfile'
    obtain ⟨old, hold, hsame, -⟩ := hback hfile'
    have hlisted := hextends.find?_eq (h.listed hold)
    rw [hsame]
    exact hlisted
  · intro other file' i handle' hfile' hhandle'
    obtain ⟨old, hold, -, hsettles⟩ := hback hfile'
    rcases hsettles.slots i with hsame | ⟨-, name, settled, -, hsettled, hregisters'⟩
    · exact hextends.registers (h.resolved hold (hsame ▸ hhandle'))
    · rw [hhandle'] at hsettled
      obtain rfl : handle' = settled := by simpa using hsettled
      exact ⟨hregisters'.bytes_eq ▸ hregisters'.find?_eq, hregisters'.handle_eq, rfl⟩

theorem step (h : loader.Coherent) (hstep : Step loader loader') : loader'.Coherent := by
  cases hstep with
  | addEntry entry => exact h.of_eq rfl rfl
  | decode hdecode => exact h.of_eq rfl rfl
  | @register bytes file symbols hdecode hnew =>
      have hsymbols : { loader with symbols }.Coherent := h.of_eq rfl rfl
      exact hsymbols.register hnew (ClassFile.unresolved_of_decode hdecode)
  | link hfile hslot hfind htarget hput => exact h.linked hfile hslot (h.registers hfind htarget) hput

theorem steps (h : loader.Coherent) (hsteps : Steps loader loader') : loader'.Coherent := by
  induction hsteps with
  | refl => exact h
  | tail _ hstep ih => exact ih.step hstep

end Coherent

theorem coherent_run (options : Options) (symbols : SymbolTable) (requests : List Request) :
    ((empty options symbols).run requests).Coherent :=
  (Coherent.empty options symbols).steps (steps_run _ requests)

/-- The only slot that a request may resolve is the one that it asks to resolve. -/
def Request.Touches (request : Request) (id : ClassId) (index : UInt16) : Prop :=
  request = .resolve id index

section Requests

variable {touched : ClassId → UInt16 → Prop} {request : Request}

theorem extends_of_load (h : Loads loader name report) : Extends touched loader report.after := by
  cases h with
  | known | failed | missed | malformed | misnamed => exact .of_eq rfl rfl
  | @loaded bytes file symbols hfind _ _ hname =>
      have hsymbols : Extends touched loader { loader with symbols } := .of_eq rfl rfl
      exact hsymbols.trans (.register (hname ▸ hfind))

theorem extends_of_define {label : String} {bytes : List UInt8}
    (h : Defines loader label bytes report) : Extends touched loader report.after := by
  cases h with
  | malformed | known => exact .of_eq rfl rfl
  | @defined file symbols _ hfind =>
      have hsymbols : Extends touched loader { loader with symbols } := .of_eq rfl rfl
      exact hsymbols.trans (.register hfind)

/-- The class loaded for a slot is registered under the name of the slot. -/
theorem Coherent.registers_of_load {slotName : Symbol} {targetFile : ClassFile} (h : loader.Coherent)
    (hresult : (loader.load slotName.bytes).result = .ok target)
    (htarget : (loader.load slotName.bytes).after.classAt target = .ok targetFile) :
    (loader.load slotName.bytes).after.Registers slotName ⟨target, targetFile.name⟩ := by
  have hloads := loads_load loader slotName.bytes
  exact (h.steps (steps_of_load hloads)).registers (find?_of_load hloads hresult) htarget

theorem extends_of_resolve (h : loader.Coherent) (hresolves : Resolves loader id index report) :
    Extends (Request.resolve id index).Touches loader report.after := by
  have hload (slotName : Symbol) : Extends (Request.resolve id index).Touches loader
      (loader.load slotName.bytes).after := extends_of_load (loads_load loader slotName.bytes)
  cases hresolves with
  | fault | known => exact .refl loader
  | failed | unknown => exact hload _
  | @linked file targetFile slotName target pool hfile hslot hresult htarget hput =>
      have hloads := loads_load loader slotName.bytes
      have hlinked := Extends.linked (classAt_of_load hloads hfile) hslot
        (h.registers_of_load hresult htarget) hput
      refine (hload slotName).trans (hlinked.mono ?_)
      rintro _ _ ⟨rfl, rfl⟩
      rfl

theorem extends_perform (h : loader.Coherent) (request : Request) :
    Extends request.Touches loader (loader.perform request) := by
  cases request with
  | addEntry entry => exact .of_eq rfl rfl
  | find name => exact .refl loader
  | load name => exact extends_of_load (loads_load loader name)
  | define label bytes => exact extends_of_define (defines_define loader label bytes)
  | resolve id index => exact extends_of_resolve h (resolves_resolve loader id index)

theorem extends_run (h : loader.Coherent) (requests : List Request) :
    Extends (fun _ _ => True) loader (loader.run requests) := by
  induction requests generalizing loader with
  | nil => exact .refl loader
  | cons request requests ih =>
      have hrequest := (extends_perform h request).mono fun _ _ _ => trivial
      exact hrequest.trans (ih (h.steps (steps_perform loader request)))

theorem error_of_load {failure : LoadFailure} (h : Loads loader name report)
    (hresult : report.result = .error failure) : ∃ error, failure = .error error := by
  cases h with
  | known | loaded => cases hresult
  | failed | missed | misnamed => exact ⟨_, (Except.error.inj hresult).symm⟩
  | @malformed bytes broken symbols _ _ hdecode =>
      cases broken with
      | format error => exact ⟨_, (Except.error.inj hresult).symm⟩
      | fault fault =>
          have hsafe := ClassFile.decode_safe loader.options bytes loader.symbols fault
          exact absurd (congrArg Prod.fst hdecode) hsafe

/-- A class slot that is asked for is resolved then, or its class cannot be loaded and it is left as it
is. -/
theorem Coherent.entityAt_of_resolves (h : loader.Coherent)
    (hresolves : Resolves loader id index report) {entity : ClassEntity}
    (hentity : loader.entityAt id index = .ok entity) :
    (∃ handle, report.result = .ok handle.id ∧ report.after.entityAt id index = .ok (.resolved handle)) ∨
      ∃ slotName error, entity = .unresolved slotName ∧ report.result = .error (.error error) ∧
        report.after.entityAt id index = .ok (.unresolved slotName) := by
  cases hresolves with
  | fault hfault =>
      rw [hentity] at hfault
      cases hfault
  | @known file handle hfile hslot =>
      exact Or.inl ⟨handle, rfl, entityAt_eq_ok_iff.mpr ⟨file, hfile, hslot⟩⟩
  | @failed file slotName failure hfile hslot hresult =>
      have hloads := loads_load loader slotName.bytes
      obtain ⟨error, rfl⟩ := error_of_load hloads hresult
      have hafter := classAt_of_load hloads hfile
      have hslotEntity := entityAt_eq_ok_iff.mpr ⟨file, hfile, hslot⟩
      obtain rfl := Except.ok.inj (hentity.symm.trans hslotEntity)
      exact Or.inr ⟨slotName, error, rfl, rfl, entityAt_eq_ok_iff.mpr ⟨file, hafter, hslot⟩⟩
  | @unknown file slotName target fault hfile hslot hresult htarget =>
      -- What was loaded is registered, so it is there.
      have hloads := loads_load loader slotName.bytes
      obtain ⟨targetFile, htargetFile, -⟩ :=
        (h.steps (steps_of_load hloads)).registered (find?_of_load hloads hresult)
      rw [htarget] at htargetFile
      cases htargetFile
  | @linked file targetFile slotName target pool hfile hslot hresult htarget hput =>
      have hafter := classAt_of_load (loads_load loader slotName.bytes) hfile
      refine Or.inl ⟨⟨target, targetFile.name⟩, rfl,
        entityAt_eq_ok_iff.mpr ⟨{ file with pool }, ?_, ?_⟩⟩
      · rw [classAt_linked pool hafter, if_pos rfl]
      · rw [ConstantPool.get?_of_put hput, if_pos rfl]

theorem resolve_of_resolved (h : loader.entityAt id index = .ok (.resolved handle)) :
    loader.resolve id index = ⟨.ok handle.id, [], loader⟩ := by
  unfold resolve
  rw [h]

/-- What a class slot refers to, some time later. -/
theorem Extends.entityAt {entity : ClassEntity} (h : Extends touched loader loader')
    (hentity : loader.entityAt id index = .ok entity) :
    loader'.entityAt id index = .ok entity ∨ ∃ slotName handle, entity = .unresolved slotName ∧
      loader'.entityAt id index = .ok (.resolved handle) ∧ loader'.Registers slotName handle := by
  obtain ⟨file, hfile, hslot⟩ := entityAt_eq_ok_iff.mp hentity
  obtain ⟨pool, hfile', hsettles⟩ := h.classes hfile
  have hentity' {entity' : ClassEntity} (h' : pool.get? index = some (.classEntity entity')) :
      loader'.entityAt id index = .ok entity' := entityAt_eq_ok_iff.mpr ⟨{ file with pool }, hfile', h'⟩
  rcases hsettles.slots index with hsame | ⟨-, slotName, handle, hname, hhandle, hregisters⟩
  · exact Or.inl (hentity' (hsame.trans hslot))
  · obtain rfl : entity = .unresolved slotName := by simpa using hslot.symm.trans hname
    exact Or.inr ⟨slotName, handle, rfl, hentity' hhandle, hregisters⟩

theorem Extends.name_entityAt {entity : ClassEntity} (h : Extends touched loader loader')
    (hentity : loader.entityAt id index = .ok entity) :
    ∃ entity', loader'.entityAt id index = .ok entity' ∧
      entity'.name.bytes = entity.name.bytes ∧ (entity.isUnresolved = false → entity' = entity) := by
  rcases h.entityAt hentity with hkept | ⟨slotName, handle, rfl, hhandle, hregisters⟩
  · exact ⟨entity, hkept, rfl, fun _ => rfl⟩
  · exact ⟨.resolved handle, hhandle, hregisters.bytes_eq, nofun⟩

theorem Coherent.find?_of_entityAt (h : loader.Coherent)
    (hentity : loader.entityAt id index = .ok (.resolved handle)) :
    loader.find? handle.name.bytes = some handle.id := by
  obtain ⟨file, hfile, hslot⟩ := entityAt_eq_ok_iff.mp hentity
  exact (h.resolved hfile hslot).find?_eq

/-- A slot that names a registered class is resolved without asking the class path. -/
theorem Coherent.resolve_of_find? {slotName : Symbol} (h : loader.Coherent)
    (hentity : loader.entityAt id index = .ok (.unresolved slotName))
    (hfind : loader.find? slotName.bytes = some target) :
    (loader.resolve id index).result = .ok target ∧ (loader.resolve id index).lookups = [] := by
  obtain ⟨file, hfile, hslot⟩ := entityAt_eq_ok_iff.mp hentity
  have hload : loader.load slotName.bytes = ⟨.ok target, [], loader⟩ := by
    unfold load
    rw [hfind]
  obtain ⟨targetFile, htarget, -⟩ := h.registered hfind
  rcases settle_of_unresolved target hfile hslot with ⟨fault, hfault, -⟩ | ⟨_, pool, -, -, hsettle⟩
  · rw [htarget] at hfault
    cases hfault
  · rw [resolve_of_unresolved hentity]
    simp only [hload, hsettle, and_self]

/-- A class file decoded in this state takes the next place among the classes. -/
structure Enters (loader : Loader) (id : ClassId) (origin : ClassFile) : Prop where
  id_eq : id = loader.classes.size
  decoded : ∃ bytes symbols,
    ClassFile.decode loader.options bytes loader.symbols = (.ok origin, symbols)

theorem enters_of_load (h : Loads loader name report) (hfile : report.after.classAt id = .ok file) :
    loader.classAt id = .ok file ∨ loader.Enters id file := by
  cases h with
  | known | failed | missed | malformed | misnamed => exact Or.inl hfile
  | loaded _ _ hdecode =>
      rcases classAt_of_register hfile with hold | ⟨rfl, rfl⟩
      · exact Or.inl hold
      · exact Or.inr ⟨rfl, _, _, hdecode⟩

theorem enters_of_define {label : String} {bytes : List UInt8}
    (h : Defines loader label bytes report) (hfile : report.after.classAt id = .ok file) :
    loader.classAt id = .ok file ∨ loader.Enters id file := by
  cases h with
  | malformed | known => exact Or.inl hfile
  | defined hdecode =>
      rcases classAt_of_register hfile with hold | ⟨rfl, rfl⟩
      · exact Or.inl hold
      · exact Or.inr ⟨rfl, _, _, hdecode⟩

/-- A class that a request leaves behind was there before, or enters with the request. -/
theorem enters_of_perform (hfile : (loader.perform request).classAt id = .ok file) :
    (∃ old, loader.classAt id = .ok old) ∨ loader.Enters id file := by
  cases request with
  | addEntry entry => exact Or.inl ⟨file, hfile⟩
  | find name => exact Or.inl ⟨file, hfile⟩
  | load name => exact (enters_of_load (loads_load loader name) hfile).imp_left fun hold => ⟨file, hold⟩
  | define label bytes =>
      have hdefines := defines_define loader label bytes
      exact (enters_of_define hdefines hfile).imp_left fun hold => ⟨file, hold⟩
  | resolve holder index =>
      have hresolves := resolves_resolve loader holder index
      change (loader.resolve holder index).after.classAt id = .ok file at hfile
      generalize loader.resolve holder index = report at hfile hresolves
      cases hresolves with
      | fault | known => exact Or.inl ⟨file, hfile⟩
      | failed | unknown =>
          exact (enters_of_load (loads_load loader _) hfile).imp_left fun hold => ⟨file, hold⟩
      | @linked holderFile targetFile slotName target pool hholder hslot hresult htarget hput =>
          have hloads := loads_load loader slotName.bytes
          rw [classAt_linked pool (classAt_of_load hloads hholder)] at hfile
          split at hfile
          · rename_i hid
            exact Or.inl ⟨holderFile, hid ▸ hholder⟩
          · exact (enters_of_load hloads hfile).imp_left fun hold => ⟨file, hold⟩

theorem run_append (loader : Loader) (first rest : List Request) :
    loader.run (first ++ rest) = (loader.run first).run rest := List.foldl_append

/-- A request of a run decoded the class `origin` and registered it at `id`. -/
def Decoded (loader : Loader) (requests : List Request) (id : ClassId) (origin : ClassFile) : Prop :=
  ∃ first request rest, requests = first ++ request :: rest ∧ (loader.run first).Enters id origin ∧
    (loader.run (first ++ [request])).classAt id = .ok origin

theorem decoded_of_run (hfile : (loader.run requests).classAt id = .ok file) :
    (∃ old, loader.classAt id = .ok old) ∨ ∃ origin, Decoded loader requests id origin := by
  induction requests generalizing loader with
  | nil => exact Or.inl ⟨file, hfile⟩
  | cons request requests ih =>
      rcases ih hfile with ⟨origin, horigin⟩ | ⟨origin, first, request', rest, rfl, henters, horigin⟩
      · refine (enters_of_perform horigin).imp_right fun henters => ⟨origin, ?_⟩
        exact ⟨[], request, requests, rfl, henters, horigin⟩
      · exact Or.inr ⟨origin, request :: first, request', rest, rfl, henters, horigin⟩

/-- What a class was decoded as, it is still, but for the class slots that were resolved since. -/
theorem settles_of_decoded (h : loader.Coherent) (hdecoded : Decoded loader requests id origin)
    (hfile : (loader.run requests).classAt id = .ok file) :
    file = { origin with pool := file.pool } ∧ origin.pool.Unresolved ∧
      Settles (loader.run requests) (fun _ => True) origin.pool file.pool := by
  obtain ⟨first, request, rest, rfl, ⟨-, bytes, symbols, hdecode⟩, horigin⟩ := hdecoded
  have hrun : loader.run (first ++ request :: rest) = (loader.run (first ++ [request])).run rest := by
    rw [← run_append, List.append_assoc, List.singleton_append]
  rw [hrun] at hfile ⊢
  have hcoherent := h.steps (steps_run loader (first ++ [request]))
  obtain ⟨pool, hfile', hsettles⟩ := (extends_run hcoherent rest).classes horigin
  obtain rfl := Except.ok.inj (hfile.symm.trans hfile')
  exact ⟨rfl, ClassFile.unresolved_of_decode hdecode, hsettles⟩

/-- A class slot that was decoded with a name has that name still, or refers to the class that is
registered under it. -/
inductive ClassSlot (loader : Loader) (pool : ConstantPool) (index : UInt16) (name : Symbol) : Prop
  | unresolved : pool.kindAt index = .ok .unresolvedClass →
      pool.classAt index = .ok (.unresolved name) → ClassSlot loader pool index name
  | resolved {handle : ClassHandle} : pool.kindAt index = .ok .classRef →
      pool.classAt index = .ok (.resolved handle) → loader.Registers name handle →
        ClassSlot loader pool index name

theorem Settles.classSlot {may : UInt16 → Prop} {pool pool' : ConstantPool} {entity : ClassEntity}
    (h : Settles loader may pool pool') (hunresolved : pool.Unresolved)
    (hentity : pool'.classAt index = .ok entity) :
    ∃ name, pool.classAt index = .ok (.unresolved name) ∧ ClassSlot loader pool' index name := by
  have hslot := ConstantPool.classAt_eq_ok_iff.mp hentity
  rcases h.slots index with hsame | ⟨-, name, handle, hname, hhandle, hregisters⟩
  · have hold := hsame.symm.trans hslot
    obtain ⟨name, rfl⟩ := hunresolved index entity hold
    exact ⟨name, ConstantPool.classAt_eq_ok_iff.mpr hold,
      .unresolved (ConstantPool.kindAt_of_some hslot) hentity⟩
  · exact ⟨name, ConstantPool.classAt_eq_ok_iff.mpr hname, .resolved
      (ConstantPool.kindAt_of_some hhandle) (ConstantPool.classAt_eq_ok_iff.mpr hhandle) hregisters⟩

theorem classAt_define_plainClass :
    ∃ symbol : List UInt8 → Symbol, (∀ text, (symbol text).bytes = text) ∧
      ((empty {} .empty).run [.define "A" plainClass.encode]).classAt 0 = .ok (plainFile symbol) := by
  let symbols := SymbolTable.empty.internAll (RawConstant.texts plainClass.constants)
  have hdecode : ClassFile.decode {} (plainClass.encode ++ []) .empty =
      (.ok (plainFile symbols.instanceOf), symbols) := decode_plainClass .empty
  rw [List.append_nil] at hdecode
  refine ⟨symbols.instanceOf, symbols.bytes_instanceOf, ?_⟩
  simp only [run, List.foldl, perform, define, Loader.decode, empty, hdecode, Except.mapError_ok]
  simp only [find?, Std.HashMap.getElem?_empty]
  exact classAt_register_self ⟨[], {}, symbols, #[], ∅⟩ (plainFile symbols.instanceOf)

/-- After whatever was asked of a loader, every class is registered under its own name, and is what it
was decoded as, but for resolved class slots, which refer to the class registered under their name. A
class slot that is asked for is resolved, for ever and without asking the class path again, or is left
as it is with an error. Its name stays the same, and a request changes no slot but the one that it
resolves. -/
theorem resolution_coherent (options : Options) (symbols : SymbolTable) (requests : List Request) :
    let loader := (empty options symbols).run requests
    (∀ id file, loader.classAt id = .ok file → loader.find? file.name.bytes = some id ∧
      ∃ origin, Decoded (empty options symbols) requests id origin ∧
        file = { origin with pool := file.pool } ∧
          ∀ index entity, file.pool.classAt index = .ok entity →
            ∃ name, origin.pool.classAt index = .ok (.unresolved name) ∧
              ClassSlot loader file.pool index name) ∧
    (∀ id index entity, loader.entityAt id index = .ok entity →
      (∃ target, (loader.resolve id index).result = .ok target ∧
        (loader.resolve id index).after.find? entity.name.bytes = some target ∧
          ∀ more, ((loader.resolve id index).after.run more).resolve id index =
            ⟨.ok target, [], (loader.resolve id index).after.run more⟩) ∨
      ∃ name error, entity = .unresolved name ∧
        (loader.resolve id index).result = .error (.error error) ∧ (loader.resolve id index).after.entityAt id index = .ok (.unresolved name)) ∧
    (∀ id index entity more, loader.entityAt id index = .ok entity →
      ∃ entity', (loader.run more).entityAt id index = .ok entity' ∧
        entity'.name.bytes = entity.name.bytes ∧ (entity.isUnresolved = false → entity' = entity)) ∧
    ∀ id file request, loader.classAt id = .ok file → ∃ pool,
      (loader.perform request).classAt id = .ok { file with pool } ∧
        Settles (loader.perform request) (fun index => request = .resolve id index) file.pool pool := by
  have h := coherent_run options symbols requests
  refine ⟨fun id file hfile => ⟨h.listed hfile, ?_⟩, fun id index entity hentity => ?_,
    fun id index entity more => (extends_run h more).name_entityAt,
    fun id file request => (extends_perform h request).classes⟩
  · rcases decoded_of_run hfile with ⟨old, hold⟩ | ⟨origin, hdecoded⟩
    · exact absurd hold (by simp [classAt_eq_ok_iff, empty])
    · obtain ⟨hsame, hunresolved, hsettles⟩ :=
        settles_of_decoded (Coherent.empty options symbols) hdecoded hfile
      exact ⟨origin, hdecoded, hsame, fun index entity => hsettles.classSlot hunresolved⟩
  · have hafter := h.steps (steps_perform _ (.resolve id index))
    rcases h.entityAt_of_resolves (resolves_resolve _ id index) hentity with
      ⟨handle, hresult, hresolved⟩ | hfailed
    · refine Or.inl ⟨handle.id, hresult, ?_, fun more => ?_⟩
      · obtain ⟨entity', hentity', hname, -⟩ :=
          (extends_perform h (.resolve id index)).name_entityAt hentity
        obtain rfl := Except.ok.inj (hentity'.symm.trans hresolved)
        exact hname ▸ hafter.find?_of_entityAt hresolved
      · rcases (extends_run hafter more).entityAt hresolved with hkept | ⟨_, _, hname, -, -⟩
        · exact resolve_of_resolved hkept
        · cases hname
    · exact Or.inr hfailed

/-- The plain class, whose slot names the class itself. -/
theorem resolution_coherent_plainClass :
    let loader := (empty {} .empty).run [.define "A" plainClass.encode]
    (∃ file, loader.classAt 0 = .ok file ∧ loader.find? file.name.bytes = some 0 ∧
      ∃ name, ClassSlot loader file.pool 1 name) ∧
    ((loader.resolve 0 1).result = .ok 0 ∧
      (loader.resolve 0 1).after.resolve 0 1 = ⟨.ok 0, [], (loader.resolve 0 1).after⟩) ∧
    (∃ entity, (loader.run [.resolve 0 1]).entityAt 0 1 = .ok entity ∧ entity.name.bytes = [0x41]) ∧
    ∃ file, (loader.perform (.resolve 0 1)).classAt 0 = .ok file := by
  obtain ⟨symbol, hbytes, hfile⟩ := classAt_define_plainClass
  have hslot := namesClass_plainFile symbol
  have hentity := entityAt_eq_ok_iff.mpr ⟨_, hfile, hslot⟩
  obtain ⟨hclasses, hresolves, hnames, hframe⟩ :=
    resolution_coherent {} .empty [.define "A" plainClass.encode]
  obtain ⟨hlisted, origin, -, -, hslots⟩ := hclasses 0 _ hfile
  obtain ⟨name, -, hclassSlot⟩ := hslots 1 _ (ConstantPool.classAt_eq_ok_iff.mpr hslot)
  obtain ⟨entity, hlater, hname, -⟩ := hnames 0 1 _ [.resolve 0 1] hentity
  obtain ⟨pool, hafter, -⟩ := hframe 0 _ (.resolve 0 1) hfile
  have hself := ((coherent_run {} .empty _).resolve_of_find? hentity hlisted).1
  refine ⟨⟨_, hfile, hlisted, name, hclassSlot⟩, ⟨hself, ?_⟩, ⟨entity, hlater, hname.trans (hbytes _)⟩,
    ⟨_, hafter⟩⟩
  rcases hresolves 0 1 _ hentity with ⟨target, hresult, -, hagain⟩ | ⟨_, error, -, herror, -⟩
  · obtain rfl := Except.ok.inj (hresult.symm.trans hself)
    exact hagain []
  · rw [hself] at herror
    cases herror

end Requests

end ClassLoading.Loader
