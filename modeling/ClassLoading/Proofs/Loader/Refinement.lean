import ClassLoading.Proofs.Loader.Afresh
import ClassLoading.Proofs.Loader.WellLinked
import Mathlib.Data.List.Induction

/-!
# Refinement

A loader answers every load as one that keeps nothing. A class that it registered is the one that it
would find again, since class paths only grow, and a class slot that it resolved refers to the class
registered under the name of the slot.
-/

namespace ClassLoading.Loader

variable {loader : Loader} {name other : List UInt8} {id target : ClassId} {index : UInt16}
  {report : Report} {file : ClassFile}

/-- The outcome of an operation: an error, or the content of the class that it came to. -/
def Report.outcome (report : Report) : Except LoadFailure ClassFile := do
  let file ← (report.after.classAt (← report.result)).mapError .fault
  return file.content

/-- What is registered could be loaded afresh, and what is resolved is registered. -/
structure Faithful (loader : Loader) : Prop where
  registered : ∀ {name id}, loader.find? name = some id → ∃ file, loader.classAt id = .ok file ∧
    file.name.bytes = name ∧ loadAfresh loader.options loader.classPath name = .ok file.content
  resolved : ∀ {id file index handle}, loader.classAt id = .ok file →
    file.pool.get? index = some (.classEntity (.resolved handle)) →
      loader.find? handle.name.bytes = some handle.id

namespace Faithful

theorem empty (options : Options) (symbols : SymbolTable) : Faithful (.empty options symbols) := by
  constructor
  · intro name id hfind
    simp [Loader.empty, find?] at hfind
  · intro id file index handle hfile
    simp [classAt_eq_ok_iff, Loader.empty] at hfile

theorem addEntry (h : loader.Faithful) (entry : ClassPathEntry) : (loader.addEntry entry).Faithful := by
  refine ⟨fun {name id} hfind => ?_, h.resolved⟩
  obtain ⟨file, hfile, hname, hafresh⟩ := h.registered hfind
  exact ⟨file, hfile, hname, loadAfresh_append hafresh [entry]⟩

theorem decode (h : loader.Faithful) (symbols : SymbolTable) : { loader with symbols }.Faithful :=
  ⟨h.registered, h.resolved⟩

theorem register (h : loader.Faithful) (hfind : loader.find? file.name.bytes = none)
    (hafresh : loadAfresh loader.options loader.classPath file.name.bytes = .ok file.content)
    (hpool : file.pool.Unresolved) : (loader.register file).2.Faithful := by
  constructor
  · intro name id hname
    rw [find?_register] at hname
    by_cases hself : name = file.name.bytes
    · rw [if_pos hself] at hname
      obtain rfl := Option.some.inj hname
      exact ⟨file, classAt_register_self loader file, hself.symm, hself ▸ hafresh⟩
    · rw [if_neg hself] at hname
      obtain ⟨other, hother, hbytes, hafresh⟩ := h.registered hname
      exact ⟨other, classAt_register_of_ok hother, hbytes, hafresh⟩
  · intro id other index handle hother hslot
    rcases classAt_of_register hother with hold | ⟨-, rfl⟩
    · -- The name of the handle is registered already, so it is not the one that is new.
      have hhandle := h.resolved hold hslot
      have hne : handle.name.bytes ≠ file.name.bytes := by
        intro heq
        rw [heq, hfind] at hhandle
        cases hhandle
      rw [find?_register, if_neg hne]
      exact hhandle
    · -- A class that was just decoded has no resolved slot.
      obtain ⟨name, hname⟩ := hpool index _ hslot
      cases hname

theorem link {targetFile : ClassFile} {slotName : Symbol} {pool : ConstantPool} (h : loader.Faithful)
    (hfile : loader.classAt id = .ok file)
    (hslot : file.pool.get? index = some (.classEntity (.unresolved slotName)))
    (hfind : loader.find? slotName.bytes = some target) (htarget : loader.classAt target = .ok targetFile)
    (hput : file.pool.put index (.classEntity (.resolved ⟨target, targetFile.name⟩)) = .ok pool) :
    (loader.linked id file pool).Faithful := by
  have hname : targetFile.name.bytes = slotName.bytes := by
    obtain ⟨_, htarget', hbytes, -⟩ := h.registered hfind
    obtain rfl := Except.ok.inj (htarget.symm.trans htarget')
    exact hbytes
  constructor
  · intro name other hother
    obtain ⟨otherFile, hotherFile, hbytes, hafresh⟩ := h.registered hother
    rw [linked, classAt_set]
    by_cases hid : other = id ∧ id < loader.classes.size
    · rw [if_pos hid]
      obtain ⟨rfl, -⟩ := hid
      obtain rfl := Except.ok.inj (hfile.symm.trans hotherFile)
      exact ⟨_, rfl, hbytes, (ClassFile.content_of_put hslot hput hname).symm ▸ hafresh⟩
    · rw [if_neg hid]
      exact ⟨otherFile, hotherFile, hbytes, hafresh⟩
  · intro other otherFile i handle hother hhandle
    rw [linked, classAt_set] at hother
    by_cases hid : other = id ∧ id < loader.classes.size
    · rw [if_pos hid] at hother
      obtain rfl := Except.ok.inj hother
      have hget := ConstantPool.get?_of_put hput i
      rw [hhandle] at hget
      by_cases hi : i = index
      · rw [if_pos hi] at hget
        obtain rfl : handle = ⟨target, targetFile.name⟩ := by simpa using hget
        exact hname ▸ hfind
      · rw [if_neg hi] at hget
        exact h.resolved hfile hget.symm
    · rw [if_neg hid] at hother
      exact h.resolved hother hhandle

end Faithful

theorem classPath_of_loads (h : Loads loader name report) :
    report.after.classPath = loader.classPath ∧ report.after.options = loader.options := by
  cases h <;> exact ⟨rfl, rfl⟩

theorem found_searchFor (loader : Loader) (name : List UInt8) : (loader.searchFor name).found =
    firstAnswer loader.classPath (classFileName (Symbol.textOfBytes name)) := by
  rw [searchFor, search_eq]

theorem Faithful.of_loads (h : loader.Faithful) (hloads : Loads loader name report) :
    report.after.Faithful := by
  cases hloads with
  | known | failed | missed => exact h
  | malformed _ _ _ | misnamed _ _ _ _ => exact h.decode _
  | @loaded bytes file symbols hfind hfound hdecode hname =>
      rw [found_searchFor] at hfound
      have hafresh := loadAfresh_of_decode hfound hdecode
      rw [judge, if_pos hname, ← hname] at hafresh
      have hpool := ClassFile.unresolved_of_decode hdecode
      exact (h.decode symbols).register (hname ▸ hfind) hafresh hpool

theorem Report.outcome_of_error {failure : LoadFailure} (h : report.result = .error failure) :
    report.outcome = .error failure := by
  rw [Report.outcome, h]
  rfl

/-- What an operation comes to, if it comes to the class that is registered under a name. -/
theorem outcome_of_find? (h : report.after.Faithful) (hresult : report.result = .ok id)
    (hfind : report.after.find? name = some id) :
    report.outcome = loadAfresh report.after.options report.after.classPath name := by
  obtain ⟨file, hfile, -, hafresh⟩ := h.registered hfind
  rw [hafresh, Report.outcome, hresult]
  simp only [bind, Except.bind, hfile]
  rfl

theorem outcome_of_loads (h : loader.Faithful) (hloads : Loads loader name report) :
    report.outcome = loadAfresh loader.options loader.classPath name := by
  cases hresult : report.result with
  | ok id =>
      obtain ⟨hpath, hoptions⟩ := classPath_of_loads hloads
      have hfind := find?_of_load hloads hresult
      rw [outcome_of_find? (h.of_loads hloads) hresult hfind, hpath, hoptions]
  | error failure =>
      rw [Report.outcome_of_error hresult]
      cases hloads with
      | known | loaded => cases hresult
      | failed _ hfound | missed _ hfound =>
          rw [found_searchFor] at hfound
          rw [loadAfresh, hfound, ← Except.error.inj hresult]
      | malformed _ hfound hdecode =>
          rw [found_searchFor] at hfound
          rw [loadAfresh_of_decode hfound hdecode, judge, ← Except.error.inj hresult]
      | misnamed _ hfound hdecode hname =>
          rw [found_searchFor] at hfound
          rw [loadAfresh_of_decode hfound hdecode, judge, if_neg hname, ← Except.error.inj hresult]

theorem find?_of_loads (hloads : Loads loader name report) (other : List UInt8) :
    report.after.find? other =
      if other = name then report.result.toOption else loader.find? other := by
  cases hloads with
  | known hfind | failed hfind _ | missed hfind _ | malformed hfind _ _ | misnamed hfind _ _ _ =>
      by_cases hother : other = name
      · rw [if_pos hother, hother]
        exact hfind
      · exact (if_neg hother).symm
  | loaded _ _ _ hname =>
      rw [find?_register, hname]
      rfl

theorem lookups_of_loads (hloads : Loads loader name report) : report.lookups =
    if (loader.find? name).isSome then []
    else questions loader.classPath (classFileName (Symbol.textOfBytes name)) := by
  have hlookups : (loader.searchFor name).lookups =
      questions loader.classPath (classFileName (Symbol.textOfBytes name)) := by
    rw [searchFor, search_eq]
  cases hloads with
  | known hfind =>
      rw [hfind]
      rfl
  | failed hfind _ | missed hfind _ | malformed hfind _ _ | misnamed hfind _ _ _ | loaded hfind _ _ _ =>
      rw [hfind, ← hlookups]
      rfl

/-- A load answers as a loader that keeps nothing would, and is never at fault; only a name that is
not registered is asked for, and only the name of a load that succeeds becomes registered. -/
structure AnswersAfresh (options : Options) (path : List ClassPathEntry) (loader : Loader)
    (name : List UInt8) (report : Report) : Prop where
  outcome_eq : report.outcome = loadAfresh options path name
  safe : ∀ fault, report.outcome ≠ .error (.fault fault)
  lookups_eq : report.lookups = if (loader.find? name).isSome then []
    else questions path (classFileName (Symbol.textOfBytes name))
  find?_eq : ∀ other, report.after.find? other =
    if other = name then report.result.toOption else loader.find? other

theorem AnswersAfresh.of_outcome (h : report.outcome = loadAfresh loader.options loader.classPath name)
    (hlookups : report.lookups = if (loader.find? name).isSome then []
      else questions loader.classPath (classFileName (Symbol.textOfBytes name)))
    (hfind : ∀ other, report.after.find? other =
      if other = name then report.result.toOption else loader.find? other) :
    AnswersAfresh loader.options loader.classPath loader name report :=
  ⟨h, fun fault => h ▸ loadAfresh_safe loader.options loader.classPath name fault, hlookups, hfind⟩

theorem answersAfresh_load (h : loader.Faithful) (name : List UInt8) :
    AnswersAfresh loader.options loader.classPath loader name (loader.load name) := by
  have hloads := loads_load loader name
  exact .of_outcome (outcome_of_loads h hloads) (lookups_of_loads hloads) (find?_of_loads hloads)

theorem classPath_of_resolves (h : Resolves loader id index report) :
    report.after.classPath = loader.classPath ∧ report.after.options = loader.options := by
  have hload (name : Symbol) := classPath_of_loads (loads_load loader name.bytes)
  cases h with
  | fault | known => exact ⟨rfl, rfl⟩
  | failed | unknown | linked => exact hload _

theorem Faithful.of_resolves (h : loader.Faithful) (hresolves : Resolves loader id index report) :
    report.after.Faithful := by
  have hload (name : Symbol) := h.of_loads (loads_load loader name.bytes)
  cases hresolves with
  | fault | known => exact h
  | failed | unknown => exact hload _
  | @linked file targetFile name target pool hfile hslot hresult htarget hput =>
      have hfind := find?_of_load (loads_load loader name.bytes) hresult
      have hafter := classAt_of_load (loads_load loader name.bytes) hfile
      exact (hload name).link hafter hslot hfind htarget hput

theorem resolve_of_error {fault : Fault} (h : loader.entityAt id index = .error fault) :
    loader.resolve id index = ⟨.error (.fault fault), [], loader⟩ := by
  rw [Loader.resolve, h]

/-- Resolving a class slot is loading the class of its name. -/
theorem answersAfresh_resolve {entity : ClassEntity} (h : loader.Faithful)
    (hentity : loader.entityAt id index = .ok entity) :
    AnswersAfresh loader.options loader.classPath loader entity.name.bytes
      (loader.resolve id index) := by
  obtain ⟨file, hfile, hslot⟩ := entityAt_eq_ok_iff.mp hentity
  have hresolves := resolves_resolve loader id index
  have hafter := h.of_resolves hresolves
  obtain ⟨hpath, hoptions⟩ := classPath_of_resolves hresolves
  generalize loader.resolve id index = report at hresolves hafter hpath hoptions
  have hsame {file' : ClassFile} {entity' : ClassEntity} (hfile' : loader.classAt id = .ok file')
      (hslot' : file'.pool.get? index = some (.classEntity entity')) : entity = entity' := by
    obtain rfl := Except.ok.inj (hfile.symm.trans hfile')
    simpa [hslot] using hslot'
  cases hresolves with
  | fault hfault =>
      rw [hentity] at hfault
      cases hfault
  | @known file' handle hfile' hslot' =>
      obtain rfl := hsame hfile' hslot'
      have hfind : loader.find? handle.name.bytes = some handle.id := h.resolved hfile' hslot'
      refine .of_outcome (outcome_of_find? h rfl hfind) ?_ fun other => ?_
      · rw [ClassEntity.name, hfind]
        rfl
      · by_cases hother : other = handle.name.bytes
        · rw [hother]
          exact hfind.trans (if_pos rfl).symm
        · exact (if_neg hother).symm
  | @failed file' name failure hfile' hslot' hresult =>
      obtain rfl := hsame hfile' hslot'
      obtain ⟨houtcome, -, hlookups, hfind⟩ := answersAfresh_load h name.bytes
      rw [Report.outcome_of_error hresult] at houtcome
      rw [hresult] at hfind
      exact .of_outcome houtcome hlookups hfind
  | @unknown file' name target fault hfile' hslot' hresult htarget =>
      -- A load that succeeds leaves a registered class, and registered classes are there.
      have hname := find?_of_load (loads_load loader name.bytes) hresult
      obtain ⟨_, htarget', -, -⟩ := hafter.registered hname
      rw [htarget] at htarget'
      cases htarget'
  | @linked file' targetFile name target pool hfile' hslot' hresult htarget hput =>
      obtain rfl := hsame hfile' hslot'
      obtain ⟨-, -, hlookups, hfind⟩ := answersAfresh_load h name.bytes
      have hname := find?_of_load (loads_load loader name.bytes) hresult
      rw [hresult] at hfind
      refine .of_outcome ?_ hlookups hfind
      rw [outcome_of_find? hafter rfl hname, hpath, hoptions]
      rfl

section Runs

/-- A request that does not bring in a class from elsewhere than the class path. -/
def Request.isQuery : Request → Bool
  | .define _ _ => false
  | _ => true

/-- The class path that some requests make up. -/
def pathOf (requests : List Request) : List ClassPathEntry :=
  requests.filterMap fun
    | .addEntry entry => some entry
    | _ => none

/-- A request that loads or resolves a name and comes to a class. -/
def Request.Yields (loader : Loader) (name : List UInt8) (id : ClassId) : Request → Prop
  | .load asked => asked = name ∧ (loader.load asked).result = .ok id
  | .resolve holder index => (∃ entity, loader.entityAt holder index = .ok entity ∧
      entity.name.bytes = name) ∧ (loader.resolve holder index).result = .ok id
  | _ => False

variable {request : Request}

theorem run_concat (loader : Loader) (requests : List Request) (request : Request) :
    loader.run (requests ++ [request]) = (loader.run requests).perform request := by
  simp [run]

theorem Faithful.perform (h : loader.Faithful) (hquery : request.isQuery = true) :
    (loader.perform request).Faithful := by
  cases request with
  | addEntry entry => exact h.addEntry entry
  | find name => exact h
  | load name => exact h.of_loads (loads_load loader name)
  | define label bytes => cases hquery
  | resolve id index => exact h.of_resolves (resolves_resolve loader id index)

theorem faithful_run (options : Options) (symbols : SymbolTable) {requests : List Request}
    (hqueries : ∀ request ∈ requests, request.isQuery = true) :
    ((empty options symbols).run requests).Faithful := by
  induction requests using List.reverseRecOn with
  | nil => exact .empty options symbols
  | append_singleton requests request ih =>
      obtain ⟨hqueries, hquery⟩ := List.forall_mem_append.mp hqueries
      rw [run_concat]
      exact (ih hqueries).perform (hquery request (List.mem_singleton_self request))

theorem classPath_of_defines {label : String} {bytes : List UInt8}
    (h : Defines loader label bytes report) : report.after.classPath = loader.classPath := by
  cases h <;> rfl

theorem classPath_perform (loader : Loader) (request : Request) :
    (loader.perform request).classPath = loader.classPath ++ pathOf [request] := by
  cases request with
  | addEntry entry => rfl
  | find name => exact (List.append_nil _).symm
  | load name => exact (classPath_of_loads (loads_load loader name)).1.trans (List.append_nil _).symm
  | define label bytes =>
      exact (classPath_of_defines (defines_define loader label bytes)).trans (List.append_nil _).symm
  | resolve id index =>
      exact (classPath_of_resolves (resolves_resolve loader id index)).1.trans (List.append_nil _).symm

theorem classPath_run (options : Options) (symbols : SymbolTable) (requests : List Request) :
    ((empty options symbols).run requests).classPath = pathOf requests := by
  induction requests using List.reverseRecOn with
  | nil => rfl
  | append_singleton requests request ih =>
      rw [run_concat, classPath_perform, ih, pathOf, pathOf, pathOf, List.filterMap_append]

theorem AnswersAfresh.find?_iff {options : Options} {path : List ClassPathEntry}
    (h : AnswersAfresh options path loader name report) (hsteps : Steps loader report.after) :
    report.after.find? other = some id ↔
      loader.find? other = some id ∨ name = other ∧ report.result = .ok id := by
  constructor
  · intro hfind
    rw [h.find?_eq] at hfind
    by_cases hother : other = name
    · rw [if_pos hother] at hfind
      exact Or.inr ⟨hother.symm, by cases hresult : report.result <;> simp_all [Except.toOption]⟩
    · rw [if_neg hother] at hfind
      exact Or.inl hfind
  · intro hgiven
    rcases hgiven with hfind | ⟨rfl, hresult⟩
    · exact find?_of_steps hsteps hfind
    · rw [h.find?_eq, if_pos rfl, hresult]
      rfl

theorem find?_perform (h : loader.Faithful) (hquery : request.isQuery = true) :
    (loader.perform request).find? name = some id ↔
      loader.find? name = some id ∨ request.Yields loader name id := by
  cases request with
  | addEntry entry => exact (iff_of_eq (or_false _)).symm
  | find name => exact (iff_of_eq (or_false _)).symm
  | load asked => exact (answersAfresh_load h asked).find?_iff (steps_perform loader (.load asked))
  | define label bytes => cases hquery
  | resolve holder index =>
      have hsteps : Steps loader _ := steps_perform loader (.resolve holder index)
      cases hentity : loader.entityAt holder index with
      | ok entity =>
          rw [perform, (answersAfresh_resolve h hentity).find?_iff hsteps]
          simp [Request.Yields, hentity]
      | error fault =>
          simp [perform, Request.Yields, resolve_of_error hentity]

theorem find?_run (options : Options) (symbols : SymbolTable) {requests : List Request}
    (hqueries : ∀ request ∈ requests, request.isQuery = true) :
    ((empty options symbols).run requests).find? name = some id ↔
      ∃ before request, before ++ [request] <+: requests ∧
        request.Yields ((empty options symbols).run before) name id := by
  -- The last request either yields the class or leaves what is registered as it was.
  induction requests using List.reverseRecOn with
  | nil => simp [run, empty, find?]
  | append_singleton requests request ih =>
      obtain ⟨hqueries, hquery⟩ := List.forall_mem_append.mp hqueries
      have hfaithful := faithful_run options symbols hqueries
      rw [run_concat, find?_perform hfaithful (hquery request (List.mem_singleton_self request)),
        ih hqueries]
      constructor
      · intro h
        rcases h with ⟨before, earlier, hprefix, hyields⟩ | hyields
        · exact ⟨before, earlier, hprefix.trans (List.prefix_append _ _), hyields⟩
        · exact ⟨requests, request, List.prefix_rfl, hyields⟩
      · intro h
        obtain ⟨before, earlier, hprefix, hyields⟩ := h
        rcases List.prefix_concat_iff.mp hprefix with heq | hprefix
        · obtain ⟨rfl, rfl⟩ : before = requests ∧ earlier = request := by simpa using heq
          exact Or.inr hyields
        · exact Or.inl ⟨before, earlier, hprefix, hyields⟩

/-- However a loader was asked to load, find and resolve classes and to extend its class path, it
answers every further load, and every resolution of a class slot, as a loader that keeps nothing and
has the same class path; and a name is registered exactly if an earlier load or resolution of it
came to a class, which is then the class registered. -/
theorem answersAfresh_run (options : Options) (symbols : SymbolTable) (requests : List Request)
    (hqueries : ∀ request ∈ requests, request.isQuery = true) :
    let loader := (empty options symbols).run requests
    (∀ name, AnswersAfresh options (pathOf requests) loader name (loader.load name)) ∧
    (∀ id index, match loader.entityAt id index with
      | .ok entity =>
          AnswersAfresh options (pathOf requests) loader entity.name.bytes (loader.resolve id index)
      | .error fault => loader.resolve id index = ⟨.error (.fault fault), [], loader⟩) ∧
    ∀ name id, loader.find? name = some id ↔ ∃ before request, before ++ [request] <+: requests ∧
      request.Yields ((empty options symbols).run before) name id := by
  intro loader
  have hfaithful : loader.Faithful := faithful_run options symbols hqueries
  have hpath : loader.classPath = pathOf requests := classPath_run options symbols requests
  have hoptions : loader.options = options := options_of_steps (steps_run _ requests)
  refine ⟨fun name => ?_, fun id index => ?_, fun name id => ?_⟩
  · rw [← hpath, ← hoptions]
    exact answersAfresh_load hfaithful name
  · cases hentity : loader.entityAt id index with
    | ok entity =>
        dsimp only
        rw [← hpath, ← hoptions]
        exact answersAfresh_resolve hfaithful hentity
    | error fault => exact resolve_of_error hentity
  · exact find?_run options symbols hqueries

def plainEntry : ClassPathEntry where
  name := "classes"
  find file := .ok (if file = "A.class" then some (plainClass.encode ++ []) else none)

theorem loadAfresh_plainEntry : ∃ file, loadAfresh {} [plainEntry] [0x41] = .ok file := by
  let symbols := SymbolTable.empty.internAll (RawConstant.texts plainClass.constants)
  have hfile : classFileName (Symbol.textOfBytes [0x41]) = "A.class" := by decide
  have hfound : firstAnswer [plainEntry] (classFileName (Symbol.textOfBytes [0x41])) =
      .ok (some (plainClass.encode ++ [])) := by
    rw [hfile]
    rfl
  have hdecode := decode_plainClass .empty
  have hname : (plainFile symbols.instanceOf).name.bytes = [0x41] := symbols.bytes_instanceOf [0x41]
  rw [loadAfresh_of_decode hfound hdecode, judge, if_pos hname]
  exact ⟨_, rfl⟩

theorem outcome_run_plainEntry : ∃ file,
    (((empty {} .empty).run [.addEntry plainEntry, .load [0x41], .find [0x41], .resolve 0 1]).load
      [0x41]).outcome = .ok file := by
  obtain ⟨file, hfile⟩ := loadAfresh_plainEntry
  have hload := (answersAfresh_run {} .empty
    [.addEntry plainEntry, .load [0x41], .find [0x41], .resolve 0 1] (by decide)).1 [0x41]
  exact ⟨file, hload.outcome_eq.trans hfile⟩

end Runs

end ClassLoading.Loader
