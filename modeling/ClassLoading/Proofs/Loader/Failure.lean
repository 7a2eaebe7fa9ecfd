import ClassLoading.Proofs.ClassFile.Order
import ClassLoading.Proofs.Loader.Registry

/-!
# Failed loads

A load that fails leaves no trace in the registry or in a class, and none in the symbol table but the
texts of the class file that it decoded. To repeat it is to fail in the same way and to change nothing.
-/

namespace ClassLoading

namespace Loader

variable {loader loader' : Loader} {name : List UInt8} {id : ClassId} {index : UInt16}
  {failure : LoadFailure} {report : Report}

theorem reachable_of_step (h : loader.symbols.Reachable) (hstep : Step loader loader') :
    loader'.symbols.Reachable := by
  cases hstep with
  | addEntry | link => exact h
  | @decode bytes _ _ hdecode | @register bytes _ _ hdecode =>
      have hafter := ClassFile.reachable_decode h loader.options bytes
      rwa [hdecode] at hafter

theorem reachable_of_steps (h : loader.symbols.Reachable) (hsteps : Steps loader loader') :
    loader'.symbols.Reachable := by
  induction hsteps with
  | refl => exact h
  | tail _ hstep ih => exact reachable_of_step ih hstep

theorem reachable_after (h : loader.symbols.Reachable) (events : List LoaderEvent) :
    (loader.after events).symbols.Reachable := by
  refine after_induction (motive := fun after => after.symbols.Reachable) events h ?_
  intro before event hbefore
  cases event with
  | request request => exact reachable_of_steps hbefore (steps_perform before request)
  | offer s => exact hbefore.put s

/-- What a failed load does to the symbols: it decodes the class file that it was given, if any. -/
theorem symbols_of_failed (h : Loads loader name report) (hresult : report.result = .error failure) :
    report.after.symbols =
      match (loader.searchFor name).found with
      | .ok (some bytes) => (ClassFile.decode loader.options bytes loader.symbols).2
      | _ => loader.symbols := by
  cases h with
  | known | loaded => cases hresult
  | failed _ hfound | missed _ hfound => rw [hfound]
  | malformed _ hfound hdecode | misnamed _ hfound hdecode _ =>
      rw [hfound]
      exact (congrArg Prod.snd hdecode).symm

/-- To repeat a failed load comes to the same, and changes nothing more. -/
theorem load_again (hresult : (loader.load name).result = .error failure) :
    (loader.load name).after.load name = loader.load name := by
  have hloads := loads_load loader name
  generalize loader.load name = report at hloads hresult
  have hagain {bytes : List UInt8} {result : Except Failure ClassFile} {symbols : SymbolTable}
      (hdecode : ClassFile.decode loader.options bytes loader.symbols = (result, symbols)) :
      ClassFile.decode loader.options bytes symbols = (result, symbols) := by
    have hsame := ClassFile.decode_again loader.options bytes loader.symbols
    rwa [hdecode] at hsame
  apply load_eq_of_loads
  cases hloads with
  | known | loaded => cases hresult
  | failed hnew hfound => exact .failed hnew hfound
  | missed hnew hfound => exact .missed hnew hfound
  | @malformed bytes broken symbols hnew hfound hdecode =>
      exact @Loads.malformed { loader with symbols } name bytes broken symbols hnew hfound (hagain hdecode)
  | @misnamed bytes file symbols hnew hfound hdecode hname =>
      exact @Loads.misnamed { loader with symbols } name bytes file symbols hnew hfound (hagain hdecode)
        hname

/-- Resolving a class slot fails only if the class of its name cannot be loaded. -/
theorem Coherent.load_of_resolve_failed {entity : ClassEntity} (h : loader.Coherent)
    (hentity : loader.entityAt id index = .ok entity)
    (hresult : (loader.resolve id index).result = .error failure) :
    ∃ slotName, entity = .unresolved slotName ∧
      (loader.load slotName.bytes).result = .error failure := by
  have hresolves := resolves_resolve loader id index
  rcases h.entityAt_of_resolves hresolves hentity with
    ⟨handle, hok, -⟩ | ⟨slotName, error, rfl, herror, -⟩
  · rw [hok] at hresult
    cases hresult
  · refine ⟨slotName, rfl, ?_⟩
    generalize loader.resolve id index = report at hresolves hresult herror
    cases hresolves with
    | fault | known | unknown | linked => cases herror
    | @failed file name _ hfile hslot hload =>
        have hname := hentity.symm.trans (entityAt_eq_ok_iff.mpr ⟨file, hfile, hslot⟩)
        obtain rfl : slotName = name := by simpa using hname
        exact hload.trans hresult

end Loader

namespace CellLoader

variable {cells : CellLoader} {loader : Loader} {name : List UInt8} {id : ClassId} {index : UInt16}
  {error : LoadError}

/-- The class file that the class path supplies for a name. -/
def supplied? (cells : CellLoader) (name : List UInt8) : Option (List UInt8) :=
  match firstAnswer cells.classPath (classFileName (Symbol.textOfBytes name)) with
  | .ok found => found
  | .error _ => none

/-- A failed load of a class leaves the class path, the cells and the classes with all their slots as they
were. In the symbol table it leaves what is read of the class file that was supplied, and nothing if none
was. -/
structure LeavesTexts (cells : CellLoader) (name : List UInt8) (after : CellLoader) : Prop where
  classPath_eq : after.classPath = cells.classPath
  options_eq : after.options = cells.options
  cells_eq : after.cells = cells.cells
  classes_eq : after.classes = cells.classes
  unsupplied : cells.supplied? name = none → after.symbols = cells.symbols
  supplied : ∀ bytes, cells.supplied? name = some bytes →
    ClassFile.Grows cells.options bytes cells.symbols after.symbols
      (ClassFile.decode cells.options bytes cells.symbols).1
  kept : ∀ content s, cells.symbols.find? content = some s → after.symbols.find? content = some s

theorem entityAt_congr {cells' : CellLoader} (h : cells'.classes = cells.classes) (id : ClassId)
    (index : UInt16) : cells'.entityAt id index = cells.entityAt id index := by
  unfold entityAt Loader.entityAt Loader.classAt bare
  rw [h]

namespace Represents

theorem found_of_supplied {bytes : List UInt8} (h : cells.Represents loader)
    (hbytes : cells.supplied? name = some bytes) :
    (loader.searchFor name).found = .ok (some bytes) := by
  rw [supplied?, h.classPath_eq, ← Loader.found_searchFor] at hbytes
  cases hfound : (loader.searchFor name).found with
  | error error =>
      rw [hfound] at hbytes
      cases hbytes
  | ok found =>
      rw [hfound] at hbytes
      exact congrArg Except.ok hbytes

theorem symbols_of_failed {failure : LoadFailure} (h : cells.Represents loader)
    (hresult : (loader.load name).result = .error failure) : (loader.load name).after.symbols =
      match cells.supplied? name with
      | some bytes => (ClassFile.decode cells.options bytes cells.symbols).2
      | none => cells.symbols := by
  rw [Loader.symbols_of_failed (Loader.loads_load loader name) hresult, Loader.found_searchFor, supplied?,
    h.classPath_eq, h.options_eq, h.symbols_eq]
  cases firstAnswer loader.classPath (classFileName (Symbol.textOfBytes name)) with
  | error error => rfl
  | ok found => cases found <;> rfl

theorem load_failed (h : cells.Represents loader) (hsymbols : loader.symbols.Reachable)
    (hresult : (cells.load name).result = .error (.error error)) (herror : error ≠ .tooLarge) :
    cells.LeavesTexts name (cells.load name).after ∧
      (cells.load name).after.load name = cells.load name := by
  obtain ⟨hreport, hafter⟩ := h.load name
  have hfailed := hreport.result_eq.symm.trans hresult
  have hleft := hafter error hfailed herror
  have hgrown := hreport.after.symbols_eq.trans (h.symbols_of_failed hfailed)
  constructor
  · refine ⟨by rw [hleft], by rw [hleft], by rw [hleft], by rw [hleft], fun hnone => ?_,
      fun bytes hbytes => ?_, fun content s hfind => ?_⟩
    · rw [hgrown, hnone]
    · rw [hgrown, hbytes]
      exact ClassFile.grows_decode (h.symbols_eq ▸ hsymbols) cells.options bytes
    · rw [hgrown]
      cases cells.supplied? name with
      | none => exact hfind
      | some bytes => exact ClassFile.find?_decode_of_some hfind cells.options bytes
  · obtain ⟨hagain, hafter'⟩ := hreport.after.load name
    rw [Loader.load_again hfailed] at hagain hafter'
    refine Report.ext (hagain.result_eq.trans hreport.result_eq.symm)
      (hagain.lookups_eq.trans hreport.lookups_eq.symm) ?_
    rw [hafter' error hfailed herror, hleft]

theorem resolve_failed {slotName : Symbol} (h : cells.Represents loader)
    (hsymbols : loader.symbols.Reachable) (hentity : cells.entityAt id index = .ok (.unresolved slotName))
    (hresult : (cells.load slotName.bytes).result = .error (.error error)) (herror : error ≠ .tooLarge) :
    cells.LeavesTexts slotName.bytes (cells.resolve id index).after ∧
      (cells.resolve id index).after.resolve id index = cells.resolve id index := by
  obtain ⟨hleaves, hagain⟩ := h.load_failed hsymbols hresult herror
  have hresolve : cells.resolve id index = cells.load slotName.bytes := by
    rw [resolve_of_unresolved hentity, hresult]
  have hentity' := (entityAt_congr hleaves.classes_eq id index).trans hentity
  rw [hresolve]
  refine ⟨hleaves, ?_⟩
  rw [resolve_of_unresolved hentity', hagain, hresult]

end Represents

/-- In every state that a loader and the symbol table that it shares can come to: loads and resolutions
give the reports of a plain loader. A load that fails ends in an error, and so does the resolution of a
class slot, which fails only if the class of its name cannot be loaded. Unless it breaks off, nothing is
left of it but texts of the class file that was decoded, and to repeat it gives the same report and changes
nothing. A class file that declares another name is registered neither under that name nor under the one
asked for. -/
theorem failed_loads_leave_texts {symbols : SymbolTable} (hsymbols : symbols.Reachable)
    (options : Options) (events : List LoaderEvent) :
    let loader := (empty options symbols).after events
    let plain := (Loader.empty options symbols).after events
    ((∀ name, (loader.load name).Represents (plain.load name)) ∧
      ∀ id index, (loader.resolve id index).Represents (plain.resolve id index)) ∧
    (∀ name failure, (loader.load name).result = .error failure → ∃ error, failure = .error error ∧
      (error ≠ .tooLarge → loader.LeavesTexts name (loader.load name).after ∧
        (loader.load name).after.load name = loader.load name)) ∧
    (∀ id index entity failure, loader.entityAt id index = .ok entity →
      (loader.resolve id index).result = .error failure →
        ∃ slotName error, entity = .unresolved slotName ∧ failure = .error error ∧
          (error ≠ .tooLarge → loader.LeavesTexts slotName.bytes (loader.resolve id index).after ∧
            (loader.resolve id index).after.resolve id index = loader.resolve id index)) ∧
    ∀ name bytes file, loader.find? name = none → loader.supplied? name = some bytes →
      (ClassFile.decode loader.options bytes loader.symbols).1 = .ok file → file.name.bytes ≠ name →
        (loader.load name).result =
          .error (.error (.wrongName (Symbol.textOfBytes name) file.name.text)) ∧
        (loader.load name).after.cells[name]? = none ∧
        (loader.load name).after.cells[file.name.bytes]? = loader.cells[file.name.bytes]? := by
  have hsound := (Loader.Sound.empty options symbols).after events
  have hreachable : ((Loader.empty options symbols).after events).symbols.Reachable :=
    Loader.reachable_after hsymbols events
  have h := (Represents.empty options symbols).after events
  generalize (empty options symbols).after events = cells at h
  generalize (Loader.empty options symbols).after events = loader at h hsound hreachable
  refine ⟨⟨fun name => (h.load name).1, h.resolve⟩, fun name failure hresult => ?_,
    fun id index entity failure hentity hresult => ?_,
    fun name bytes file hnew hbytes hdecode hname => ?_⟩
  · have hfailed := (h.load name).1.result_eq.symm.trans hresult
    obtain ⟨error, rfl⟩ := Loader.error_of_load (Loader.loads_load loader name) hfailed
    exact ⟨error, rfl, h.load_failed hreachable hresult⟩
  · have hfailed := (h.resolve id index).result_eq.symm.trans hresult
    obtain ⟨slotName, rfl, hload⟩ :=
      hsound.coherent.load_of_resolve_failed ((h.entityAt_eq id index).symm.trans hentity) hfailed
    obtain ⟨error, rfl⟩ := Loader.error_of_load (Loader.loads_load loader slotName.bytes) hload
    exact ⟨slotName, error, rfl, rfl, h.resolve_failed hreachable hentity
      ((h.load slotName.bytes).1.result_eq.trans hload)⟩
  · rw [h.options_eq, h.symbols_eq] at hdecode
    have hunknown := (h.find?_eq name).symm.trans hnew
    have hfailed := congrArg Loader.Report.result (Loader.load_eq_of_loads
      (.misnamed hunknown (h.found_of_supplied hbytes) (Prod.ext hdecode rfl) hname))
    have hresult := (h.load name).1.result_eq.trans hfailed
    obtain ⟨hleaves, -⟩ := h.load_failed hreachable hresult nofun
    rw [hleaves.cells_eq]
    exact ⟨hresult, h.getElem?_of_failed hunknown hfailed nofun, rfl⟩

/-- A class path that has the plain class for every name, asked for another one. -/
theorem failed_loads_leave_texts_misnamed :
    let entry : ClassPathEntry := ⟨"classes", fun _ => .ok (some (Loader.plainClass.encode ++ []))⟩
    let loader := (empty {} .empty).after [.request (.addEntry entry)]
    (loader.load [0x42]).result =
        .error (.error (.wrongName (Symbol.textOfBytes [0x42]) (Symbol.textOfBytes [0x41]))) ∧
      (loader.load [0x42]).after.cells = loader.cells ∧
        (loader.load [0x42]).after.load [0x42] = loader.load [0x42] := by
  intro entry loader
  obtain ⟨-, hloads, -, hmisnamed⟩ := failed_loads_leave_texts .empty {} [.request (.addEntry entry)]
  let symbol := (SymbolTable.empty.internAll (RawConstant.texts Loader.plainClass.constants)).instanceOf
  have hname : (Loader.plainFile symbol).name.bytes = [0x41] := SymbolTable.bytes_instanceOf _ _
  obtain ⟨hresult, -, -⟩ := hmisnamed [0x42] _ (Loader.plainFile symbol)
    (congrArg Option.join Std.ExtHashMap.getElem?_empty) rfl
    (congrArg Prod.fst (Loader.decode_plainClass .empty)) (by rw [hname]; decide)
  rw [Symbol.text, hname] at hresult
  obtain ⟨error, herror, hleaves⟩ := hloads [0x42] _ hresult
  cases herror
  obtain ⟨hleft, hagain⟩ := hleaves fun hlarge => LoadError.noConfusion hlarge
  exact ⟨hresult, hleft.cells_eq, hagain⟩

end CellLoader

end ClassLoading
