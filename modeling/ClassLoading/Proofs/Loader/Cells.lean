import ClassLoading.Loader.Cells
import ClassLoading.Proofs.Loader.Coherence
import ClassLoading.Proofs.Loader.Refinement

/-!
# Cells and registries

A loader with registry cells does what a loader with a plain registry does: a cell that holds a class
stands for an entry of the registry. A cell that holds none is there only while its class is looked for,
or if a load of it broke off.
-/

namespace ClassLoading

/-- What may happen to a loader: a request, or that somebody else offers a symbol to the table that they
share. -/
inductive LoaderEvent where
  | request (request : Loader.Request)
  | offer (s : Symbol)

namespace Loader

def next (loader : Loader) : LoaderEvent → Loader
  | .request request => loader.perform request
  | .offer s => { loader with symbols := (loader.symbols.put s).2 }

def after (loader : Loader) (events : List LoaderEvent) : Loader := events.foldl next loader

variable {loader : Loader} {name : List UInt8} {report : Report}

/-- What holds at first and is kept by whatever may happen next holds ever after. -/
theorem after_induction {motive : Loader → Prop} (events : List LoaderEvent) (start : motive loader)
    (next : ∀ {loader} event, motive loader → motive (loader.next event)) :
    motive (loader.after events) := by
  induction events generalizing loader with
  | nil => exact start
  | cons event events ih => exact ih (next event start)

theorem found_of_tooLarge (h : Loads loader name report)
    (hresult : report.result = .error (.error .tooLarge)) :
    (loader.searchFor name).found = .error .tooLarge := by
  cases h with
  | known | loaded | missed | misnamed => cases hresult
  | failed _ hfound => rw [hfound, LoadFailure.error.inj (Except.error.inj hresult)]
  | @malformed bytes failure symbols _ _ _ => cases failure <;> cases hresult

end Loader

namespace CellLoader

def perform (loader : CellLoader) : Loader.Request → CellLoader
  | .addEntry entry => loader.addEntry entry
  | .find _ => loader
  | .load name => (loader.load name).after
  | .define label bytes => (loader.define label bytes).after
  | .resolve id index => (loader.resolve id index).after

def next (loader : CellLoader) : LoaderEvent → CellLoader
  | .request request => loader.perform request
  | .offer s => { loader with symbols := (loader.symbols.put s).2 }

def after (loader : CellLoader) (events : List LoaderEvent) : CellLoader := events.foldl next loader

variable {cells : CellLoader} {loader : Loader} {name other : List UInt8} {id target : ClassId}
  {index : UInt16} {file : ClassFile} {report : Loader.Report}

theorem getElem?_openCell (cells : CellLoader) (name other : List UInt8) :
    (cells.openCell name).cells[other]? =
      if name = other ∧ cells.cells[name]? = none then some none else cells.cells[other]? := by
  have hmem : ¬name ∈ cells.cells ↔ cells.cells[name]? = none := by
    rw [Std.ExtHashMap.mem_iff_isSome_getElem?, Option.not_isSome_iff_eq_none]
  simp only [openCell, Std.ExtHashMap.getElem?_insertIfNew, beq_iff_eq, hmem]

theorem find?_openCell (cells : CellLoader) (name other : List UInt8) :
    (cells.openCell name).find? other = cells.find? other := by
  rw [find?, getElem?_openCell, find?]
  split
  · rename_i hnone
    rw [← hnone.1, hnone.2]
    rfl
  · rfl

theorem getElem?_insert_openCell (cells : CellLoader) (name other : List UInt8) (id : ClassId) :
    ((cells.openCell name).cells.insert name (some id))[other]? =
      if other = name then some (some id) else cells.cells[other]? := by
  rw [Std.ExtHashMap.getElem?_insert]
  by_cases hother : other = name
  · simp [hother]
  · have hne : name ≠ other := Ne.symm hother
    rw [if_neg (by simpa using hne), if_neg hother, getElem?_openCell, if_neg fun hopen => hne hopen.1]

/-- A name that has a cell does not get another one. -/
theorem openCell_of_some {cell : Option ClassId} (h : cells.cells[name]? = some cell) :
    cells.openCell name = cells := by
  have hcells : (cells.openCell name).cells = cells.cells := by
    refine Std.ExtHashMap.ext_getElem? fun other => ?_
    rw [getElem?_openCell, if_neg]
    rw [h]
    simp
  exact congrArg (fun map => { cells with cells := map }) hcells

/-- To take a cell away that was just opened is to have done nothing. -/
theorem dropCell_openCell (h : cells.cells[name]? = none) (symbols : SymbolTable) :
    { cells.openCell name with symbols }.dropCell name = { cells with symbols } := by
  have hopen : (cells.openCell name).cells[name]? = some none := by
    rw [getElem?_openCell, if_pos ⟨rfl, h⟩]
  have hcells : (cells.openCell name).cells.erase name = cells.cells := by
    refine Std.ExtHashMap.ext_getElem? fun other => ?_
    rw [Std.ExtHashMap.getElem?_erase, getElem?_openCell]
    simp only [beq_iff_eq]
    split
    · rename_i hname
      rw [← hname, h]
    · rename_i hname
      rw [if_neg fun hnone => hname hnone.1]
  rw [dropCell]
  dsimp only
  rw [hopen]
  exact congrArg (fun map => { cells with cells := map, symbols := symbols }) hcells

theorem resolve_of_unresolved {slotName : Symbol}
    (h : cells.entityAt id index = .ok (.unresolved slotName)) : cells.resolve id index =
      match (cells.load slotName.bytes).result with
      | .error _ => cells.load slotName.bytes
      | .ok target =>
          match (cells.load slotName.bytes).after.settle id index target with
          | .ok (target, after) => ⟨.ok target, (cells.load slotName.bytes).lookups, after⟩
          | .error fault =>
              ⟨.error (.fault fault), (cells.load slotName.bytes).lookups,
                (cells.load slotName.bytes).after⟩ := by
  unfold resolve
  rw [h]
  dsimp only
  obtain ⟨result, lookups, after⟩ := cells.load slotName.bytes
  cases result <;> rfl

/-- A loader with cells stands for a plain one: the cells that hold classes are its registry. A cell
that holds none was left behind by a load that broke off. -/
structure Represents (cells : CellLoader) (loader : Loader) : Prop where
  bare_eq : cells.bare = { loader with registry := ∅ }
  filled : ∀ {name id}, loader.find? name = some id → cells.cells[name]? = some (some id)
  vacant : ∀ {name}, loader.find? name = none → cells.cells[name]? = none ∨
    cells.cells[name]? = some none ∧ (loader.searchFor name).found = .error .tooLarge

/-- Two reports say the same. -/
structure Report.Represents (report : Report) (plain : Loader.Report) : Prop where
  result_eq : report.result = plain.result
  lookups_eq : report.lookups = plain.lookups
  after : report.after.Represents plain.after

namespace Represents

theorem empty (options : Options) (symbols : SymbolTable) :
    (CellLoader.empty options symbols).Represents (.empty options symbols) := by
  have hfind (name : List UInt8) : (Loader.empty options symbols).find? name = none :=
    Std.HashMap.getElem?_empty
  refine ⟨rfl, fun {name id} hsome => ?_, fun _ => Or.inl Std.ExtHashMap.getElem?_empty⟩
  rw [hfind] at hsome
  cases hsome

theorem find?_eq (h : cells.Represents loader) (name : List UInt8) :
    cells.find? name = loader.find? name := by
  unfold CellLoader.find?
  cases hfind : loader.find? name with
  | some id => rw [h.filled hfind]; rfl
  | none => rcases h.vacant hfind with hcell | ⟨hcell, -⟩ <;> rw [hcell] <;> rfl

theorem symbols_eq (h : cells.Represents loader) : cells.symbols = loader.symbols :=
  congrArg Loader.symbols h.bare_eq

theorem options_eq (h : cells.Represents loader) : cells.options = loader.options :=
  congrArg Loader.options h.bare_eq

theorem classes_eq (h : cells.Represents loader) : cells.classes = loader.classes :=
  congrArg Loader.classes h.bare_eq

theorem classPath_eq (h : cells.Represents loader) : cells.classPath = loader.classPath :=
  congrArg Loader.classPath h.bare_eq

theorem addEntry (h : cells.Represents loader) (entry : ClassPathEntry) :
    (cells.addEntry entry).Represents (loader.addEntry entry) := by
  refine ⟨congrArg (fun bare : Loader => bare.addEntry entry) h.bare_eq, h.filled,
    fun hfind => (h.vacant hfind).imp_right fun ⟨hcell, hfound⟩ => ⟨hcell, ?_⟩⟩
  rw [Loader.found_searchFor] at hfound ⊢
  exact (firstAnswer_append (by rw [hfound]; nofun) [entry]).trans hfound

theorem withSymbols (h : cells.Represents loader) (symbols : SymbolTable) :
    { cells with symbols }.Represents { loader with symbols } :=
  ⟨congrArg (fun bare : Loader => { bare with symbols }) h.bare_eq, h.filled, h.vacant⟩

theorem withClasses (h : cells.Represents loader) (classes : Array ClassFile) :
    { cells with classes }.Represents { loader with classes } :=
  ⟨congrArg (fun bare : Loader => { bare with classes }) h.bare_eq, h.filled, h.vacant⟩

/-- A load that breaks off leaves its cell open. -/
theorem openCell (h : cells.Represents loader)
    (hfound : (loader.searchFor name).found = .error .tooLarge) :
    (cells.openCell name).Represents loader := by
  refine ⟨h.bare_eq, fun {other id} hfind => ?_, fun {other} hfind => ?_⟩
  · rw [getElem?_openCell, if_neg, h.filled hfind]
    rintro ⟨rfl, hnone⟩
    rw [h.filled hfind] at hnone
    cases hnone
  · rw [getElem?_openCell]
    split
    · rename_i hnone
      exact Or.inr ⟨rfl, hnone.1 ▸ hfound⟩
    · exact h.vacant hfind

/-- To fill a cell is to register a class. -/
theorem fillCell (h : cells.Represents loader) (hnew : loader.find? file.name.bytes = none) :
    ∃ cells' : CellLoader,
      (cells.openCell file.name.bytes).fillCell file.name.bytes file = (loader.classes.size, cells') ∧
        cells'.Represents (loader.register file).2 := by
  have hfind : (cells.openCell file.name.bytes).find? file.name.bytes = none := by
    rw [find?_openCell, h.find?_eq, hnew]
  have hsize : (cells.openCell file.name.bytes).classes.size = loader.classes.size :=
    congrArg Array.size h.classes_eq
  rw [CellLoader.fillCell, hfind]
  dsimp only
  rw [hsize]
  refine ⟨_, rfl, ?_, fun {name id} hsome => ?_, fun {name} hnone => ?_⟩
  · exact congrArg (fun bare : Loader => { bare with classes := bare.classes.push file }) h.bare_eq
  · rw [Loader.find?_register] at hsome
    rw [getElem?_insert_openCell]
    split at hsome
    · rename_i hname
      rw [if_pos hname, Option.some.inj hsome]
    · rename_i hname
      rw [if_neg hname]
      exact h.filled hsome
  · rw [Loader.find?_register] at hnone
    rw [getElem?_insert_openCell]
    split at hnone
    · cases hnone
    · rename_i hname
      rw [if_neg hname]
      exact h.vacant hnone

/-- What the search for a class comes to that is not registered, and what becomes of it. -/
theorem findClass (hbare : cells.bare = { loader with registry := ∅ })
    (hnew : loader.find? name = none) (hloads : loader.Loads name report) :
    (∃ error lookups symbols, report = ⟨.error (.error error), lookups, { loader with symbols }⟩ ∧
      cells.findClass name = (.error (.error error), lookups, { cells with symbols })) ∨
    ∃ file lookups symbols, file.name.bytes = name ∧
      report = ⟨.ok loader.classes.size, lookups, ({ loader with symbols }.register file).2⟩ ∧
        cells.findClass name = (.ok file, lookups, { cells with symbols }) := by
  have hpath : cells.classPath = loader.classPath := congrArg Loader.classPath hbare
  have hoptions : cells.options = loader.options := congrArg Loader.options hbare
  have hsymbols : cells.symbols = loader.symbols := congrArg Loader.symbols hbare
  have hsearch : search cells.classPath (classFileName (Symbol.textOfBytes name)) =
      loader.searchFor name := by
    rw [hpath, Loader.searchFor]
  have hdecoding (bytes : List UInt8) : ClassFile.decode cells.options bytes cells.symbols =
      ClassFile.decode loader.options bytes loader.symbols := by
    rw [hoptions, hsymbols]
  unfold CellLoader.findClass
  simp only [hsearch, CellLoader.decode, hdecoding]
  cases hloads with
  | known hfind =>
      rw [hnew] at hfind
      cases hfind
  | failed _ hfound | missed _ hfound =>
      simp only [hfound]
      exact Or.inl ⟨_, _, loader.symbols, rfl, by rw [← hsymbols]⟩
  | @malformed bytes broken symbols _ hfound hdecode =>
      have hsafe := ClassFile.decode_safe loader.options bytes loader.symbols
      simp only [hfound, hdecode, Except.mapError_error]
      cases broken with
      | format error => exact Or.inl ⟨_, _, symbols, rfl, rfl⟩
      | fault fault => exact absurd (congrArg Prod.fst hdecode) (hsafe fault)
  | @misnamed bytes file symbols _ hfound hdecode hname =>
      simp only [hfound, hdecode, Except.mapError_ok, beq_iff_eq, if_neg hname]
      exact Or.inl ⟨_, _, symbols, rfl, rfl⟩
  | @loaded bytes file symbols _ hfound hdecode hname =>
      simp only [hfound, hdecode, Except.mapError_ok, beq_iff_eq, if_pos hname]
      exact Or.inr ⟨file, _, symbols, hname, rfl, rfl⟩

/-- A failed load has no cell to begin with, unless it breaks off. -/
theorem getElem?_of_failed {error : LoadError} (h : cells.Represents loader)
    (hnew : loader.find? name = none) (hresult : (loader.load name).result = .error (.error error))
    (herror : error ≠ .tooLarge) : cells.cells[name]? = none := by
  rcases h.vacant hnew with hcell | ⟨-, hfound⟩
  · exact hcell
  · rw [Loader.load_eq_of_loads (.failed hnew hfound)] at hresult
    exact absurd (LoadFailure.error.inj (Except.error.inj hresult)).symm herror

/-- Loading a class does with cells what it does with a registry. A failed load leaves the cells alone,
unless it breaks off. -/
theorem load (h : cells.Represents loader) (name : List UInt8) :
    (cells.load name).Represents (loader.load name) ∧
      ∀ error, (loader.load name).result = .error (.error error) → error ≠ .tooLarge →
        (cells.load name).after = { cells with symbols := (loader.load name).after.symbols } := by
  have hloads := Loader.loads_load loader name
  have hcell (error) := @getElem?_of_failed cells loader name error h
  generalize loader.load name = report at hloads hcell
  unfold CellLoader.load
  rw [h.find?_eq]
  cases hfind : loader.find? name with
  | some id =>
      obtain rfl := (Loader.load_eq_of_loads hloads).symm.trans (Loader.load_eq_of_loads (.known hfind))
      exact ⟨⟨rfl, rfl, h⟩, fun _ hok => nomatch hok⟩
  | none =>
      dsimp only
      have hbare : (cells.openCell name).bare = { loader with registry := ∅ } := h.bare_eq
      rcases findClass hbare hfind hloads with
        ⟨error, lookups, symbols, rfl, hfinding⟩ | ⟨file, lookups, symbols, rfl, rfl, hfinding⟩
      · rw [hfinding]
        by_cases herror : error = .tooLarge
        · subst herror
          have hfound := Loader.found_of_tooLarge hloads rfl
          exact ⟨⟨rfl, rfl, (h.openCell hfound).withSymbols symbols⟩,
            fun error hresult hne => absurd (LoadFailure.error.inj (Except.error.inj hresult)).symm hne⟩
        · have hkeeps : LoadFailure.breaksOff (.error error) = false := by
            cases error <;> first | rfl | exact absurd rfl herror
          have hdrop := dropCell_openCell (hcell error hfind rfl herror) symbols
          dsimp only
          rw [hkeeps, if_neg Bool.false_ne_true, hdrop]
          exact ⟨⟨rfl, rfl, h.withSymbols symbols⟩, fun _ _ _ => rfl⟩
      · obtain ⟨cells', hfill, hrepresents⟩ := (h.withSymbols symbols).fillCell hfind
        rw [hfinding]
        have hopen : { cells.openCell file.name.bytes with symbols } =
            { cells with symbols }.openCell file.name.bytes := rfl
        simp only [hopen, hfill]
        exact ⟨⟨rfl, rfl, hrepresents⟩, fun _ hok => nomatch hok⟩

theorem define (h : cells.Represents loader) (label : String) (bytes : List UInt8) :
    (cells.define label bytes).Represents (loader.define label bytes) := by
  have hdefines := Loader.defines_define loader label bytes
  have hdecoding : ClassFile.decode cells.options bytes cells.symbols =
      ClassFile.decode loader.options bytes loader.symbols := by
    rw [h.options_eq, h.symbols_eq]
  generalize loader.define label bytes = report at hdefines
  unfold CellLoader.define CellLoader.decode
  rw [hdecoding]
  cases hdefines with
  | @malformed failure symbols hdecode =>
      simp only [hdecode, Except.mapError_error]
      exact ⟨rfl, rfl, h.withSymbols symbols⟩
  | @known file symbols id hdecode hfind =>
      -- The cell is there and keeps its class.
      have hopen := openCell_of_some ((h.withSymbols symbols).filled hfind)
      have hfill : { cells with symbols }.find? file.name.bytes = some id :=
        ((h.withSymbols symbols).find?_eq _).trans hfind
      simp only [hdecode, Except.mapError_ok, hopen, CellLoader.fillCell, hfill]
      exact ⟨rfl, rfl, h.withSymbols symbols⟩
  | @defined file symbols hdecode hnew =>
      obtain ⟨cells', hfill, hrepresents⟩ := (h.withSymbols symbols).fillCell hnew
      simp only [hdecode, Except.mapError_ok, hfill]
      exact ⟨rfl, rfl, hrepresents⟩

theorem entityAt_eq (h : cells.Represents loader) (id : ClassId) (index : UInt16) :
    cells.entityAt id index = loader.entityAt id index := by
  rw [CellLoader.entityAt, h.bare_eq]
  rfl

theorem classAt_bare (h : cells.Represents loader) (id : ClassId) :
    cells.bare.classAt id = loader.classAt id := by
  rw [h.bare_eq]
  rfl

theorem settle (h : cells.Represents loader) {slotName : Symbol} (target : ClassId)
    (hfile : loader.classAt id = .ok file)
    (hslot : file.pool.get? index = some (.classEntity (.unresolved slotName))) :
    (∀ fault, loader.classAt target = .error fault → cells.settle id index target = .error fault) ∧
    ∀ targetFile pool, loader.classAt target = .ok targetFile →
      file.pool.put index (.classEntity (.resolved ⟨target, targetFile.name⟩)) = .ok pool →
        cells.settle id index target =
          .ok (target, { cells with classes := (loader.linked id file pool).classes }) := by
  have hbare := Loader.settle_of_unresolved target ((h.classAt_bare id).trans hfile) hslot
  rw [h.classAt_bare] at hbare
  unfold CellLoader.settle
  refine ⟨fun fault htarget => ?_, fun targetFile pool htarget hput => ?_⟩
  · rcases hbare with ⟨other, hother, hsettle⟩ | ⟨_, _, hother, -, -⟩
    · obtain rfl := Except.error.inj (htarget.symm.trans hother)
      rw [hsettle]
      rfl
    · rw [htarget] at hother
      cases hother
  · rcases hbare with ⟨_, hother, -⟩ | ⟨other, pool', hother, hput', hsettle⟩
    · rw [htarget] at hother
      cases hother
    · obtain rfl := Except.ok.inj (htarget.symm.trans hother)
      obtain rfl := Except.ok.inj (hput.symm.trans hput')
      rw [hsettle, h.bare_eq]
      rfl

theorem resolve (h : cells.Represents loader) (id : ClassId) (index : UInt16) :
    (cells.resolve id index).Represents (loader.resolve id index) := by
  have hresolves := Loader.resolves_resolve loader id index
  generalize loader.resolve id index = report at hresolves
  have hunresolved {file : ClassFile} {slotName : Symbol} (hfile : loader.classAt id = .ok file)
      (hslot : file.pool.get? index = some (.classEntity (.unresolved slotName))) :
      cells.entityAt id index = .ok (.unresolved slotName) :=
    (h.entityAt_eq id index).trans (Loader.entityAt_eq_ok_iff.mpr ⟨file, hfile, hslot⟩)
  cases hresolves with
  | fault hfault =>
      rw [CellLoader.resolve, h.entityAt_eq, hfault]
      exact ⟨rfl, rfl, h⟩
  | known hfile hslot =>
      rw [CellLoader.resolve, h.entityAt_eq, Loader.entityAt_eq_ok_iff.mpr ⟨_, hfile, hslot⟩]
      exact ⟨rfl, rfl, h⟩
  | @failed file slotName failure hfile hslot hresult =>
      obtain ⟨⟨hresult', hlookups, hafter⟩, -⟩ := h.load slotName.bytes
      rw [resolve_of_unresolved (hunresolved hfile hslot), hresult', hresult]
      exact ⟨hresult'.trans hresult, hlookups, hafter⟩
  | @unknown file slotName target fault hfile hslot hresult htarget =>
      obtain ⟨⟨hresult', hlookups, hafter⟩, -⟩ := h.load slotName.bytes
      have hkept := Loader.classAt_of_load (Loader.loads_load loader slotName.bytes) hfile
      have hsettle := (hafter.settle target hkept hslot).1 fault htarget
      rw [resolve_of_unresolved (hunresolved hfile hslot), hresult', hresult]
      dsimp only
      rw [hsettle]
      exact ⟨rfl, hlookups, hafter⟩
  | @linked file targetFile slotName target pool hfile hslot hresult htarget hput =>
      obtain ⟨⟨hresult', hlookups, hafter⟩, -⟩ := h.load slotName.bytes
      have hkept := Loader.classAt_of_load (Loader.loads_load loader slotName.bytes) hfile
      have hsettle := (hafter.settle target hkept hslot).2 targetFile pool htarget hput
      rw [resolve_of_unresolved (hunresolved hfile hslot), hresult', hresult]
      dsimp only
      rw [hsettle]
      exact ⟨rfl, hlookups, hafter.withClasses _⟩

theorem perform (h : cells.Represents loader) (request : Loader.Request) :
    (cells.perform request).Represents (loader.perform request) := by
  cases request with
  | addEntry entry => exact h.addEntry entry
  | find name => exact h
  | load name => exact (h.load name).1.after
  | define label bytes => exact (h.define label bytes).after
  | resolve id index => exact (h.resolve id index).after

theorem next (h : cells.Represents loader) (event : LoaderEvent) :
    (cells.next event).Represents (loader.next event) := by
  cases event with
  | request request => exact h.perform request
  | offer s =>
      rw [CellLoader.next, h.symbols_eq]
      exact h.withSymbols _

/-- Whatever happens to both, a loader with cells goes on to stand for the plain one. -/
theorem after (h : cells.Represents loader) (events : List LoaderEvent) :
    (cells.after events).Represents (loader.after events) := by
  induction events generalizing cells loader with
  | nil => exact h
  | cons event events ih => exact ih (h.next event)

end Represents

end CellLoader

end ClassLoading
