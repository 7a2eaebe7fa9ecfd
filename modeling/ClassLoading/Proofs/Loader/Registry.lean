import ClassLoading.Proofs.ClassFile.Sharing
import ClassLoading.Proofs.Loader.Cells

/-!
# What the registry holds

Under a name the registry holds a class that declares this very name, spelt with the symbol that everybody
shares. Whatever happens later, it holds the same class, and every way to ask for the name comes to it.
-/

namespace ClassLoading

namespace Loader

variable {loader loader' : Loader} {name : List UInt8} {id : ClassId} {file : ClassFile}

/-- A coherent loader whose classes are named by the symbols that its symbol table hands out. -/
structure Sound (loader : Loader) : Prop where
  coherent : loader.Coherent
  shared : ∀ {id file}, loader.classAt id = .ok file →
    loader.symbols.find? file.name.bytes = some file.name

namespace Sound

theorem empty (options : Options) (symbols : SymbolTable) : Sound (.empty options symbols) := by
  refine ⟨.empty options symbols, fun {id file} hfile => ?_⟩
  simp [classAt_eq_ok_iff, Loader.empty] at hfile

theorem withSymbols {symbols : SymbolTable} (h : loader.Sound)
    (hkept : ∀ {content s}, loader.symbols.find? content = some s → symbols.find? content = some s) :
    { loader with symbols }.Sound :=
  ⟨h.coherent.of_eq rfl rfl, fun hfile => hkept (h.shared hfile)⟩

theorem step (h : loader.Sound) (hstep : Step loader loader') : loader'.Sound := by
  refine ⟨h.coherent.step hstep, fun {id file} hfile => ?_⟩
  have hkept {bytes : List UInt8} {result : Except Failure ClassFile} {symbols : SymbolTable}
      (hdecode : ClassFile.decode loader.options bytes loader.symbols = (result, symbols))
      (hfile : loader.classAt id = .ok file) : symbols.find? file.name.bytes = some file.name := by
    have hfind := ClassFile.find?_decode_of_some (h.shared hfile) loader.options bytes
    rwa [hdecode] at hfind
  cases hstep with
  | addEntry entry => exact h.shared hfile
  | decode hdecode => exact hkept hdecode hfile
  | register hdecode hnew =>
      rcases classAt_of_register hfile with hold | ⟨-, rfl⟩
      · exact hkept hdecode hold
      · exact ClassFile.find?_of_decode hdecode (.name rfl)
  | @link holder target index holderFile targetFile slotName pool hholder =>
      rw [classAt_linked pool hholder] at hfile
      split at hfile
      · obtain rfl := Except.ok.inj hfile
        have hshared := h.shared hholder
        exact hshared
      · exact h.shared hfile

theorem steps (h : loader.Sound) (hsteps : Steps loader loader') : loader'.Sound := by
  induction hsteps with
  | refl => exact h
  | tail _ hstep ih => exact ih.step hstep

theorem next (h : loader.Sound) (event : LoaderEvent) : (loader.next event).Sound := by
  cases event with
  | request request => exact h.steps (steps_perform loader request)
  | offer s =>
      refine h.withSymbols fun {content t} hfind => ?_
      rw [SymbolTable.snd_put, SymbolTable.find?_intern, hfind]
      rfl

theorem after (h : loader.Sound) (events : List LoaderEvent) : (loader.after events).Sound :=
  after_induction events h fun event h => h.next event

end Sound

theorem after_append (loader : Loader) (first rest : List LoaderEvent) :
    loader.after (first ++ rest) = (loader.after first).after rest := List.foldl_append

theorem extends_next (h : loader.Coherent) (event : LoaderEvent) :
    Extends (fun _ _ => True) loader (loader.next event) := by
  cases event with
  | request request => exact (extends_perform h request).mono fun _ _ _ => trivial
  | offer s => exact .of_eq rfl rfl

theorem extends_after (h : loader.Sound) (events : List LoaderEvent) :
    Extends (fun _ _ => True) loader (loader.after events) := by
  have hboth := after_induction
    (motive := fun after => after.Sound ∧ Extends (fun _ _ => True) loader after) events
    ⟨h, .refl loader⟩ fun event ⟨hsound, hextends⟩ =>
      ⟨hsound.next event, hextends.trans (extends_next hsound.coherent event)⟩
  exact hboth.2

theorem options_after (loader : Loader) (events : List LoaderEvent) :
    (loader.after events).options = loader.options := by
  refine after_induction (motive := fun after => after.options = loader.options) events rfl ?_
  intro before event hbefore
  refine Eq.trans ?_ hbefore
  cases event with
  | request request => exact options_of_steps (steps_perform before request)
  | offer s => rfl

/-- A class that was defined is found under the name that its file declares. -/
theorem find?_of_define {label : String} {bytes : List UInt8} {report : Report}
    (h : Defines loader label bytes report) (hid : report.result = .ok id) :
    ∃ declared symbols, ClassFile.decode loader.options bytes loader.symbols = (.ok declared, symbols) ∧
      report.after.find? declared.name.bytes = some id := by
  cases h with
  | malformed => cases hid
  | known hdecode hfind => exact ⟨_, _, hdecode, hfind.trans (congrArg some (Except.ok.inj hid))⟩
  | @defined file symbols hdecode hnew =>
      refine ⟨file, symbols, hdecode, ?_⟩
      rw [find?_register, if_pos rfl, ← Except.ok.inj hid]

/-- To define a class again comes to the class that is registered. -/
theorem result_of_define {label : String} {bytes : List UInt8} {report : Report}
    (h : Defines loader label bytes report)
    (hdecode : (ClassFile.decode loader.options bytes loader.symbols).1 = .ok file)
    (hfind : loader.find? file.name.bytes = some id) : report.result = .ok id := by
  cases h with
  | malformed hdecode' =>
      rw [hdecode'] at hdecode
      cases hdecode
  | known hdecode' hfind' =>
      rw [hdecode'] at hdecode
      obtain rfl := Except.ok.inj hdecode
      exact congrArg Except.ok (Option.some.inj (hfind'.symm.trans hfind))
  | defined hdecode' hnew =>
      rw [hdecode'] at hdecode
      obtain rfl := Except.ok.inj hdecode
      rw [hfind] at hnew
      cases hnew

end Loader

/-- An entry that answers, one way or another: it does not break off when a file is too large. -/
def ClassPathEntry.Returns (entry : ClassPathEntry) : Prop :=
  ∀ file, entry.find file ≠ .error .tooLarge

namespace CellLoader

variable {cells : CellLoader} {loader : Loader} {name : List UInt8} {id : ClassId} {file : ClassFile}

/-- The cell of a name holds a class that declares exactly this name, by the symbol that the symbol
table has for it. -/
structure Holds (cells : CellLoader) (name : List UInt8) (id : ClassId) (file : ClassFile) : Prop where
  cell_eq : cells.cells[name]? = some (some id)
  class_eq : cells.classes[id]? = some file
  bytes_eq : file.name.bytes = name
  symbol_eq : cells.symbols.find? name = some file.name

/-- Every way to ask for the class of a name comes to this class: to look it up, to load it, and to
define a class of that name. -/
structure Serves (cells : CellLoader) (name : List UInt8) (id : ClassId) : Prop where
  find?_eq : cells.find? name = some id
  load_eq : cells.load name = ⟨.ok id, [], cells⟩
  define_eq : ∀ label bytes declared,
    (ClassFile.decode cells.options bytes cells.symbols).1 = .ok declared → declared.name.bytes = name →
      (cells.define label bytes).result = .ok id

theorem Holds.id_eq {id' : ClassId} {file' : ClassFile} (h : cells.Holds name id file)
    (h' : cells.Holds name id' file') : id = id' :=
  Option.some.inj (Option.some.inj (h.cell_eq.symm.trans h'.cell_eq))

theorem Holds.find?_eq (h : cells.Holds name id file) : cells.find? name = some id := by
  rw [find?, h.cell_eq]
  rfl

namespace Represents

theorem classAt_iff (h : cells.Represents loader) :
    cells.classes[id]? = some file ↔ loader.classAt id = .ok file := by
  rw [h.classes_eq, Loader.classAt_eq_ok_iff]

theorem holds (h : cells.Represents loader) (hsound : loader.Sound)
    (hfind : loader.find? name = some id) (hfile : loader.classAt id = .ok file) :
    cells.Holds name id file := by
  have hbytes : file.name.bytes = name := by
    obtain ⟨_, hfile', hbytes⟩ := hsound.coherent.registered hfind
    obtain rfl := Except.ok.inj (hfile.symm.trans hfile')
    exact hbytes
  refine ⟨h.filled hfind, h.classAt_iff.mpr hfile, hbytes, ?_⟩
  rw [h.symbols_eq, ← hbytes]
  exact hsound.shared hfile

theorem exists_holds (h : cells.Represents loader) (hsound : loader.Sound)
    (hfind : loader.find? name = some id) : ∃ file, cells.Holds name id file := by
  obtain ⟨file, hfile, -⟩ := hsound.coherent.registered hfind
  exact ⟨file, h.holds hsound hfind hfile⟩

/-- A cell holds a class, unless the load that opened it broke off. -/
theorem holds_or_open {cell : Option ClassId} (h : cells.Represents loader) (hsound : loader.Sound)
    (hcell : cells.cells[name]? = some cell) : (∃ id file, cell = some id ∧ cells.Holds name id file) ∨
      cell = none ∧ loader.find? name = none ∧ (loader.searchFor name).found = .error .tooLarge := by
  cases hfind : loader.find? name with
  | some id =>
      obtain ⟨file, hholds⟩ := h.exists_holds hsound hfind
      exact Or.inl ⟨id, file, Option.some.inj (hcell.symm.trans hholds.cell_eq), hholds⟩
  | none =>
      rcases h.vacant hfind with hnone | ⟨hopen, hfound⟩
      · rw [hnone] at hcell
        cases hcell
      · exact Or.inr ⟨Option.some.inj (hcell.symm.trans hopen), rfl, hfound⟩

theorem not_tooLarge_of_returns (h : cells.Represents loader)
    (hentries : ∀ entry ∈ cells.classPath, entry.Returns) :
    (loader.searchFor name).found ≠ .error .tooLarge := by
  intro hfound
  rw [Loader.found_searchFor, ← h.classPath_eq] at hfound
  obtain ⟨entry, hentry, hfind⟩ := exists_mem_of_firstAnswer hfound
  exact hentries entry hentry _ hfind

theorem holds_of_load (h : cells.Represents loader) (hsound : loader.Sound)
    (hresult : (cells.load name).result = .ok id) : ∃ file, (cells.load name).after.Holds name id file := by
  have hloads := Loader.loads_load loader name
  obtain ⟨hresult', -, hafter⟩ := (h.load name).1
  exact hafter.exists_holds (hsound.steps (Loader.steps_of_load hloads))
    (Loader.find?_of_load hloads (hresult'.symm.trans hresult))

theorem holds_of_define {label : String} {bytes : List UInt8} (h : cells.Represents loader)
    (hsound : loader.Sound) (hresult : (cells.define label bytes).result = .ok id) : ∃ declared,
      (ClassFile.decode loader.options bytes cells.symbols).1 = .ok declared ∧
        ∃ file, (cells.define label bytes).after.Holds declared.name.bytes id file := by
  have hdefines := Loader.defines_define loader label bytes
  obtain ⟨hresult', -, hafter⟩ := h.define label bytes
  obtain ⟨declared, symbols, hdecode, hfind⟩ :=
    Loader.find?_of_define hdefines (hresult'.symm.trans hresult)
  rw [← h.symbols_eq] at hdecode
  exact ⟨declared, congrArg Prod.fst hdecode,
    hafter.exists_holds (hsound.steps (Loader.steps_of_define hdefines)) hfind⟩

theorem serves (h : cells.Represents loader) (hfind : loader.find? name = some id) :
    cells.Serves name id := by
  have hcell : cells.find? name = some id := (h.find?_eq name).trans hfind
  refine ⟨hcell, ?_, fun label bytes declared hdecode hname => ?_⟩
  · rw [CellLoader.load, hcell]
  · rw [h.options_eq, h.symbols_eq] at hdecode
    rw [(h.define label bytes).result_eq]
    exact Loader.result_of_define (Loader.defines_define loader label bytes) hdecode (hname ▸ hfind)

/-- What a cell holds it holds for ever. -/
theorem held_after (h : cells.Represents loader) (hsound : loader.Sound) (hholds : cells.Holds name id file)
    (events : List LoaderEvent) : (cells.after events).Serves name id ∧
      ∃ pool, (cells.after events).Holds name id { file with pool } ∧
        Loader.Settles (loader.after events) (fun _ => True) file.pool pool := by
  have hafter := h.after events
  have hextends := Loader.extends_after hsound events
  have hfind := hextends.find?_eq ((h.find?_eq name).symm.trans hholds.find?_eq)
  obtain ⟨pool, hfile, hsettles⟩ := hextends.classes (h.classAt_iff.mp hholds.class_eq)
  exact ⟨hafter.serves hfind, pool, hafter.holds (hsound.after events) hfind hfile, hsettles⟩

end Represents

/-- Whatever happened to a loader and to the symbol table that it shares, in success or in failure, its
cells say what the registry of a plain loader says. Every cell holds a class; only a load that broke off
leaves its cell open, which takes an entry that does not return. The class declares exactly the bytes of
the name, and its own name is the shared symbol. Every class is in its cell, so classes of the same name
are the same class. What was loaded or defined is held from then on: whatever happens later, the class
stays in its cell, with other class slots resolved at most, and every way to ask for its name comes to
it. -/
theorem registry_held (options : Options) (symbols : SymbolTable) (events : List LoaderEvent) :
    let loader := (empty options symbols).after events
    loader.Represents ((Loader.empty options symbols).after events) ∧
    ((∀ entry ∈ loader.classPath, entry.Returns) →
      ∀ name cell, loader.cells[name]? = some cell →
        ∃ id file, cell = some id ∧ loader.Holds name id file) ∧
    (∀ name cell, loader.cells[name]? = some cell →
      (∃ id file, cell = some id ∧ loader.Holds name id file) ∨
        cell = none ∧ (loader.load name).result = .error (.error .tooLarge)) ∧
    (∀ id file, loader.classes[id]? = some file → loader.Holds file.name.bytes id file) ∧
    (∀ name id, (loader.load name).result = .ok id →
      ∃ file, (loader.load name).after.Holds name id file) ∧
    (∀ label bytes id, (loader.define label bytes).result = .ok id → ∃ declared,
      (ClassFile.decode options bytes loader.symbols).1 = .ok declared ∧
        ∃ file, (loader.define label bytes).after.Holds declared.name.bytes id file) ∧
    (∀ name id file, loader.Holds name id file → ∀ more, (loader.after more).Serves name id ∧
      ∃ pool, (loader.after more).Holds name id { file with pool } ∧
        Loader.Settles ((Loader.empty options symbols).after (events ++ more)) (fun _ => True) file.pool
          pool) ∧
    ∀ name name' id id' file file', loader.Holds name id file → loader.Holds name' id' file' →
      id ≠ id' → file.name.bytes ≠ file'.name.bytes := by
  have hsound := (Loader.Sound.empty options symbols).after events
  have h := (Represents.empty options symbols).after events
  have hoptions : ((Loader.empty options symbols).after events).options = options :=
    Loader.options_after _ events
  have hlater (more : List LoaderEvent) := Loader.after_append (Loader.empty options symbols) events more
  generalize (empty options symbols).after events = cells at h
  generalize (Loader.empty options symbols).after events = loader at h hsound hoptions hlater
  refine ⟨h, fun hentries name cell hcell => ?_, fun name cell hcell => ?_, fun id file hfile => ?_,
    fun name id => h.holds_of_load hsound, fun label bytes id => hoptions ▸ h.holds_of_define hsound,
    fun name id file hholds more => hlater more ▸ h.held_after hsound hholds more,
    fun name name' id id' file file' hholds hholds' hne hnames => ?_⟩
  · rcases h.holds_or_open hsound hcell with hholds | ⟨-, -, hfound⟩
    · exact hholds
    · exact absurd hfound (h.not_tooLarge_of_returns hentries)
  · refine (h.holds_or_open hsound hcell).imp_right fun ⟨hopen, hnew, hfound⟩ => ⟨hopen, ?_⟩
    rw [(h.load name).1.result_eq, Loader.load_eq_of_loads (.failed hnew hfound)]
  · have hfile' := h.classAt_iff.mp hfile
    exact h.holds hsound (hsound.coherent.listed hfile') hfile'
  · rw [hholds.bytes_eq, hholds'.bytes_eq] at hnames
    subst hnames
    exact hne (hholds.id_eq hholds')

/-- The plain class, defined by one file and then by another, while its name is offered and loaded. -/
theorem registry_held_plainClass :
    let bytes := Loader.plainClass.encode ++ []
    let loader := (empty {} .empty).after [.request (.define "x" bytes)]
    let later := loader.after [.offer ⟨[0x41], 7⟩, .request (.load [0x41]), .request (.define "y" bytes)]
    (∃ file, loader.Holds [0x41] 0 file ∧ ∃ pool, later.Holds [0x41] 0 { file with pool }) ∧
      later.load [0x41] = ⟨.ok 0, [], later⟩ ∧ (later.define "z" bytes).result = .ok 0 := by
  intro bytes loader later
  have hname (symbol : List UInt8 → Symbol) (hsymbol : ∀ text, (symbol text).bytes = text) :
      (Loader.plainFile symbol).name.bytes = [0x41] := hsymbol [0x41]
  have hdefined : ((empty {} .empty).define "x" bytes).result = .ok 0 := by
    rw [((Represents.empty {} .empty).define "x" bytes).result_eq]
    simp only [Loader.define, Loader.decode, Loader.empty, bytes, Loader.decode_plainClass,
      Except.mapError_ok, Loader.find?, Std.HashMap.getElem?_empty]
    rfl
  obtain ⟨-, -, -, -, -, hdefine, -, -⟩ := registry_held {} .empty []
  obtain ⟨declared, hdecode, file, hheld⟩ := hdefine "x" bytes 0 hdefined
  have hdeclared := hdecode.symm.trans (congrArg Prod.fst (Loader.decode_plainClass _))
  rw [Except.ok.inj hdeclared, hname _ (SymbolTable.bytes_instanceOf _)] at hheld
  obtain ⟨-, -, -, -, -, -, hkept, -⟩ := registry_held {} .empty [.request (.define "x" bytes)]
  obtain ⟨hserves, pool, hholds, -⟩ := hkept [0x41] 0 file hheld
    [.offer ⟨[0x41], 7⟩, .request (.load [0x41]), .request (.define "y" bytes)]
  have hoptions : later.options = {} :=
    (((Represents.empty {} .empty).after _).after _).options_eq.trans
      ((Loader.options_after _ _).trans (Loader.options_after _ _))
  refine ⟨⟨file, hheld, pool, hholds⟩, hserves.load_eq, ?_⟩
  refine hserves.define_eq "z" bytes (Loader.plainFile
    (later.symbols.internAll (RawConstant.texts Loader.plainClass.constants)).instanceOf) ?_ ?_
  · rw [hoptions]
    exact congrArg Prod.fst (Loader.decode_plainClass later.symbols)
  · exact hname _ (SymbolTable.bytes_instanceOf _)

end CellLoader

end ClassLoading
