import ClassLoading.Proofs.Loader.Failure
import ClassLoading.Proofs.Machine.Simulation
import ClassLoading.Proofs.Text.ModifiedUtf8

/-!
# Misses

A load of a class that no source has reports that there is no such class. The loader keeps nothing of it,
neither a cell nor the name. A machine has made a symbol of the name before it asks its loader, and this
symbol stays in the table.
-/

namespace ClassLoading

theorem Archive.Directory.find?_of_lacked {directory : Archive.Directory} {data : List UInt8} {file : String}
    (h : directory.read? data file = .ok none) : directory.find? file = none := by
  cases hmember : directory.find? file with
  | none => rfl
  | some member =>
      simp only [read?, hmember] at h
      cases hcontents : directory.contents data member with
      | error _ | ok _ =>
          rw [hcontents] at h
          cases h

/-- A source that was asked for what it lacks has noted nothing. -/
theorem Source.afterFind_of_lacked {tree : FileTree} {source : Source} {file : String}
    (h : (source.toEntry tree).find file = .ok none) : source.afterFind tree file = source := by
  cases source with
  | directory path => rfl
  | archive path listed =>
      have hfind : findInArchive tree path listed file = .ok none := h
      unfold findInArchive at hfind
      cases hread : tree.read path with
      | error error => simp only [afterFind, hread]
      | ok data =>
          rw [hread] at hfind
          simp only [afterFind, hread, Archive.Directory.afterRead, Archive.Directory.find?_of_lacked hfind]

theorem search_of_lacks {path : List ClassPathEntry} {file : String}
    (h : ∀ entry ∈ path, entry.find file = .ok none) :
    search path file = ⟨path.map fun entry => ⟨entry.name, file⟩, .ok none⟩ := by
  induction path with
  | nil => rfl
  | cons entry path ih =>
      have hrest := ih fun other hother => h other (List.mem_cons_of_mem entry hother)
      simp only [search, h entry List.mem_cons_self, hrest, List.map_cons]

namespace Loader

variable {loader : Loader} {name : List UInt8}

/-- No class of that name is registered, and no entry has its class file. -/
structure Lacks (loader : Loader) (name : List UInt8) : Prop where
  unknown : loader.find? name = none
  lacked : ∀ entry ∈ loader.classPath, entry.find (classFileName (Symbol.textOfBytes name)) = .ok none

/-- What a load reports of a class that there is not. -/
def missed (loader : Loader) (name : List UInt8) : Report where
  result := .error (.error (.notFound (Symbol.textOfBytes name)))
  lookups := loader.classPath.map fun entry => ⟨entry.name, classFileName (Symbol.textOfBytes name)⟩
  after := loader

theorem load_of_lacks (h : loader.Lacks name) : loader.load name = loader.missed name := by
  have hsearch : loader.searchFor name = _ := search_of_lacks h.lacked
  rw [load_eq_of_loads (.missed h.unknown (by rw [hsearch])), hsearch, missed]

end Loader

namespace CellLoader

variable {cells : CellLoader} {loader : Loader} {name : List UInt8}

/-- A miss leaves no cell behind, whatever the table that the loader shares holds by then. -/
theorem Represents.load_of_lacks (h : cells.Represents loader) (hlacks : loader.Lacks name)
    (symbols : SymbolTable) :
    ({ cells with symbols }.load name).result = .error (.error (.notFound (Symbol.textOfBytes name))) ∧
      ({ cells with symbols }.load name).after = { cells with symbols } := by
  have hlacks' : { loader with symbols }.Lacks name := ⟨hlacks.unknown, hlacks.lacked⟩
  have hmissed := Loader.load_of_lacks hlacks'
  obtain ⟨hreport, hafter⟩ := (h.withSymbols symbols).load name
  rw [hmissed] at hreport hafter
  exact ⟨hreport.result_eq, hafter _ rfl nofun⟩

/-- What a loader is asked for that nobody has leaves it as it is. -/
theorem Represents.after_of_lacks (h : cells.Represents loader) {names : List (List UInt8)}
    (hlacks : ∀ name ∈ names, loader.Lacks name) :
    cells.after (names.map fun name => .request (.load name)) = cells := by
  induction names with
  | nil => rfl
  | cons name names ih =>
      obtain ⟨hname, hnames⟩ := List.forall_mem_cons.mp hlacks
      have hload : (cells.load name).after = cells := (h.load_of_lacks hname cells.symbols).2
      change (cells.load name).after.after _ = cells
      rw [hload]
      exact ih hnames

end CellLoader

namespace Machine

variable {machine : Machine} {name : String} {names : List String}

/-- No class of that name is loaded, and no source has its class file. -/
structure Lacks (machine : Machine) (name : String) : Prop where
  unknown : machine.loader.find? (Symbol.bytesOfText name) = none
  lacked : ∀ source ∈ machine.sources,
    (source.toEntry machine.tree).find (classFileName name) = .ok none

def withSymbols (machine : Machine) (symbols : SymbolTable) : Machine :=
  { machine with loader := { machine.loader with symbols } }

/-- What the loads of some classes report, one after another. -/
def results (machine : Machine) : List String → List (Except LoadFailure ClassId)
  | [] => []
  | name :: names => (machine.load name).result :: (machine.next (.load name)).results names

theorem Lacks.loader (h : machine.Settled) (hlacks : machine.Lacks name) :
    machine.loader.Lacks (Symbol.bytesOfText name) := by
  refine ⟨hlacks.unknown, fun entry hentry => ?_⟩
  rw [h] at hentry
  obtain ⟨source, hsource, rfl⟩ := List.mem_map.mp hentry
  rw [Symbol.textOfBytes_bytesOfText]
  exact hlacks.lacked source hsource

theorem askedSources_of_lacked {tree : FileTree} {sources : List Source} {file : String}
    (h : ∀ source ∈ sources, (source.toEntry tree).find file = .ok none) :
    askedSources tree sources (sources.map fun source => ⟨source.name, file⟩) = sources := by
  induction sources with
  | nil => rfl
  | cons source sources ih =>
      obtain ⟨hsource, hsources⟩ := List.forall_mem_cons.mp h
      rw [List.map_cons, askedSources, ih hsources]
      exact congrArg (· :: sources) (Source.afterFind_of_lacked hsource)

/-- A miss leaves in a machine the symbol made of the name, and nothing else. -/
theorem next_of_lacks (h : machine.Settled) (hlacks : machine.Lacks name) :
    (machine.load name).result = .error (.error (.notFound name)) ∧
      machine.next (.load name) = (machine.symbol name).2 := by
  have hloader := hlacks.loader h
  have hload : machine.load name = (machine.symbol name).2.loader.missed (Symbol.bytesOfText name) :=
    (load_eq machine name).trans (Loader.load_of_lacks ⟨hloader.unknown, hloader.lacked⟩)
  rw [next, after, hload, Loader.missed, Symbol.textOfBytes_bytesOfText]
  refine ⟨rfl, ?_⟩
  have hpath : (machine.symbol name).2.loader.classPath = machine.sources.map (·.toEntry machine.tree) := h
  have hlookups : (machine.symbol name).2.loader.classPath.map (⟨·.name, classFileName name⟩) =
      machine.sources.map fun source => (⟨source.name, classFileName name⟩ : Lookup) := by
    rw [hpath, List.map_map]
    rfl
  simp only [goOn, hlookups, askedSources_of_lacked hlacks.lacked, refresh, ← hpath]
  rfl

theorem Lacks.withSymbols (h : machine.Lacks name) (symbols : SymbolTable) :
    (machine.withSymbols symbols).Lacks name := ⟨h.unknown, h.lacked⟩

/-- Loads of classes that there are not make symbols of their names, and do nothing else. -/
theorem run_of_lacks (h : machine.Settled) (hlacks : ∀ name ∈ names, machine.Lacks name) :
    machine.results names = names.map (fun name => .error (.error (.notFound name))) ∧
      machine.run (names.map .load) =
        machine.withSymbols (machine.loader.symbols.internAll (names.map Symbol.bytesOfText)) := by
  induction names generalizing machine with
  | nil => exact ⟨rfl, rfl⟩
  | cons name names ih =>
      obtain ⟨hname, hnames⟩ := List.forall_mem_cons.mp hlacks
      obtain ⟨hresult, hnext⟩ := next_of_lacks h hname
      let symbols := (machine.loader.symbols.internBytes (Symbol.bytesOfText name)).2
      have hafter : machine.next (.load name) = machine.withSymbols symbols := hnext
      have hsettled : (machine.withSymbols symbols).Settled := h
      obtain ⟨hresults, hrun⟩ := ih hsettled fun other hother => (hnames other hother).withSymbols symbols
      constructor
      · rw [results, hresult, hafter, hresults, List.map_cons]
      · change (machine.next (.load name)).run (names.map .load) = _
        rw [hafter]
        exact hrun

/-- In every state that a machine can come to while its files stay as they are: a load of a class that is
not loaded and that no source has reports that there is no such class. However many such loads follow each
other, they leave the class path, the sources, the registry and the classes exactly as they were, and add
to the symbols the names that were new; so the table stays the same only if it had all those names. The
loader itself leaves nothing: with cells, asked for the same names, it goes on with the cells, the classes
and the symbols that it had. -/
theorem misses_add_names {settings : Settings} {tree : FileTree} {created : Machine}
    (hcreate : create settings tree = .ok created) (history : List MachineEvent) :
    let machine := created.run history
    ∃ asked, let cells := (CellLoader.empty settings.options .empty).after asked
      cells.Represents machine.loader ∧
      ∀ names, (∀ name ∈ names, machine.Lacks name) →
        let offered := names.map Symbol.bytesOfText
        let before := machine.loader.symbols
        let after := before.internAll offered
        machine.results names = names.map (fun name => .error (.error (.notFound name))) ∧
        machine.run (names.map .load) = machine.withSymbols after ∧
        after.contents = before.contents ∪ {content | content ∈ offered} ∧
        after.size = before.size + (before.fresh offered).length ∧
        (∀ content s, before.find? content = some s → after.find? content = some s) ∧
        (after = before ↔ ∀ content ∈ offered, (before.find? content).isSome) ∧
        (∀ name ∈ names, ∀ symbols, let asking := { cells with symbols }
          (asking.load (Symbol.bytesOfText name)).result = .error (.error (.notFound name)) ∧
            (asking.load (Symbol.bytesOfText name)).after = asking) ∧
        cells.after (offered.map fun content => .request (.load content)) = cells := by
  obtain ⟨hsettled, asked, hloader⟩ := loader_run hcreate history
  have hcells := (CellLoader.Represents.empty settings.options .empty).after asked
  have hstart : (Loader.empty settings.options .empty).symbols.Reachable := .empty
  have hreachable := Loader.reachable_after hstart asked
  rw [← hloader] at hcells hreachable
  refine ⟨asked, hcells, fun names hlacks => ?_⟩
  obtain ⟨hresults, hrun⟩ := run_of_lacks hsettled hlacks
  refine ⟨hresults, hrun, SymbolTable.contents_internAll hreachable _, hreachable.size_internAll _,
    fun content s hfind => SymbolTable.find?_internAll_of_some hfind _, SymbolTable.internAll_eq_self_iff,
    fun name hname symbols => ?_, hcells.after_of_lacks fun content hcontent => ?_⟩
  · have hmissed := hcells.load_of_lacks ((hlacks name hname).loader hsettled) symbols
    rwa [Symbol.textOfBytes_bytesOfText] at hmissed
  · obtain ⟨name, hname, rfl⟩ := List.mem_map.mp hcontent
    exact (hlacks name hname).loader hsettled

section EmptyTree

/-- A machine that looks for classes in the root of an empty file tree. -/
def rooted : Machine :=
  refresh ⟨.empty, [.directory "."], .empty {} .empty, none⟩

theorem create_rooted : create ⟨["."], none, {}⟩ .empty = .ok rooted := by
  have hparts : ".".splitOn "/" = ["."] := by
    rw [String.splitOn, if_neg (by decide)]
    rw [String.splitOnAux, if_neg (by decide), if_neg (by decide)]
    rw [String.splitOnAux, if_pos (by decide)]
    decide
  have hplace : FileTree.empty.resolve "." = .ok (.inside []) := by
    rw [FileTree.resolve, if_neg (by decide), if_neg (by decide), if_neg (by decide), hparts]
    rfl
  have hopen : Source.open .empty "." = .ok (some (.directory ".")) := by
    rw [Source.open, FileTree.isDirectory, FileTree.find, hplace]
    rfl
  rw [create, openSources, hopen]
  rfl

theorem lacks_rooted : rooted.Lacks "A" := by
  refine ⟨Std.HashMap.getElem?_empty, fun source hsource => ?_⟩
  obtain rfl : source = .directory "." := List.mem_singleton.mp hsource
  have hpath : joinPath "." (classFileName "A") = "./A.class" := by decide
  have hparts : "./A.class".splitOn "/" = [".", "A.class"] := by
    rw [String.splitOn, if_neg (by decide)]
    rw [String.splitOnAux, if_neg (by decide), if_neg (by decide)]
    rw [String.splitOnAux, if_neg (by decide), if_pos (by decide)]
    dsimp only
    rw [if_pos (by decide)]
    iterate 7 rw [String.splitOnAux, if_neg (by decide), if_neg (by decide)]
    rw [String.splitOnAux, if_pos (by decide)]
    decide
  have hplace : FileTree.empty.resolve "./A.class" = .error .notFound := by
    rw [FileTree.resolve, if_neg (by decide), if_neg (by decide), if_neg (by decide), hparts]
    rfl
  have hread : FileTree.empty.read "./A.class" = .error .notFound := by
    simp only [FileTree.read, FileTree.find, hplace]
    rfl
  change Source.findInDirectory .empty "." (classFileName "A") = .ok none
  unfold Source.findInDirectory
  simp only [hpath, hread]

/-- The class is asked for twice; its name is added once. -/
theorem misses_add_names_rooted :
    create ⟨["."], none, {}⟩ .empty = .ok rooted ∧ rooted.Lacks "A" ∧
      rooted.results ["A", "A"] = [.error (.error (.notFound "A")), .error (.error (.notFound "A"))] ∧
        (rooted.run [.load "A", .load "A"]).loader.registry = rooted.loader.registry ∧
          (rooted.run [.load "A", .load "A"]).loader.symbols.size = 1 := by
  obtain ⟨asked, -, hmisses⟩ := misses_add_names create_rooted []
  obtain ⟨hresults, hrun, -, hsize, -⟩ := hmisses ["A", "A"] fun name hname => by
    obtain rfl : name = "A" := by simpa using hname
    exact lacks_rooted
  have hafter : rooted.run [.load "A", .load "A"] = _ := hrun
  have hfresh : (rooted.run []).loader.symbols.fresh (["A", "A"].map Symbol.bytesOfText) =
      (["A", "A"].map Symbol.bytesOfText).dedup := SymbolTable.fresh_empty _
  refine ⟨create_rooted, lacks_rooted, hresults, by rw [hafter]; rfl, ?_⟩
  rw [hafter]
  refine hsize.trans ?_
  rw [hfresh]
  decide

/-- A miss adds to the symbols, though nothing was loaded. -/
theorem miss_grows_symbols :
    create ⟨["."], none, {}⟩ .empty = .ok rooted ∧ rooted.Lacks "A" ∧
      (rooted.load "A").result = .error (.error (.notFound "A")) ∧
        rooted.loader.symbols.size = 0 ∧ (rooted.next (.load "A")).loader.symbols.size = 1 := by
  have hsettled : rooted.Settled := rfl
  obtain ⟨hresult, hnext⟩ := next_of_lacks hsettled lacks_rooted
  refine ⟨create_rooted, lacks_rooted, hresult, rfl, ?_⟩
  have hsize := SymbolTable.Reachable.empty.size_internAll [Symbol.bytesOfText "A"]
  rw [SymbolTable.fresh_empty] at hsize
  rw [hnext]
  exact hsize

end EmptyTree

end Machine

end ClassLoading
