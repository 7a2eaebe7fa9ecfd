import ClassLoading.Machine
import ClassLoading.Proofs.Loader.Registry
import ClassLoading.Proofs.Symbol.Growth

/-!
# Machines and their loaders

As long as nobody changes the files, what a machine notes about its archives does not show: its sources
answer as they did when they were opened. So whatever happens to a machine, its loader is one that drew on
a fixed class path and was asked for the same things.
-/

namespace ClassLoading

namespace Archive.Directory

variable {directory : Directory} {file : String} {member : Member}

theorem find?_afterRead (directory : Directory) (data : List UInt8) (file other : String) :
    (directory.afterRead data file).find? other = directory.find? other := by
  have hmembers : (directory.afterRead data file).members = directory.members := by
    unfold afterRead
    split
    · rfl
    · split
      · rfl
      · split <;> rfl
  rw [find?, hmembers, find?]

theorem name_of_find? (h : directory.find? file = some member) : member.name = file :=
  eq_of_beq (List.find?_some (p := fun member : Member => member.name == file) h)

/-- What is noted about a member is what its heading says. -/
theorem locate?_afterRead (data : List UInt8) (file : String)
    (h : directory.find? member.name = some member) :
    (directory.afterRead data file).locate? data member = directory.locate? data member := by
  unfold afterRead
  cases hread : directory.find? file with
  | none => rfl
  | some read =>
      dsimp only
      split
      · rfl
      · rename_i hfresh
        cases hstart : contentsStart? data read with
        | none => rfl
        | some start =>
            by_cases hname : member.name = read.name
            · -- The directory has one member of that name to give, so this is the one that was read.
              have hsame : directory.find? read.name = some read := (name_of_find? hread).symm ▸ hread
              obtain rfl : member = read := Option.some.inj (h.symm.trans (hname ▸ hsame))
              rw [Bool.or_eq_true, not_or] at hfresh
              have hnew := Option.not_isSome_iff_eq_none.mp hfresh.2
              simp [locate?, hnew, hstart]
            · simp [locate?, List.lookup_cons, beq_eq_false_iff_ne.mpr hname]

/-- To read a file of an archive changes nothing for those who read later. -/
theorem read?_afterRead (directory : Directory) (data : List UInt8) (file other : String) :
    (directory.afterRead data file).read? data other = directory.read? data other := by
  rw [read?, find?_afterRead, read?]
  cases hfind : directory.find? other with
  | none => rfl
  | some member =>
      have hlocate := locate?_afterRead data file ((name_of_find? hfind).symm ▸ hfind)
      simp only [contents, hlocate]

end Archive.Directory

theorem Source.toEntry_afterFind (tree : FileTree) (file : String) (source : Source) :
    (source.afterFind tree file).toEntry tree = source.toEntry tree := by
  cases source with
  | directory path => rfl
  | archive path listed =>
      cases hread : tree.read path with
      | error error => simp only [afterFind, hread]
      | ok data =>
          have hfind : findInArchive tree path (listed.afterRead data file) =
              findInArchive tree path listed := by
            funext other
            simp only [findInArchive, hread, Archive.Directory.read?_afterRead]
          simp only [afterFind, hread]
          exact congrArg (ClassPathEntry.mk path) hfind

/-- What may happen to a machine while its files stay as they are: what it is asked for itself, what its
loader is asked for, and that a symbol is offered to its table. -/
inductive MachineEvent where
  | start
  | load (name : String)
  | define (path : String)
  | intern (text : String)
  | loadBytes (name : List UInt8)
  | resolve (id : ClassId) (index : UInt16)
  | offer (s : Symbol)

namespace Machine

def next (machine : Machine) : MachineEvent → Machine
  | .start =>
      match machine.start with
      | some report => machine.after report
      | none => machine
  | .load name => machine.after (machine.load name)
  | .define path => machine.after (machine.define path)
  | .intern text => (machine.symbol text).2
  | .loadBytes name => machine.after (machine.loader.load name)
  | .resolve id index => machine.after (machine.loader.resolve id index)
  | .offer s => { machine with loader := machine.loader.next (.offer s) }

def run (machine : Machine) (events : List MachineEvent) : Machine := events.foldl next machine

/-- The class path that the sources of a machine are. -/
def entries (machine : Machine) : List ClassPathEntry := machine.sources.map (·.toEntry machine.tree)

/-- The loader draws on the sources. -/
def Settled (machine : Machine) : Prop := machine.loader.classPath = machine.entries

variable {machine later : Machine} {loader : Loader}

theorem map_askedSources (tree : FileTree) (sources : List Source) (lookups : List Lookup) :
    (askedSources tree sources lookups).map (·.toEntry tree) = sources.map (·.toEntry tree) := by
  induction sources generalizing lookups with
  | nil => rfl
  | cons source sources ih =>
      cases lookups with
      | nil => rfl
      | cons lookup lookups =>
          rw [askedSources, List.map_cons, List.map_cons, Source.toEntry_afterFind, ih]

/-- Another machine, or the same machine later, that has the same files, answers from its sources in the
same way, and has come to a loader by some events. -/
structure Continues (machine later : Machine) : Prop where
  tree_eq : later.tree = machine.tree
  initial_eq : later.initial = machine.initial
  entries_eq : later.entries = machine.entries
  settled : later.Settled
  loader_eq : ∃ events, later.loader = machine.loader.after events

namespace Continues

theorem refl (h : machine.Settled) : machine.Continues machine := ⟨rfl, rfl, rfl, h, [], rfl⟩

theorem trans {latest : Machine} (h : machine.Continues later) (h' : later.Continues latest) :
    machine.Continues latest := by
  obtain ⟨events, hevents⟩ := h.loader_eq
  obtain ⟨events', hevents'⟩ := h'.loader_eq
  refine ⟨h'.tree_eq.trans h.tree_eq, h'.initial_eq.trans h.initial_eq, h'.entries_eq.trans h.entries_eq,
    h'.settled, events ++ events', ?_⟩
  rw [hevents', hevents, Loader.after_append]

/-- A machine goes on with a loader that came about by some events and kept its class path. -/
theorem goOn (h : machine.Settled) (events : List LoaderEvent)
    (hpath : (machine.loader.after events).classPath = machine.loader.classPath) (lookups : List Lookup) :
    machine.Continues (machine.goOn (machine.loader.after events) lookups) := by
  have hentries : (askedSources machine.tree machine.sources lookups).map (·.toEntry machine.tree) =
      machine.entries := map_askedSources machine.tree machine.sources lookups
  refine ⟨rfl, rfl, hentries, rfl, events, ?_⟩
  have hkept : machine.entries = (machine.loader.after events).classPath := h.symm.trans hpath.symm
  simp only [Machine.goOn, refresh, hentries, hkept]

/-- A machine goes on after its loader did what it was asked for. -/
theorem perform (h : machine.Settled) (request : Loader.Request)
    (hpath : Loader.pathOf [request] = []) (lookups : List Lookup) :
    machine.Continues (machine.goOn (machine.loader.perform request) lookups) := by
  refine goOn h [.request request] ?_ lookups
  have hkept := Loader.classPath_perform machine.loader request
  rwa [hpath, List.append_nil] at hkept

end Continues

theorem loader_symbol (machine : Machine) (text : String) :
    (machine.symbol text).2.loader =
      machine.loader.next (.offer ⟨Symbol.bytesOfText text, machine.loader.symbols.nextSerial⟩) := by
  rw [Loader.next, SymbolTable.snd_put]
  rfl

/-- To load a class is to intern its name and then to ask the loader for it. -/
theorem load_eq (machine : Machine) (name : String) :
    machine.load name = (machine.symbol name).2.loader.load (Symbol.bytesOfText name) :=
  congrArg (machine.symbol name).2.loader.load (SymbolTable.bytes_instanceOf _ _)

theorem continues_load (h : machine.Settled) (name : String) :
    machine.Continues (machine.after (machine.load name)) := by
  let s : Symbol := ⟨Symbol.bytesOfText name, machine.loader.symbols.nextSerial⟩
  have hafter : (machine.load name).after =
      machine.loader.after [.offer s, .request (.load (Symbol.bytesOfText name))] := by
    rw [load_eq, loader_symbol]
    rfl
  rw [after, hafter]
  refine .goOn h _ ?_ _
  have hkept := Loader.classPath_perform (machine.loader.next (.offer s)) (.load (Symbol.bytesOfText name))
  exact hkept.trans (List.append_nil _)

theorem continues_define (h : machine.Settled) (path : String) :
    machine.Continues (machine.after (machine.define path)) := by
  unfold define
  cases machine.tree.read path with
  | error error => exact .goOn h [] rfl _
  | ok bytes => exact .perform h (.define path bytes) rfl _

theorem continues_next (h : machine.Settled) (event : MachineEvent) :
    machine.Continues (machine.next event) := by
  cases event with
  | start =>
      unfold next start
      cases machine.initial with
      | none => exact .refl h
      | some name =>
          dsimp only [Option.map_some]
          split
          · exact continues_define h name
          · exact continues_load h name
  | load name => exact continues_load h name
  | define path => exact continues_define h path
  | intern text => exact ⟨rfl, rfl, rfl, h, [.offer ⟨_, _⟩], loader_symbol machine text⟩
  | loadBytes name => exact .perform h (.load name) rfl _
  | resolve id index => exact .perform h (.resolve id index) rfl _
  | offer s => exact ⟨rfl, rfl, rfl, h, [.offer s], rfl⟩

/-- Whatever happens to a machine while its files stay as they are, its sources answer as they did, and
its loader has been asked for things in some order. -/
theorem continues_run (h : machine.Settled) (events : List MachineEvent) :
    machine.Continues (machine.run events) := by
  induction events generalizing machine with
  | nil => exact .refl h
  | cons event events ih =>
      have hnext := continues_next h event
      exact hnext.trans (ih hnext.settled)

section Create

variable {settings : Settings} {tree : FileTree}

theorem after_addEntries (loader : Loader) (entries : List ClassPathEntry) :
    loader.after (entries.map fun entry => .request (.addEntry entry)) =
      { loader with classPath := loader.classPath ++ entries } := by
  induction entries generalizing loader with
  | nil => rw [List.append_nil]; rfl
  | cons entry entries ih =>
      have hrest := ih (loader.addEntry entry)
      rw [Loader.addEntry, List.append_assoc] at hrest
      exact hrest

/-- A new machine has a loader to which its sources were added. -/
theorem settled_of_create {created : Machine} (h : create settings tree = .ok created) :
    created.Settled ∧ ∃ events, created.loader = (Loader.empty settings.options .empty).after events := by
  unfold create at h
  cases hopen : openSources tree settings.classPath with
  | error error =>
      rw [hopen] at h
      cases h
  | ok sources =>
      rw [hopen] at h
      obtain rfl := Except.ok.inj h
      have hadded := after_addEntries (.empty settings.options .empty) (sources.map (·.toEntry tree))
      exact ⟨rfl, _, hadded.symm⟩

/-- Whatever happens to a new machine, its loader comes about from an empty one by loader events. -/
theorem loader_run {created : Machine} (h : create settings tree = .ok created)
    (events : List MachineEvent) :
    (created.run events).Settled ∧
      ∃ asked, (created.run events).loader = (Loader.empty settings.options .empty).after asked := by
  obtain ⟨hsettled, opened, hopened⟩ := settled_of_create h
  have hrun := continues_run hsettled events
  obtain ⟨asked, hasked⟩ := hrun.loader_eq
  refine ⟨hrun.settled, opened ++ asked, ?_⟩
  rw [hasked, hopened, Loader.after_append]

end Create

end Machine

end ClassLoading
