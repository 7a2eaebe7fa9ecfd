import ClassLoading.Loader
import ClassLoading.Machine.Source

/-!
# Machines

A machine owns a loader whose class path consists of sources in a file tree, and may have an initial
class, given by its name or by the path of its class file.
-/

namespace ClassLoading

/-- A file tree, the sources opened in it, a loader that draws on them, and the initial class. -/
structure Machine where
  tree : FileTree
  sources : List Source
  loader : Loader
  initial : Option String

namespace Machine

/-- What a machine is made from. -/
structure Settings where
  classPath : List String
  initial : Option String
  options : Options

/-- The sources at the paths of a class path; paths that lead to none are left out. -/
def openSources (tree : FileTree) : List String → Except LoadError (List Source)
  | [] => .ok []
  | path :: paths => do
      let source ← Source.open tree path
      return source.toList ++ (← openSources tree paths)

/-- Makes the class path read from the tree as it is now. -/
def refresh (machine : Machine) : Machine :=
  let classPath := machine.sources.map (·.toEntry machine.tree)
  { machine with loader := { machine.loader with classPath } }

/-- A machine that has loaded nothing. -/
def create (settings : Settings) (tree : FileTree) : Except LoadError Machine := do
  let sources ← openSources tree settings.classPath
  let loader := Loader.empty settings.options SymbolTable.empty
  return refresh ⟨tree, sources, loader, settings.initial⟩

/-- Changes a file of the tree. -/
def write (machine : Machine) (path : String) (content : List UInt8) : Machine :=
  refresh { machine with tree := machine.tree.write path content }

def symbol (machine : Machine) (text : String) : Symbol × Machine :=
  let (symbol, symbols) := machine.loader.symbols.internBytes (Symbol.bytesOfText text)
  (symbol, { machine with loader := { machine.loader with symbols } })

/-- Loads a class by name. The name becomes a symbol, whether there is such a class or not. -/
def load (machine : Machine) (name : String) : Loader.Report :=
  let (symbol, machine) := machine.symbol name
  machine.loader.load symbol.bytes

/-- Defines the class in the file at a path. -/
def define (machine : Machine) (path : String) : Loader.Report :=
  match machine.tree.read path with
  | .ok bytes => machine.loader.define path bytes
  | .error error => ⟨.error (.error (.file error)), [], machine.loader⟩

/-- The name is that of a class file. -/
def isClassFile (name : String) : Bool := ".class".toList.isSuffixOf name.toList

/-- Loads or defines the initial class, if there is one. -/
def start (machine : Machine) : Option Loader.Report :=
  machine.initial.map fun name =>
    if isClassFile name then machine.define name else machine.load name

/-- The sources after the questions of one operation, each of which went to the sources in order
until one decided. -/
def askedSources (tree : FileTree) : List Source → List Lookup → List Source
  | source :: sources, lookup :: lookups =>
      source.afterFind tree lookup.file :: askedSources tree sources lookups
  | sources, _ => sources

/-- Goes on with the loader that an operation left behind, after the questions that it put. -/
def goOn (machine : Machine) (loader : Loader) (lookups : List Lookup) : Machine :=
  let { tree, sources, initial, .. } := machine
  refresh ⟨tree, askedSources tree sources lookups, loader, initial⟩

/-- Goes on after an operation. -/
def after (machine : Machine) (report : Loader.Report) : Machine :=
  machine.goOn report.after report.lookups

/-- Opens the source at a path and asks it for a file; `none` if there is no source. -/
def findInSource (machine : Machine) (path file : String) :
    Except LoadError (Option (Option (List UInt8))) := do
  match ← Source.open machine.tree path with
  | none => return none
  | some source => return some (← (source.toEntry machine.tree).find file)

end Machine

end ClassLoading
