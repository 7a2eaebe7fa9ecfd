import ClassLoading.Loader
import Std.Data.ExtHashMap

/-!
# Registry cells

A loader whose registry has a cell for each name that was asked for. A cell is opened before its class
is looked for, filled once, and taken away again if no class comes of it.
-/

namespace ClassLoading

/-- A failure that breaks a load off, so that nothing is put in order after it. -/
def LoadFailure.breaksOff : LoadFailure → Bool
  | .error .tooLarge | .fault _ => true
  | .error _ => false

/-- A class path, the classes loaded from it, the symbols that they share, and the cells in which the
classes are found. -/
structure CellLoader where
  classPath : List ClassPathEntry
  options : Options
  symbols : SymbolTable
  /-- The registered classes; the position of a class is its number. -/
  classes : Array ClassFile
  /-- The cells by the bytes of their names. A cell holds the number of a class, or nothing yet. -/
  cells : Std.ExtHashMap (List UInt8) (Option ClassId)

namespace CellLoader

def empty (options : Options) (symbols : SymbolTable) : CellLoader := ⟨[], options, symbols, #[], ∅⟩

@[ext]
structure Report where
  result : Except LoadFailure ClassId
  lookups : List Lookup
  after : CellLoader

def addEntry (loader : CellLoader) (entry : ClassPathEntry) : CellLoader :=
  { loader with classPath := loader.classPath ++ [entry] }

def find? (loader : CellLoader) (name : List UInt8) : Option ClassId := loader.cells[name]?.join

/-- Makes sure that a name has a cell. -/
def openCell (loader : CellLoader) (name : List UInt8) : CellLoader :=
  { loader with cells := loader.cells.insertIfNew name none }

/-- Puts a class into a cell. A class that is in it already is kept. -/
def fillCell (loader : CellLoader) (name : List UInt8) (classFile : ClassFile) :
    ClassId × CellLoader :=
  match loader.find? name with
  | some id => (id, loader)
  | none =>
      let id := loader.classes.size
      (id, { loader with
        classes := loader.classes.push classFile
        cells := loader.cells.insert name (some id) })

/-- Takes a cell away that holds no class. -/
def dropCell (loader : CellLoader) (name : List UInt8) : CellLoader :=
  match loader.cells[name]? with
  | some none => { loader with cells := loader.cells.erase name }
  | _ => loader

/-- Decodes a class file, called `label` in errors. -/
def decode (loader : CellLoader) (label : String) (bytes : List UInt8) :
    Except LoadFailure ClassFile × CellLoader :=
  let (result, symbols) := ClassFile.decode loader.options bytes loader.symbols
  (result.mapError (LoadFailure.ofDecoding label), { loader with symbols })

/-- Looks for the class file of a name and decodes it; the class must declare that name. -/
def findClass (loader : CellLoader) (name : List UInt8) :
    Except LoadFailure ClassFile × List Lookup × CellLoader :=
  let label := Symbol.textOfBytes name
  let searched := search loader.classPath (classFileName label)
  match searched.found with
  | .error error => (.error (.error error), searched.lookups, loader)
  | .ok none => (.error (.error (.notFound label)), searched.lookups, loader)
  | .ok (some bytes) =>
      match loader.decode label bytes with
      | (.error failure, loader) => (.error failure, searched.lookups, loader)
      | (.ok classFile, loader) =>
          if classFile.name.bytes == name then (.ok classFile, searched.lookups, loader)
          else
            (.error (.error (.wrongName label classFile.name.text)), searched.lookups, loader)

/-- The class of a name, loaded if its cell holds none yet. -/
def load (loader : CellLoader) (name : List UInt8) : Report :=
  match loader.find? name with
  | some id => ⟨.ok id, [], loader⟩
  | none =>
      match (loader.openCell name).findClass name with
      | (.ok classFile, lookups, loader) =>
          let (id, loader) := loader.fillCell name classFile
          ⟨.ok id, lookups, loader⟩
      | (.error failure, lookups, loader) =>
          let loader := if failure.breaksOff then loader else loader.dropCell name
          ⟨.error failure, lookups, loader⟩

/-- The class in a class file that is called `label`, put into the cell of the name that it declares. -/
def define (loader : CellLoader) (label : String) (bytes : List UInt8) : Report :=
  match loader.decode label bytes with
  | (.error failure, loader) => ⟨.error failure, [], loader⟩
  | (.ok classFile, loader) =>
      let name := classFile.name.bytes
      let (id, loader) := (loader.openCell name).fillCell name classFile
      ⟨.ok id, [], loader⟩

/-- The loader without its cells. -/
def bare (loader : CellLoader) : Loader :=
  ⟨loader.classPath, loader.options, loader.symbols, loader.classes, ∅⟩

/-- What a class slot of a registered class refers to. -/
def entityAt (loader : CellLoader) (id : ClassId) (index : UInt16) : Except Fault ClassEntity :=
  loader.bare.entityAt id index

/-- Links a class slot to the class just loaded for it, and reads the slot again. -/
def settle (loader : CellLoader) (id : ClassId) (index : UInt16) (target : ClassId) :
    Except Fault (ClassId × CellLoader) := do
  let (target, linked) ← loader.bare.settle id index target
  return (target, { loader with classes := linked.classes })

/-- The class that a class slot of a registered class refers to, loaded and linked on first use. -/
def resolve (loader : CellLoader) (id : ClassId) (index : UInt16) : Report :=
  match loader.entityAt id index with
  | .error fault => ⟨.error (.fault fault), [], loader⟩
  | .ok (.resolved handle) => ⟨.ok handle.id, [], loader⟩
  | .ok (.unresolved name) =>
      match loader.load name.bytes with
      | ⟨.error failure, lookups, loader⟩ => ⟨.error failure, lookups, loader⟩
      | ⟨.ok target, lookups, loader⟩ =>
          match loader.settle id index target with
          | .ok (target, loader) => ⟨.ok target, lookups, loader⟩
          | .error fault => ⟨.error (.fault fault), lookups, loader⟩

end CellLoader

end ClassLoading
