import ClassLoading.ClassFile.Decode
import ClassLoading.Loader.ClassPath

/-!
# Class loaders

A loader finds classes by name on its class path, decodes them and registers each under its name, so
that a name is decoded at most once. A failed load registers nothing. Class slots of registered
classes are linked to the classes they name when they are first asked for.
-/

namespace ClassLoading

/-- The number of a registered class, in the order of registration. -/
abbrev ClassId := Nat

/-- A class path, the classes loaded from it, and the symbols that they share. -/
structure Loader where
  classPath : List ClassPathEntry
  options : Options
  symbols : SymbolTable
  /-- The registered classes; the position of a class is its number. -/
  classes : Array ClassFile
  /-- The numbers of the registered classes by the bytes of their names. -/
  registry : Std.HashMap (List UInt8) ClassId

namespace Loader

/-- A loader without a class path that has loaded nothing. -/
def empty (options : Options) (symbols : SymbolTable) : Loader := ⟨[], options, symbols, #[], ∅⟩

/-- The outcome of an operation: the class it came to, the questions put to the class path, and the
loader afterwards. -/
structure Report where
  result : Except LoadFailure ClassId
  lookups : List Lookup
  after : Loader

def addEntry (loader : Loader) (entry : ClassPathEntry) : Loader :=
  { loader with classPath := loader.classPath ++ [entry] }

def find? (loader : Loader) (name : List UInt8) : Option ClassId := loader.registry[name]?

def classAt (loader : Loader) (id : ClassId) : Except Fault ClassFile :=
  match loader.classes[id]? with
  | some classFile => .ok classFile
  | none => .error (.unknownClass id)

/-- Decodes a class file, called `label` in errors. -/
def decode (loader : Loader) (label : String) (bytes : List UInt8) :
    Except LoadFailure ClassFile × Loader :=
  let { classPath, options, symbols, classes, registry } := loader
  let (result, symbols) := ClassFile.decode options bytes symbols
  (result.mapError (LoadFailure.ofDecoding label),
    { classPath, options, symbols, classes, registry })

/-- Registers a class under the name it declares. -/
def register (loader : Loader) (classFile : ClassFile) : ClassId × Loader :=
  let id := loader.classes.size
  (id, { loader with
    classes := loader.classes.push classFile
    registry := loader.registry.insert classFile.name.bytes id })

/-- Decodes and registers the class file found for a class. -/
def accept (loader : Loader) (name bytes : List UInt8) : Except LoadFailure ClassId × Loader :=
  let label := Symbol.textOfBytes name
  match loader.decode label bytes with
  | (.error failure, loader) => (.error failure, loader)
  | (.ok classFile, loader) =>
      if classFile.name.bytes == name then
        let (id, loader) := loader.register classFile
        (.ok id, loader)
      else (.error (.error (.wrongName label classFile.name.text)), loader)

/-- The class of a name, loaded if it is not registered yet. -/
def load (loader : Loader) (name : List UInt8) : Report :=
  match loader.find? name with
  | some id => ⟨.ok id, [], loader⟩
  | none =>
      let label := Symbol.textOfBytes name
      let searched := search loader.classPath (classFileName label)
      match searched.found with
      | .error error => ⟨.error (.error error), searched.lookups, loader⟩
      | .ok none => ⟨.error (.error (.notFound label)), searched.lookups, loader⟩
      | .ok (some bytes) =>
          let (result, loader) := loader.accept name bytes
          ⟨result, searched.lookups, loader⟩

/-- The class in a class file that is called `label`, registered under the name it declares. A class
that is registered under that name already is kept. -/
def define (loader : Loader) (label : String) (bytes : List UInt8) : Report :=
  match loader.decode label bytes with
  | (.error failure, loader) => ⟨.error failure, [], loader⟩
  | (.ok classFile, loader) =>
      match loader.find? classFile.name.bytes with
      | some id => ⟨.ok id, [], loader⟩
      | none =>
          let (id, loader) := loader.register classFile
          ⟨.ok id, [], loader⟩

/-- How pools refer to a registered class. -/
def handle (loader : Loader) (id : ClassId) : Except Fault ClassHandle := do
  return ⟨id, (← loader.classAt id).name⟩

/-- Links a class slot of a registered class to a registered class. -/
def linkSlot (loader : Loader) (id : ClassId) (index : UInt16) (target : ClassId) :
    Except Fault Loader := do
  let classFile ← loader.classAt id
  let (_, pool) ← classFile.pool.resolveAt index (← loader.handle target)
  return { loader with classes := loader.classes.setIfInBounds id { classFile with pool } }

/-- What a class slot of a registered class refers to. -/
def entityAt (loader : Loader) (id : ClassId) (index : UInt16) : Except Fault ClassEntity := do
  (← loader.classAt id).pool.classAt index

/-- Links a class slot to the class just loaded for it, and reads the slot again. -/
def settle (loader : Loader) (id : ClassId) (index : UInt16) (target : ClassId) :
    Except Fault (ClassId × Loader) := do
  let loader ← loader.linkSlot id index target
  match ← loader.entityAt id index with
  | .resolved handle => return (handle.id, loader)
  | .unresolved _ => throw (.unresolved index)

/-- The class that a class slot of a registered class refers to, loaded and linked on first use. -/
def resolve (loader : Loader) (id : ClassId) (index : UInt16) : Report :=
  match loader.entityAt id index with
  | .error fault => ⟨.error (.fault fault), [], loader⟩
  | .ok (.resolved handle) => ⟨.ok handle.id, [], loader⟩
  | .ok (.unresolved name) =>
      match loader.load name.bytes with
      | ⟨.error failure, lookups, loader⟩ => ⟨.error failure, lookups, loader⟩
      | ⟨.ok target, lookups, loader⟩ =>
          match loader.settle id index target with
          | .ok (target, loader) => ⟨.ok target, lookups, loader⟩
          | .error fault => ⟨.error (.fault fault), lookups, loader⟩

end Loader

end ClassLoading
