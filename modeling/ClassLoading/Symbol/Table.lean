import ClassLoading.Symbol
import Std.Data.HashMap

/-!
# Symbol tables

A symbol table keeps one instance of every content offered to it, the first one. Symbols are found
through buckets, one for each hash value that occurs.
-/

namespace ClassLoading

/-- A set of symbols, no two of the same content. -/
structure SymbolTable where
  /-- The symbols stored, the latest first. -/
  stored : List Symbol
  /-- The same symbols by their hash. -/
  buckets : Std.HashMap UInt32 (List Symbol)
  /-- A serial number above those of all the symbols stored. -/
  nextSerial : Nat

namespace SymbolTable

def empty : SymbolTable := ⟨[], ∅, 0⟩

/-- The symbols stored under a hash value, the earliest first. -/
def bucket (table : SymbolTable) (hash : UInt32) : List Symbol := table.buckets.getD hash []

/-- The stored instance of a content. -/
def find? (table : SymbolTable) (bytes : List UInt8) : Option Symbol :=
  (table.bucket (Symbol.hashBytes bytes)).find? (·.bytes == bytes)

def contains (table : SymbolTable) (s : Symbol) : Bool := (table.find? s.bytes).isSome

/-- Stores a symbol whose content is not there yet. -/
def add (table : SymbolTable) (s : Symbol) : SymbolTable where
  stored := s :: table.stored
  buckets := table.buckets.insert s.hash (table.bucket s.hash ++ [s])
  nextSerial := max table.nextSerial (s.serial + 1)

/-- Offers a symbol; the answer says whether it was stored. -/
def put (table : SymbolTable) (s : Symbol) : Bool × SymbolTable :=
  match table.find? s.bytes with
  | some _ => (false, table)
  | none => (true, table.add s)

/-- Offers a symbol; the answer is the instance that everybody is to use from now on. -/
def intern (table : SymbolTable) (s : Symbol) : Symbol × SymbolTable :=
  match table.find? s.bytes with
  | some kept => (kept, table)
  | none => (s, table.add s)

/-- Offers a new instance of a content. -/
def internBytes (table : SymbolTable) (bytes : List UInt8) : Symbol × SymbolTable :=
  table.intern ⟨bytes, table.nextSerial⟩

def size (table : SymbolTable) : Nat := table.stored.length

def isEmpty (table : SymbolTable) : Bool := table.stored.isEmpty

end SymbolTable

end ClassLoading
