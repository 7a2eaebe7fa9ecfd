import ClassLoading.Symbol.Table

/-!
# Buckets of symbols

How a symbol table is laid out in memory: as nothing but buckets, one for each hash value that was met.
A symbol that is offered is compared with the others in its bucket as symbols are compared, by length
and hash before the bytes; a content that is looked up is compared by its bytes alone. How many symbols
there are is counted when it is asked for.
-/

namespace ClassLoading

/-- Equality of content, of symbols that know their length and hash. -/
def Symbol.equals (s t : Symbol) : Bool :=
  s.bytes.length == t.bytes.length && s.hash == t.hash && s.bytes == t.bytes

/-- Symbols by their hash, those of a bucket in the order in which they came. -/
structure BucketTable where
  buckets : Std.HashMap UInt32 (List Symbol)

namespace BucketTable

def empty : BucketTable := ⟨∅⟩

/-- The bucket of a hash value, which is empty if there is none yet. -/
def bucket (table : BucketTable) (hash : UInt32) : List Symbol := table.buckets.getD hash []

def push (table : BucketTable) (s : Symbol) : BucketTable :=
  ⟨table.buckets.insert s.hash (table.bucket s.hash ++ [s])⟩

/-- Offers a symbol; the answer says whether it was stored. -/
def put (table : BucketTable) (s : Symbol) : Bool × BucketTable :=
  if (table.bucket s.hash).any (·.equals s) then (false, table) else (true, table.push s)

/-- Offers a symbol; the answer is the instance that everybody is to use from now on. -/
def intern (table : BucketTable) (s : Symbol) : Symbol × BucketTable :=
  match (table.bucket s.hash).find? (·.equals s) with
  | some kept => (kept, table)
  | none => (s, table.push s)

def contains (table : BucketTable) (s : Symbol) : Bool :=
  match table.buckets[s.hash]? with
  | some bucket => bucket.any (·.equals s)
  | none => false

/-- The stored instance of a content. -/
def lookup? (table : BucketTable) (content : List UInt8) : Option Symbol :=
  match table.buckets[Symbol.hashBytes content]? with
  | some bucket => bucket.find? (·.bytes == content)
  | none => none

def size (table : BucketTable) : Nat :=
  table.buckets.fold (fun count _ bucket => count + bucket.length) 0

def isEmpty (table : BucketTable) : Bool := table.size == 0

end BucketTable

end ClassLoading
