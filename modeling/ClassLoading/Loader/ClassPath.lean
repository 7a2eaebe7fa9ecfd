import ClassLoading.Loader.Error

/-!
# Class paths

A class path is a list of entries that are asked for a file one after another. The first entry that
does not say that it lacks the file decides.
-/

namespace ClassLoading

/-- A place where class files may be found. -/
structure ClassPathEntry where
  name : String
  /-- The content of a file; `none` if the entry does not have it. -/
  find : String → Except LoadError (Option (List UInt8))

/-- A question put to an entry. -/
structure Lookup where
  entry : String
  file : String
deriving DecidableEq, Repr

/-- What a search found, and the questions it took. -/
structure Search where
  lookups : List Lookup
  found : Except LoadError (Option (List UInt8))

/-- Looks for a file in the entries of a class path. -/
def search : List ClassPathEntry → String → Search
  | [], _ => ⟨[], .ok none⟩
  | entry :: entries, file =>
      match entry.find file with
      | .ok none =>
          let further := search entries file
          ⟨⟨entry.name, file⟩ :: further.lookups, further.found⟩
      | found => ⟨[⟨entry.name, file⟩], found⟩

/-- The file that holds a class. -/
def classFileName (className : String) : String := className ++ ".class"

end ClassLoading
