import ClassLoading.Symbol.Table

/-!
# Interning

Interning a content hands out one instance of it and keeps every instance that was handed out
before. What holds here holds of every table, whatever its hash values and however it came about.
-/

namespace ClassLoading.SymbolTable

variable {table : SymbolTable} {s : Symbol} {content other : List UInt8}

/-- The instance that a content is interned to. -/
def instanceOf (table : SymbolTable) (content : List UInt8) : Symbol := (table.internBytes content).1

/-- The table after some contents were interned one after another. -/
def internAll (table : SymbolTable) (contents : List (List UInt8)) : SymbolTable :=
  contents.foldl (fun table content => (table.internBytes content).2) table

theorem bytes_of_find? (h : table.find? content = some s) : s.bytes = content := by
  have := List.find?_some h
  simpa using this

/-- A content is found after it was added, and nothing else is found in another place. -/
theorem find?_add (h : table.find? s.bytes = none) (content : List UInt8) :
    (table.add s).find? content = if content = s.bytes then some s else table.find? content := by
  have hbucket : (table.add s).bucket (Symbol.hashBytes content) =
      if s.hash = Symbol.hashBytes content then table.bucket s.hash ++ [s]
      else table.bucket (Symbol.hashBytes content) := by
    simp only [bucket, add, Std.HashMap.getD_insert, beq_iff_eq]
  rw [find?, hbucket]
  by_cases hcontent : content = s.bytes
  · subst hcontent
    have hnone : (table.bucket s.hash).find? (·.bytes == s.bytes) = none := h
    have hhash : s.hash = Symbol.hashBytes s.bytes := rfl
    rw [if_pos hhash, if_pos rfl, List.find?_append, hnone]
    simp
  · rw [if_neg hcontent]
    by_cases hhash : s.hash = Symbol.hashBytes content
    · rw [if_pos hhash, List.find?_append, List.find?_cons_of_neg (by simpa using Ne.symm hcontent),
        List.find?_nil, Option.or_none, hhash]
      rfl
    · rw [if_neg hhash]
      rfl

/-- To intern a symbol stores it if its content is new, and changes nothing else. -/
theorem find?_intern (table : SymbolTable) (s : Symbol) (content : List UInt8) :
    (table.intern s).2.find? content =
      (table.find? content).or (if s.bytes = content then some s else none) := by
  unfold intern
  cases hfind : table.find? s.bytes with
  | some kept =>
      by_cases hcontent : s.bytes = content
      · rw [← hcontent, hfind]
        rfl
      · rw [if_neg hcontent, Option.or_none]
  | none =>
      dsimp only
      rw [find?_add hfind]
      by_cases hcontent : s.bytes = content
      · rw [if_pos hcontent, if_pos hcontent.symm, ← hcontent, hfind]
        rfl
      · rw [if_neg hcontent, if_neg (Ne.symm hcontent), Option.or_none]

theorem find?_internBytes_self (table : SymbolTable) (content : List UInt8) :
    (table.internBytes content).2.find? content = some (table.instanceOf content) := by
  unfold instanceOf internBytes intern
  dsimp only
  cases h : table.find? content with
  | some kept => exact h
  | none =>
      have hadd := @find?_add table ⟨content, table.nextSerial⟩ h content
      rwa [if_pos rfl] at hadd

theorem bytes_instanceOf (table : SymbolTable) (content : List UInt8) :
    (table.instanceOf content).bytes = content :=
  bytes_of_find? (find?_internBytes_self table content)

theorem find?_internBytes_of_some (h : table.find? content = some s) (other : List UInt8) :
    (table.internBytes other).2.find? content = some s := by
  rw [internBytes, find?_intern, h]
  rfl

/-- An instance that is stored stays the one to be used. -/
theorem find?_internAll_of_some (h : table.find? content = some s) (contents : List (List UInt8)) :
    (table.internAll contents).find? content = some s := by
  induction contents generalizing table with
  | nil => exact h
  | cons other contents ih => exact ih (find?_internBytes_of_some h other)

theorem internAll_append (table : SymbolTable) (contents contents' : List (List UInt8)) :
    table.internAll (contents ++ contents') = (table.internAll contents).internAll contents' :=
  List.foldl_append

theorem instanceOf_of_find? (h : table.find? content = some s) : table.instanceOf content = s := by
  unfold instanceOf internBytes intern
  dsimp only
  rw [h]

/-- The instance that a content was interned to stays the same, whatever is interned afterwards. -/
theorem instanceOf_internAll_cons (table : SymbolTable) (content : List UInt8)
    (contents : List (List UInt8)) :
    (table.internAll (content :: contents)).instanceOf content = table.instanceOf content :=
  instanceOf_of_find? (find?_internAll_of_some (find?_internBytes_self table content) contents)

end ClassLoading.SymbolTable
