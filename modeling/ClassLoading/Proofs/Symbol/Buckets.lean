import ClassLoading.Symbol.Buckets
import ClassLoading.Proofs.Symbol.Growth
import Mathlib.Data.Finset.Card
import Mathlib.Data.List.Induction

/-!
# Tables of buckets

What a symbol table answers, told from the symbols that were offered before: a content is known once a
symbol of it was offered, and the first such symbol stands for it ever after. Tables laid out as buckets
refine that, whatever symbols share a hash value.
-/

namespace ClassLoading

theorem Symbol.equals_eq (s t : Symbol) : s.equals t = (s.bytes == t.bytes) := by
  unfold equals hash
  by_cases h : s.bytes = t.bytes
  · simp [h]
  · simp [h]

namespace BucketTable

variable {table : BucketTable}

/-- All the symbols, bucket by bucket. -/
def symbols (table : BucketTable) : List Symbol :=
  table.buckets.toList.flatMap Prod.snd

theorem size_eq (table : BucketTable) : table.size = table.symbols.length := by
  have hcount (count : Nat) (entries : List (UInt32 × List Symbol)) :
      entries.foldl (fun count entry => count + entry.2.length) count =
        count + (entries.flatMap Prod.snd).length := by
    induction entries generalizing count with
    | nil => rfl
    | cons entry entries ih =>
        rw [List.foldl_cons, ih, List.flatMap_cons, List.length_append, Nat.add_assoc]
  rw [size, Std.HashMap.fold_eq_foldl_toList, hcount, Nat.zero_add, symbols]

/-- The symbols are those of one bucket and those of the others. -/
theorem symbols_perm (table : BucketTable) (hash : UInt32) : table.symbols.Perm (table.bucket hash ++
    (table.buckets.toList.filter (¬hash == ·.1)).flatMap Prod.snd) := by
  cases hbucket : table.buckets[hash]? with
  | none =>
      have hothers : table.buckets.toList.filter (¬hash == ·.1) = table.buckets.toList := by
        rw [List.filter_eq_self]
        intro entry hentry
        have hsome := Std.HashMap.mem_toList_iff_getElem?_eq_some.mp hentry
        have hne : hash ≠ entry.1 := by
          rintro rfl
          rw [hbucket] at hsome
          cases hsome
        simpa using hne
      rw [bucket, Std.HashMap.getD_eq_getD_getElem?, hbucket, hothers]
      exact .refl _
  | some symbols =>
      -- To put into a bucket what it holds changes nothing.
      have hsame : (table.buckets.insert hash symbols).Equiv table.buckets := by
        refine Std.HashMap.Equiv.of_forall_getElem?_eq fun other => ?_
        rw [Std.HashMap.getElem?_insert]
        split
        · rename_i hother
          rw [← eq_of_beq hother, hbucket]
        · rfl
      have hinsert := hsame.toList_perm.symm.trans Std.HashMap.toList_insert_perm
      rw [bucket, Std.HashMap.getD_eq_getD_getElem?, hbucket]
      exact hinsert.flatMap_right Prod.snd

theorem symbols_push (table : BucketTable) (s : Symbol) :
    (table.push s).symbols.Perm (s :: table.symbols) := by
  have hinsert : (table.push s).buckets.toList.Perm _ := Std.HashMap.toList_insert_perm
  have hpush := hinsert.flatMap_right Prod.snd
  rw [List.flatMap_cons, List.append_assoc, List.singleton_append] at hpush
  exact hpush.trans (List.perm_middle.trans ((table.symbols_perm s.hash).symm.cons s))

end BucketTable

namespace SymbolTable

variable {table : SymbolTable} {s : Symbol}

/-- The buckets of a table. -/
def laidOut (table : SymbolTable) : BucketTable := ⟨table.buckets⟩

theorem find?_equals (table : SymbolTable) (s : Symbol) :
    (table.laidOut.bucket s.hash).find? (·.equals s) = table.find? s.bytes := by
  simp only [Symbol.equals_eq]
  rfl

theorem any_equals (table : SymbolTable) (s : Symbol) :
    (table.laidOut.bucket s.hash).any (·.equals s) = (table.find? s.bytes).isSome := by
  rw [← find?_equals, List.isSome_find?]

theorem put_laidOut (table : SymbolTable) (s : Symbol) :
    table.laidOut.put s = ((table.put s).1, (table.put s).2.laidOut) := by
  rw [BucketTable.put, any_equals, put]
  cases table.find? s.bytes <;> rfl

theorem intern_laidOut (table : SymbolTable) (s : Symbol) :
    table.laidOut.intern s = ((table.intern s).1, (table.intern s).2.laidOut) := by
  rw [BucketTable.intern, find?_equals, intern]
  cases table.find? s.bytes <;> rfl

theorem lookup?_laidOut (table : SymbolTable) (content : List UInt8) :
    table.laidOut.lookup? content = table.find? content := by
  unfold BucketTable.lookup? find? bucket laidOut
  rw [Std.HashMap.getD_eq_getD_getElem?]
  cases table.buckets[Symbol.hashBytes content]? <;> rfl

theorem contains_laidOut (table : SymbolTable) (s : Symbol) :
    table.laidOut.contains s = table.contains s := by
  rw [contains, ← any_equals]
  unfold BucketTable.contains BucketTable.bucket
  rw [Std.HashMap.getD_eq_getD_getElem?]
  cases table.laidOut.buckets[s.hash]? <;> rfl

/-- The buckets hold what is stored. -/
theorem Reachable.stored_perm (h : table.Reachable) : table.stored.Perm table.laidOut.symbols := by
  refine Reachable.induction_add ?empty ?add h
  case empty =>
    have hnone : SymbolTable.empty.laidOut.symbols = [] := by
      simp [BucketTable.symbols, laidOut, SymbolTable.empty]
    rw [hnone]
    exact .refl _
  case add =>
    intro table s _ _ ih
    exact (ih.cons s).trans (table.laidOut.symbols_push s).symm

theorem Reachable.size_laidOut (h : table.Reachable) : table.laidOut.size = table.size :=
  (BucketTable.size_eq _).trans h.stored_perm.length_eq.symm

theorem isEmpty_eq (table : SymbolTable) : table.isEmpty = (table.size == 0) := by
  rw [isEmpty, size]
  cases table.stored <;> rfl

theorem Reachable.isEmpty_laidOut (h : table.Reachable) : table.laidOut.isEmpty = table.isEmpty := by
  rw [BucketTable.isEmpty, h.size_laidOut, isEmpty_eq]

theorem bucket_add (table : SymbolTable) (s : Symbol) (hash : UInt32) :
    (table.add s).laidOut.bucket hash =
      if s.hash = hash then table.laidOut.bucket hash ++ [s] else table.laidOut.bucket hash := by
  simp only [BucketTable.bucket, laidOut, add, SymbolTable.bucket, Std.HashMap.getD_insert, beq_iff_eq]
  split
  · rename_i hself
    rw [hself]
  · rfl

/-- Every bucket holds symbols of its own hash value, no two of the same content. -/
theorem Reachable.bucket (h : table.Reachable) (hash : UInt32) :
    (∀ s ∈ table.laidOut.bucket hash, s.hash = hash) ∧
      (table.laidOut.bucket hash).Pairwise fun s t => s.bytes ≠ t.bytes := by
  refine Reachable.induction_add ?empty ?add h
  case empty =>
    have hnone : SymbolTable.empty.laidOut.bucket hash = [] := Std.HashMap.getD_empty
    rw [hnone]
    exact ⟨nofun, .nil⟩
  case add =>
    intro table s _ hnew ih
    rw [bucket_add]
    split
    · rename_i hself
      obtain ⟨hhash, hdistinct⟩ := ih
      refine ⟨fun t ht => ?_, List.pairwise_append.mpr ⟨hdistinct, List.pairwise_singleton _ _, ?_⟩⟩
      · rcases List.mem_append.mp ht with hold | hlast
        · exact hhash t hold
        · rw [List.mem_singleton.mp hlast, hself]
      · -- A symbol of the same content would have been found.
        intro t ht last hlast
        rw [List.mem_singleton.mp hlast]
        rw [← find?_equals, hself] at hnew
        have hother := List.find?_eq_none.mp hnew t ht
        simpa [Symbol.equals_eq] using hother
    · exact ih

end SymbolTable

/-- A call of a symbol table. -/
inductive TableCall where
  | put (s : Symbol)
  | intern (s : Symbol)
  | contains (s : Symbol)
  | lookup (content : List UInt8)
  | size
  | isEmpty

/-- What a call of a symbol table comes to. -/
inductive TableAnswer where
  | truth (value : Bool)
  | symbol (s : Symbol)
  | found (result : Option Symbol)
  | count (n : Nat)
deriving DecidableEq, Repr

def BucketTable.perform (table : BucketTable) : TableCall → TableAnswer × BucketTable
  | .put s => (table.put s).map .truth id
  | .intern s => (table.intern s).map .symbol id
  | .contains s => (.truth (table.contains s), table)
  | .lookup content => (.found (table.lookup? content), table)
  | .size => (.count table.size, table)
  | .isEmpty => (.truth table.isEmpty, table)

def BucketTable.after (table : BucketTable) (calls : List TableCall) : BucketTable :=
  calls.foldl (fun table call => (table.perform call).2) table

def SymbolTable.perform (table : SymbolTable) : TableCall → TableAnswer × SymbolTable
  | .put s => (table.put s).map .truth id
  | .intern s => (table.intern s).map .symbol id
  | .contains s => (.truth (table.contains s), table)
  | .lookup content => (.found (table.find? content), table)
  | .size => (.count table.size, table)
  | .isEmpty => (.truth table.isEmpty, table)

def SymbolTable.after (table : SymbolTable) (calls : List TableCall) : SymbolTable :=
  calls.foldl (fun table call => (table.perform call).2) table

/-- The symbol that a call offers. -/
def TableCall.offered? : TableCall → Option Symbol
  | put s | intern s => some s
  | _ => none

def offers (calls : List TableCall) : List Symbol := calls.filterMap TableCall.offered?

/-- The first symbol of a content that was offered. -/
def firstOffer? (calls : List TableCall) (content : List UInt8) : Option Symbol :=
  (offers calls).find? (·.bytes == content)

/-- How many contents were offered. -/
def contentCount (calls : List TableCall) : Nat := ((offers calls).map Symbol.bytes).toFinset.card

/-- What a call comes to after some calls. -/
def TableCall.answer (calls : List TableCall) : TableCall → TableAnswer
  | put s => .truth (firstOffer? calls s.bytes).isNone
  | intern s => .symbol ((firstOffer? calls s.bytes).getD s)
  | contains s => .truth (firstOffer? calls s.bytes).isSome
  | lookup content => .found (firstOffer? calls content)
  | size => .count (contentCount calls)
  | isEmpty => .truth (contentCount calls == 0)

namespace SymbolTable

variable {table : SymbolTable}

theorem Reachable.perform (h : table.Reachable) (call : TableCall) :
    (table.perform call).2.Reachable := by
  cases call with
  | put s => exact h.put s
  | intern s => exact h.intern s
  | _ => exact h

theorem Reachable.after (h : table.Reachable) (calls : List TableCall) :
    (table.after calls).Reachable := by
  induction calls generalizing table with
  | nil => exact h
  | cons call calls ih => exact ih (h.perform call)

/-- A table and its buckets answer alike. -/
theorem perform_laidOut (h : table.Reachable) (call : TableCall) : table.laidOut.perform call =
    ((table.perform call).1, (table.perform call).2.laidOut) := by
  cases call with
  | put s => exact congrArg (Prod.map TableAnswer.truth id) (table.put_laidOut s)
  | intern s => exact congrArg (Prod.map TableAnswer.symbol id) (table.intern_laidOut s)
  | contains s => exact Prod.ext (congrArg TableAnswer.truth (table.contains_laidOut s)) rfl
  | lookup content => exact Prod.ext (congrArg TableAnswer.found (table.lookup?_laidOut content)) rfl
  | size => exact Prod.ext (congrArg TableAnswer.count h.size_laidOut) rfl
  | isEmpty => exact Prod.ext (congrArg TableAnswer.truth h.isEmpty_laidOut) rfl

theorem after_laidOut (h : table.Reachable) (calls : List TableCall) :
    table.laidOut.after calls = (table.after calls).laidOut := by
  induction calls generalizing table with
  | nil => rfl
  | cons call calls ih =>
      have hcall := congrArg Prod.snd (perform_laidOut h call)
      rw [BucketTable.after, List.foldl_cons, hcall]
      exact ih (h.perform call)

section History

variable {calls : List TableCall} {content : List UInt8}

theorem after_concat (table : SymbolTable) (calls : List TableCall) (call : TableCall) :
    table.after (calls ++ [call]) = ((table.after calls).perform call).2 := by
  simp only [after, List.foldl_append, List.foldl_cons, List.foldl_nil]

theorem find?_perform (table : SymbolTable) (call : TableCall) (content : List UInt8) :
    (table.perform call).2.find? content =
      (table.find? content).or (call.offered?.toList.find? (·.bytes == content)) := by
  have hoffer (s : Symbol) : [s].find? (·.bytes == content) =
      if s.bytes = content then some s else none := by
    by_cases hcontent : s.bytes = content
    · simp [hcontent]
    · simp [hcontent]
  cases call with
  | put s =>
      have hput : (table.perform (.put s)).2 = (table.intern s).2 := table.snd_put s
      rw [hput, find?_intern, ← hoffer]
      rfl
  | intern s =>
      have hintern : (table.perform (.intern s)).2 = (table.intern s).2 := rfl
      rw [hintern, find?_intern, ← hoffer]
      rfl
  | contains | lookup | size | isEmpty => exact (Option.or_none).symm

/-- A table finds the first symbol of a content that was offered. -/
theorem find?_after (calls : List TableCall) (content : List UInt8) :
    (empty.after calls).find? content = firstOffer? calls content := by
  induction calls using List.reverseRecOn with
  | nil => exact find?_empty content
  | append_singleton calls call ih =>
      have hoffers : offers (calls ++ [call]) = offers calls ++ call.offered?.toList := by
        rw [offers, List.filterMap_append]
        cases call <;> rfl
      rw [after_concat, find?_perform, ih, firstOffer?, firstOffer?, hoffers, List.find?_append]

theorem size_after (calls : List TableCall) : (empty.after calls).size = contentCount calls := by
  have hreachable := Reachable.empty.after calls
  have hsame : ((empty.after calls).stored.map Symbol.bytes).toFinset =
      ((offers calls).map Symbol.bytes).toFinset := by
    ext content
    rw [List.mem_toFinset, List.mem_toFinset, List.mem_map, List.mem_map]
    have hstored : (∃ s ∈ (empty.after calls).stored, s.bytes = content) ↔
        ((empty.after calls).find? content).isSome := by
      rw [Option.isSome_iff_exists]
      exact exists_congr fun s => hreachable.consistent.symm
    rw [hstored, find?_after, firstOffer?, List.find?_isSome]
    simp only [beq_iff_eq]
  rw [contentCount, ← hsame, List.toFinset_card_of_nodup hreachable.nodup_bytes, List.length_map, size]

/-- A table answers as the calls before say. -/
theorem perform_after (calls : List TableCall) (call : TableCall) :
    ((empty.after calls).perform call).1 = call.answer calls := by
  have hfind := find?_after calls
  cases call with
  | put s =>
      rw [TableCall.answer, ← hfind]
      simp only [perform, put]
      cases (empty.after calls).find? s.bytes <;> rfl
  | intern s =>
      rw [TableCall.answer, ← hfind]
      simp only [perform, intern]
      cases (empty.after calls).find? s.bytes <;> rfl
  | contains s => rw [TableCall.answer, ← hfind]; rfl
  | lookup content => rw [TableCall.answer, ← hfind]; rfl
  | size => rw [TableCall.answer, ← size_after]; rfl
  | isEmpty => rw [TableCall.answer, ← size_after, ← isEmpty_eq]; rfl

end History

end SymbolTable

namespace BucketTable

theorem after_empty (calls : List TableCall) :
    empty.after calls = (SymbolTable.empty.after calls).laidOut :=
  SymbolTable.after_laidOut .empty calls

theorem perform_after_empty (calls : List TableCall) (call : TableCall) :
    (empty.after calls).perform call = (((SymbolTable.empty.after calls).perform call).1,
      ((SymbolTable.empty.after calls).perform call).2.laidOut) := by
  rw [after_empty]
  exact SymbolTable.perform_laidOut (.after .empty calls) call

/-- Whatever is asked of a table of buckets, and whatever hash values collide, every answer is the one
that the symbols offered before demand. Offering a symbol changes what is found under its own content
only, and only if nothing was; what is found once is found ever after. Every bucket holds symbols of its
own hash value, no two of the same content. And a symbol table does the same, with the same buckets. -/
theorem answers_first_offers (calls : List TableCall) :
    let table := empty.after calls
    (∀ call, (table.perform call).1 = call.answer calls) ∧
    (∀ s content, (table.put s).2.lookup? content =
        (table.lookup? content).or (if s.bytes = content then some s else none) ∧
      (table.intern s).2 = (table.put s).2) ∧
    (∀ content s, table.lookup? content = some s →
      ∀ more, (table.after more).lookup? content = some s) ∧
    (∀ hash, (∀ s ∈ table.bucket hash, s.hash = hash) ∧
      (table.bucket hash).Pairwise fun s t => s.bytes ≠ t.bytes) ∧
    table = (SymbolTable.empty.after calls).laidOut ∧
      ∀ call, (table.perform call).1 = ((SymbolTable.empty.after calls).perform call).1 := by
  have hreachable := SymbolTable.Reachable.empty.after calls
  have hanswer (call : TableCall) := congrArg Prod.fst (perform_after_empty calls call)
  refine ⟨fun call => (hanswer call).trans (SymbolTable.perform_after calls call),
    fun s content => ?_, fun content s hfound more => ?_, fun hash => ?_, after_empty calls, hanswer⟩
  · rw [after_empty, SymbolTable.put_laidOut, SymbolTable.intern_laidOut, SymbolTable.snd_put]
    exact ⟨by simp only [SymbolTable.lookup?_laidOut, SymbolTable.find?_intern], rfl⟩
  · rw [after_empty, SymbolTable.lookup?_laidOut, SymbolTable.find?_after] at hfound
    have hafter : (empty.after calls).after more = empty.after (calls ++ more) := List.foldl_append.symm
    rw [hafter, after_empty, SymbolTable.lookup?_laidOut, SymbolTable.find?_after, firstOffer?, offers,
      List.filterMap_append, List.find?_append]
    exact congrArg (Option.or · _) hfound
  · rw [after_empty]
    exact hreachable.bucket hash

/-- Two contents that share a hash value, and a second symbol of one of them. -/
theorem answers_first_offers_collision :
    let s : Symbol := ⟨[0x43, 0x63, 0x50], 0⟩
    let t : Symbol := ⟨[0x62, 0x41, 0x4A, 0x41], 1⟩
    let copy : Symbol := ⟨s.bytes, 2⟩
    let table := empty.after [.put s, .intern t]
    s.hash = t.hash ∧ (table.perform (.put copy)).1 = .truth false ∧
      (table.perform (.intern copy)).1 = .symbol s ∧ (table.perform .size).1 = .count 2 ∧
        (table.perform (.lookup t.bytes)).1 = .found (some t) ∧
          (table.after [.put copy, .intern copy]).lookup? s.bytes = some s := by
  intro s t copy table
  obtain ⟨hanswers, -, hkept, -⟩ := answers_first_offers [.put s, .intern t]
  have hfound : table.lookup? s.bytes = some s := by
    have hlookup := hanswers (.lookup s.bytes)
    exact TableAnswer.found.inj hlookup
  exact ⟨by decide, hanswers (.put copy), hanswers (.intern copy), hanswers .size,
    hanswers (.lookup t.bytes), hkept _ _ hfound _⟩

end BucketTable

end ClassLoading
