import ClassLoading.Proofs.Symbol.Interning
import Mathlib.Data.List.Dedup
import Mathlib.Data.Set.Insert

/-!
# Growth of symbol tables

A table that came about by its own operations finds exactly what it stores, whatever contents share a
hash value. Interning adds the contents that were offered, and nothing else.
-/

namespace ClassLoading.SymbolTable

/-- The tables that come about by offering symbols. -/
inductive Reachable : SymbolTable → Prop
  | empty : Reachable .empty
  | put {table : SymbolTable} (h : Reachable table) (s : Symbol) : Reachable (table.put s).2
  | intern {table : SymbolTable} (h : Reachable table) (s : Symbol) : Reachable (table.intern s).2

/-- The contents of the symbols stored. -/
def contents (table : SymbolTable) : Set (List UInt8) :=
  {content | ∃ s ∈ table.stored, s.bytes = content}

variable {table : SymbolTable} {s : Symbol} {content : List UInt8}

theorem mem_contents_iff : content ∈ table.contents ↔ ∃ s ∈ table.stored, s.bytes = content := Iff.rfl

theorem find?_empty (content : List UInt8) : empty.find? content = none := by
  simp [find?, bucket, empty]

/-- The buckets and the list of the symbols stored say the same. -/
def Consistent (table : SymbolTable) : Prop :=
  ∀ {content s}, table.find? content = some s ↔ s ∈ table.stored ∧ s.bytes = content

theorem Consistent.add (h : table.Consistent) (hnew : table.find? s.bytes = none) :
    (table.add s).Consistent := by
  intro content other
  have hstored : (table.add s).stored = s :: table.stored := rfl
  rw [find?_add hnew, hstored, List.mem_cons]
  by_cases hcontent : content = s.bytes
  · subst hcontent
    rw [if_pos rfl]
    constructor
    · intro hsome
      obtain rfl := Option.some.inj hsome
      exact ⟨Or.inl rfl, rfl⟩
    · rintro ⟨rfl | hmem, hbytes⟩
      · rfl
      · -- A symbol of that content would have been found before.
        rw [h.mpr ⟨hmem, hbytes⟩] at hnew
        cases hnew
  · rw [if_neg hcontent, h]
    constructor
    · exact fun ⟨hmem, hbytes⟩ => ⟨Or.inr hmem, hbytes⟩
    · rintro ⟨rfl | hmem, hbytes⟩
      · exact absurd hbytes.symm hcontent
      · exact ⟨hmem, hbytes⟩

theorem snd_put (table : SymbolTable) (s : Symbol) : (table.put s).2 = (table.intern s).2 := by
  unfold put intern
  cases table.find? s.bytes <;> rfl

/-- A reachable table comes about by adding symbols whose content is new. -/
@[elab_as_elim]
theorem Reachable.induction_add {motive : SymbolTable → Prop} (empty : motive .empty)
    (add : ∀ {table s}, table.Reachable → table.find? s.bytes = none → motive table →
      motive (table.add s)) (h : table.Reachable) : motive table := by
  have hintern {table : SymbolTable} (s : Symbol) (h : table.Reachable) (htable : motive table) :
      motive (table.intern s).2 := by
    unfold SymbolTable.intern
    cases hfind : table.find? s.bytes with
    | some kept => exact htable
    | none => exact add h hfind htable
  induction h with
  | empty => exact empty
  | put h s ih => exact snd_put _ s ▸ hintern s h ih
  | intern h s ih => exact hintern s h ih

theorem Reachable.consistent (h : table.Reachable) : table.Consistent := by
  refine @Reachable.induction_add table Consistent ?empty ?add h
  case empty =>
    intro content s
    rw [find?_empty]
    exact iff_of_false nofun fun hstored => nomatch hstored.1
  case add =>
    intro table s _ hnew ih
    exact ih.add hnew

/-- No content is stored twice. -/
theorem Reachable.nodup_bytes (h : table.Reachable) : (table.stored.map Symbol.bytes).Nodup := by
  refine Reachable.induction_add ?empty ?add h
  case empty => exact List.nodup_nil
  case add =>
    intro table s h hnew ih
    refine List.nodup_cons.mpr ⟨fun hmem => ?_, ih⟩
    obtain ⟨other, hstored, hbytes⟩ := List.mem_map.mp hmem
    rw [h.consistent.mpr ⟨hstored, hbytes⟩] at hnew
    cases hnew

/-- How many symbols are stored is a matter of their contents. -/
theorem Reachable.size_eq {table' : SymbolTable} (h : table.Reachable) (h' : table'.Reachable)
    (hcontents : table.contents = table'.contents) : table.size = table'.size := by
  have hperm : (table.stored.map Symbol.bytes).Perm (table'.stored.map Symbol.bytes) := by
    refine (List.perm_ext_iff_of_nodup h.nodup_bytes h'.nodup_bytes).mpr fun content => ?_
    rw [List.mem_map, List.mem_map]
    exact Set.ext_iff.mp hcontents content
  have hlength := hperm.length_eq
  rwa [List.length_map, List.length_map] at hlength

theorem Reachable.internAll (h : table.Reachable) (contents : List (List UInt8)) :
    (table.internAll contents).Reachable := by
  induction contents generalizing table with
  | nil => exact h
  | cons content contents ih => exact ih (h.intern ⟨content, table.nextSerial⟩)

theorem contents_internBytes (h : table.Consistent) (content : List UInt8) :
    (table.internBytes content).2.contents = insert content table.contents := by
  unfold internBytes SymbolTable.intern
  dsimp only
  cases hfind : table.find? content with
  | some kept => exact (Set.insert_eq_of_mem (mem_contents_iff.mpr ⟨kept, h.mp hfind⟩)).symm
  | none =>
      ext other
      simp only [mem_contents_iff, add, List.mem_cons, exists_eq_or_imp, Set.mem_insert_iff]
      rw [eq_comm]

theorem contents_internAll (h : table.Reachable) (offered : List (List UInt8)) :
    (table.internAll offered).contents = table.contents ∪ {content | content ∈ offered} := by
  induction offered generalizing table with
  | nil =>
      ext content
      simp [internAll]
  | cons content offered ih =>
      have hafter : (table.internBytes content).2.Reachable := h.intern ⟨content, table.nextSerial⟩
      have hrest : ((table.internBytes content).2.internAll offered).contents = _ := ih hafter
      refine hrest.trans ?_
      rw [contents_internBytes h.consistent]
      ext other
      have hcons : other ∈ {text | text ∈ content :: offered} ↔ other = content ∨ other ∈ offered :=
        List.mem_cons
      rw [Set.mem_union, Set.mem_union, Set.mem_insert_iff, hcons, or_assoc]
      exact or_left_comm

/-- A content that was interned is found. -/
theorem find?_internAll_of_mem {offered : List (List UInt8)} (h : content ∈ offered) :
    (table.internAll offered).find? content = some ((table.internAll offered).instanceOf content) := by
  induction offered generalizing table with
  | nil => cases h
  | cons other offered ih =>
      rcases List.mem_cons.mp h with rfl | hrest
      · rw [instanceOf_internAll_cons]
        exact find?_internAll_of_some (find?_internBytes_self table content) offered
      · exact ih hrest

/-- To intern contents that are all known changes nothing. -/
theorem internAll_of_found {offered : List (List UInt8)}
    (h : ∀ content ∈ offered, (table.find? content).isSome) : table.internAll offered = table := by
  induction offered with
  | nil => rfl
  | cons content offered ih =>
      obtain ⟨s, hs⟩ := Option.isSome_iff_exists.mp (h content List.mem_cons_self)
      have hsame : (table.internBytes content).2 = table := by
        unfold internBytes intern
        dsimp only
        rw [hs]
      rw [SymbolTable.internAll, List.foldl_cons, hsame]
      exact ih fun other hother => h other (List.mem_cons_of_mem content hother)

theorem internAll_eq_self_iff {offered : List (List UInt8)} :
    table.internAll offered = table ↔ ∀ content ∈ offered, (table.find? content).isSome := by
  refine ⟨fun hsame content hcontent => ?_, internAll_of_found⟩
  have hfound : ((table.internAll offered).find? content).isSome :=
    Option.isSome_of_eq_some (find?_internAll_of_mem hcontent)
  rwa [hsame] at hfound

theorem internAll_again (table : SymbolTable) (offered : List (List UInt8)) :
    (table.internAll offered).internAll offered = table.internAll offered :=
  internAll_of_found fun _ hcontent => Option.isSome_of_eq_some (find?_internAll_of_mem hcontent)

theorem Reachable.find?_eq_none_iff (h : table.Reachable) :
    table.find? content = none ↔ content ∉ table.contents := by
  rw [Option.eq_none_iff_forall_ne_some, mem_contents_iff, not_exists]
  exact forall_congr' fun s => not_congr h.consistent

/-- The new contents among those offered, each once. -/
def fresh (table : SymbolTable) (offered : List (List UInt8)) : List (List UInt8) :=
  offered.dedup.filter fun content => (table.find? content).isNone

theorem Reachable.mem_fresh_iff (h : table.Reachable) {offered : List (List UInt8)} :
    content ∈ table.fresh offered ↔ content ∈ offered ∧ content ∉ table.contents := by
  rw [fresh, List.mem_filter, List.mem_dedup, Option.isNone_iff_eq_none, h.find?_eq_none_iff]

theorem fresh_empty (offered : List (List UInt8)) : empty.fresh offered = offered.dedup :=
  List.filter_eq_self.mpr fun content _ => by rw [find?_empty]; rfl

/-- To intern contents takes up room for those that are new. -/
theorem Reachable.size_internAll (h : table.Reachable) (offered : List (List UInt8)) :
    (table.internAll offered).size = table.size + (table.fresh offered).length := by
  have hstored (table : SymbolTable) (content : List UInt8) :
      content ∈ table.stored.map Symbol.bytes ↔ content ∈ table.contents := List.mem_map
  have hdisjoint : List.Disjoint (table.stored.map Symbol.bytes) (table.fresh offered) :=
    fun content hold hnew => (h.mem_fresh_iff.mp hnew).2 ((hstored table content).mp hold)
  have hnodup : (table.stored.map Symbol.bytes ++ table.fresh offered).Nodup :=
    List.Nodup.append h.nodup_bytes ((List.nodup_dedup offered).filter _) hdisjoint
  have hperm : ((table.internAll offered).stored.map Symbol.bytes).Perm
      (table.stored.map Symbol.bytes ++ table.fresh offered) := by
    refine (List.perm_ext_iff_of_nodup (h.internAll offered).nodup_bytes hnodup).mpr fun content => ?_
    rw [List.mem_append, hstored, hstored, contents_internAll h, h.mem_fresh_iff]
    by_cases hold : content ∈ table.contents
    · exact iff_of_true (Or.inl hold) (Or.inl hold)
    · exact or_congr_right (and_iff_left hold).symm
  have hlength := hperm.length_eq
  rwa [List.length_append, List.length_map, List.length_map] at hlength

end ClassLoading.SymbolTable
