import ClassLoading.Proofs.ClassFile.Erasure
import ClassLoading.Proofs.ClassFile.Sharing

/-!
# The order of decoding

Class files that are decoded one after another share a symbol table, yet what becomes of each of them is
its own affair: neither the table at the start nor the order matters, up to the instances of symbols.
Nor does it matter whether a class file was decoded before.
-/

namespace ClassLoading.ClassFile

variable {options : Options} {data : List UInt8} {table : SymbolTable}

/-- The outcomes of decoding byte strings one after another with one symbol table. -/
def outcomes (table : SymbolTable) :
    List (Options × List UInt8) → List (Except Failure ClassFile)
  | [] => []
  | (options, data) :: inputs =>
      let (outcome, table) := decode options data table
      outcome :: outcomes table inputs

/-- Two decodings come to the same: to classes that differ in instances of symbols at most, or to the
same error. -/
inductive SameOutcome : Except Failure ClassFile → Except Failure ClassFile → Prop
  | accepted {file file' : ClassFile} : file.erase = file'.erase → SameOutcome (.ok file) (.ok file')
  | rejected (error : FormatError) : SameOutcome (.error (.format error)) (.error (.format error))

theorem sameOutcome_decode (options : Options) (data : List UInt8) (table table' : SymbolTable) :
    SameOutcome (decode options data table).1 (decode options data table').1 := by
  have hsafe := decode_safe options data table
  rcases Except.cases_of_map_eq (decode_erase options data table table') with
    ⟨failure, hresult, hresult'⟩ | ⟨file, file', hresult, hresult', herase⟩
  · rw [hresult, hresult']
    cases failure with
    | format error => exact .rejected error
    | fault fault => exact absurd hresult (hsafe fault)
  · rw [hresult, hresult']
    exact .accepted herase

/-- To decode a byte string again comes to the same, instances of symbols included, and leaves the table
as it is. -/
theorem decode_again (options : Options) (data : List UInt8) (table : SymbolTable) :
    decode options data (decode options data table).2 = decode options data table := by
  cases hdecode : decode options data table with
  | mk result after =>
      cases result with
      | ok file =>
          obtain ⟨declaration, tail, rfl, rfl, hdeclares⟩ := declares_of_decode hdecode
          rw [← SymbolTable.internAll_again] at hdeclares
          have hagain := decode_of_declares tail hdeclares
          rwa [SymbolTable.internAll_again] at hagain
      | error failure =>
          have hafter : after = table.internAll (offeredTexts options data) := by
            rw [← snd_decode, hdecode]
          have hsame := sameOutcome_decode options data table after
          rw [hdecode] at hsame
          refine Prod.ext ?_ (by rw [snd_decode, hafter, SymbolTable.internAll_again])
          generalize (decode options data after).1 = result at hsame
          cases hsame
          rfl

variable {inputs inputs' : List (Options × List UInt8)}

/-- The outcome of an input is that of decoding it with the table that the inputs before it left. -/
theorem getElem?_outcomes (table : SymbolTable) (inputs : List (Options × List UInt8)) (i : Nat) :
    (outcomes table inputs)[i]? = inputs[i]?.map fun input =>
      (decode input.1 input.2 (tableAfter table (inputs.take i))).1 := by
  induction inputs generalizing table i with
  | nil => rfl
  | cons input inputs ih =>
      cases i with
      | zero => rfl
      | succ i => exact ih (decode input.1 input.2 table).2 i

/-- The texts that are offered to a symbol table when byte strings are decoded one after another. -/
def allOfferedTexts (inputs : List (Options × List UInt8)) : List (List UInt8) :=
  inputs.flatMap fun input => offeredTexts input.1 input.2

theorem tableAfter_eq (table : SymbolTable) (inputs : List (Options × List UInt8)) :
    tableAfter table inputs = table.internAll (allOfferedTexts inputs) := by
  induction inputs generalizing table with
  | nil => rfl
  | cons input inputs ih =>
      have hrest : tableAfter table (input :: inputs) = _ := ih (decode input.1 input.2 table).2
      have htexts : allOfferedTexts (input :: inputs) =
          offeredTexts input.1 input.2 ++ allOfferedTexts inputs := List.flatMap_cons
      rw [hrest, snd_decode, htexts, SymbolTable.internAll_append]

theorem contents_tableAfter (h : table.Reachable) (inputs : List (Options × List UInt8)) :
    (tableAfter table inputs).contents = table.contents ∪ {text | text ∈ allOfferedTexts inputs} := by
  rw [tableAfter_eq]
  exact SymbolTable.contents_internAll h _

theorem contents_tableAfter_of_perm (h : table.Reachable) (hinputs : inputs.Perm inputs') :
    (tableAfter table inputs).contents = (tableAfter table inputs').contents := by
  have htexts : (allOfferedTexts inputs).Perm (allOfferedTexts inputs') := hinputs.flatMap_right _
  rw [contents_tableAfter h, contents_tableAfter h]
  simp only [htexts.mem_iff]

/-- Decoding byte strings in another order, and with another symbol table, comes to the same for each of
them. With the same table at the start, the table holds the same contents in the end, each of them once,
and is of the same size. -/
theorem outcomes_order_independent (h : table.Reachable) (hinputs : inputs.Perm inputs')
    (table' : SymbolTable) :
    (∀ (i j : Nat) input, inputs[i]? = some input → inputs'[j]? = some input →
      ∃ result result', (outcomes table inputs)[i]? = some result ∧
        (outcomes table' inputs')[j]? = some result' ∧ SameOutcome result result') ∧
    (tableAfter table inputs).contents = (tableAfter table inputs').contents ∧
    (tableAfter table inputs).size = (tableAfter table inputs').size := by
  have hcontents := contents_tableAfter_of_perm h hinputs
  refine ⟨fun i j input hi hj => ?_, hcontents,
    (reachable_tableAfter h inputs).size_eq (reachable_tableAfter h inputs') hcontents⟩
  rw [getElem?_outcomes, getElem?_outcomes, hi, hj]
  exact ⟨_, _, rfl, rfl, sameOutcome_decode input.1 input.2 _ _⟩

open Loader (plainClass decode_plainClass) in
/-- A class and a byte string that is none, in both orders: from tables that disagree on the instance of
its name, the same class is decoded. -/
theorem outcomes_order_independent_plainClass :
    let inputs : List (Options × List UInt8) := [({}, plainClass.encode ++ []), ({}, [])]
    let table' := SymbolTable.empty.add ⟨[0x41], 7⟩
    ∃ file file', (outcomes .empty inputs)[0]? = some (.ok file) ∧
      (outcomes table' inputs.reverse)[1]? = some (.ok file') ∧ file.erase = file'.erase ∧
        file.name = ⟨[0x41], 0⟩ ∧ file'.name = ⟨[0x41], 7⟩ ∧
          (tableAfter .empty inputs).size = (tableAfter .empty inputs.reverse).size := by
  intro inputs table'
  have hdecoded {table : SymbolTable} {s : Symbol} (hs : table.instanceOf [0x41] = s) :
      ∃ file, (decode {} (plainClass.encode ++ []) table).1 = .ok file ∧ file.name = s :=
    ⟨_, congrArg Prod.fst (decode_plainClass table),
      (SymbolTable.instanceOf_internAll_cons table [0x41] []).trans hs⟩
  have hnew : SymbolTable.empty.instanceOf [0x41] = ⟨[0x41], 0⟩ := by
    rw [SymbolTable.instanceOf, SymbolTable.internBytes, SymbolTable.intern, SymbolTable.find?_empty]
    rfl
  have hkept : (tableAfter table' [({}, [])]).instanceOf [0x41] = ⟨[0x41], 7⟩ := by
    have hfind : table'.find? [0x41] = some ⟨[0x41], 7⟩ :=
      (SymbolTable.find?_add (SymbolTable.find?_empty _) _).trans (if_pos rfl)
    exact SymbolTable.instanceOf_of_find? (find?_tableAfter_of_some hfind _)
  obtain ⟨file, hfile, hname⟩ := hdecoded hnew
  obtain ⟨file', hfile', hname'⟩ := hdecoded hkept
  have hfirst : (outcomes .empty inputs)[0]? = some (.ok file) := congrArg some hfile
  have hlast : (outcomes table' inputs.reverse)[1]? = some (.ok file') := congrArg some hfile'
  obtain ⟨houtcomes, -, hsize⟩ :=
    outcomes_order_independent .empty (List.reverse_perm inputs).symm table'
  obtain ⟨result, result', hresult, hresult', hsame⟩ := houtcomes 0 1 _ rfl rfl
  obtain rfl := Option.some.inj (hfirst.symm.trans hresult)
  obtain rfl := Option.some.inj (hlast.symm.trans hresult')
  cases hsame with
  | accepted herase => exact ⟨file, file', hfirst, hlast, herase, hname, hname', hsize⟩

end ClassLoading.ClassFile
