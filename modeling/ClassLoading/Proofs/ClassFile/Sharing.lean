import ClassLoading.Proofs.ClassFile.Symbols
import ClassLoading.Proofs.Loader.WellLinked

/-!
# Shared symbols

What class files that are decoded one after another add to the symbol table that they share. Whatever
becomes of a class file, exactly the texts that were read of it are added; and classes that were
decoded have one instance of each content in common.
-/

namespace ClassLoading

/-- The entries that are read into the slots from `index` on: those before the first one that is no
entry, or else as many as fill the pool. -/
inductive FirstPass (size : UInt16) :
    UInt16 → Cursor → List RawConstant → Except Failure Cursor → Prop
  | full {index : UInt16} {c : Cursor} : ¬index < size → FirstPass size index c [] (.ok c)
  | broken {index : UInt16} {c : Cursor} {failure : Failure} : index < size →
      RawConstant.read size index c = .error failure → FirstPass size index c [] (.error failure)
  | entry {index next : UInt16} {c c' : Cursor} {constant : RawConstant} {constants : List RawConstant}
      {outcome : Except Failure Cursor} : index < size →
        RawConstant.read size index c = .ok (constant, c') →
          slotAfter index constant.width = .ok next → FirstPass size next c' constants outcome →
            FirstPass size index c (constant :: constants) outcome

theorem RawConstants.firstPass_readFrom (size index : UInt16) (c : Cursor) :
    FirstPass size index c (readFrom size index c).constants.toList (readFrom size index c).outcome := by
  refine readFrom_induction (motive := fun index c result =>
    FirstPass size index c result.constants.toList result.outcome) ?full ?broken ?entry index c
  case full =>
    intro index c hindex
    exact .full hindex
  case broken =>
    intro index c failure hindex hread
    exact .broken hindex hread
  case entry =>
    intro index next c c' constant rest hindex hread hnext _ ih
    simpa using FirstPass.entry hindex hread hnext ih

namespace ClassFile

variable {options : Options} {data : List UInt8} {table : SymbolTable}

/-- What a byte string adds to the contents of a table when it is decoded: nothing if not even the
header can be read, the texts before the entry that is broken if there is one, and else all the texts
of the pool. -/
inductive Grows (options : Options) (data : List UInt8) (before after : SymbolTable)
    (result : Except Failure ClassFile) : Prop
  | noPool {failure : Failure} : readHeader options (Cursor.start data) = .error failure →
      result = .error failure → after = before → Grows options data before after result
  | brokenPool {version : Version} {size : UInt16} {c : Cursor} {constants : List RawConstant}
      {failure : Failure} : readHeader options (Cursor.start data) = .ok ((version, size), c) →
        FirstPass size 1 c constants (.error failure) → result = .error failure →
          after.contents = before.contents ∪ {text | .utf8 text ∈ constants} →
            Grows options data before after result
  | wholePool {version : Version} {size : UInt16} {c c' : Cursor} {constants : List RawConstant} :
      readHeader options (Cursor.start data) = .ok ((version, size), c) →
        FirstPass size 1 c constants (.ok c') →
          after.contents = before.contents ∪ {text | .utf8 text ∈ constants} →
            Grows options data before after result

/-- How a decoding goes: the header is refused, or the texts of the entries that were read are interned,
and an entry that is no constant decides the outcome. -/
theorem decode_cases (options : Options) (data : List UInt8) (table : SymbolTable) :
    (∃ failure, readHeader options (Cursor.start data) = .error failure ∧
      decode options data table = (.error failure, table)) ∨
    ∃ version size c result, readHeader options (Cursor.start data) = .ok ((version, size), c) ∧
      decode options data table = (result, table.internAll
        (RawConstant.texts (RawConstants.readFrom size 1 c).constants.toList)) ∧
      ∀ failure, (RawConstants.readFrom size 1 c).outcome = .error failure →
        result = .error failure := by
  rw [decode_eq]
  cases hheader : readHeader options (Cursor.start data) with
  | error failure =>
      refine Or.inl ⟨failure, rfl, ?_⟩
      rw [read, hheader]
      rfl
  | ok result =>
      obtain ⟨⟨version, size⟩, c⟩ := result
      obtain ⟨_, ⟨-, -, hsize⟩, -⟩ := (readHeader_reads.yields (Nat.zero_le _) _ _).mp hheader
      obtain ⟨placed, hread, -⟩ := exists_placed_of_header table hsize hheader
      rw [hread]
      refine Or.inr ⟨version, size, c, _, rfl, rfl, fun failure houtcome => ?_⟩
      rw [houtcome]
      rfl

theorem grows_decode (h : table.Reachable) (options : Options) (data : List UInt8) :
    Grows options data table (decode options data table).2 (decode options data table).1 := by
  rcases decode_cases options data table with
    ⟨failure, hheader, hdecode⟩ | ⟨version, size, c, result, hheader, hdecode, hbroken⟩
  · rw [hdecode]
    exact .noPool hheader rfl rfl
  · have hpass := RawConstants.firstPass_readFrom size 1 c
    have hcontents := SymbolTable.contents_internAll h
      (RawConstant.texts (RawConstants.readFrom size 1 c).constants.toList)
    simp only [mem_texts] at hcontents
    rw [hdecode]
    cases houtcome : (RawConstants.readFrom size 1 c).outcome with
    | error failure =>
        rw [houtcome] at hpass
        exact .brokenPool hheader hpass (hbroken failure houtcome) hcontents
    | ok c' =>
        rw [houtcome] at hpass
        exact .wholePool hheader hpass hcontents

/-- The texts that are offered to a symbol table when a byte string is decoded. -/
def offeredTexts (options : Options) (data : List UInt8) : List (List UInt8) :=
  match readHeader options (Cursor.start data) with
  | .error _ => []
  | .ok ((_, size), c) => RawConstant.texts (RawConstants.readFrom size 1 c).constants.toList

theorem snd_decode (options : Options) (data : List UInt8) (table : SymbolTable) :
    (decode options data table).2 = table.internAll (offeredTexts options data) := by
  rcases decode_cases options data table with
    ⟨_, hheader, hdecode⟩ | ⟨_, _, _, _, hheader, hdecode, -⟩
  · rw [hdecode, offeredTexts, hheader]
    rfl
  · rw [hdecode, offeredTexts, hheader]

/-- An instance that is stored is not replaced, whatever is decoded. -/
theorem find?_decode_of_some {content : List UInt8} {s : Symbol} (h : table.find? content = some s)
    (options : Options) (data : List UInt8) : (decode options data table).2.find? content = some s := by
  rw [snd_decode]
  exact SymbolTable.find?_internAll_of_some h _

theorem reachable_decode (h : table.Reachable) (options : Options) (data : List UInt8) :
    (decode options data table).2.Reachable := by
  rw [snd_decode]
  exact h.internAll _

/-- The symbol table after some byte strings were decoded, each under its own options. -/
def tableAfter (table : SymbolTable) (inputs : List (Options × List UInt8)) : SymbolTable :=
  inputs.foldl (fun table input => (decode input.1 input.2 table).2) table

/-- One of the byte strings was decoded to a class. -/
def Decodes (table : SymbolTable) (inputs : List (Options × List UInt8)) (file : ClassFile) : Prop :=
  ∃ first input rest, inputs = first ++ input :: rest ∧
    (decode input.1 input.2 (tableAfter table first)).1 = .ok file

section Runs

open Loader (plainClass plainFile plainClass_declares)

variable {inputs : List (Options × List UInt8)} {file : ClassFile} {s : Symbol}

theorem reachable_tableAfter (h : table.Reachable) (inputs : List (Options × List UInt8)) :
    (tableAfter table inputs).Reachable := by
  induction inputs generalizing table with
  | nil => exact h
  | cons input inputs ih => exact ih (reachable_decode h input.1 input.2)

theorem find?_tableAfter_of_some {content : List UInt8} (h : table.find? content = some s)
    (inputs : List (Options × List UInt8)) : (tableAfter table inputs).find? content = some s := by
  induction inputs generalizing table with
  | nil => exact h
  | cons input inputs ih => exact ih (find?_decode_of_some h input.1 input.2)

/-- What a class mentions is what the table holds in the end. -/
theorem Decodes.find?_of_mentions (h : Decodes table inputs file) (hs : file.Mentions s) :
    (tableAfter table inputs).find? s.bytes = some s := by
  obtain ⟨first, input, rest, rfl, hdecode⟩ := h
  have hafter := find?_of_decode (Prod.ext hdecode rfl) hs
  have hrest := find?_tableAfter_of_some hafter rest
  rw [tableAfter, List.foldl_append]
  exact hrest

theorem contents_of_decode {after : SymbolTable} (h : table.Reachable)
    (hdecode : decode options data table = (.ok file, after)) : after.contents = table.contents ∪
      {text | ∃ index s, file.pool.get? index = some (.utf8 s) ∧ s.bytes = text} := by
  obtain ⟨declaration, -, -, rfl, hdeclares⟩ := declares_of_decode hdecode
  rw [SymbolTable.contents_internAll h]
  simp only [mem_texts_iff_get? hdeclares (SymbolTable.bytes_instanceOf _)]

/-- However many byte strings are decoded with one symbol table, the table finds what it stores, each
decoding adds exactly the texts that it read, and no instance is replaced. A class that was decoded has
the stored instance of every content that it mentions, and its texts are what was added for it. So
symbols of equal content are the same, whichever of the classes they belong to. -/
theorem symbols_shared (h : table.Reachable) (inputs : List (Options × List UInt8)) :
    let before := tableAfter table inputs
    (∀ content s, before.find? content = some s ↔ s ∈ before.stored ∧ s.bytes = content) ∧
    (∀ options data,
      Grows options data before (decode options data before).2 (decode options data before).1 ∧
        ∀ content s, before.find? content = some s →
          (decode options data before).2.find? content = some s) ∧
    (∀ options data file, (decode options data before).1 = .ok file →
      (decode options data before).2.contents = before.contents ∪
        {text | ∃ index s, file.pool.get? index = some (.utf8 s) ∧ s.bytes = text} ∧
      ∀ s, file.Mentions s → (decode options data before).2.find? s.bytes = some s) ∧
    ∀ file file', Decodes table inputs file → Decodes table inputs file' →
      ∀ s s', file.Mentions s → file'.Mentions s' → s.bytes = s'.bytes → s = s' := by
  have hbefore := reachable_tableAfter h inputs
  refine ⟨fun content s => hbefore.consistent, fun options data => ⟨grows_decode hbefore options data,
      fun content s hfind => find?_decode_of_some hfind options data⟩,
    fun options data file hdecode => ⟨contents_of_decode hbefore (Prod.ext hdecode rfl),
      fun s hs => find?_of_decode (Prod.ext hdecode rfl) hs⟩,
    fun file file' hfile hfile' s s' hs hs' hbytes => ?_⟩
  have hfind := hfile.find?_of_mentions hs
  rw [hbytes, hfile'.find?_of_mentions hs'] at hfind
  exact (Option.some.inj hfind).symm

/-- The plain class decoded twice, and once more: its name is the same symbol each time. -/
theorem symbols_shared_plainClass :
    let input : Options × List UInt8 := ({}, plainClass.encode ++ [])
    ∃ first second third, Decodes .empty [input, input] first ∧ Decodes .empty [input, input] second ∧
      first.name = second.name ∧
        (decode input.1 input.2 (tableAfter .empty [input, input])).1 = .ok third ∧
          (tableAfter .empty [input, input, input]).find? [0x41] = some third.name ∧
            third.name = first.name := by
  intro input
  have hplain : ∀ table : SymbolTable, ∃ file, (decode input.1 input.2 table).1 = .ok file ∧
      file.name.bytes = [0x41] := fun table =>
    let symbol := (table.internAll (RawConstant.texts plainClass.constants)).instanceOf
    ⟨plainFile symbol, congrArg Prod.fst (decode_of_declares [] (plainClass_declares symbol)),
      SymbolTable.bytes_instanceOf _ _⟩
  obtain ⟨first, hfirst, hfirstBytes⟩ := hplain .empty
  obtain ⟨second, hsecond, hsecondBytes⟩ := hplain (tableAfter .empty [input])
  obtain ⟨third, hthird, hthirdBytes⟩ := hplain (tableAfter .empty [input, input])
  have hdecodes : Decodes .empty [input, input] first := ⟨[], input, [input], rfl, hfirst⟩
  have hdecodes' : Decodes .empty [input, input] second := ⟨[input], input, [], rfl, hsecond⟩
  obtain ⟨-, hkept, hheld, hshared⟩ := symbols_shared .empty [input, input]
  have hsame := hshared first second hdecodes hdecodes' first.name second.name (.name rfl) (.name rfl)
    (hfirstBytes.trans hsecondBytes.symm)
  have hafter := (hheld {} _ third hthird).2 third.name (.name rfl)
  have hbefore := hdecodes.find?_of_mentions (.name rfl)
  have hstill := (hkept {} input.2).2 _ _ hbefore
  rw [hthirdBytes] at hafter
  rw [hfirstBytes] at hstill
  exact ⟨first, second, third, hdecodes, hdecodes', hsame, hthird, hafter,
    Option.some.inj (hafter.symm.trans hstill)⟩

end Runs

end ClassFile

end ClassLoading
