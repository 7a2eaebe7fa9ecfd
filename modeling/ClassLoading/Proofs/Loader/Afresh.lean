import ClassLoading.Loader
import ClassLoading.Proofs.ClassFile.Acceptance
import ClassLoading.Proofs.ClassFile.Erasure

/-!
# Loading afresh

What a loader would answer that keeps nothing: it asks its class path every time, and decodes what it
finds with no symbols interned before.
-/

namespace ClassLoading

/-- An entry answers that it does not have a file. -/
def ClassPathEntry.lacks (entry : ClassPathEntry) (file : String) : Bool :=
  match entry.find file with
  | .ok none => true
  | _ => false

/-- The entry that decides about a file: the first that does not lack it. -/
def decider? (path : List ClassPathEntry) (file : String) : Option ClassPathEntry :=
  path.find? (!·.lacks file)

/-- The answer that decides about a file. -/
def firstAnswer (path : List ClassPathEntry) (file : String) :
    Except LoadError (Option (List UInt8)) :=
  match decider? path file with
  | some entry => entry.find file
  | none => .ok none

/-- The questions up to the answer that decides. -/
def questions (path : List ClassPathEntry) (file : String) : List Lookup :=
  (path.takeWhile (·.lacks file) ++ (decider? path file).toList).map fun entry => ⟨entry.name, file⟩

/-- What is made of the class file found for a name. -/
def judge (name : List UInt8) : Except Failure ClassFile → Except LoadFailure ClassFile
  | .error failure => .error (.ofDecoding (Symbol.textOfBytes name) failure)
  | .ok file =>
      if file.name.bytes = name then .ok file.content
      else .error (.error (.wrongName (Symbol.textOfBytes name) file.name.text))

/-- The class of a name, loaded by a loader that keeps nothing. -/
def loadAfresh (options : Options) (path : List ClassPathEntry) (name : List UInt8) :
    Except LoadFailure ClassFile :=
  match firstAnswer path (classFileName (Symbol.textOfBytes name)) with
  | .error error => .error (.error error)
  | .ok none => .error (.error (.notFound (Symbol.textOfBytes name)))
  | .ok (some bytes) => judge name (ClassFile.decode options bytes .empty).1

variable {path : List ClassPathEntry} {entry : ClassPathEntry} {file : String} {name : List UInt8}
  {options : Options}

theorem search_eq (path : List ClassPathEntry) (file : String) :
    search path file = ⟨questions path file, firstAnswer path file⟩ := by
  induction path with
  | nil => rfl
  | cons entry path ih =>
      by_cases hlacks : entry.lacks file = true
      · have hfind : entry.find file = .ok none := by
          unfold ClassPathEntry.lacks at hlacks
          split at hlacks
          · assumption
          · cases hlacks
        have hdecider : decider? (entry :: path) file = decider? path file :=
          List.find?_cons_of_neg (by simp [hlacks])
        simp only [search, hfind, ih, questions, firstAnswer, hdecider]
        simp [hlacks]
      · have hfind : entry.find file ≠ .ok none := by
          intro hfind
          exact hlacks (by rw [ClassPathEntry.lacks, hfind])
        have hdecider : decider? (entry :: path) file = some entry :=
          List.find?_cons_of_pos (by simp [hlacks])
        have hsearch : search (entry :: path) file = ⟨[⟨entry.name, file⟩], entry.find file⟩ := by
          rw [search]
          split
          · contradiction
          · rfl
        simp only [hsearch, questions, firstAnswer, hdecider]
        simp [hlacks]

/-- An entry behind the one that decides is not asked. -/
theorem firstAnswer_append (h : firstAnswer path file ≠ .ok none) (more : List ClassPathEntry) :
    firstAnswer (path ++ more) file = firstAnswer path file := by
  unfold firstAnswer at h ⊢
  cases hdecider : decider? path file with
  | none =>
      rw [hdecider] at h
      exact absurd rfl h
  | some entry =>
      have happend : decider? (path ++ more) file = some entry := by
        unfold decider? at hdecider ⊢
        rw [List.find?_append, hdecider]
        rfl
      rw [happend]

theorem exists_mem_of_firstAnswer {error : LoadError} (h : firstAnswer path file = .error error) :
    ∃ entry ∈ path, entry.find file = .error error := by
  unfold firstAnswer at h
  cases hdecider : decider? path file with
  | none =>
      rw [hdecider] at h
      cases h
  | some entry =>
      rw [hdecider] at h
      exact ⟨entry, List.mem_of_find?_eq_some hdecider, h⟩

/-- A class that is found is found again when the class path grows. -/
theorem loadAfresh_append {classFile : ClassFile} (h : loadAfresh options path name = .ok classFile)
    (more : List ClassPathEntry) : loadAfresh options (path ++ more) name = .ok classFile := by
  unfold loadAfresh at h ⊢
  cases hanswer : firstAnswer path (classFileName (Symbol.textOfBytes name)) with
  | error error =>
      rw [hanswer] at h
      cases h
  | ok found =>
      cases found with
      | none =>
          rw [hanswer] at h
          cases h
      | some bytes =>
          rw [hanswer] at h
          rw [firstAnswer_append (by rw [hanswer]; nofun) more, hanswer]
          exact h

theorem judge_congr {result result' : Except Failure ClassFile}
    (h : ClassFile.erase <$> result = ClassFile.erase <$> result') (name : List UInt8) :
    judge name result = judge name result' := by
  rcases Except.cases_of_map_eq h with ⟨failure, rfl, rfl⟩ | ⟨file, file', rfl, rfl, herase⟩
  · rfl
  · have hbytes : file.name.bytes = file'.name.bytes :=
      Symbol.erase_inj.mp (congrArg ClassFile.name herase)
    have htext : file.name.text = file'.name.text := congrArg Symbol.textOfBytes hbytes
    rw [judge, judge, hbytes, htext, ClassFile.content_eq_of_erase_eq herase]

/-- It does not matter which symbols were interned before the class file was decoded. -/
theorem loadAfresh_of_decode {bytes : List UInt8} {result : Except Failure ClassFile}
    {table after : SymbolTable}
    (hfound : firstAnswer path (classFileName (Symbol.textOfBytes name)) = .ok (some bytes))
    (hdecode : ClassFile.decode options bytes table = (result, after)) :
    loadAfresh options path name = judge name result := by
  have herase := ClassFile.decode_erase options bytes .empty table
  rw [hdecode] at herase
  rw [loadAfresh, hfound]
  exact judge_congr herase name

theorem loadAfresh_safe (options : Options) (path : List ClassPathEntry) (name : List UInt8)
    (fault : Fault) : loadAfresh options path name ≠ .error (.fault fault) := by
  unfold loadAfresh
  split
  · simp
  · simp
  · rename_i bytes hfound
    have hsafe := ClassFile.decode_safe options bytes .empty
    cases hdecode : (ClassFile.decode options bytes .empty).1 with
    | ok file =>
        rw [judge]
        split <;> simp
    | error failure =>
        cases failure with
        | format error => simp [judge, LoadFailure.ofDecoding]
        | fault fault => exact absurd hdecode (hsafe fault)

end ClassLoading
