import ClassLoading.FormatError

/-!
# Decoders

A decoder reads a value off a cursor. It ends with the value and the cursor behind it, with a
format error, or with a fault; the last never happens to decoders that keep the library's promises.
-/

namespace ClassLoading

/-- Why a decoder stopped. -/
inductive Failure where
  | format (error : FormatError)
  | fault (fault : Fault)
deriving DecidableEq, Repr

abbrev Decoder (α : Type) := StateT Cursor (Except Failure) α

namespace Decoder

variable {α σ : Type}

def reject (error : FormatError) : Decoder α := fun _ => .error (.format error)

def malformed (cause : Malformation) : Decoder α := reject (.malformed cause)

/-- Stops unless `condition` holds. -/
@[macro_inline] def require (condition : Bool) (error : FormatError) : Decoder Unit :=
  if condition then pure () else reject error

/-- A value that was computed without reading. -/
def ofExcept (result : Except Failure α) : Decoder α := fun c => result.map (·, c)

/-- Checks that `n` bytes are left. -/
def ensure (n : Nat) : Decoder Unit := fun c =>
  match c.ensure n with
  | .ok () => .ok ((), c)
  | .error shortage => .error (.format (.truncated shortage))

def number (width : Nat) : Decoder Nat := fun c =>
  match c.number width with
  | .ok result => .ok result
  | .error shortage => .error (.format (.truncated shortage))

/-- An unchecked read of a number, for use behind `ensure`. -/
def numberUnchecked (width : Nat) : Decoder Nat := fun c =>
  match c.numberUnchecked width with
  | .ok result => .ok result
  | .error fault => .error (.fault fault)

/-- An unchecked skip, for use behind `ensure`. -/
def skipUnchecked (n : Nat) : Decoder Unit := fun c =>
  match c.skipUnchecked n with
  | .ok c' => .ok ((), c')
  | .error fault => .error (.fault fault)

def u8 : Decoder UInt8 := do return UInt8.ofNat (← number 1)
def u16 : Decoder UInt16 := do return UInt16.ofNat (← number 2)
def u32 : Decoder UInt32 := do return UInt32.ofNat (← number 4)
def u64 : Decoder UInt64 := do return UInt64.ofNat (← number 8)

def u8Unchecked : Decoder UInt8 := do return UInt8.ofNat (← numberUnchecked 1)
def u16Unchecked : Decoder UInt16 := do return UInt16.ofNat (← numberUnchecked 2)
def u32Unchecked : Decoder UInt32 := do return UInt32.ofNat (← numberUnchecked 4)

/-- The next `n` bytes; they are looked up behind a check and then passed over. -/
def bytes (n : Nat) : Decoder (List UInt8) := do
  ensure n
  let read := (← get).unread.take n
  skipUnchecked n
  return read

def position : Decoder Nat := fun c => .ok (c.position, c)

/-- Reads a value that has to take exactly `length` bytes; `error` says what is wrong if it takes
another number of them. -/
def framed (length : Nat) (error : Nat → FormatError) (value : Decoder α) : Decoder α := do
  let start ← position
  let x ← value
  let taken := (← position) - start
  require (taken = length) (error taken)
  return x

/-- Carries a state through `count` steps. -/
def iterate (step : σ → Decoder σ) : Nat → σ → Cursor → Except Failure (σ × Cursor)
  | 0, s, c => .ok (s, c)
  | count + 1, s, c =>
      match step s c with
      | .ok (s', c') => iterate step count s' c'
      | .error failure => .error failure

def readOnto (value : Decoder α) (read : Array α) : Decoder (Array α) := fun c =>
  match value c with
  | .ok (x, c') => .ok (read.push x, c')
  | .error failure => .error failure

/-- Reads `count` values, one after another. -/
def replicate (count : Nat) (value : Decoder α) : Decoder (List α) := fun c =>
  match iterate (readOnto value) count #[] c with
  | .ok (read, c') => .ok (read.toList, c')
  | .error failure => .error failure

theorem iterate_readOnto (value : Decoder α) (count : Nat) (read : Array α) (c : Cursor) :
    iterate (readOnto value) count read c =
      (iterate (readOnto value) count #[] c).map fun (more, c') => (read ++ more, c') := by
  induction count generalizing read c with
  | zero => simp [iterate, Except.map]
  | succ count ih =>
      cases h : value c with
      | error failure => simp [iterate, readOnto, h, Except.map]
      | ok result =>
          simp only [iterate, readOnto, h]
          rw [ih (read.push result.1), ih (#[].push result.1)]
          cases iterate (readOnto value) count #[] result.2 <;> simp [Except.map]

theorem replicate_zero (value : Decoder α) : replicate 0 value = pure [] := rfl

/-- Reading several values is reading one and then the others. -/
theorem replicate_succ (count : Nat) (value : Decoder α) :
    replicate (count + 1) value = do
      let first ← value
      let others ← replicate count value
      return first :: others := by
  funext c
  cases h : value c with
  | error failure => simp [replicate, iterate, readOnto, h, bind, StateT.bind, Except.bind]
  | ok result =>
      simp only [replicate, iterate, readOnto, h, bind, StateT.bind, Except.bind]
      rw [iterate_readOnto]
      cases iterate (readOnto value) count #[] result.2 with
      | error failure => rfl
      | ok others =>
          have hlist : (#[].push result.1 ++ others.1).toList = result.1 :: others.1.toList := by simp
          exact congrArg (fun values => Except.ok (values, others.2)) hlist

end Decoder

end ClassLoading
