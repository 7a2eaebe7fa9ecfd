import ClassLoading.Bytes.BigEndian
import ClassLoading.Fault

/-!
# Cursors

A cursor walks forward over a byte string. A checked operation reports a shortage when fewer bytes
are left than it needs; an unchecked one belongs behind a check that covers it, and is at fault
otherwise. No operation that fails moves the cursor.
-/

namespace ClassLoading

variable {α : Type}

/-- Whether a list has at least `n` elements, looking no further than that. -/
def hasLength : Nat → List α → Bool
  | 0, _ => true
  | _ + 1, [] => false
  | n + 1, _ :: rest => hasLength n rest

theorem hasLength_eq (n : Nat) (xs : List α) : hasLength n xs = decide (n ≤ xs.length) := by
  induction n generalizing xs with
  | zero => simp [hasLength]
  | succ n ih => cases xs <;> simp [hasLength, ih]

/-- Fewer bytes are left at `offset` than an operation needs. -/
structure Shortage where
  offset : Nat
  needed : Nat
  remaining : Nat
deriving DecidableEq, Repr

/-- A position in a byte string, with the bytes from there on. -/
structure Cursor where
  position : Nat
  unread : List UInt8
deriving DecidableEq, Repr

namespace Cursor

/-- The beginning of a byte string. -/
def start (data : List UInt8) : Cursor := ⟨0, data⟩

/-- The number of bytes left. -/
def remaining (c : Cursor) : Nat := c.unread.length

/-- No byte is left. -/
def atEnd (c : Cursor) : Bool := c.unread.isEmpty

/-- At least `n` bytes are left. -/
def has (c : Cursor) (n : Nat) : Bool := hasLength n c.unread

/-- The cursor `n` bytes further on. -/
def advance (c : Cursor) (n : Nat) : Cursor := ⟨c.position + n, c.unread.drop n⟩

/-- Checks that `n` bytes are left. -/
def ensure (c : Cursor) (n : Nat) : Except Shortage Unit :=
  if c.has n then .ok () else .error ⟨c.position, n, c.remaining⟩

/-- Passes over `n` bytes. -/
def skip (c : Cursor) (n : Nat) : Except Shortage Cursor := do
  c.ensure n
  return c.advance n

/-- Passes over `n` bytes known to be there. -/
def skipUnchecked (c : Cursor) (n : Nat) : Except Fault Cursor :=
  if c.has n then .ok (c.advance n) else .error (.uncheckedSkip n c.position)

/-- The next `n` bytes. -/
def bytes (c : Cursor) (n : Nat) : Except Shortage (List UInt8 × Cursor) := do
  c.ensure n
  return (c.unread.take n, c.advance n)

/-- The big-endian number in the next `width` bytes. -/
def number (c : Cursor) (width : Nat) : Except Shortage (Nat × Cursor) := do
  c.ensure width
  return (BigEndian.toNat (c.unread.take width), c.advance width)

/-- The big-endian number in the next `width` bytes, known to be there. -/
def numberUnchecked (c : Cursor) (width : Nat) : Except Fault (Nat × Cursor) :=
  if c.has width then .ok (BigEndian.toNat (c.unread.take width), c.advance width)
  else .error (.uncheckedRead c.position)

theorem has_eq (c : Cursor) (n : Nat) : c.has n = decide (n ≤ c.remaining) := hasLength_eq ..

theorem ensure_eq (c : Cursor) (n : Nat) :
    c.ensure n = if n ≤ c.remaining then .ok () else .error ⟨c.position, n, c.remaining⟩ := by
  by_cases h : n ≤ c.remaining <;> simp [ensure, has_eq, h]

@[simp] theorem remaining_start (data : List UInt8) : (start data).remaining = data.length := rfl

@[simp] theorem remaining_advance (c : Cursor) (n : Nat) :
    (c.advance n).remaining = c.remaining - n := by
  simp [advance, remaining]

end Cursor

end ClassLoading
