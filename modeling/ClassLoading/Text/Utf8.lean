/-!
# UTF-8, read leniently

Every byte string has a text: each ill-formed stretch becomes one replacement character, where a
stretch is the longest beginning of a well-formed sequence found there, or a single byte. The
reader is a small machine that takes one byte at a time.
-/

namespace ClassLoading.Utf8

/-- What stands for an ill-formed stretch. -/
def replacement : Char := Char.ofNat 0xFFFD

/-- A sequence under way: its bits so far, the number of bytes still due, and the range in which
the next of them must lie. -/
structure Pending where
  value : Nat
  due : Nat
  low : Nat
  high : Nat
deriving DecidableEq, Repr

/-- What has been read: the characters, the latest first, and the sequence under way. -/
structure Progress where
  done : List Char
  pending : Option Pending
deriving DecidableEq, Repr

/-- Reads a byte at which a sequence may begin. -/
def begin (done : List Char) (b : UInt8) : Progress :=
  let n := b.toNat
  if n < 0x80 then ⟨Char.ofNat n :: done, none⟩
  else if n < 0xC2 then ⟨replacement :: done, none⟩
  else if n < 0xE0 then ⟨done, some ⟨n - 0xC0, 1, 0x80, 0xBF⟩⟩
  else if n < 0xF0 then
    ⟨done, some ⟨n - 0xE0, 2, if n = 0xE0 then 0xA0 else 0x80, if n = 0xED then 0x9F else 0xBF⟩⟩
  else if n < 0xF5 then
    ⟨done, some ⟨n - 0xF0, 3, if n = 0xF0 then 0x90 else 0x80, if n = 0xF4 then 0x8F else 0xBF⟩⟩
  else ⟨replacement :: done, none⟩

/-- Reads one byte: it continues the sequence under way, or ends it as ill-formed and begins
another. -/
def step (s : Progress) (b : UInt8) : Progress :=
  match s.pending with
  | none => begin s.done b
  | some p =>
      if p.low ≤ b.toNat ∧ b.toNat ≤ p.high then
        let value := p.value * 64 + (b.toNat - 0x80)
        if p.due = 1 then ⟨Char.ofNat value :: s.done, none⟩
        else ⟨s.done, some ⟨value, p.due - 1, 0x80, 0xBF⟩⟩
      else begin (replacement :: s.done) b

/-- The characters read, a sequence cut short by the end being ill-formed. -/
def Progress.text (s : Progress) : List Char :=
  match s.pending with
  | none => s.done.reverse
  | some _ => (replacement :: s.done).reverse

/-- The text of a byte string, ill-formed stretches replaced. -/
def decodeLossy (bytes : List UInt8) : List Char := (bytes.foldl step ⟨[], none⟩).text

end ClassLoading.Utf8
