/-!
# UTF-16 units

A character up to `U+FFFF` is one unit; one above it is a high surrogate followed by a low one.
Decoding accepts exactly the unit sequences in which surrogates come as such pairs.
-/

namespace ClassLoading.Utf16

/-- Units that open a pair. -/
def isHigh (u : UInt16) : Bool := 0xD800 ≤ u && u < 0xDC00

/-- Units that close a pair. -/
def isLow (u : UInt16) : Bool := 0xDC00 ≤ u && u < 0xE000

/-- The units of one character. -/
def units (c : Char) : List UInt16 :=
  if c.toNat < 0x10000 then [UInt16.ofNat c.toNat]
  else
    let n := c.toNat - 0x10000
    [UInt16.ofNat (0xD800 + n / 0x400), UInt16.ofNat (0xDC00 + n % 0x400)]

/-- The units of a text. -/
def encode (text : List Char) : List UInt16 := text.flatMap units

/-- The character that a pair of surrogates stands for. -/
def pairChar (high low : UInt16) : Char :=
  Char.ofNat (0x10000 + (high.toNat - 0xD800) * 0x400 + (low.toNat - 0xDC00))

/-- Continues a decoding; `done` holds the characters so far, the latest first. -/
def decodeOnto? (done : List Char) : List UInt16 → Option (List Char)
  | [] => some done.reverse
  | u :: rest =>
      if isHigh u then
        match rest with
        | [] => none
        | v :: rest' => if isLow v then decodeOnto? (pairChar u v :: done) rest' else none
      else if isLow u then none
      else decodeOnto? (Char.ofNat u.toNat :: done) rest

/-- The text of a unit sequence, if each surrogate is part of a pair. -/
def decode? (us : List UInt16) : Option (List Char) := decodeOnto? [] us

theorem decodeOnto?_eq (done : List Char) (us : List UInt16) :
    decodeOnto? done us = (decode? us).map (done.reverse ++ ·) := by
  match us with
  | [] => simp [decodeOnto?, decode?]
  | [u] =>
      unfold decode? decodeOnto?
      split
      · rfl
      · split
        · rfl
        · simp [decodeOnto?]
  | u :: v :: rest =>
      have onto := decodeOnto?_eq (pairChar u v :: done) rest
      have alone := decodeOnto?_eq [pairChar u v] rest
      have onto' := decodeOnto?_eq (Char.ofNat u.toNat :: done) (v :: rest)
      have alone' := decodeOnto?_eq [Char.ofNat u.toNat] (v :: rest)
      rw [decode?, decodeOnto?, decodeOnto?.eq_def [] (u :: v :: rest)]
      dsimp only
      split
      · split
        · rw [onto, alone]
          simp [Function.comp_def]
        · rfl
      · split
        · rfl
        · rw [onto', alone']
          simp [Function.comp_def]
termination_by us.length

end ClassLoading.Utf16
