import ClassLoading.Text.Utf16

/-!
# Modified UTF-8

The encoding that class files use for their text: every UTF-16 unit is written on its own in one,
two or three bytes, and the unit zero takes two bytes, so that no zero byte and no four-byte form
occurs. Decoding refuses all other spellings of a unit.
-/

namespace ClassLoading.ModifiedUtf8

/-- The bytes of one UTF-16 unit. -/
def unitBytes (u : UInt16) : List UInt8 :=
  let n := u.toNat
  if n = 0 then [0xC0, 0x80]
  else if n < 0x80 then [UInt8.ofNat n]
  else if n < 0x800 then [UInt8.ofNat (0xC0 + n / 64), UInt8.ofNat (0x80 + n % 64)]
  else
    [UInt8.ofNat (0xE0 + n / 4096), UInt8.ofNat (0x80 + n / 64 % 64), UInt8.ofNat (0x80 + n % 64)]

/-- The bytes of a text. -/
def encode (text : List Char) : List UInt8 := (Utf16.encode text).flatMap unitBytes

/-- Bytes that may follow the first one of a form. -/
def isTrail (b : UInt8) : Bool := 0x80 ≤ b && b < 0xC0

/-- The unit of a two-byte form, unless a shorter form exists for it. -/
def unitOfTwo? (a b : UInt8) : Option UInt16 :=
  let n := (a.toNat - 0xC0) * 64 + (b.toNat - 0x80)
  if isTrail b && (n = 0 || 0x80 ≤ n) then some (UInt16.ofNat n) else none

/-- The unit of a three-byte form, unless a shorter form exists for it. -/
def unitOfThree? (a b c : UInt8) : Option UInt16 :=
  let n := (a.toNat - 0xE0) * 4096 + (b.toNat - 0x80) * 64 + (c.toNat - 0x80)
  if isTrail b && isTrail c && 0x800 ≤ n then some (UInt16.ofNat n) else none

/-- Continues a decoding; `done` holds the units so far, the latest first. -/
def unitsOnto? (done : List UInt16) : List UInt8 → Option (List UInt16)
  | [] => some done.reverse
  | a :: rest =>
      if a < 0x80 then
        if a = 0 then none else unitsOnto? (UInt16.ofNat a.toNat :: done) rest
      else if a < 0xC0 then none
      else
        match rest with
        | [] => none
        | b :: rest =>
            if a < 0xE0 then
              match unitOfTwo? a b with
              | none => none
              | some u => unitsOnto? (u :: done) rest
            else
              match rest with
              | [] => none
              | c :: rest =>
                  if a < 0xF0 then
                    match unitOfThree? a b c with
                    | none => none
                    | some u => unitsOnto? (u :: done) rest
                  else none

/-- The UTF-16 units that a byte string spells, if each is in its only form. -/
def units? (bytes : List UInt8) : Option (List UInt16) := unitsOnto? [] bytes

theorem unitsOnto?_eq (done : List UInt16) (bytes : List UInt8) :
    unitsOnto? done bytes = (units? bytes).map (done.reverse ++ ·) := by
  have shift (u : UInt16) (rest : List UInt8)
      (onto : unitsOnto? (u :: done) rest = (units? rest).map ((u :: done).reverse ++ ·))
      (alone : unitsOnto? [u] rest = (units? rest).map ([u].reverse ++ ·)) :
      unitsOnto? (u :: done) rest = (unitsOnto? [u] rest).map (done.reverse ++ ·) := by
    rw [onto, alone]
    simp [Function.comp_def]
  rw [units?]
  match bytes with
  | [] => simp [unitsOnto?]
  | a :: rest =>
      have one (u : UInt16) := shift u rest (unitsOnto?_eq _ rest) (unitsOnto?_eq _ rest)
      rw [unitsOnto?.eq_def, unitsOnto?.eq_def []]
      dsimp only
      split
      · split
        · rfl
        · exact one _
      · split
        · rfl
        · match rest with
          | [] => rfl
          | b :: rest =>
              have two (u : UInt16) := shift u rest (unitsOnto?_eq _ rest) (unitsOnto?_eq _ rest)
              dsimp only
              split
              · split
                · rfl
                · exact two _
              · match rest with
                | [] => rfl
                | c :: rest =>
                    have three (u : UInt16) :=
                      shift u rest (unitsOnto?_eq _ rest) (unitsOnto?_eq _ rest)
                    dsimp only
                    split
                    · split
                      · rfl
                      · exact three _
                    · rfl
termination_by bytes.length

/-- The text of a byte string, if it is valid. -/
def decode? (bytes : List UInt8) : Option (List Char) := (units? bytes).bind Utf16.decode?

end ClassLoading.ModifiedUtf8
