/-!
# Big-endian numbers

A fixed-width number is stored with its most significant byte first. Reading `width` bytes and
writing the number back in the same width are inverse to each other.
-/

namespace ClassLoading.BigEndian

/-- The number that a byte string denotes, its most significant byte first. -/
def toNat (bytes : List UInt8) : Nat := bytes.foldl (fun n b => n * 256 + b.toNat) 0

/-- The low `width` bytes of a number, the most significant first. -/
def ofNat : Nat → Nat → List UInt8
  | 0, _ => []
  | width + 1, n => ofNat width (n / 256) ++ [UInt8.ofNat n]

@[simp] theorem toNat_nil : toNat [] = 0 := rfl

@[simp] theorem toNat_concat (bytes : List UInt8) (b : UInt8) :
    toNat (bytes ++ [b]) = toNat bytes * 256 + b.toNat := by
  simp [toNat]

@[simp] theorem length_ofNat (width n : Nat) : (ofNat width n).length = width := by
  induction width generalizing n with
  | zero => rfl
  | succ width ih => simp [ofNat, ih]

theorem ofNat_toNat (bytes : List UInt8) : ofNat bytes.length (toNat bytes) = bytes := by
  rw [← bytes.reverse_reverse]
  induction bytes.reverse with
  | nil => rfl
  | cons b bytes ih =>
      have hb := b.toNat_lt
      have hdiv : (toNat bytes.reverse * 256 + b.toNat) / 256 = toNat bytes.reverse := by omega
      have hlow : UInt8.ofNat (toNat bytes.reverse * 256 + b.toNat) = b := by
        apply UInt8.toNat.inj
        simp
      simp only [List.reverse_cons, List.length_append, List.length_singleton, toNat_concat, ofNat,
        hdiv, hlow, ih]

end ClassLoading.BigEndian
