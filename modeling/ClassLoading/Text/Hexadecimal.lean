/-!
# Hexadecimal numbers

Lower-case digits, on their own or padded with zeros to a fixed width.
-/

namespace ClassLoading.Hexadecimal

/-- The digits of a number, without leading zeros. -/
def digits (n : Nat) : String := String.ofList (Nat.toDigits 16 n)

/-- The digits of a number, led by as many zeros as bring it to `width`. -/
def padded (width n : Nat) : String := String.ofList ((Nat.toDigits 16 n).leftpad width '0')

end ClassLoading.Hexadecimal
