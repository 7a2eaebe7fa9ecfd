import ClassLoading.Bytes.BigEndian

/-!
# Little-endian numbers

Archives write numbers with their least significant byte first, in records of fields of fixed
widths.
-/

namespace ClassLoading.LittleEndian

/-- The number that a byte string denotes, its least significant byte first. -/
def toNat (bytes : List UInt8) : Nat := BigEndian.toNat bytes.reverse

/-- Reads numbers of the given widths. -/
def readNumbers? : List Nat → List UInt8 → Option (List Nat × List UInt8)
  | [], bytes => some ([], bytes)
  | width :: widths, bytes =>
      let written := bytes.take width
      if written.length = width then
        (readNumbers? widths (bytes.drop width)).map fun (numbers, rest) =>
          (toNat written :: numbers, rest)
      else none

end ClassLoading.LittleEndian
