/-!
# Cyclic redundancy checks

The 32-bit check that archives keep of each file, computed bit by bit with the reversed polynomial.
-/

namespace ClassLoading.Crc32

/-- The generator polynomial, its highest power in the lowest bit. -/
def polynomial : UInt32 := 0xEDB88320

/-- Divides one bit further. -/
def shift (r : UInt32) : UInt32 := if r &&& 1 = 1 then (r >>> 1) ^^^ polynomial else r >>> 1

def step (r : UInt32) (b : UInt8) : UInt32 :=
  shift <| shift <| shift <| shift <| shift <| shift <| shift <| shift (r ^^^ b.toUInt32)

def ofBytes (bytes : List UInt8) : UInt32 := ~~~(bytes.foldl step 0xFFFFFFFF)

end ClassLoading.Crc32
