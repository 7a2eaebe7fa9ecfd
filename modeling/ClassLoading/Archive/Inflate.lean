/-!
# Inflation

Decompression of deflated data: a sequence of blocks, stored or coded with Huffman codes, in which a
copy repeats a stretch of the output. The data is read bit by bit, so that it is decided by what
comes first whether it is corrupt or cut short. What follows the last block does not matter.
-/

namespace ClassLoading.Inflate

/-- The bits of a byte string, the lowest bit of each byte first. -/
def bitsOf (bytes : List UInt8) : List Bool :=
  bytes.flatMap fun b => (List.range 8).map fun i => b.toNat.testBit i

/-- Why a decoding step yields nothing. -/
inductive Stop where
  | cutShort
  | corrupt
deriving DecidableEq, Repr

/-- A step that takes bits off the front of the input. -/
abbrev Take (α : Type) := StateT (List Bool) (Except Stop) α

def bit : Take Bool := fun bits =>
  match bits with
  | [] => .error .cutShort
  | b :: rest => .ok (b, rest)

/-- A number of so many bits, the lowest first. -/
def number : Nat → Take Nat
  | 0 => return 0
  | n + 1 => do
      let low ← bit
      return low.toNat + 2 * (← number n)

/-- A Huffman code in canonical order: how many code words there are of each length from one up to
the greatest one, and the symbols by length and value. -/
structure Code where
  counts : List Nat
  symbols : Array Nat

namespace Code

def maxLength : Nat := 15

/-- The code in which each symbol has the given length; length zero means that it does not occur. -/
def ofLengths (lengths : List Nat) : Code :=
  let longest := lengths.foldl max 0
  let range := (List.range longest).map (· + 1)
  let counts := range.map fun n => lengths.count n
  let symbols := range.flatMap fun n =>
    lengths.zipIdx.filterMap fun (length, symbol) => if length = n then some symbol else none
  ⟨counts, symbols.toArray⟩

/-- How many words of the greatest possible length the code words account for. -/
def filled (code : Code) : Nat :=
  code.counts.zipIdx.foldl (fun total (count, n) => total + count <<< (maxLength - (n + 1))) 0

def isEmpty (code : Code) : Bool := code.counts.isEmpty

/-- Every sequence of bits starts with a code word, and no two code words collide. -/
def isComplete (code : Code) : Bool := code.filled = 1 <<< maxLength

/-- The code has a single word, which is one bit long. -/
def isSingle (code : Code) : Bool := code.counts = [1]

/-- Reads on in a code word: `word` is its value so far, `first` the first word of the length so
far, and `index` the place of that word's symbol. -/
def readFrom (symbols : Array Nat) : List Nat → Nat → Nat → Nat → Take Nat
  | [], _, _, _ => throw .corrupt
  | count :: counts, word, first, index => do
      let word := 2 * word + (← bit).toNat
      let first := 2 * first
      if word < first + count then
        match symbols[index + (word - first)]? with
        | some symbol => return symbol
        | none => throw .corrupt
      else readFrom symbols counts word (first + count) (index + count)

/-- The symbol of the next code word. Without code words, the next bit is wrong whatever it is. -/
def read (code : Code) : Take Nat := do
  if code.isEmpty then discard bit
  readFrom code.symbols code.counts 0 0 0

end Code

/-- The code of literals and lengths, and that of distances. -/
structure Codes where
  literals : Code
  distances : Code

/-- The codes that every decoder knows. -/
def fixedCodes : Codes :=
  let literals := List.replicate 144 8 ++ List.replicate 112 9 ++ List.replicate 24 7 ++
    List.replicate 8 8
  ⟨Code.ofLengths literals, Code.ofLengths (List.replicate 32 5)⟩

/-- The order in which the lengths of the code for code lengths are written. -/
def lengthOrder : List Nat := [16, 17, 18, 0, 8, 7, 9, 6, 10, 5, 11, 4, 12, 3, 13, 2, 14, 1, 15]

/-- Reads code lengths until there are `total`; symbols from sixteen on repeat a length. Each symbol
adds a length at least, so that `total` and one is enough fuel. -/
def readLengths (code : Code) (total : Nat) : Nat → Array Nat → Take (Array Nat)
  | 0, _ => throw .corrupt
  | fuel + 1, done => do
      if done.size = total then return done
      if total < done.size then throw .corrupt
      let symbol ← code.read
      if symbol < 16 then readLengths code total fuel (done.push symbol)
      else if symbol = 16 then
        let count := 3 + (← number 2)
        match done.back? with
        | none => throw .corrupt
        | some last => readLengths code total fuel (done ++ Array.replicate count last)
      else if symbol = 17 then
        let count := 3 + (← number 3)
        readLengths code total fuel (done ++ Array.replicate count 0)
      else
        let count := 11 + (← number 7)
        readLengths code total fuel (done ++ Array.replicate count 0)

def maxLiterals : Nat := 286

def maxDistances : Nat := 30

def endSymbol : Nat := 256

/-- Goes on only if a condition of the format holds. -/
def require (condition : Bool) : Take Unit := unless condition do throw .corrupt

/-- The lengths written in the code `code`. In a code without words each bit stands for a length of
zero. -/
def readAllLengths (code : Code) (total : Nat) : Take (List Nat) := do
  if code.isEmpty then
    discard (number total)
    return List.replicate total 0
  require code.isComplete
  return (← readLengths code total (total + 1) #[]).toList

/-- The codes that a block brings along. The end of the block must have a code word; a code may have
gaps only if its single word is one bit long, and there need be no distances. -/
def readCodes : Take Codes := do
  let literalCount := 257 + (← number 5)
  let distanceCount := 1 + (← number 5)
  let lengthCount := 4 + (← number 4)
  require (decide (literalCount ≤ maxLiterals ∧ distanceCount ≤ maxDistances))
  let written ← (lengthOrder.take lengthCount).mapM fun symbol => do
    return (symbol, ← number 3)
  let lengths := (List.range 19).map fun symbol => (written.lookup symbol).getD 0
  let all ← readAllLengths (Code.ofLengths lengths) (literalCount + distanceCount)
  require (all.getD endSymbol 0 != 0)
  let literals := Code.ofLengths (all.take literalCount)
  require (literals.isComplete || literals.isSingle)
  let distances := Code.ofLengths (all.drop literalCount)
  require (distances.isComplete || distances.isSingle || distances.isEmpty)
  return ⟨literals, distances⟩

/-- The least value and the number of further bits of each length symbol from 257 on. -/
def lengthBases : List (Nat × Nat) :=
  [(3, 0), (4, 0), (5, 0), (6, 0), (7, 0), (8, 0), (9, 0), (10, 0), (11, 1), (13, 1), (15, 1),
    (17, 1), (19, 2), (23, 2), (27, 2), (31, 2), (35, 3), (43, 3), (51, 3), (59, 3), (67, 4),
    (83, 4), (99, 4), (115, 4), (131, 5), (163, 5), (195, 5), (227, 5), (258, 0)]

/-- The least value and the number of further bits of each distance symbol. -/
def distanceBases : List (Nat × Nat) :=
  [(1, 0), (2, 0), (3, 0), (4, 0), (5, 1), (7, 1), (9, 2), (13, 2), (17, 3), (25, 3), (33, 4),
    (49, 4), (65, 5), (97, 5), (129, 6), (193, 6), (257, 7), (385, 7), (513, 8), (769, 8),
    (1025, 9), (1537, 9), (2049, 10), (3073, 10), (4097, 11), (6145, 11), (8193, 12), (12289, 12),
    (16385, 13), (24577, 13)]

/-- The value of a symbol with its further bits. -/
def extended (bases : List (Nat × Nat)) (symbol : Nat) : Take Nat :=
  match bases[symbol]? with
  | some (base, further) => return base + (← number further)
  | none => throw .corrupt

/-- Repeats, byte by byte, what was written `distance` bytes before. -/
def copy (distance : Nat) : Nat → Array UInt8 → Array UInt8
  | 0, out => out
  | n + 1, out => copy distance n (out.push (out.getD (out.size - distance) 0))

/-- What a symbol of a coded block stands for. -/
inductive Token where
  | literal (byte : UInt8)
  | copy (distance length : Nat)
  | blockEnd
deriving DecidableEq, Repr

def token (codes : Codes) : Take Token := do
  let symbol ← codes.literals.read
  if symbol < 256 then return .literal (UInt8.ofNat symbol)
  if symbol = endSymbol then return .blockEnd
  let length ← extended lengthBases (symbol - 257)
  let distance ← extended distanceBases (← codes.distances.read)
  return .copy distance length

/-- The output so far, and the input after it or the reason why decoding stopped there. -/
structure Output where
  bytes : Array UInt8
  rest : Except Stop (List Bool)

/-- Decodes a coded block. Each token takes a bit at least, so that as much fuel as there are bits
is enough. -/
def codedBlock (codes : Codes) : Nat → Array UInt8 → List Bool → Output
  | 0, out, _ => ⟨out, .error .cutShort⟩
  | fuel + 1, out, bits =>
      match token codes bits with
      | .error stop => ⟨out, .error stop⟩
      | .ok (.blockEnd, rest) => ⟨out, .ok rest⟩
      | .ok (.literal b, rest) => codedBlock codes fuel (out.push b) rest
      | .ok (.copy distance length, rest) =>
          if distance ≤ out.size then codedBlock codes fuel (copy distance length out) rest
          else ⟨out, .error .corrupt⟩

def storedBytes : Nat → Array UInt8 → List Bool → Output
  | 0, out, bits => ⟨out, .ok bits⟩
  | n + 1, out, bits =>
      match number 8 bits with
      | .error stop => ⟨out, .error stop⟩
      | .ok (b, rest) => storedBytes n (out.push (UInt8.ofNat b)) rest

/-- The length of a stored block, which starts at a byte boundary and is written twice. -/
def storedLength : Take Nat := do
  let bits ← get
  set (bits.drop (bits.length % 8))
  let length ← number 16
  let complement ← number 16
  if length + complement = 0xFFFF then return length
  throw .corrupt

def block (kind : Nat) (out : Array UInt8) (bits : List Bool) : Output :=
  if kind = 0 then
    match storedLength bits with
    | .error stop => ⟨out, .error stop⟩
    | .ok (length, rest) => storedBytes length out rest
  else
    let codes : Take Codes :=
      if kind = 1 then return fixedCodes
      else if kind = 2 then readCodes
      else throw .corrupt
    match codes bits with
    | .error stop => ⟨out, .error stop⟩
    | .ok (codes, rest) => codedBlock codes (rest.length + 1) out rest

/-- The heading of a block: whether it is the last one, and its kind. -/
def heading : Take (Bool × Nat) := do
  return (← bit, ← number 2)

/-- Decodes blocks up to the last one. -/
def blocks : Nat → Array UInt8 → List Bool → Output
  | 0, out, _ => ⟨out, .error .cutShort⟩
  | fuel + 1, out, bits =>
      match heading bits with
      | .error stop => ⟨out, .error stop⟩
      | .ok ((last, kind), rest) =>
          match block kind out rest with
          | ⟨out, .error stop⟩ => ⟨out, .error stop⟩
          | ⟨out, .ok rest⟩ => if last then ⟨out, .ok rest⟩ else blocks fuel out rest

/-- The data behind its deflated form. -/
def inflate (bytes : List UInt8) : Except Stop (List UInt8) :=
  let bits := bitsOf bytes
  match blocks (bits.length + 1) #[] bits with
  | ⟨_, .error stop⟩ => .error stop
  | ⟨out, .ok _⟩ => .ok out.toList

end ClassLoading.Inflate
