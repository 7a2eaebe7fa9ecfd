import ClassLoading.Constant.Kind

/-!
# Descriptors

A descriptor spells the type of a field, or the parameter and result types of a method. Array
layers come first, one bracket each, then a primitive letter or a class name between `L` and `;`.
-/

namespace ClassLoading

inductive FieldType where
  | byte
  | char
  | double
  | float
  | int
  | long
  | object (className : String)
  | short
  | boolean
  | array (element : FieldType)
deriving DecidableEq, Repr

/-- The parameter types and the result type of a method; no result type means `void`. -/
structure MethodType where
  parameters : List FieldType
  result : Option FieldType
deriving DecidableEq, Repr

namespace FieldType

def maxLayers : Nat := 255

/-- A type inside a number of array layers. -/
def layered : Nat → FieldType → FieldType
  | 0, t => t
  | n + 1, t => .array (layered n t)

def layers : FieldType → Nat
  | .array t => t.layers + 1
  | _ => 0

def innermost : FieldType → FieldType
  | .array t => t.innermost
  | t => t

/-- A value of the type takes two slots. -/
def isWide : FieldType → Bool
  | long | double => true
  | _ => false

/-- The kind of constant that may initialise a field of this type. -/
def constantKind? : FieldType → Option ConstantKind
  | byte | char | short | int | boolean => some .integer
  | float => some .float
  | long => some .long
  | double => some .double
  | object className => if className = "java/lang/String" then some .string else none
  | array _ => none

def ofLetter? : Char → Option FieldType
  | 'B' => some .byte
  | 'C' => some .char
  | 'D' => some .double
  | 'F' => some .float
  | 'I' => some .int
  | 'J' => some .long
  | 'S' => some .short
  | 'Z' => some .boolean
  | _ => none

/-- Characters that end a class name. -/
def endsName (c : Char) : Bool := c = ';' || c = '.' || c = '['

/-- No part between slashes is empty. -/
def hasNoEmptyPart (name : List Char) : Bool := (name.splitOn '/').all (!·.isEmpty)

/-- Reads a class name and its `;` at the front of a text. -/
def readName? (text : List Char) : Option (FieldType × List Char) :=
  let name := text.takeWhile (!endsName ·)
  match text.dropWhile (!endsName ·) with
  | ';' :: rest => if hasNoEmptyPart name then some (.object (String.ofList name), rest) else none
  | _ => none

/-- Reads a type without array layers at the front of a text. -/
def readElement? : List Char → Option (FieldType × List Char)
  | [] => none
  | 'L' :: rest => readName? rest
  | c :: rest => (ofLetter? c).map fun t => (t, rest)

/-- Reads a type at the front of a text. -/
def read? (text : List Char) : Option (FieldType × List Char) :=
  let depth := (text.takeWhile (· = '[')).length
  if depth ≤ maxLayers then
    (readElement? (text.drop depth)).map fun (t, rest) => (layered depth t, rest)
  else none

def ofChars? (text : List Char) : Option FieldType :=
  match read? text with
  | some (t, []) => some t
  | _ => none

def render : FieldType → List Char
  | byte => ['B']
  | char => ['C']
  | double => ['D']
  | float => ['F']
  | int => ['I']
  | long => ['J']
  | object className => 'L' :: className.toList ++ [';']
  | short => ['S']
  | boolean => ['Z']
  | array t => '[' :: t.render

theorem length_readName? {text rest : List Char} {t : FieldType}
    (h : readName? text = some (t, rest)) : rest.length < text.length := by
  have hsplit : (text.takeWhile (!endsName ·) ++ text.dropWhile (!endsName ·)).length =
      text.length := by rw [List.takeWhile_append_dropWhile]
  simp only [readName?] at h
  split at h
  · rename_i rest' heq
    split at h
    · simp only [Option.some.injEq, Prod.mk.injEq] at h
      rw [heq, List.length_append, List.length_cons, h.2] at hsplit
      omega
    · simp at h
  · simp at h

theorem length_readElement? {text rest : List Char} {t : FieldType}
    (h : readElement? text = some (t, rest)) : rest.length < text.length := by
  unfold readElement? at h
  split at h
  · simp at h
  · have := length_readName? h
    simp only [List.length_cons]
    omega
  · simp only [Option.map_eq_some_iff, Prod.mk.injEq] at h
    obtain ⟨_, _, _, rfl⟩ := h
    simp

theorem length_read? {text rest : List Char} {t : FieldType}
    (h : read? text = some (t, rest)) : rest.length < text.length := by
  simp only [read?] at h
  split at h
  · simp only [Option.map_eq_some_iff] at h
    obtain ⟨⟨t', rest'⟩, hread, heq⟩ := h
    have hlt := length_readElement? hread
    simp only [Prod.mk.injEq] at heq
    rw [List.length_drop] at hlt
    rw [← heq.2]
    omega
  · simp at h

end FieldType

/-- Reads the result type of a method at the front of a text; `V` stands for none. -/
def readResult? (text : List Char) : Option (Option FieldType × List Char) :=
  match FieldType.read? text with
  | some (t, rest) => some (some t, rest)
  | none =>
      match text with
      | 'V' :: rest => some (none, rest)
      | _ => none

namespace MethodType

/-- Reads as many types as there are at the front of a text; `done` holds those read so far, the
latest first. -/
def readParameters (done : List FieldType) (text : List Char) : List FieldType × List Char :=
  match h : FieldType.read? text with
  | none => (done.reverse, text)
  | some (t, rest) =>
      have := FieldType.length_read? h
      readParameters (t :: done) rest
termination_by text.length

theorem readParameters_eq (done : List FieldType) (text : List Char) :
    readParameters done text =
      (done.reverse ++ (readParameters [] text).1, (readParameters [] text).2) := by
  rw [readParameters, readParameters.eq_def []]
  split
  · simp
  · rename_i t rest h
    have := FieldType.length_read? h
    rw [readParameters_eq (t :: done) rest, readParameters_eq [t] rest]
    simp
termination_by text.length

def ofChars? : List Char → Option MethodType
  | '(' :: text =>
      match readParameters [] text with
      | (parameters, ')' :: rest) =>
          match readResult? rest with
          | some (result, []) => some ⟨parameters, result⟩
          | _ => none
      | _ => none
  | _ => none

def renderResult : Option FieldType → List Char
  | none => ['V']
  | some t => t.render

def render (m : MethodType) : List Char :=
  '(' :: m.parameters.flatMap FieldType.render ++ ')' :: renderResult m.result

end MethodType

end ClassLoading
