import ClassLoading.Proofs.Constant.Lookup
import ClassLoading.Proofs.Constant.Placement
import ClassLoading.Proofs.Descriptor.Shape

/-!
# References between constants

What the constants of a pool have to refer to, stated on the list of constants alone, and the
content of a pool whose first slots are linked and whose other slots are not. As far as a reference
can tell, a slot holds the same whether it is linked or not.
-/

namespace ClassLoading

/-- The kinds of constants that a method handle of a given number may refer to. -/
def handleTargets (major : UInt16) (number : UInt8) : List ConstantKind :=
  if number ∈ [1, 2, 3, 4] then [.fieldRef]
  else if number ∈ [5, 8] then [.methodRef]
  else if number ∈ [6, 7] then
    if 52 ≤ major then [.methodRef, .interfaceMethodRef] else [.methodRef]
  else if number = 9 then [.interfaceMethodRef]
  else []

theorem isReference_of_mem_handleTargets {major : UInt16} {number : UInt8} {target : ConstantKind}
    (h : target ∈ handleTargets major number) : target.isReference = true := by
  unfold handleTargets at h
  repeat' split at h
  all_goals
    revert h
    cases target <;> decide

theorem permits_iff_mem_handleTargets {major : UInt16} {number : UInt8} {target : ConstantKind} :
    (∃ kind, HandleKind.ofNumber? number = some kind ∧ kind.permits major target = true) ↔
      target ∈ handleTargets major number := by
  have hnumber : (number = 0 ∨ 9 < number.toNat) ∨ number ∈ [1, 2, 3, 4] ∨ number ∈ [5, 8] ∨
      number ∈ [6, 7] ∨ number = 9 := by
    simp only [List.mem_cons, List.not_mem_nil, or_false, ← UInt8.toNat_inj, UInt8.reduceToNat]
    omega
  rcases hnumber with (rfl | hlarge) | hfield | hmethod | hinterface | rfl
  · simp [HandleKind.ofNumber?, handleTargets]
  · have hnone : HandleKind.ofNumber? number = none := by
      have hne : number ≠ 0 := by
        intro heq
        subst heq
        simp at hlarge
      rw [HandleKind.ofNumber?, if_neg hne, List.getElem?_eq_none_iff]
      simp only [HandleKind.all, List.length_cons, List.length_nil]
      omega
    have htargets : handleTargets major number = [] := by
      unfold handleTargets
      simp only [List.mem_cons, List.not_mem_nil, or_false, ← UInt8.toNat_inj, UInt8.reduceToNat]
      rw [if_neg (by omega), if_neg (by omega), if_neg (by omega), if_neg (by omega)]
    simp [hnone, htargets]
  · simp only [List.mem_cons, List.not_mem_nil, or_false] at hfield
    rcases hfield with rfl | rfl | rfl | rfl <;>
      simp [HandleKind.ofNumber?, HandleKind.all, HandleKind.permits, handleTargets]
  · simp only [List.mem_cons, List.not_mem_nil, or_false] at hmethod
    rcases hmethod with rfl | rfl <;>
      simp [HandleKind.ofNumber?, HandleKind.all, HandleKind.permits, handleTargets]
  · simp only [List.mem_cons, List.not_mem_nil, or_false] at hinterface
    rcases hinterface with rfl | rfl <;> by_cases hmajor : (52 : UInt16) ≤ major <;>
      simp [HandleKind.ofNumber?, HandleKind.all, HandleKind.permits, handleTargets,
        HandleKind.interfaceTargetsSince, hmajor]
  · simp [HandleKind.ofNumber?, HandleKind.all, HandleKind.permits, handleTargets]

namespace RawConstant

def inSlot? (constants : List RawConstant) (index : UInt16) : Option RawConstant :=
  at? constants 1 index.toNat

def HasKind (constants : List RawConstant) (index : UInt16) (kind : ConstantKind) : Prop :=
  ∃ constant, inSlot? constants index = some constant ∧ constant.kind = kind

def HasText (constants : List RawConstant) (index : UInt16) (text : List UInt8) : Prop :=
  inSlot? constants index = some (.utf8 text)

/-- What a constant refers to is there and is of the right kind, and descriptors are well formed if
that is asked for. -/
def Refers (settings : Link.Settings) (constants : List RawConstant) : RawConstant → Prop
  | utf8 _ | integer _ | float _ | long _ | double _ => True
  | classRef name => ∃ text, HasText constants name text
  | string index => ∃ text, HasText constants index text
  | member _ owner typing => HasKind constants owner .classRef ∧ HasKind constants typing .nameAndType
  | nameAndType name descriptor =>
      (∃ text, HasText constants name text) ∧ ∃ text, HasText constants descriptor text ∧
        (settings.options.validateDescriptors = true →
          Descriptor.IsFieldBytes text ∨ Descriptor.IsMethodBytes text)
  | methodHandle number reference =>
      ∃ target ∈ handleTargets settings.major number, HasKind constants reference target
  | methodType descriptor => ∃ text, HasText constants descriptor text ∧
      (settings.options.validateDescriptors = true → Descriptor.IsMethodBytes text)
  | invokeDynamic _ typing => HasKind constants typing .nameAndType

/-- The text in a slot, empty if there is none. -/
def textIn (constants : List RawConstant) (index : UInt16) : List UInt8 :=
  match inSlot? constants index with
  | some (utf8 text) => text
  | _ => []

/-- What linking writes in the place of a constant. -/
def rewritten (constants : List RawConstant) (symbol : List UInt8 → Symbol) :
    RawConstant → Option Entry
  | classRef name => some (.classEntity (.unresolved (symbol (textIn constants name))))
  | string text => some (.string (symbol (textIn constants text)))
  | _ => none

/-- The entry of a constant after it is linked. -/
def linked (constants : List RawConstant) (symbol : List UInt8 → Symbol) (constant : RawConstant) :
    Entry :=
  (constant.rewritten constants symbol).getD (constant.unlinked symbol)

/-- An entry that a constant has before or after it is linked. -/
def Form (constants : List RawConstant) (symbol : List UInt8 → Symbol) (constant : RawConstant)
    (entry : Entry) : Prop :=
  entry = constant.unlinked symbol ∨ entry = constant.linked constants symbol

/-- The content of slot `i` when the constants below slot `n` are linked. -/
def content (constants : List RawConstant) (symbol : List UInt8 → Symbol) (n i : Nat) : Entry :=
  match at? constants 1 i with
  | some constant => if i < n then constant.linked constants symbol else constant.unlinked symbol
  | none => .vacant

variable {constants : List RawConstant} {symbol : List UInt8 → Symbol} {constant : RawConstant}
  {entry : Entry} {index : UInt16} {text : List UInt8} {n i : Nat}

theorem textIn_of_hasText (h : HasText constants index text) : textIn constants index = text := by
  rw [HasText] at h
  rw [textIn, h]

theorem form_content (h : at? constants 1 i = some constant) :
    constant.Form constants symbol (content constants symbol n i) := by
  rw [content, h]
  dsimp only
  split
  · exact Or.inr rfl
  · exact Or.inl rfl

/-- Behind a constant that was linked, one more constant is linked. -/
theorem content_of_at? (h : at? constants 1 n = some constant) (symbol : List UInt8 → Symbol)
    (i : Nat) :
    content constants symbol (n + constant.width.toNat) i =
      if i = n then constant.linked constants symbol else content constants symbol n i := by
  have hwidth := constant.width_pos
  by_cases hi : i = n
  · rw [if_pos hi, hi, content, h]
    exact if_pos (by omega)
  · rw [if_neg hi, content, content]
    cases hother : at? constants 1 i with
    | none => rfl
    | some other =>
        have hbetween : ¬(n < i ∧ i < n + constant.width.toNat) := by
          intro hgiven
          obtain ⟨hlo, hhi⟩ := hgiven
          obtain ⟨before, after, rfl, rfl⟩ := at?_eq_some_iff.mp h
          rw [at?_of_inside hlo hhi] at hother
          cases hother
        have hsame : i < n + constant.width.toNat ↔ i < n := by omega
        simp only [hsame]

/-- Linking changes the kind of classes and strings only. -/
theorem Form.kind_eq (h : constant.Form constants symbol entry) :
    entry.kind = constant.kind ∨
      constant.kind = .classRef ∧ entry.kind.isClassOrIndex = true ∨
      constant.kind = .string ∧ entry.kind ∈ [.string, .stringIndex] := by
  cases constant <;> rcases h with rfl | rfl <;>
    simp [kind, unlinked, linked, rewritten, Entry.kind, ClassEntity.kind, ConstantKind.isClassOrIndex]

theorem Form.width_eq (h : constant.Form constants symbol entry) : entry.kind.width = constant.width := by
  cases constant <;> rcases h with rfl | rfl <;> rfl

theorem Form.utf8_iff (h : constant.Form constants symbol entry) {s : Symbol} :
    entry = .utf8 s ↔ ∃ text, constant = .utf8 text ∧ s = symbol text := by
  cases constant <;> rcases h with rfl | rfl <;>
    simp [unlinked, linked, rewritten, eq_comm]

theorem Form.isClassOrIndex_iff (h : constant.Form constants symbol entry) :
    entry.kind.isClassOrIndex = true ↔ constant.kind = .classRef := by
  cases constant <;> rcases h with rfl | rfl <;>
    simp [kind, unlinked, linked, rewritten, Entry.kind, ClassEntity.kind,
      ConstantKind.isClassOrIndex]
  all_goals
    rename_i member _ _
    cases member <;> simp [MemberKind.constantKind]

/-- A kind that linking neither removes nor brings about. -/
theorem Form.kind_iff (h : constant.Form constants symbol entry) {kind : ConstantKind}
    (hkind : kind.isReference = true ∨ kind = .nameAndType) :
    entry.kind = kind ↔ constant.kind = kind := by
  have hother : kind.isClassOrIndex = false ∧ kind ∉ [.string, .stringIndex] := by
    revert hkind
    cases kind <;> decide
  rcases h.kind_eq with heq | ⟨hconstant, hentry⟩ | ⟨hconstant, hentry⟩
  · rw [heq]
  · have hne : entry.kind ≠ kind := by
      intro heq'
      subst heq'
      simp [hother.1] at hentry
    have hne' : constant.kind ≠ kind := by
      intro heq'
      subst heq'
      simp [hconstant, ConstantKind.isClassOrIndex] at hother
    exact iff_of_false hne hne'
  · have hne : entry.kind ≠ kind := by
      intro heq'
      subst heq'
      exact hother.2 hentry
    have hne' : constant.kind ≠ kind := by
      intro heq'
      subst heq'
      simp [hconstant] at hother
    exact iff_of_false hne hne'

end RawConstant

end ClassLoading
