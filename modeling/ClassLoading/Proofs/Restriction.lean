import ClassLoading.Constant.Link
import ClassLoading.Proofs.Decoder

/-!
# Stricter options

Of two sets of options, one is at least as strict as the other if it accepts no other versions and
checks all that the other checks. A computation under the stricter options comes to the same as under
the others, or ends with an error that only the stricter ones look for. The statements compose along
the monads.
-/

namespace ClassLoading

theorem Symbol.toList_text (s : Symbol) : s.text.toList = s.chars := String.toList_ofList

namespace Options

/-- `strict` checks all that `lenient` does, and accepts no version that `lenient` does not. -/
structure Restricts (strict lenient : Options) : Prop where
  versions : lenient.enforceVersion = false ∨
    (strict.enforceVersion = true ∧ lenient.enforceVersion = true ∧
      ∀ major, strict.minMajor ≤ major → major ≤ strict.maxMajor →
        lenient.minMajor ≤ major ∧ major ≤ lenient.maxMajor)
  descriptors : lenient.validateDescriptors = true → strict.validateDescriptors = true
  constantValueKinds :
    lenient.validateConstantValueKinds = true → strict.validateConstantValueKinds = true

/-- What `strict` finds wrong where `lenient` does not look. -/
inductive Objects (strict lenient : Options) : FormatError → Prop where
  | version {major minor : UInt16} (hstrict : strict.accepts major = false)
      (hlenient : lenient.accepts major = true) :
      Objects strict lenient (.unsupportedVersion major minor)
  | descriptor {text : String} {index : UInt16} (hstrict : strict.validateDescriptors = true)
      (hlenient : lenient.validateDescriptors = false)
      (htext : (Descriptor.isField text.toList || Descriptor.isMethod text.toList) = false) :
      Objects strict lenient (.malformed (.descriptor text index))
  | methodDescriptor {text : String} {index : UInt16} (hstrict : strict.validateDescriptors = true)
      (hlenient : lenient.validateDescriptors = false)
      (htext : Descriptor.isMethod text.toList = false) :
      Objects strict lenient (.malformed (.methodDescriptor text index))
  | fieldDescriptor {text : String} {index : UInt16} (hstrict : strict.validateDescriptors = true)
      (hlenient : lenient.validateDescriptors = false)
      (htext : Descriptor.isField text.toList = false) :
      Objects strict lenient (.malformed (.fieldDescriptor text index))
  | constantValueKind {kind : ConstantKind} {field text : String} {type : FieldType}
      (hstrict : strict.validateConstantValueKinds = true)
      (hlenient : lenient.validateConstantValueKinds = false)
      (htype : FieldType.ofChars? text.toList = some type) (hkind : type.constantKind? ≠ some kind) :
      Objects strict lenient (.malformed (.constantValueKind kind field text))

end Options

/-- A computation comes to the same as another, or ends with an error that is objected to. -/
def Narrows {α : Type} (objects : FormatError → Prop) (strict lenient : Except Failure α) : Prop :=
  strict = lenient ∨ ∃ error, objects error ∧ strict = .error (.format error)

namespace Narrows

variable {α β : Type} {objects : FormatError → Prop} {strict lenient : Except Failure α}

theorem refl (result : Except Failure α) : Narrows objects result result := Or.inl rfl

theorem objection {error : FormatError} (h : objects error) :
    Narrows objects (.error (.format error)) lenient := Or.inr ⟨error, h, rfl⟩

theorem bind {f g : α → Except Failure β} (h : Narrows objects strict lenient)
    (hnext : ∀ x, Narrows objects (f x) (g x)) : Narrows objects (strict >>= f) (lenient >>= g) := by
  rcases h with rfl | ⟨error, herror, rfl⟩
  · cases strict with
    | error failure => exact refl _
    | ok x => exact hnext x
  · exact objection herror

/-- What comes after a computation that does not depend on the options. -/
theorem after (result : Except Failure α) {f g : α → Except Failure β}
    (hnext : ∀ x, Narrows objects (f x) (g x)) : Narrows objects (result >>= f) (result >>= g) :=
  (refl result).bind hnext

/-- A check that is made only under some options. -/
theorem check {made made' valid : Bool} {error : FormatError} (hmade : made' = true → made = true)
    (hobjects : made = true → made' = false → valid = false → objects error) :
    Narrows objects (do if made then unless valid do Except.error (.format error))
      (do if made' then unless valid do Except.error (.format error)) := by
  cases made' with
  | true =>
      rw [hmade rfl]
      exact refl _
  | false =>
      cases made with
      | false => exact refl _
      | true =>
          cases valid with
          | true => exact refl _
          | false => exact objection (hobjects rfl rfl rfl)

end Narrows

namespace Decoder

variable {α β σ : Type} {objects : FormatError → Prop}

/-- From every cursor on, a decoder comes to the same as another, or ends with an objection. -/
def Stricter (objects : FormatError → Prop) (strict lenient : Decoder α) : Prop :=
  ∀ c, Narrows objects (strict c) (lenient c)

namespace Stricter

variable {strict lenient : Decoder α} {f g : α → Decoder β}

theorem refl (d : Decoder α) : Stricter objects d d := fun _ => .refl _

/-- What follows may count on what is known of the value that was read. -/
theorem bind_of {P : α → Prop} (h : Stricter objects strict lenient)
    (hread : ∀ {c x c'}, lenient c = .ok (x, c') → P x)
    (hnext : ∀ x, P x → Stricter objects (f x) (g x)) :
    Stricter objects (strict >>= f) (lenient >>= g) := by
  intro c
  rcases h c with heq | ⟨error, herror, hstrict⟩
  · cases hlenient : lenient c with
    | error failure =>
        rw [bind_of_error (heq.trans hlenient), bind_of_error hlenient]
        exact .refl _
    | ok result =>
        rw [bind_of_ok (heq.trans hlenient), bind_of_ok hlenient]
        exact hnext result.1 (hread hlenient) result.2
  · rw [bind_of_error hstrict]
    exact .objection herror

theorem bind (h : Stricter objects strict lenient) (hnext : ∀ x, Stricter objects (f x) (g x)) :
    Stricter objects (strict >>= f) (lenient >>= g) :=
  h.bind_of (fun _ => trivial) fun x _ => hnext x

theorem after (d : Decoder α) (hnext : ∀ x, Stricter objects (f x) (g x)) :
    Stricter objects (d >>= f) (d >>= g) :=
  (refl d).bind hnext

theorem ofExcept {result result' : Except Failure α} (h : Narrows objects result result') :
    Stricter objects (Decoder.ofExcept result) (Decoder.ofExcept result') := by
  intro c
  rcases h with rfl | ⟨error, herror, rfl⟩
  · exact .refl _
  · exact .objection herror

theorem require {holds holds' : Bool} {error : FormatError} (hholds : holds = true → holds' = true)
    (hobjects : holds = false → holds' = true → objects error) :
    Stricter objects (Decoder.require holds error) (Decoder.require holds' error) := by
  cases holds with
  | true =>
      rw [hholds rfl]
      exact refl _
  | false =>
      cases holds' with
      | false => exact refl _
      | true => exact fun c => .objection (hobjects rfl rfl)

/-- A check of what was read that is made only under some options. -/
theorem check {made made' valid : Bool} {error : FormatError} (hmade : made' = true → made = true)
    (hobjects : made = true → made' = false → valid = false → objects error) :
    Stricter objects (Decoder.require (!made || valid) error)
      (Decoder.require (!made' || valid) error) := by
  cases made' with
  | true =>
      rw [hmade rfl]
      exact refl _
  | false =>
      cases made with
      | false => exact refl _
      | true => exact require (fun _ => rfl) fun hvalid _ => hobjects rfl rfl hvalid

theorem lookup {result : Except Failure α}
    (hnext : ∀ x, result = .ok x → Stricter objects (f x) (g x)) :
    Stricter objects (Decoder.ofExcept result >>= f) (Decoder.ofExcept result >>= g) := by
  cases result with
  | error failure => exact refl _
  | ok x => exact hnext x rfl

theorem framed {length : Nat} {error : Nat → FormatError} (h : Stricter objects strict lenient) :
    Stricter objects (Decoder.framed length error strict) (Decoder.framed length error lenient) :=
  after position fun _ => h.bind fun _ => refl _

theorem replicate (count : Nat) (h : Stricter objects strict lenient) :
    Stricter objects (Decoder.replicate count strict) (Decoder.replicate count lenient) := by
  induction count with
  | zero => exact refl _
  | succ count ih =>
      rw [replicate_succ, replicate_succ]
      exact h.bind fun _ => ih.bind fun _ => refl _

theorem iterate {step step' : σ → Decoder σ} (hstep : ∀ s, Stricter objects (step s) (step' s))
    (count : Nat) (s : σ) :
    Stricter objects (Decoder.iterate step count s) (Decoder.iterate step' count s) := by
  induction count generalizing s with
  | zero => exact fun c => .refl _
  | succ count ih =>
      rw [iterate_succ, iterate_succ]
      exact (hstep s).bind ih

end Stricter

end Decoder

end ClassLoading
