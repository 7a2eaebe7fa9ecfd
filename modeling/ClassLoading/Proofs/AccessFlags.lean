import ClassLoading.AccessFlags

/-!
# Flag words

The flag words of classes and fields as class files write them: the bits that are kept of a word, and
the words that are allowed, in numbers. The flags made of a word obey the rules of their owner exactly
if the word is allowed, whatever bits without a meaning it has.
-/

namespace ClassLoading

/-- All the bits of `mask` are set in a word. -/
def Carries (word mask : UInt16) : Prop := word &&& mask = mask

instance (word mask : UInt16) : Decidable (Carries word mask) :=
  inferInstanceAs (Decidable (word &&& mask = mask))

/-- The flag words that a class may have: `0x8000` stands for a module, `0x0200` for an interface. -/
structure AllowedForClass (word : UInt16) : Prop where
  not_module : ¬Carries word 0x8000
  of_interface : Carries word 0x0200 → Carries word 0x0400 ∧ ¬Carries word 0x0010 ∧
    ¬Carries word 0x0020 ∧ ¬Carries word 0x4000
  of_other : ¬Carries word 0x0200 →
    ¬Carries word 0x2000 ∧ ¬(Carries word 0x0010 ∧ Carries word 0x0400)

/-- The flag words that a field of an interface may have: public, static and final, and besides these
only synthetic. -/
structure AllowedInInterface (word : UInt16) : Prop where
  required : Carries word 0x0019
  no_other : word &&& 0x40C6 = 0

/-- The flag words that a field of any other class may have: at most one of public, private and
protected, and not both final and volatile. -/
structure AllowedInClass (word : UInt16) : Prop where
  not_public_private : ¬(Carries word 0x0001 ∧ Carries word 0x0002)
  not_public_protected : ¬(Carries word 0x0001 ∧ Carries word 0x0004)
  not_private_protected : ¬(Carries word 0x0002 ∧ Carries word 0x0004)
  not_final_volatile : ¬(Carries word 0x0010 ∧ Carries word 0x0040)

def AllowedForField (inInterface : Bool) (word : UInt16) : Prop :=
  if inInterface then AllowedInInterface word else AllowedInClass word

variable {word known mask : UInt16}

/-- Bits that are kept are set before and after the others are dropped, or neither. -/
theorem carries_and_iff (hmask : known &&& mask = mask) :
    Carries (word &&& known) mask ↔ Carries word mask := by
  rw [Carries, Carries, UInt16.and_assoc, hmask]

theorem and_beq_eq (hmask : known &&& mask = mask) :
    (word &&& known &&& mask == mask) = decide (Carries word mask) :=
  decide_eq_decide.mpr (carries_and_iff hmask)

namespace ClassFlags

theorem bits_ofBits (word : UInt16) : (ofBits word).bits = word &&& 0xF631 := by
  have hmask : Flag.mask known = 0xF631 := by decide
  rw [ofBits, hmask]

theorem eq_ofBits_iff {flags : ClassFlags} : flags = ofBits word ↔ flags.bits = word &&& 0xF631 := by
  rw [← bits_ofBits, ClassFlags.mk.injEq]

theorem has_ofBits (hmask : 0xF631 &&& mask = mask) :
    (ofBits word).has mask = decide (Carries word mask) := by
  rw [has, bits_ofBits, and_beq_eq hmask]

theorem isInterface_ofBits (word : UInt16) :
    (ofBits word).isInterface = decide (Carries word 0x0200) :=
  has_ofBits (by decide)

/-- The rule for classes, in numbers. -/
theorem isLegal_ofBits_iff : (ofBits word).isLegal = true ↔ AllowedForClass word := by
  simp (disch := decide) only [isLegal, isInterface, has_ofBits, final, super, interface, abstract,
    annotationType, enum, module]
  by_cases hmodule : Carries word 0x8000
  · exact iff_of_false (by simp [hmodule]) fun h => h.not_module hmodule
  · by_cases hinterface : Carries word 0x0200
    · simp only [hmodule, hinterface, decide_false, decide_true, Bool.false_eq_true, if_false, if_true,
        Bool.and_eq_true, Bool.not_eq_true', decide_eq_true_iff, decide_eq_false_iff_not, and_assoc]
      exact ⟨fun h => ⟨hmodule, fun _ => h, fun hother => absurd hinterface hother⟩,
        fun h => h.of_interface hinterface⟩
    · simp only [hmodule, hinterface, decide_false, Bool.false_eq_true, if_false,
        Bool.and_eq_true, Bool.not_eq_true', Bool.and_eq_false_iff, decide_eq_false_iff_not,
        ← Decidable.not_and_iff_not_or_not]
      exact ⟨fun h => ⟨hmodule, fun hinterface' => absurd hinterface' hinterface, fun _ => h⟩,
        fun h => h.of_other hinterface⟩

instance (word : UInt16) : Decidable (AllowedForClass word) :=
  decidable_of_iff ((ofBits word).isLegal = true) isLegal_ofBits_iff

end ClassFlags

namespace FieldFlags

theorem bits_ofBits (word : UInt16) : (ofBits word).bits = word &&& 0x50DF := by
  have hmask : Flag.mask known = 0x50DF := by decide
  rw [ofBits, hmask]

theorem eq_ofBits_iff {flags : FieldFlags} : flags = ofBits word ↔ flags.bits = word &&& 0x50DF := by
  rw [← bits_ofBits, FieldFlags.mk.injEq]

theorem has_ofBits (hmask : 0x50DF &&& mask = mask) :
    (ofBits word).has mask = decide (Carries word mask) := by
  rw [has, bits_ofBits, and_beq_eq hmask]

theorem isStatic_iff {flags : FieldFlags} : flags.isStatic = true ↔ Carries flags.bits 0x0008 :=
  beq_iff_eq

theorem carries_static_ofBits : Carries (ofBits word).bits 0x0008 ↔ Carries word 0x0008 := by
  rw [bits_ofBits]
  exact carries_and_iff (by decide)

theorem isLegalInInterface_ofBits_iff :
    (ofBits word).isLegalInInterface = true ↔ AllowedInInterface word := by
  have hrequired : «public» ||| static ||| final = 0x0019 := by decide
  have hothers : (0x50DF &&& ~~~(0x0019 ||| synthetic) : UInt16) = 0x40C6 := by decide
  rw [isLegalInInterface, hrequired, has_ofBits (by decide), bits_ofBits, UInt16.and_assoc, hothers,
    Bool.and_eq_true, decide_eq_true_iff, beq_iff_eq]
  exact ⟨fun hgiven => ⟨hgiven.1, hgiven.2⟩, fun h => ⟨h.required, h.no_other⟩⟩

theorem isLegalInClass_ofBits_iff : (ofBits word).isLegalInClass = true ↔ AllowedInClass word := by
  have hvisibilities : [«public», «private», «protected»].countP ((ofBits word).has ·) ≤ 1 ↔
      ¬(Carries word 0x0001 ∧ Carries word 0x0002) ∧ ¬(Carries word 0x0001 ∧ Carries word 0x0004) ∧
        ¬(Carries word 0x0002 ∧ Carries word 0x0004) := by
    simp (disch := decide) only [List.countP_cons, List.countP_nil, has_ofBits, «public», «private»,
      «protected», decide_eq_true_iff]
    by_cases hpublic : Carries word 0x0001 <;> by_cases hprivate : Carries word 0x0002 <;>
      by_cases hprotected : Carries word 0x0004 <;> simp [hpublic, hprivate, hprotected]
  simp (disch := decide) only [isLegalInClass, hvisibilities, has_ofBits, final, volatile,
    Bool.and_eq_true, Bool.not_eq_true', decide_eq_true_iff, Bool.and_eq_false_iff,
    decide_eq_false_iff_not, ← Decidable.not_and_iff_not_or_not]
  exact ⟨fun hgiven => ⟨hgiven.1.1, hgiven.1.2.1, hgiven.1.2.2, hgiven.2⟩,
    fun h => ⟨⟨h.not_public_private, h.not_public_protected, h.not_private_protected⟩,
      h.not_final_volatile⟩⟩

/-- The rules for fields, in numbers. -/
theorem isLegal_ofBits_iff {inInterface : Bool} :
    (ofBits word).isLegal inInterface = true ↔ AllowedForField inInterface word := by
  cases inInterface with
  | true => exact isLegalInInterface_ofBits_iff
  | false => exact isLegalInClass_ofBits_iff

instance (inInterface : Bool) (word : UInt16) : Decidable (AllowedForField inInterface word) :=
  decidable_of_iff ((ofBits word).isLegal inInterface = true) isLegal_ofBits_iff

end FieldFlags

end ClassLoading
