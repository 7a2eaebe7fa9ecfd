import ClassLoading.Proofs.Restriction

/-!
# Linking under stricter options

Under stricter options a pool is linked in the same way, unless a descriptor is found not to follow its
grammar.
-/

namespace ClassLoading.Link

variable {strict lenient : Options}

theorem checkNameAndType_narrows (h : strict.Restricts lenient) (major : UInt16) (pool : ConstantPool)
    (name descriptor : UInt16) : Narrows (strict.Objects lenient)
      (checkNameAndType ⟨major, strict⟩ pool name descriptor)
      (checkNameAndType ⟨major, lenient⟩ pool name descriptor) :=
  .after _ fun _ => .after _ fun _ => .check h.descriptors fun hstrict hlenient hvalid =>
    .descriptor hstrict hlenient (by rwa [Symbol.toList_text])

theorem checkMethodType_narrows (h : strict.Restricts lenient) (major : UInt16) (pool : ConstantPool)
    (descriptor : UInt16) : Narrows (strict.Objects lenient)
      (checkMethodType ⟨major, strict⟩ pool descriptor)
      (checkMethodType ⟨major, lenient⟩ pool descriptor) :=
  .after _ fun _ => .check h.descriptors fun hstrict hlenient hvalid =>
    .methodDescriptor hstrict hlenient (by rwa [Symbol.toList_text])

theorem checkEntry_narrows (h : strict.Restricts lenient) (major : UInt16) (pool : ConstantPool)
    (index : UInt16) (kind : ConstantKind) : Narrows (strict.Objects lenient)
      (checkEntry ⟨major, strict⟩ pool index kind) (checkEntry ⟨major, lenient⟩ pool index kind) := by
  cases kind with
  | nameAndType =>
      exact .after _ fun _ => (checkNameAndType_narrows h major pool _ _).bind fun _ => .refl _
  | methodType =>
      exact .after _ fun _ => (checkMethodType_narrows h major pool _).bind fun _ => .refl _
  | _ => exact .refl _

theorem linkSlot_narrows (h : strict.Restricts lenient) (major : UInt16) (pool : ConstantPool)
    (index : UInt16) (kind : ConstantKind) : Narrows (strict.Objects lenient)
      (linkSlot ⟨major, strict⟩ pool index kind) (linkSlot ⟨major, lenient⟩ pool index kind) :=
  (checkEntry_narrows h major pool index kind).bind fun _ => .refl _

theorem linkFrom_narrows (h : strict.Restricts lenient) (major : UInt16) (pool : ConstantPool)
    (index : UInt16) : Narrows (strict.Objects lenient)
      (linkFrom ⟨major, strict⟩ pool index) (linkFrom ⟨major, lenient⟩ pool index) := by
  induction index using slotAfter_induction generalizing pool with
  | slot index ih =>
      by_cases hlt : index < pool.size
      · rw [linkFrom_of_lt _ hlt, linkFrom_of_lt _ hlt]
        refine .after _ fun kind => (linkSlot_narrows h major pool index kind).bind fun pool' => ?_
        -- Both sides go on at the same slot, with the pool that they have linked so far.
        cases hnext : slotAfter index kind.width with
        | error fault => exact .refl _
        | ok next => exact ih kind next hnext pool'
      · rw [linkFrom_of_le _ hlt, linkFrom_of_le _ hlt]
        exact .refl _

end ClassLoading.Link
