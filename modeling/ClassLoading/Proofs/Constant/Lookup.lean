import ClassLoading.Constant.Link
import ClassLoading.Proofs.Decoder

/-!
# Looking up slots

What the checked lookups of a pool come to, in terms of the content of the slot. None of them is at
fault, for each looks at the kind of a slot before it asks for more.
-/

namespace ClassLoading.ConstantPool

variable {pool : ConstantPool} {index : UInt16} {role : IndexRole} {expected : ConstantKind → Bool}

theorem entryAt_of_some {entry : Entry} (h : pool.get? index = some entry) :
    pool.entryAt index = .ok entry := by
  rw [entryAt, h]

theorem kindAt_of_some {entry : Entry} (h : pool.get? index = some entry) :
    pool.kindAt index = .ok entry.kind := by
  rw [kindAt, entryAt_of_some h]
  rfl

theorem isValid_of_some {entry : Entry} (h : pool.get? index = some entry) :
    pool.isValid index = true := by
  unfold get? at h
  split at h
  · assumption
  · cases h

theorem get?_of_isValid (h : pool.isValid index = true) : ∃ entry, pool.get? index = some entry := by
  unfold get?
  exact ⟨_, dif_pos h⟩

theorem isValid_of_none (h : pool.get? index = none) : pool.isValid index = false := by
  cases hvalid : pool.isValid index with
  | false => rfl
  | true =>
      obtain ⟨entry, hentry⟩ := get?_of_isValid hvalid
      rw [h] at hentry
      cases hentry

theorem requireKind_eq (pool : ConstantPool) (index : UInt16) (role : IndexRole)
    (expected : ConstantKind → Bool) :
    pool.requireKind index role expected =
      if (pool.get? index).any (expected ·.kind) then .ok ()
      else .error (.format (.invalidIndex role index)) := by
  unfold requireKind
  cases h : pool.get? index with
  | none => simp [isValid_of_none h, throw, throwThe, MonadExceptOf.throw]
  | some entry =>
      rw [kindAt_of_some h]
      simp only [isValid_of_some h, Except.mapError_ok, bind, Except.bind, Option.any_some, if_true]
      rfl

theorem requireKind_answers : Answers (pool.requireKind index role expected)
    fun _ => ∃ entry, pool.get? index = some entry ∧ expected entry.kind = true := by
  rw [requireKind_eq]
  apply (Answers.guard _ _).congr
  intro _
  cases pool.get? index <;> simp

theorem utf8At_eq (pool : ConstantPool) (index : UInt16) (role : IndexRole) :
    pool.utf8At index role =
      match pool.get? index with
      | some (.utf8 symbol) => .ok symbol
      | _ => .error (.format (.invalidIndex role index)) := by
  rw [utf8At, requireKind_eq]
  cases h : pool.get? index with
  | none => rfl
  | some entry =>
      rw [symbolAt, pickAt, entryAt_of_some h]
      cases entry with
      | classEntity entity => cases entity <;> rfl
      | member kind owner typing => cases kind <;> rfl
      | _ => rfl

theorem utf8At_answers : Answers (pool.utf8At index role)
    fun symbol => pool.get? index = some (.utf8 symbol) := by
  rw [utf8At_eq]
  split
  · rename_i kept h
    exact (Answers.pure kept).congr fun symbol => by simp [h, eq_comm]
  · rename_i h
    exact (Answers.refuse _).congr fun symbol => ⟨False.elim, h symbol⟩

end ClassLoading.ConstantPool
