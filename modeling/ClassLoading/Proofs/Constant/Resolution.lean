import ClassLoading.Proofs.Constant.Linking

/-!
# Resolving class slots

Resolving a class slot changes what the slot refers to, and nothing else: every other slot keeps its
content, and the slot itself stays one of a class.
-/

namespace ClassLoading.ConstantPool

variable {pool pool' : ConstantPool} {index : UInt16} {entry : Entry} {handle : ClassHandle}

theorem classAt_eq_ok_iff {entity : ClassEntity} :
    pool.classAt index = .ok entity ↔ pool.get? index = some (.classEntity entity) := by
  unfold classAt entryAt
  cases pool.get? index with
  | none => simp [bind, Except.bind]
  | some entry => cases entry <;> simp [bind, Except.bind, pure, Except.pure, throw, throwThe, MonadExceptOf.throw]

/-- What a successful resolution found, and what it did. -/
theorem resolveAt_cases {first : Bool} (h : pool.resolveAt index handle = .ok (first, pool')) :
    (∃ kept, pool.get? index = some (.classEntity (.resolved kept)) ∧ first = false ∧ pool' = pool) ∨
      ∃ name, pool.get? index = some (.classEntity (.unresolved name)) ∧ first = true ∧
        pool.put index (.classEntity (.resolved handle)) = .ok pool' := by
  unfold resolveAt at h
  cases hclass : pool.classAt index with
  | error fault =>
      rw [hclass] at h
      cases h
  | ok entity =>
      rw [hclass] at h
      have hentry := classAt_eq_ok_iff.mp hclass
      cases entity with
      | resolved kept =>
          obtain ⟨rfl, rfl⟩ := Prod.mk.inj (Except.ok.inj h)
          exact Or.inl ⟨kept, hentry, rfl, rfl⟩
      | unresolved name =>
          obtain ⟨put, hput⟩ := (put_eq_ok_iff pool index (.classEntity (.resolved handle))).mpr
            (isValid_of_some hentry)
          simp only [bind, Except.bind, hput] at h
          obtain ⟨rfl, rfl⟩ := Prod.mk.inj (Except.ok.inj h)
          exact Or.inr ⟨name, hentry, rfl, hput⟩

/-- The slots of classes may refer to something else, all others hold the same. -/
structure Relinks (pool pool' : ConstantPool) : Prop where
  size_eq : pool'.size = pool.size
  slots : ∀ index, pool'.get? index = pool.get? index ∨ ∃ entity entity',
    pool.get? index = some (.classEntity entity) ∧ pool'.get? index = some (.classEntity entity')

namespace Relinks

theorem refl (pool : ConstantPool) : pool.Relinks pool := ⟨rfl, fun _ => Or.inl rfl⟩

theorem of_put {entity entity' : ClassEntity} (h : pool.get? index = some (.classEntity entity))
    (hput : pool.put index (.classEntity entity') = .ok pool') : pool.Relinks pool' := by
  refine ⟨size_of_put hput, fun i => ?_⟩
  rw [get?_of_put hput]
  by_cases hi : i = index
  · subst hi
    exact Or.inr ⟨entity, entity', h, if_pos rfl⟩
  · exact Or.inl (if_neg hi)

theorem of_resolveAt {first : Bool} (h : pool.resolveAt index handle = .ok (first, pool')) :
    pool.Relinks pool' := by
  rcases resolveAt_cases h with ⟨_, -, -, rfl⟩ | ⟨name, hentry, -, hput⟩
  · exact refl pool'
  · exact of_put hentry hput

theorem get?_class {entity : ClassEntity} (h : pool.Relinks pool')
    (hentity : pool.get? index = some (.classEntity entity)) :
    ∃ entity', pool'.get? index = some (.classEntity entity') := by
  rcases h.slots index with heq | ⟨_, entity', -, hentity'⟩
  · exact ⟨entity, heq.trans hentity⟩
  · exact ⟨entity', hentity'⟩

theorem get?_other (h : pool.Relinks pool') (hentry : pool.get? index = some entry)
    (hother : entry.kind.isClass = false) : pool'.get? index = some entry := by
  rcases h.slots index with heq | ⟨entity, _, hentity, -⟩
  · exact heq.trans hentry
  · rw [hentity] at hentry
    obtain rfl := Option.some.inj hentry
    cases entity <;> cases hother

theorem slot_cases (h : pool.Relinks pool') {i : Nat} (hpos : 0 < i) (hi : i < pool.size.toNat) :
    pool'.slot i = pool.slot i ∨ ∃ entity entity',
      pool.slot i = .classEntity entity ∧ pool'.slot i = .classEntity entity' := by
  have hslot := get?_ofNat hpos hi
  have hslot' : pool'.get? (UInt16.ofNat i) = some (pool'.slot i) := get?_ofNat hpos (h.size_eq ▸ hi)
  rcases h.slots (UInt16.ofNat i) with heq | ⟨entity, entity', hentity, hentity'⟩
  · rw [hslot, hslot'] at heq
    exact Or.inl (Option.some.inj heq)
  · rw [hslot] at hentity
    rw [hslot'] at hentity'
    exact Or.inr ⟨entity, entity', Option.some.inj hentity, Option.some.inj hentity'⟩

theorem width_eq (h : pool.Relinks pool') {i : Nat} (hpos : 0 < i) (hi : i < pool.size.toNat) :
    (pool'.slot i).kind.width = (pool.slot i).kind.width := by
  rcases h.slot_cases hpos hi with heq | ⟨entity, entity', hentity, hentity'⟩
  · rw [heq]
  · rw [hentity, hentity']
    cases entity <;> cases entity' <;> rfl

theorem indices_eq (h : pool.Relinks pool') : pool'.indices = pool.indices :=
  indicesFrom_congr h.size_eq (fun _ => h.width_eq) Nat.one_pos

end Relinks

end ClassLoading.ConstantPool
