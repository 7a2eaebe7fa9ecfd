import ClassLoading.Constant.Walk
import ClassLoading.Proofs.Constant.History
import Mathlib.Data.List.Chain
import Mathlib.Logic.Relation

/-!
# Walks

A walk over the slots of a pool ends, whatever was written into them, and comes by the slots that begin an
entry, each once. The counter never leaves the range where the numbers of slots are exact, and no step asks
for a slot that is not there. What class slots are resolved to makes no difference.
-/

namespace ClassLoading

theorem ConstantKind.width_le (kind : ConstantKind) : kind.width.toNat ≤ 2 := by
  unfold width
  split <;> decide

namespace SlotWalk

variable {ε ε' : Type} {step : UInt32 → Except ε (Option (UInt16 × UInt32))} {counter : UInt32}
  {slots slots' : List UInt16}

/-- A walk that goes on from a counter ends, and comes by these slots. -/
inductive Yields (step : UInt32 → Except ε (Option (UInt16 × UInt32))) : UInt32 → List UInt16 → Prop
  | done {counter : UInt32} : step counter = .ok none → Yields step counter []
  | visit {counter following : UInt32} {index : UInt16} {slots : List UInt16} :
      step counter = .ok (some (index, following)) → Yields step following slots →
        Yields step counter (index :: slots)

/-- A walk comes to a counter, sooner or later. -/
def Reaches (step : UInt32 → Except ε (Option (UInt16 × UInt32))) (counter : UInt32) : Prop :=
  Relation.ReflTransGen (fun counter following => ∃ index, step counter = .ok (some (index, following)))
    first counter

theorem Yields.unique (h : Yields step counter slots) (h' : Yields step counter slots') :
    slots' = slots := by
  induction h generalizing slots' with
  | done hdone =>
      cases h' with
      | done => rfl
      | visit hvisit =>
          rw [hdone] at hvisit
          cases hvisit
  | visit hvisit _ ih =>
      cases h' with
      | done hdone =>
          rw [hvisit] at hdone
          cases hdone
      | visit hvisit' hrest =>
          rw [hvisit] at hvisit'
          cases hvisit'
          rw [ih hrest]

section MapError

variable {f : ε → ε'}

theorem mapError_eq_ok_iff {α : Type} {result : Except ε α} {value : α} :
    result.mapError f = .ok value ↔ result = .ok value := by
  cases result <;> simp [Except.mapError]

theorem yields_mapError_iff :
    Yields (fun counter => (step counter).mapError f) counter slots ↔ Yields step counter slots := by
  constructor
  · intro h
    induction h with
    | done hdone => exact .done (mapError_eq_ok_iff.mp hdone)
    | visit hvisit _ ih => exact .visit (mapError_eq_ok_iff.mp hvisit) ih
  · intro h
    induction h with
    | done hdone => exact .done (mapError_eq_ok_iff.mpr hdone)
    | visit hvisit _ ih => exact .visit (mapError_eq_ok_iff.mpr hvisit) ih

theorem reaches_mapError_iff :
    Reaches (fun counter => (step counter).mapError f) counter ↔ Reaches step counter := by
  unfold Reaches
  simp only [mapError_eq_ok_iff]

end MapError

/-- The slots below `size` from `start` on, each followed by the one that its width leaves free next. -/
structure Visits (start : Nat) (size : UInt16) (width : UInt16 → UInt16) (slots : List UInt16) :
    Prop where
  starts : slots.head?.map UInt16.toNat = if start < size.toNat then some start else none
  continues : slots.IsChain fun i j => j.toNat = i.toNat + (width i).toNat
  within : ∀ i ∈ slots, i < size
  ends : ∀ last, slots.getLast? = some last → size.toNat ≤ last.toNat + (width last).toNat

section Visits

variable {start : Nat} {size : UInt16} {width : UInt16 → UInt16} {index : UInt16}

theorem visits_nil_iff : Visits start size width [] ↔ size.toNat ≤ start := by
  constructor
  · intro h
    have hstarts := h.starts
    split at hstarts
    · cases hstarts
    · omega
  · intro hend
    refine ⟨?_, .nil, nofun, nofun⟩
    rw [if_neg (by omega)]
    rfl

theorem visits_cons_iff : Visits start size width (index :: slots) ↔
    index.toNat = start ∧ start < size.toNat ∧
      Visits (start + (width index).toNat) size width slots := by
  constructor
  · intro h
    obtain ⟨hindex, hlt⟩ : index.toNat = start ∧ start < size.toNat := by
      have hstarts := h.starts
      split at hstarts
      · rename_i hlt
        exact ⟨Option.some.inj hstarts, hlt⟩
      · cases hstarts
    obtain ⟨hnext, hcontinues⟩ := List.isChain_cons.mp h.continues
    refine ⟨hindex, hlt, ?_, hcontinues, fun i hi => h.within i (List.mem_cons_of_mem _ hi),
      fun last hlast => h.ends last ?_⟩
    · cases slots with
      | nil =>
          have hends := h.ends index rfl
          rw [if_neg (by omega)]
          rfl
      | cons following slots =>
          have hvalue : following.toNat = index.toNat + (width index).toNat := hnext following rfl
          have hwithin := UInt16.lt_iff_toNat_lt.mp (h.within following (by simp))
          rw [if_pos (by omega), ← hindex, ← hvalue]
          rfl
    · rw [List.getLast?_cons, hlast]
      rfl
  · intro hgiven
    obtain ⟨hindex, hlt, hstarts, hcontinues, hwithin, hends⟩ := hgiven
    refine ⟨?_, List.isChain_cons.mpr ⟨fun following hfollowing => ?_, hcontinues⟩, fun i hi => ?_,
      fun last hlast => ?_⟩
    · rw [if_pos hlt, ← hindex]
      rfl
    · rw [hfollowing] at hstarts
      split at hstarts
      · rw [hindex]
        exact Option.some.inj hstarts
      · cases hstarts
    · rcases List.mem_cons.mp hi with rfl | hi
      · exact UInt16.lt_iff_toNat_lt.mpr (hindex ▸ hlt)
      · exact hwithin i hi
    · rw [List.getLast?_cons] at hlast
      cases hrest : slots.getLast? with
      | some other =>
          rw [hrest] at hlast
          obtain rfl := Option.some.inj hlast
          exact hends other hrest
      | none =>
          rw [hrest] at hlast
          obtain rfl : index = last := Option.some.inj hlast
          obtain rfl := List.getLast?_eq_none_iff.mp hrest
          have hend := visits_nil_iff.mp ⟨hstarts, hcontinues, hwithin, hends⟩
          omega

end Visits

end SlotWalk

open SlotWalk

namespace ConstantPool

variable {pool pool' : ConstantPool} {slots : List UInt16}

/-- What holds at the end of a pool, and of a slot if it holds behind the entry there, holds of the slots
that begin an entry. -/
theorem indicesFrom_induction {motive : Nat → List UInt16 → Prop} (pool : ConstantPool)
    (done : ∀ i, 0 < i → pool.size.toNat ≤ i → motive i [])
    (visit : ∀ i, 0 < i → i < pool.size.toNat →
      motive (i + (pool.slot i).kind.width.toNat) (pool.indicesFrom (i + (pool.slot i).kind.width.toNat)) →
        motive i (UInt16.ofNat i :: pool.indicesFrom (i + (pool.slot i).kind.width.toNat)))
    {i : Nat} (hpos : 0 < i) : motive i (pool.indicesFrom i) := by
  induction hn : pool.size.toNat - i using Nat.strongRecOn generalizing i with
  | ind n ih =>
    rcases Nat.lt_or_ge i pool.size.toNat with hi | hi
    · have hwidth := (pool.slot i).kind.width_pos
      rw [indicesFrom_slot hi]
      exact visit i hpos hi (ih _ (by omega) (by omega) rfl)
    · rw [indicesFrom_of_le pool hi]
      exact done i hpos hi

theorem bounds_of_mem_indicesFrom {start : Nat} {index : UInt16} (hpos : 0 < start)
    (h : index ∈ pool.indicesFrom start) : start ≤ index.toNat ∧ index.toNat < pool.size.toNat := by
  refine pool.indicesFrom_induction
    (motive := fun start slots => index ∈ slots → start ≤ index.toNat ∧ index.toNat < pool.size.toNat)
    ?done ?visit hpos h
  case done => exact nofun
  case visit =>
    intro i _ hlt ih hindex
    rcases List.mem_cons.mp hindex with rfl | hindex
    · rw [toNat_index hlt]
      exact ⟨Nat.le_refl i, hlt⟩
    · obtain ⟨hle, hbound⟩ := ih hindex
      exact ⟨Nat.le_trans (Nat.le_add_right i _) hle, hbound⟩

theorem toNat_counter {i : Nat} (hi : i ≤ pool.size.toNat + 1) : (UInt32.ofNat i).toNat = i := by
  have hsize := pool.size.toNat_lt
  exact UInt32.toNat_ofNat_of_lt (by simp only [UInt32.size]; omega)

theorem walkStep_of_lt {i : Nat} (hpos : 0 < i) (hi : i < pool.size.toNat) :
    pool.walkStep (UInt32.ofNat i) =
      .ok (some (UInt16.ofNat i, UInt32.ofNat (i + (pool.slot i).kind.width.toNat))) := by
  have hvalue := toNat_counter (Nat.le_add_right_of_le (Nat.le_of_lt hi))
  have hgoes : ¬pool.size.toUInt32 ≤ UInt32.ofNat i := by
    rw [UInt32.le_iff_toNat_le, UInt16.toNat_toUInt32, hvalue]
    omega
  have hkind : pool.kindAt (UInt16.ofNat i) = .ok (pool.slot i).kind := kindAt_of_some (get?_ofNat hpos hi)
  have hnext : UInt32.ofNat i + (pool.slot i).kind.width.toUInt32 =
      UInt32.ofNat (i + (pool.slot i).kind.width.toNat) := by
    rw [UInt32.ofNat_add]
    exact congrArg (UInt32.ofNat i + ·) (UInt32.toNat.inj (by simp))
  rw [walkStep, step, if_neg hgoes, UInt32.toUInt16_ofNat', ← hnext]
  simp only [hkind]
  rfl

theorem walkStep_of_le {i : Nat} (hend : pool.size.toNat ≤ i) (hi : i ≤ pool.size.toNat + 1) :
    pool.walkStep (UInt32.ofNat i) = .ok none := by
  refine if_pos ?_
  rw [UInt32.le_iff_toNat_le, UInt16.toNat_toUInt32, toNat_counter hi]
  exact hend

theorem yields_indicesFrom {i : Nat} (hpos : 0 < i) (hi : i ≤ pool.size.toNat + 1) :
    Yields pool.walkStep (UInt32.ofNat i) (pool.indicesFrom i) := by
  refine pool.indicesFrom_induction
    (motive := fun i slots => i ≤ pool.size.toNat + 1 → Yields pool.walkStep (UInt32.ofNat i) slots)
    ?done ?visit hpos hi
  case done =>
    intro i _ hend hi
    exact .done (walkStep_of_le hend hi)
  case visit =>
    intro i hpos hlt ih _
    have hwidth := (pool.slot i).kind.width_le
    exact .visit (walkStep_of_lt hpos hlt) (ih (by omega))

/-- A pool is gone through as its slots are listed. -/
theorem yields_iff : Yields pool.walkStep first slots ↔ slots = pool.indices := by
  have hfirst : 1 ≤ pool.size.toNat + 1 := Nat.le_add_left 1 _
  have hyields : Yields pool.walkStep first pool.indices := yields_indicesFrom Nat.one_pos hfirst
  constructor
  · exact fun h => hyields.unique h
  · rintro rfl
    exact hyields

/-- The counter moves at most one behind the end of the pool. -/
theorem exists_nat_of_reaches {counter : UInt32} (h : Reaches pool.walkStep counter) :
    ∃ i, 0 < i ∧ i ≤ pool.size.toNat + 1 ∧ counter = UInt32.ofNat i := by
  induction h with
  | refl => exact ⟨1, Nat.one_pos, by omega, rfl⟩
  | tail _ hstep ih =>
      obtain ⟨i, hpos, hi, rfl⟩ := ih
      obtain ⟨index, hstep⟩ := hstep
      have hwidth := (pool.slot i).kind.width_le
      rcases Nat.lt_or_ge i pool.size.toNat with hlt | hend
      · rw [walkStep_of_lt hpos hlt] at hstep
        cases hstep
        exact ⟨i + (pool.slot i).kind.width.toNat, by omega, by omega, rfl⟩
      · rw [walkStep_of_le hend hi] at hstep
        cases hstep

/-- The slots that begin an entry are those that follow from the widths of the entries. -/
theorem visits_iff {width : UInt16 → UInt16} {start : Nat} (hpos : 0 < start)
    (hwidth : ∀ index, pool.isValid index = true → width index = (pool.slot index.toNat).kind.width) :
    Visits start pool.size width slots ↔ slots = pool.indicesFrom start := by
  have hall (slots : List UInt16) :
      Visits start pool.size width slots ↔ slots = pool.indicesFrom start := by
    refine pool.indicesFrom_induction
      (motive := fun start listed => ∀ slots, Visits start pool.size width slots ↔ slots = listed)
      ?done ?visit hpos slots
    case done =>
      intro i _ hend slots
      cases slots with
      | nil => simpa only [visits_nil_iff, iff_true] using hend
      | cons index slots =>
          rw [visits_cons_iff]
          exact iff_of_false (fun h => Nat.not_lt.mpr hend h.2.1) nofun
    case visit =>
      intro i hpos hlt ih slots
      have hvalue := toNat_index hlt
      have hhere : width (UInt16.ofNat i) = (pool.slot i).kind.width := by
        rw [hwidth _ (isValid_iff_toNat.mpr (by rw [hvalue]; exact ⟨hpos, hlt⟩)), hvalue]
      cases slots with
      | nil => simp [visits_nil_iff, hlt]
      | cons index slots =>
          rw [visits_cons_iff, List.cons.injEq]
          constructor
          · rintro ⟨hindex, -, hrest⟩
            obtain rfl : index = UInt16.ofNat i := UInt16.toNat.inj (hindex.trans hvalue.symm)
            rw [hhere] at hrest
            exact ⟨rfl, (ih slots).mp hrest⟩
          · rintro ⟨rfl, rfl⟩
            refine ⟨hvalue, hlt, ?_⟩
            rw [hhere]
            exact (ih _).mpr rfl
  exact hall slots

theorem Relinks.trans {pool'' : ConstantPool} (h : pool.Relinks pool') (h' : pool'.Relinks pool'') :
    pool.Relinks pool'' := by
  refine ⟨h'.size_eq.trans h.size_eq, fun index => ?_⟩
  rcases h.slots index with heq | ⟨entity, entity', hentity, hentity'⟩
  · rw [← heq]
    exact h'.slots index
  · obtain ⟨entity'', hentity''⟩ := h'.get?_class hentity'
    exact Or.inr ⟨entity, entity'', hentity, hentity''⟩

/-- The calls that resolve some slots, one after another. -/
def resolveCalls (resolutions : List (UInt16 × ClassHandle)) : List Call :=
  resolutions.map fun (index, handle) => .resolve index handle

theorem relinks_after (pool : ConstantPool) (resolutions : List (UInt16 × ClassHandle)) :
    pool.Relinks (pool.after (resolveCalls resolutions)) := by
  induction resolutions generalizing pool with
  | nil => exact .refl pool
  | cons resolution resolutions ih =>
      obtain ⟨index, handle⟩ := resolution
      refine Relinks.trans ?_ (ih (pool.perform (.resolve index handle)).2)
      cases hresolve : pool.resolveAt index handle with
      | error fault =>
          rw [perform_resolve_of_error hresolve]
          exact .refl pool
      | ok result =>
          rw [perform_resolve hresolve]
          exact .of_resolveAt hresolve

/-- The calls that write the slots of a pool. The one for slot zero comes to nothing. -/
def writes (pool : ConstantPool) : List Call :=
  (List.range pool.size.toNat).map fun i => .put (UInt16.ofNat i) (pool.slot i)

theorem content_writes {index : UInt16} (h : pool.isValid index = true) :
    content pool.writes index = pool.slot index.toNat := by
  have hbelow (n : Nat) (hn : n ≤ pool.size.toNat) : content
      ((List.range n).map fun i => .put (UInt16.ofNat i) (pool.slot i)) index =
        if index.toNat < n then pool.slot index.toNat else .vacant := by
    have hsize := pool.size.toNat_lt
    induction n with
    | zero => rfl
    | succ n ih =>
        have hindex : index = UInt16.ofNat n ↔ index.toNat = n := by
          have hvalue : (UInt16.ofNat n).toNat = n :=
            UInt16.toNat_ofNat_of_lt (by simp only [UInt16.size]; omega)
          rw [← UInt16.toNat_inj, hvalue]
        rw [List.range_succ, List.map_append, List.map_singleton, content_put, ih (by omega)]
        by_cases hn : index.toNat = n
        · rw [if_pos (hindex.mpr hn), if_pos (by omega), hn]
        · rw [if_neg (mt hindex.mp hn)]
          exact if_congr (by omega) rfl rfl
  rw [writes, hbelow _ (Nat.le_refl _), if_pos (isValid_iff_toNat.mp h).2]

end ConstantPool

namespace PackedPool

open ConstantPool (resolveCalls)

/-- A walk over the slots of a packed pool ends, and comes by these slots. -/
def Walks (packed : PackedPool) (slots : List UInt16) : Prop := Yields packed.walkStep first slots

variable {packed : PackedPool} {pool : ConstantPool} {slots : List UInt16}

namespace Represents

theorem walkStep_eq (h : Represents packed pool) :
    packed.walkStep = fun counter => (pool.walkStep counter).mapError .slot := by
  have hkind (index : UInt16) : packed.kindAt index = (pool.kindAt index).mapError .slot :=
    h.get_eq index .kind
  funext counter
  simp only [walkStep, ConstantPool.walkStep, step, h.size_eq, hkind]
  split
  · rfl
  · cases pool.kindAt counter.toUInt16 <;> rfl

theorem walks_iff (h : Represents packed pool) : packed.Walks slots ↔ slots = pool.indices := by
  rw [Walks, h.walkStep_eq, yields_mapError_iff, ConstantPool.yields_iff]

theorem reaches (h : Represents packed pool) {counter : UInt32} (hreaches : Reaches packed.walkStep counter) :
    counter.toNat ≤ pool.size.toNat + 1 ∧ (counter.toNat < pool.size.toNat →
      packed.isValid counter.toUInt16 = true ∧ counter.toUInt16.toNat = counter.toNat) := by
  rw [h.walkStep_eq, reaches_mapError_iff] at hreaches
  obtain ⟨i, hpos, hi, rfl⟩ := ConstantPool.exists_nat_of_reaches hreaches
  have hsize := pool.size.toNat_lt
  have hvalue := ConstantPool.toNat_counter hi
  rw [hvalue]
  refine ⟨hi, fun hlt => ?_⟩
  have hindex : (UInt32.ofNat i).toUInt16.toNat = i := by
    rw [UInt32.toNat_toUInt16, hvalue, Nat.mod_eq_of_lt (by omega)]
  rw [h.isValid_eq, ConstantPool.isValid_iff_toNat, hindex]
  exact ⟨⟨hpos, hlt⟩, rfl⟩

end Represents

theorem represents_writes (pool : ConstantPool) :
    Represents ((vacant pool.size).after pool.writes) pool := by
  have hremembers := (ConstantPool.Remembers.vacant pool.size).after pool.writes
  obtain ⟨hsize, hholds⟩ := represents_after pool.size pool.writes
  refine ⟨hsize.trans hremembers.size_eq, fun {index entry} hslot => hholds ?_⟩
  have hvalid := ConstantPool.isValid_of_some hslot
  rw [hremembers.get?_eq_contentWithin?, contentWithin?, List.nil_append,
    if_pos ((ConstantPool.isValid_iff pool index).mp hvalid), ConstantPool.content_writes hvalid,
    (ConstantPool.get?_eq_some_iff.mp hslot).2]

end PackedPool

end ClassLoading
