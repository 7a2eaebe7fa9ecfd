import ClassLoading.Proofs.Constant.Packing

/-!
# Histories

What a pool answers, told from the calls made before: a slot has what the last put wrote into it, and
a class slot the class that was first given for it since. Pools refine that, packed or not, whatever
calls were made in whatever order, those that fail included.
-/

namespace ClassLoading

/-- A call of a pool. -/
inductive Call where
  | put (index : UInt16) (entry : Entry)
  | get (index : UInt16) (getter : Getter)
  | resolve (index : UInt16) (handle : ClassHandle)

/-- What a call comes to. -/
inductive Answer (ε : Type) where
  | put (result : Except ε Unit)
  | get (getter : Getter) (result : Except ε getter.Value)
  | resolve (result : Except ε Bool)

def Answer.mapError {ε ε' : Type} (f : ε → ε') : Answer ε → Answer ε'
  | put result => put (result.mapError f)
  | get getter result => get getter (result.mapError f)
  | resolve result => resolve (result.mapError f)

namespace ConstantPool

def perform (pool : ConstantPool) : Call → Answer Fault × ConstantPool
  | .put index entry =>
      match pool.put index entry with
      | .ok pool' => (.put (.ok ()), pool')
      | .error fault => (.put (.error fault), pool)
  | .get index getter => (.get getter (pool.get index getter), pool)
  | .resolve index handle =>
      match pool.resolveAt index handle with
      | .ok (first, pool') => (.resolve (.ok first), pool')
      | .error fault => (.resolve (.error fault), pool)

theorem perform_put {pool pool' : ConstantPool} {index : UInt16} {entry : Entry}
    (h : pool.put index entry = .ok pool') :
    pool.perform (.put index entry) = (.put (.ok ()), pool') := by
  simp only [perform, h]

theorem perform_put_of_error {pool : ConstantPool} {index : UInt16} {entry : Entry} {fault : Fault}
    (h : pool.put index entry = .error fault) :
    pool.perform (.put index entry) = (.put (.error fault), pool) := by
  simp only [perform, h]

theorem perform_resolve {pool pool' : ConstantPool} {index : UInt16} {handle : ClassHandle}
    {first : Bool} (h : pool.resolveAt index handle = .ok (first, pool')) :
    pool.perform (.resolve index handle) = (.resolve (.ok first), pool') := by
  simp only [perform, h]

theorem perform_resolve_of_error {pool : ConstantPool} {index : UInt16} {handle : ClassHandle}
    {fault : Fault} (h : pool.resolveAt index handle = .error fault) :
    pool.perform (.resolve index handle) = (.resolve (.error fault), pool) := by
  simp only [perform, h]

def after (pool : ConstantPool) (calls : List Call) : ConstantPool :=
  calls.foldl (fun pool call => (pool.perform call).2) pool

def answers (pool : ConstantPool) : List Call → List (Answer Fault)
  | [] => []
  | call :: calls => (pool.perform call).1 :: answers (pool.perform call).2 calls

end ConstantPool

namespace PackedPool

def perform (packed : PackedPool) : Call → Answer PackedFault × PackedPool
  | .put index entry => ((packed.put index entry).map .put id)
  | .get index getter => (.get getter (packed.get index getter), packed)
  | .resolve index handle => ((packed.resolveAt index handle).map .resolve id)

def after (packed : PackedPool) (calls : List Call) : PackedPool :=
  calls.foldl (fun packed call => (packed.perform call).2) packed

def answers (packed : PackedPool) : List Call → List (Answer PackedFault)
  | [] => []
  | call :: calls => (packed.perform call).1 :: answers (packed.perform call).2 calls

theorem answers_append (packed : PackedPool) (calls more : List Call) :
    packed.answers (calls ++ more) = packed.answers calls ++ (packed.after calls).answers more := by
  induction calls generalizing packed with
  | nil => rfl
  | cons call calls ih => exact congrArg ((packed.perform call).1 :: ·) (ih (packed.perform call).2)

namespace Represents

variable {packed : PackedPool} {pool : ConstantPool}

theorem perform (h : Represents packed pool) (call : Call) :
    (packed.perform call).1 = (pool.perform call).1.mapError .slot ∧
      Represents (packed.perform call).2 (pool.perform call).2 := by
  cases call with
  | get index getter => exact ⟨congrArg (Answer.get getter) (h.get_eq index getter), h⟩
  | put index entry =>
      unfold PackedPool.perform ConstantPool.perform
      rcases h.put index entry with ⟨pool', hput, hpacked, hrepresents⟩ | ⟨fault, hput, hpacked⟩
      · simp only [hput]
        exact ⟨congrArg Answer.put hpacked, hrepresents⟩
      · simp only [hput, hpacked]
        exact ⟨rfl, h⟩
  | resolve index handle =>
      unfold PackedPool.perform ConstantPool.perform
      rcases h.resolveAt index handle with
        ⟨first, pool', hresolve, hpacked, hrepresents⟩ | ⟨fault, hresolve, hpacked⟩
      · simp only [hresolve]
        exact ⟨congrArg Answer.resolve hpacked, hrepresents⟩
      · simp only [hresolve, hpacked]
        exact ⟨rfl, h⟩

theorem after (h : Represents packed pool) (calls : List Call) :
    Represents (packed.after calls) (pool.after calls) := by
  induction calls generalizing packed pool with
  | nil => exact h
  | cons call calls ih => exact ih (h.perform call).2

theorem answers (h : Represents packed pool) (calls : List Call) :
    packed.answers calls = (pool.answers calls).map (Answer.mapError .slot) := by
  induction calls generalizing packed pool with
  | nil => rfl
  | cons call calls ih =>
      obtain ⟨hanswer, hafter⟩ := h.perform call
      rw [PackedPool.answers, hanswer, ih hafter]
      rfl

end Represents

end PackedPool

namespace Call

/-- What a call puts into a slot. -/
def putAt? (index : UInt16) : Call → Option Entry
  | put i entry => if i = index then some entry else none
  | _ => none

/-- The class that a call gives for a slot. -/
def resolvedAt? (index : UInt16) : Call → Option ClassHandle
  | resolve i handle => if i = index then some handle else none
  | _ => none

end Call

/-- What the last put into a slot wrote. -/
def lastPut? (calls : List Call) (index : UInt16) : Option Entry :=
  calls.reverse.findSome? (·.putAt? index)

/-- The calls made since the last put into a slot. -/
def sinceLastPut (calls : List Call) (index : UInt16) : List Call :=
  (calls.reverse.takeWhile fun call => (call.putAt? index).isNone).reverse

/-- The class first given for a slot since the last put into it. -/
def firstResolution? (calls : List Call) (index : UInt16) : Option ClassHandle :=
  (sinceLastPut calls index).findSome? (·.resolvedAt? index)

/-- An entry after the class was given that is first given for it, if one was. -/
def Entry.linkedTo : Entry → Option ClassHandle → Entry
  | classEntity (.unresolved _), some handle => classEntity (.resolved handle)
  | entry, _ => entry

/-- The content of a slot after some calls. -/
def content (calls : List Call) (index : UInt16) : Entry :=
  match lastPut? calls index with
  | some entry => entry.linkedTo (firstResolution? calls index)
  | none => .vacant

section Content

variable {calls : List Call} {call : Call} {index i : UInt16} {entry : Entry} {handle : ClassHandle}

theorem lastPut?_append (calls : List Call) (call : Call) (index : UInt16) :
    lastPut? (calls ++ [call]) index = (call.putAt? index).or (lastPut? calls index) := by
  simp only [lastPut?, List.reverse_append, List.reverse_singleton, List.singleton_append,
    List.findSome?_cons]
  cases call.putAt? index <;> rfl

theorem firstResolution?_append (calls : List Call) (call : Call) (index : UInt16) :
    firstResolution? (calls ++ [call]) index =
      if (call.putAt? index).isNone then (firstResolution? calls index).or (call.resolvedAt? index)
      else none := by
  simp only [firstResolution?, sinceLastPut, List.reverse_append, List.reverse_singleton,
    List.singleton_append, List.takeWhile_cons]
  split
  · simp only [List.reverse_cons, List.findSome?_append]
    congr 1
    simp only [List.findSome?_cons, List.findSome?_nil]
    cases call.resolvedAt? index <;> rfl
  · rfl

theorem linkedTo_of_ne (h : ∀ name, entry ≠ .classEntity (.unresolved name))
    (given : Option ClassHandle) : entry.linkedTo given = entry := by
  unfold Entry.linkedTo
  split
  · exact absurd rfl (h _)
  · rfl

@[simp] theorem linkedTo_none (entry : Entry) : entry.linkedTo none = entry := by
  unfold Entry.linkedTo
  split <;> simp_all

theorem linkedTo_or (entry : Entry) (first later : Option ClassHandle) :
    entry.linkedTo (first.or later) = (entry.linkedTo first).linkedTo later := by
  cases first with
  | none => simp
  | some handle =>
      rw [Option.some_or]
      cases entry with
      | classEntity entity => cases entity <;> rfl
      | _ => rfl

/-- What a call does to the content of a slot. -/
theorem content_append (calls : List Call) (call : Call) (index : UInt16) :
    content (calls ++ [call]) index =
      match call.putAt? index with
      | some entry => entry
      | none => (content calls index).linkedTo (call.resolvedAt? index) := by
  rw [content, lastPut?_append, firstResolution?_append, content]
  cases call.putAt? index with
  | some entry => exact linkedTo_none entry
  | none =>
      cases lastPut? calls index with
      | none => rfl
      | some entry => exact linkedTo_or entry _ _

theorem content_put (calls : List Call) (index : UInt16) (entry : Entry) :
    content (calls ++ [.put index entry]) i = if i = index then entry else content calls i := by
  rw [content_append]
  by_cases hi : i = index
  · simp [Call.putAt?, hi]
  · simp [Call.putAt?, Call.resolvedAt?, hi, Ne.symm hi]

theorem content_get (calls : List Call) (index : UInt16) (getter : Getter) :
    content (calls ++ [.get index getter]) i = content calls i := by
  rw [content_append]
  exact linkedTo_none _

theorem content_resolve (calls : List Call) (index : UInt16) (handle : ClassHandle) :
    content (calls ++ [.resolve index handle]) i =
      if i = index then (content calls i).linkedTo (some handle) else content calls i := by
  rw [content_append]
  by_cases hi : i = index
  · simp [Call.putAt?, Call.resolvedAt?, hi]
  · simp [Call.putAt?, Call.resolvedAt?, hi, Ne.symm hi]

/-- A class slot is unresolved as long as no class was given for it. -/
theorem content_eq_unresolved_iff {name : Symbol} :
    content calls index = .classEntity (.unresolved name) ↔
      lastPut? calls index = some (.classEntity (.unresolved name)) ∧
        firstResolution? calls index = none := by
  unfold content
  cases lastPut? calls index with
  | none => simp
  | some entry =>
      dsimp only
      constructor
      · intro h
        cases hfirst : firstResolution? calls index with
        | none =>
            rw [hfirst, linkedTo_none] at h
            exact ⟨congrArg some h, rfl⟩
        | some handle =>
            rw [hfirst] at h
            unfold Entry.linkedTo at h
            split at h <;> simp_all
      · rintro ⟨hentry, hfirst⟩
        rw [hfirst, linkedTo_none, Option.some.inj hentry]

end Content

/-- A pool of `size` slots holds what the calls made before say. -/
structure ConstantPool.Remembers (pool : ConstantPool) (size : UInt16) (calls : List Call) : Prop where
  size_eq : pool.size = size
  get?_eq : ∀ {index}, pool.isValid index = true → pool.get? index = some (content calls index)

/-- What the calls before say about a slot of a pool of `size` slots. -/
def contentWithin? (size : UInt16) (calls : List Call) (index : UInt16) : Option Entry :=
  if 0 < index ∧ index < size then some (content calls index) else none

namespace ConstantPool.Remembers

variable {pool : ConstantPool} {size index : UInt16} {calls : List Call} {entry : Entry}

theorem get?_eq_contentWithin? (h : pool.Remembers size calls) (index : UInt16) :
    pool.get? index = contentWithin? size calls index := by
  have hvalid : pool.isValid index = true ↔ 0 < index ∧ index < size := by rw [isValid_iff, h.size_eq]
  unfold contentWithin?
  split
  · rename_i hin
    exact h.get?_eq (hvalid.mpr hin)
  · rename_i hout
    exact dif_neg fun hisValid => hout (hvalid.mp hisValid)

theorem vacant (size : UInt16) : (ConstantPool.vacant size).Remembers size [] := by
  refine ⟨rfl, fun {index} hvalid => ?_⟩
  rw [get?_vacant, if_pos hvalid]
  rfl

theorem put (h : pool.Remembers size calls) {pool' : ConstantPool}
    (hput : pool.put index entry = .ok pool') : pool'.Remembers size (calls ++ [.put index entry]) := by
  refine ⟨(size_of_put hput).trans h.size_eq, fun {i} hvalid => ?_⟩
  rw [isValid_of_put hput] at hvalid
  rw [get?_of_put hput, content_put, h.get?_eq hvalid]
  split <;> rfl

/-- A call that leaves the pool as it is leaves it as it should be, if the contents of the valid
slots are to stay. -/
theorem of_content_eq (h : pool.Remembers size calls) {call : Call}
    (hcontent : ∀ {i}, pool.isValid i = true → content (calls ++ [call]) i = content calls i) :
    pool.Remembers size (calls ++ [call]) :=
  ⟨h.size_eq, fun hvalid => by rw [hcontent hvalid]; exact h.get?_eq hvalid⟩

theorem perform (h : pool.Remembers size calls) (call : Call) :
    (pool.perform call).2.Remembers size (calls ++ [call]) := by
  cases call with
  | get index getter => exact h.of_content_eq fun _ => content_get calls index getter
  | put index entry =>
      cases hput : pool.put index entry with
      | ok pool' =>
          rw [perform_put hput]
          exact h.put hput
      | error fault =>
          -- A put that fails is for no valid slot.
          rw [perform_put_of_error hput]
          refine h.of_content_eq fun {i} hvalid => ?_
          have hne : i ≠ index := by
            rintro rfl
            obtain ⟨pool', hput'⟩ := (put_eq_ok_iff pool i entry).mpr hvalid
            rw [hput] at hput'
            cases hput'
          rw [content_put, if_neg hne]
  | resolve index handle =>
      -- A resolution that changes nothing is for no unresolved class slot.
      have hkept (hclass : ∀ name, pool.get? index ≠ some (.classEntity (.unresolved name))) :
          pool.Remembers size (calls ++ [.resolve index handle]) := by
        refine h.of_content_eq fun {i} hvalid => ?_
        rw [content_resolve]
        split
        · rename_i hi
          subst hi
          refine linkedTo_of_ne (fun name hname => hclass name ?_) _
          rw [h.get?_eq hvalid, hname]
        · rfl
      cases hresolve : pool.resolveAt index handle with
      | error fault =>
          rw [perform_resolve_of_error hresolve]
          refine hkept fun name hslot => ?_
          rw [resolveAt, classAt_eq_ok_iff.mpr hslot] at hresolve
          obtain ⟨pool', hput⟩ :=
            (put_eq_ok_iff pool index (.classEntity (.resolved handle))).mpr (isValid_of_some hslot)
          simp only [bind, Except.bind, hput] at hresolve
          cases hresolve
      | ok result =>
          obtain ⟨first, pool'⟩ := result
          rw [perform_resolve hresolve]
          rcases resolveAt_cases hresolve with ⟨kept, hslot, rfl, rfl⟩ | ⟨name, hslot, rfl, hput⟩
          · refine hkept fun name hname => ?_
            rw [hslot] at hname
            cases hname
          · refine ⟨(size_of_put hput).trans h.size_eq, fun {i} hvalid => ?_⟩
            rw [isValid_of_put hput] at hvalid
            rw [get?_of_put hput, content_resolve, h.get?_eq hvalid]
            split
            · rename_i hi
              subst hi
              rw [h.get?_eq hvalid] at hslot
              rw [Option.some.inj hslot]
              rfl
            · rfl

theorem after (h : pool.Remembers size calls) (more : List Call) :
    (pool.after more).Remembers size (calls ++ more) := by
  induction more generalizing pool calls with
  | nil => rwa [List.append_nil]
  | cons call more ih =>
      have hafter := ih (h.perform call)
      rwa [List.append_assoc, List.singleton_append] at hafter

end ConstantPool.Remembers

namespace PackedPool

section

variable (size : UInt16) (calls : List Call)

theorem represents_after :
    Represents ((vacant size).after calls) ((ConstantPool.vacant size).after calls) :=
  (Represents.vacant size).after calls

theorem size_after : ((vacant size).after calls).size = size :=
  (represents_after size calls).size_eq.trans ((ConstantPool.Remembers.vacant size).after calls).size_eq

theorem isValid_after (index : UInt16) :
    ((vacant size).after calls).isValid index = true ↔ 0 < index ∧ index < size := by
  rw [isValid, size_after]
  simp

/-- A getter yields what the calls before say. -/
theorem get_after (index : UInt16) (getter : Getter) : ((vacant size).after calls).get index getter =
    (getter.read index size (contentWithin? size calls index)).mapError .slot := by
  have hremembers := (ConstantPool.Remembers.vacant size).after calls
  rw [(represents_after size calls).get_eq, ConstantPool.get_eq, hremembers.size_eq,
    hremembers.get?_eq_contentWithin?]
  rfl

theorem after_append (call : Call) :
    (vacant size).after (calls ++ [call]) = (((vacant size).after calls).perform call).2 := by
  simp only [after, List.foldl_append, List.foldl_cons, List.foldl_nil]

/-- What is read from a slot only depends on what the calls before say about it. -/
theorem get_perform (call : Call) {index : UInt16} (getter : Getter)
    (hcontent : content (calls ++ [call]) index = content calls index) :
    (((vacant size).after calls).perform call).2.get index getter =
      ((vacant size).after calls).get index getter := by
  rw [← after_append, get_after, get_after, contentWithin?, contentWithin?, hcontent]

variable {size calls} {index : UInt16} {entity : ClassEntity}

theorem get_classEntity_after (h : contentWithin? size calls index = some (.classEntity entity)) :
    ((vacant size).after calls).get index .classEntity = .ok entity := by
  rw [get_after, h]
  rfl

/-- The first resolution since a class slot was put resolves it, and no other does. -/
theorem resolveAt_after (h : contentWithin? size calls index = some (.classEntity entity))
    (handle : ClassHandle) :
    ∃ first, (((vacant size).after calls).resolveAt index handle).1 = .ok first ∧
      (first = true ↔ firstResolution? calls index = none ∧
        ∃ name, lastPut? calls index = some (.classEntity (.unresolved name))) ∧
      (first = true → contentWithin? size (calls ++ [.resolve index handle]) index =
        some (.classEntity (.resolved handle))) ∧
      (first = false →
        (((vacant size).after calls).resolveAt index handle).2 = (vacant size).after calls) := by
  have hget := get_classEntity_after h
  obtain ⟨hvalid, hcontent⟩ :
      (0 < index ∧ index < size) ∧ content calls index = .classEntity entity := by
    unfold contentWithin? at h
    split at h
    · rename_i hvalid
      exact ⟨hvalid, Option.some.inj h⟩
    · cases h
  cases entity with
  | resolved kept =>
      rw [resolveAt_of_resolved hget]
      refine ⟨false, rfl, ⟨nofun, fun ⟨hfirst, name, hput⟩ => ?_⟩, nofun, fun _ => rfl⟩
      rw [content_eq_unresolved_iff.mpr ⟨hput, hfirst⟩] at hcontent
      cases hcontent
  | unresolved name =>
      obtain ⟨hput, hfirst⟩ := content_eq_unresolved_iff.mp hcontent
      rw [resolveAt_of_unresolved hget ((isValid_after size calls index).mpr hvalid)]
      refine ⟨true, rfl, ⟨fun _ => ⟨hfirst, name, hput⟩, fun _ => rfl⟩, fun _ => ?_, nofun⟩
      rw [contentWithin?, if_pos hvalid, content_resolve, if_pos rfl, hcontent]
      rfl

end

/-- A packed pool answers every call as a pool that is not packed, and both answer as the calls made
before say, those that failed included. A getter yields what the last put wrote, or the class first
given since, if that is for it, and refuses it otherwise. A put fails exactly for what is no slot, and
then changes nothing; otherwise it changes its own slot only. A class slot is resolved by the first
resolution since it was put, and by no other. What was answered once is not changed by later calls. -/
theorem packed_refines_history (size : UInt16) (calls : List Call) :
    let packed := (vacant size).after calls
    ((vacant size).answers calls = ((ConstantPool.vacant size).answers calls).map (.mapError .slot) ∧
      ∀ more, (vacant size).answers (calls ++ more) =
        (vacant size).answers calls ++ packed.answers more) ∧
    (∀ index getter, packed.get index getter =
      (getter.read index size (contentWithin? size calls index)).mapError .slot) ∧
    (∀ index entry,
      (0 < index ∧ index < size → (packed.put index entry).1 = .ok ()) ∧
      (¬(0 < index ∧ index < size) →
        packed.put index entry = (.error (.slot (.indexOutOfRange index size)), packed)) ∧
      ∀ other getter, other ≠ index →
        (packed.put index entry).2.get other getter = packed.get other getter) ∧
    ∀ index handle,
      (∀ entity, contentWithin? size calls index = some (.classEntity entity) →
        ∃ first, (packed.resolveAt index handle).1 = .ok first ∧
          (first = true ↔ firstResolution? calls index = none ∧
            ∃ name, lastPut? calls index = some (.classEntity (.unresolved name))) ∧
          (first = true → (packed.resolveAt index handle).2.get index .kind = .ok .classRef ∧
            (packed.resolveAt index handle).2.get index .classEntity = .ok (.resolved handle)) ∧
          (first = false → (packed.resolveAt index handle).2 = packed)) ∧
      (∀ fault, packed.get index .classEntity = .error fault →
        packed.resolveAt index handle = (.error fault, packed)) ∧
      ∀ other getter, other ≠ index →
        (packed.resolveAt index handle).2.get other getter = packed.get other getter := by
  refine ⟨⟨(Represents.vacant size).answers calls, answers_append _ calls⟩, get_after size calls,
    fun index entry => ⟨fun hvalid => ?_, fun hinvalid => ?_, fun other getter hother => ?_⟩,
    fun index handle => ⟨fun entity hslot => ?_, fun fault hfault => resolveAt_of_error hfault handle,
      fun other getter hother => ?_⟩⟩
  · rw [put, dif_pos ((isValid_after size calls index).mpr hvalid)]
  · rw [put, dif_neg (mt (isValid_after size calls index).mp hinvalid), outOfRange, size_after]
  · exact get_perform size calls (.put index entry) getter
      ((content_put calls index entry).trans (if_neg hother))
  · obtain ⟨first, hresult, hfirst, hlinked, hkept⟩ := resolveAt_after hslot handle
    refine ⟨first, hresult, hfirst, fun htrue => ?_, hkept⟩
    have hafter : (((vacant size).after calls).resolveAt index handle).2 =
        (vacant size).after (calls ++ [.resolve index handle]) :=
      (after_append size calls (.resolve index handle)).symm
    rw [hafter, get_after, get_after, hlinked htrue]
    exact ⟨rfl, rfl⟩
  · exact get_perform size calls (.resolve index handle) getter
      ((content_resolve calls index handle).trans (if_neg hother))

/-- A class slot, a method, and a put that failed. -/
theorem packed_refines_history_method :
    let handle : ClassHandle := ⟨7, ⟨[0x41], 0⟩⟩
    let packed := (vacant 3).after
      [.put 1 (.classEntity (.unresolved ⟨[0x41], 0⟩)), .put 3 (.integer 1), .put 2 (.member .method 22 33)]
    packed.get 2 .owner = .ok (22 : UInt16) ∧ (packed.put 1 .vacant).1 = .ok () ∧
      (packed.put 1 .vacant).2.get 2 .owner = packed.get 2 .owner ∧
        packed.put 3 .vacant = (.error (.slot (.indexOutOfRange 3 3)), packed) ∧
          (packed.resolveAt 1 handle).1 = .ok true ∧
            (packed.resolveAt 1 handle).2.get 1 .classEntity = .ok (.resolved handle) ∧
              (packed.resolveAt 1 handle).2.get 2 .owner = packed.get 2 .owner ∧
                packed.resolveAt 2 handle = (.error (.slot (.notClass 2 .methodRef)), packed) := by
  intro handle packed
  obtain ⟨-, hget, hput, hresolve⟩ := packed_refines_history 3
    [.put 1 (.classEntity (.unresolved ⟨[0x41], 0⟩)), .put 3 (.integer 1), .put 2 (.member .method 22 33)]
  obtain ⟨first, hresult, hfirst, hlinked, -⟩ := (hresolve 1 handle).1 _ rfl
  obtain rfl : first = true := hfirst.mpr ⟨rfl, _, rfl⟩
  exact ⟨hget 2 .owner, (hput 1 .vacant).1 (by decide), (hput 1 .vacant).2.2 2 .owner (by decide),
    (hput 3 .vacant).2.1 (by decide), hresult, (hlinked rfl).2,
    (hresolve 1 handle).2.2 2 .owner (by decide), (hresolve 2 handle).2.1 _ (hget 2 .classEntity)⟩

end PackedPool

end ClassLoading
