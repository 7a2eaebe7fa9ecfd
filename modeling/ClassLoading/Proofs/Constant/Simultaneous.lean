import ClassLoading.Proofs.Constant.Linking
import ClassLoading.Proofs.Constant.Spelling

/-!
# Linking in place and at once

The linker overwrites the pool that it checks, so a check may find the slot that it looks at linked
already or not yet. It comes to the same as a linker that checks every entry against the pool as it
was and then writes all slots at once: the same pools are accepted, they become the same, and what
is refused is refused for the same entry. Only the kind that is named for the target of a method
handle may be the one that the slot has after it is linked.
-/

namespace ClassLoading

namespace ConstantPool

/-- The text in a slot that holds one. -/
def utf8? (pool : ConstantPool) (index : UInt16) : Option Symbol :=
  match pool.get? index with
  | some (.utf8 symbol) => some symbol
  | _ => none

/-- The slot is valid and holds an entry of the given kind. -/
def holds (pool : ConstantPool) (index : UInt16) (kind : ConstantKind) : Bool :=
  (pool.get? index).any (·.kind = kind)

/-- The constants of some class file are in the pool as they were read, and nothing is linked. -/
def IsFirstPass (pool : ConstantPool) : Prop :=
  ∃ (c c' : Cursor) (table after : SymbolTable), pool.size ≠ 0 ∧
    (RawConstants.read pool.size c).outcome = .ok c' ∧
    place (RawConstants.read pool.size c).constants.toList 1 (vacant pool.size) table = (.ok pool, after)

end ConstantPool

namespace Entry

/-- The slots that an entry refers to. -/
def references : Entry → List UInt16
  | member _ owner typing => [owner, typing]
  | nameAndType name descriptor => [name, descriptor]
  | methodHandle _ reference => [reference]
  | methodType descriptor => [descriptor]
  | invokeDynamic _ typing => [typing]
  | classIndex name => [name]
  | stringIndex text => [text]
  | _ => []

/-- What an entry refers to is there and of the right kind, and descriptors are well formed if that
is asked for. The pool is one in which nothing is linked, so a class is the index of its name. -/
def Obeys (settings : Link.Settings) (pool : ConstantPool) : Entry → Prop
  | member _ owner typing =>
      pool.holds owner .classIndex = true ∧ pool.holds typing .nameAndType = true
  | nameAndType name descriptor =>
      (∃ text, pool.utf8? name = some text) ∧ ∃ text, pool.utf8? descriptor = some text ∧
        (settings.options.validateDescriptors = true →
          Descriptor.isField text.chars = true ∨ Descriptor.isMethod text.chars = true)
  | methodHandle number reference =>
      ∃ target ∈ handleTargets settings.major number, pool.holds reference target = true
  | methodType descriptor => ∃ text, pool.utf8? descriptor = some text ∧
      (settings.options.validateDescriptors = true → Descriptor.isMethod text.chars = true)
  | invokeDynamic _ typing => pool.holds typing .nameAndType = true
  | classIndex index | stringIndex index => ∃ text, pool.utf8? index = some text
  | _ => True

/-- What is said of an entry that disobeys its rule, the first thing that is wrong with it. -/
def complaint? (settings : Link.Settings) (pool : ConstantPool) (index : UInt16) :
    Entry → Option FormatError
  | member _ owner typing =>
      if !pool.holds owner .classIndex then some (.invalidIndex .owner owner)
      else if !pool.holds typing .nameAndType then some (.invalidIndex .nameAndType typing)
      else none
  | nameAndType name descriptor =>
      match pool.utf8? name, pool.utf8? descriptor with
      | none, _ => some (.invalidIndex .name name)
      | some _, none => some (.invalidIndex .descriptor descriptor)
      | some _, some text =>
          if settings.options.validateDescriptors &&
              !(Descriptor.isField text.chars || Descriptor.isMethod text.chars) then
            some (.malformed (.descriptor text.text descriptor))
          else none
  | methodHandle number reference =>
      match HandleKind.ofNumber? number, pool.get? reference with
      | none, _ => some (.malformed (.handleKind number))
      | some _, none => some (.invalidIndex .reference reference)
      | some kind, some target =>
          if kind.permits settings.major target.kind then none
          else some (.malformed (.handleTarget index kind target.kind))
  | methodType descriptor =>
      match pool.utf8? descriptor with
      | none => some (.invalidIndex .descriptor descriptor)
      | some text =>
          if settings.options.validateDescriptors && !Descriptor.isMethod text.chars then
            some (.malformed (.methodDescriptor text.text descriptor))
          else none
  | invokeDynamic _ typing =>
      if !pool.holds typing .nameAndType then some (.invalidIndex .nameAndType typing) else none
  | classIndex name => if (pool.utf8? name).isNone then some (.invalidIndex .className name) else none
  | stringIndex text => if (pool.utf8? text).isNone then some (.invalidIndex .string text) else none
  | _ => none

/-- What takes the place of an entry: a class by the symbol of its name, a string by its symbol. -/
def written? (pool : ConstantPool) : Entry → Option Entry
  | classIndex name => (pool.utf8? name).map fun symbol => .classEntity (.unresolved symbol)
  | stringIndex text => (pool.utf8? text).map .string
  | _ => none

/-- An entry after linking; all but classes and strings stay as they are. -/
def linkedIn (pool : ConstantPool) (entry : Entry) : Entry := (entry.written? pool).getD entry

end Entry

namespace ConstantPool

/-- Every slot linked by what the pool holds now. -/
def linkedAtOnce (pool : ConstantPool) : ConstantPool := ⟨pool.size, pool.slots.map (·.linkedIn pool)⟩

/-- The entry in the slot `index` is the lowest one that disobeys its rule, for the given reason. -/
structure FirstComplaint (settings : Link.Settings) (pool : ConstantPool) (index : UInt16)
    (error : FormatError) : Prop where
  complaint : ∃ entry, pool.get? index = some entry ∧ entry.complaint? settings pool index = some error
  lower : ∀ i < index, ∀ entry, pool.get? i = some entry → entry.Obeys settings pool

end ConstantPool

/-- Two errors that differ at most in the kind named for the target of a method handle, which may be
a class or a string after the second pass or before it. -/
inductive FormatError.Alike : FormatError → FormatError → Prop
  | refl (error : FormatError) : Alike error error
  | classTarget (index : UInt16) (kind : HandleKind) :
      Alike (.malformed (.handleTarget index kind .classIndex))
        (.malformed (.handleTarget index kind .unresolvedClass))
  | stringTarget (index : UInt16) (kind : HandleKind) :
      Alike (.malformed (.handleTarget index kind .stringIndex))
        (.malformed (.handleTarget index kind .string))

namespace ConstantPool

variable {pool original : ConstantPool} {index : UInt16} {kind : ConstantKind} {symbol : Symbol}
  {settings : Link.Settings}

theorem holds_iff : pool.holds index kind = true ↔ ∃ entry, pool.get? index = some entry ∧ entry.kind = kind := by
  rw [holds]
  cases pool.get? index <;> simp

theorem utf8?_eq_some_iff : pool.utf8? index = some symbol ↔ pool.get? index = some (.utf8 symbol) := by
  rw [utf8?]
  split
  · rename_i h
    simp [h]
  · rename_i hother
    exact ⟨nofun, fun h => absurd h (hother symbol)⟩

theorem utf8At_eq_utf8? (pool : ConstantPool) (index : UInt16) (role : IndexRole) :
    pool.utf8At index role =
      match pool.utf8? index with
      | some symbol => .ok symbol
      | none => .error (.format (.invalidIndex role index)) := by
  rw [utf8At_eq, utf8?]
  cases pool.get? index with
  | none => rfl
  | some entry => cases entry <;> rfl

end ConstantPool

namespace Entry

variable {pool : ConstantPool} {settings : Link.Settings} {entry : Entry} {index : UInt16}

/-- There is a complaint about an entry exactly if it disobeys its rule. -/
theorem complaint?_eq_none_iff : entry.complaint? settings pool index = none ↔ entry.Obeys settings pool := by
  cases entry with
  | vacant | utf8 _ | integer _ | float _ | long _ | double _ | classEntity _ | string _ =>
      exact ⟨fun _ => trivial, fun _ => rfl⟩
  | classIndex index | stringIndex index =>
      simp only [complaint?, Obeys]
      cases pool.utf8? index <;> simp
  | member _ owner typing =>
      simp only [complaint?, Obeys]
      cases pool.holds owner .classIndex <;> cases pool.holds typing .nameAndType <;> simp
  | nameAndType name descriptor =>
      simp only [complaint?, Obeys]
      cases pool.utf8? name <;> cases pool.utf8? descriptor <;> simp [or_iff_not_imp_left]
  | methodHandle number reference =>
      simp only [complaint?, Obeys, ConstantPool.holds_iff, ← permits_iff_mem_handleTargets]
      cases HandleKind.ofNumber? number <;> cases pool.get? reference <;> simp
  | methodType descriptor =>
      simp only [complaint?, Obeys]
      cases pool.utf8? descriptor <;> simp
  | invokeDynamic _ typing =>
      simp only [complaint?, Obeys]
      cases pool.holds typing .nameAndType <;> simp

/-- An entry that obeys its rule refers to slots in which something is. -/
theorem Obeys.references_taken (h : entry.Obeys settings pool) {n : UInt16} (hn : n ∈ entry.references) :
    ∃ named, pool.get? n = some named ∧ named ≠ .vacant := by
  have hholds {n : UInt16} {kind : ConstantKind} (hkind : kind ≠ .invalid)
      (h : pool.holds n kind = true) : ∃ named, pool.get? n = some named ∧ named ≠ .vacant := by
    obtain ⟨named, hnamed, rfl⟩ := ConstantPool.holds_iff.mp h
    exact ⟨named, hnamed, fun hvacant => hkind (by rw [hvacant]; rfl)⟩
  have htext {n : UInt16} {symbol : Symbol} (h : pool.utf8? n = some symbol) :
      ∃ named, pool.get? n = some named ∧ named ≠ .vacant :=
    ⟨_, ConstantPool.utf8?_eq_some_iff.mp h, by simp⟩
  cases entry with
  | vacant | utf8 _ | integer _ | float _ | long _ | double _ | classEntity _ | string _ => cases hn
  | classIndex index | stringIndex index =>
      obtain rfl := List.mem_singleton.mp hn
      obtain ⟨text, h⟩ := h
      exact htext h
  | member _ owner typing =>
      rcases List.mem_cons.mp hn with rfl | hn
      · exact hholds (by simp) h.1
      · obtain rfl := List.mem_singleton.mp hn
        exact hholds (by simp) h.2
  | nameAndType name descriptor =>
      obtain ⟨⟨_, hname⟩, _, hdescriptor, -⟩ := h
      rcases List.mem_cons.mp hn with rfl | hn
      · exact htext hname
      · obtain rfl := List.mem_singleton.mp hn
        exact htext hdescriptor
  | methodHandle number reference =>
      obtain rfl := List.mem_singleton.mp hn
      obtain ⟨target, htarget, h⟩ := h
      refine hholds (fun hinvalid => ?_) h
      subst hinvalid
      cases isReference_of_mem_handleTargets htarget
  | methodType descriptor =>
      obtain rfl := List.mem_singleton.mp hn
      obtain ⟨_, h, -⟩ := h
      exact htext h
  | invokeDynamic _ typing =>
      obtain rfl := List.mem_singleton.mp hn
      exact hholds (by simp) h

end Entry

/-- Linking at once replaces each slot by itself. -/
theorem ConstantPool.slot_linkedAtOnce (pool : ConstantPool) (i : Nat) :
    pool.linkedAtOnce.slot i = (pool.slot i).linkedIn pool := by
  rw [slot, slot, linkedAtOnce, Vector.getElem?_map]
  cases pool.slots[i]? <;> rfl

/-- What a slot may hold while the linker is at work, given what it held at first. -/
inductive Entry.Counterpart : Entry → Entry → Prop
  | same (entry : Entry) : Counterpart entry entry
  | ofClass (name : UInt16) (symbol : Symbol) :
      Counterpart (.classIndex name) (.classEntity (.unresolved symbol))
  | ofString (text : UInt16) (symbol : Symbol) : Counterpart (.stringIndex text) (.string symbol)

theorem Entry.counterpart_linkedIn (entry : Entry) (pool : ConstantPool) :
    entry.Counterpart (entry.linkedIn pool) := by
  cases entry with
  | classIndex name =>
      rw [linkedIn, written?]
      cases pool.utf8? name with
      | none => exact .same _
      | some symbol => exact .ofClass name symbol
  | stringIndex text =>
      rw [linkedIn, written?]
      cases pool.utf8? text with
      | none => exact .same _
      | some symbol => exact .ofString text symbol
  | _ => exact .same _

namespace ConstantPool

/-- No slot holds a class or a string that is linked. -/
def Unlinked (pool : ConstantPool) : Prop :=
  ∀ index entry, pool.get? index = some entry → entry.kind.isClass = false ∧ entry.kind ≠ .string

/-- The slots below slot `n` are linked by what the pool held at first, and the others hold it still. -/
structure LinkedUpTo (n : Nat) (original pool : ConstantPool) : Prop where
  size_eq : pool.size = original.size
  slot_eq : ∀ i, pool.slot i = if i < n then (original.slot i).linkedIn original else original.slot i

namespace LinkedUpTo

variable {original pool : ConstantPool} {n : Nat} {index : UInt16} {entry : Entry}

theorem refl (pool : ConstantPool) : LinkedUpTo 0 pool pool := ⟨rfl, fun _ => rfl⟩

theorem isValid_eq (h : LinkedUpTo n original pool) : pool.isValid index = original.isValid index := by
  rw [isValid, isValid, h.size_eq]

/-- What is found in a slot is the counterpart of what was there at first. -/
theorem get?_rel (h : LinkedUpTo n original pool) (index : UInt16) :
    Option.Rel Entry.Counterpart (original.get? index) (pool.get? index) := by
  cases hvalid : original.isValid index with
  | false =>
      have hnone {p : ConstantPool} (hp : p.isValid index = false) : p.get? index = none := by
        rw [get?, dif_neg (by simp [hp])]
      rw [hnone hvalid, hnone (h.isValid_eq.trans hvalid)]
      exact .none
  | true =>
      rw [get?_eq_some_iff.mpr ⟨hvalid, rfl⟩, get?_eq_some_iff.mpr ⟨h.isValid_eq.trans hvalid, rfl⟩,
        h.slot_eq]
      split
      · exact .some (Entry.counterpart_linkedIn _ _)
      · exact .some (.same _)

theorem get?_of_le (h : LinkedUpTo index.toNat original pool) (hfirst : original.get? index = some entry) :
    pool.get? index = some entry := by
  obtain ⟨hvalid, hslot⟩ := get?_eq_some_iff.mp hfirst
  refine get?_eq_some_iff.mpr ⟨h.isValid_eq.trans hvalid, ?_⟩
  rw [h.slot_eq, if_neg (Nat.lt_irrefl _), hslot]

/-- One more slot is linked. -/
theorem write {pool' : ConstantPool} (h : LinkedUpTo n original pool) (hsize : pool'.size = pool.size)
    (hslot : ∀ i, pool'.slot i = if i = n then (original.slot n).linkedIn original else pool.slot i) :
    LinkedUpTo (n + 1) original pool' := by
  refine ⟨hsize.trans h.size_eq, fun i => ?_⟩
  rw [hslot]
  by_cases hi : i = n
  · rw [if_pos hi, if_pos (by omega), hi]
  · have hbelow : i < n + 1 ↔ i < n := by omega
    rw [if_neg hi, h.slot_eq]
    simp only [hbelow]

/-- A vacant slot is linked as it is. -/
theorem skip (h : LinkedUpTo n original pool) {m : Nat} (hle : n ≤ m)
    (hvacant : ∀ i, n ≤ i → i < m → original.slot i = .vacant) : LinkedUpTo m original pool := by
  refine ⟨h.size_eq, fun i => ?_⟩
  rw [h.slot_eq]
  by_cases hi : i < n
  · rw [if_pos hi, if_pos (by omega)]
  · rw [if_neg hi]
    split
    · rw [hvacant i (by omega) (by assumption)]
      rfl
    · rfl

/-- The whole pool is linked. -/
theorem eq_linkedAtOnce (h : LinkedUpTo n original pool) (hfull : original.size.toNat ≤ n) :
    pool = original.linkedAtOnce := by
  have hslots : pool = ofSlots pool.size fun i => (original.slot i).linkedIn original := by
    refine eq_ofSlots fun i hi => ?_
    rw [h.size_eq] at hi
    rw [h.slot_eq, if_pos (by omega)]
  rw [hslots, h.size_eq]
  exact (eq_ofSlots fun i _ => slot_linkedAtOnce original i).symm

theorem utf8?_eq (h : LinkedUpTo n original pool) (index : UInt16) : pool.utf8? index = original.utf8? index := by
  have hrel := h.get?_rel index
  rw [utf8?, utf8?]
  generalize original.get? index = before, pool.get? index = now at hrel ⊢
  cases hrel with
  | none => rfl
  | some hentry => cases hentry <;> rfl

theorem utf8At_eq (h : LinkedUpTo n original pool) (index : UInt16) (role : IndexRole) :
    pool.utf8At index role =
      match original.utf8? index with
      | some symbol => .ok symbol
      | none => .error (.format (.invalidIndex role index)) := by
  rw [utf8At_eq_utf8?, h.utf8?_eq]

theorem requireNameAndType_eq (h : LinkedUpTo n original pool) (index : UInt16) (role : IndexRole) :
    pool.requireKind index role (· = .nameAndType) =
      if original.holds index .nameAndType = true then .ok ()
      else .error (.format (.invalidIndex role index)) := by
  have hrel := h.get?_rel index
  rw [requireKind_eq, holds]
  generalize original.get? index = before, pool.get? index = now at hrel ⊢
  cases hrel with
  | none => rfl
  | some hentry => cases hentry <;> rfl

/-- A class, linked or not, was the index of its name at first. -/
theorem requireClass_eq (h : LinkedUpTo n original pool) (hunlinked : original.Unlinked)
    (index : UInt16) (role : IndexRole) :
    pool.requireKind index role ConstantKind.isClassOrIndex =
      if original.holds index .classIndex = true then .ok ()
      else .error (.format (.invalidIndex role index)) := by
  have hrel := h.get?_rel index
  have hfresh := hunlinked index
  rw [requireKind_eq, holds]
  generalize original.get? index = before, pool.get? index = now at hrel hfresh ⊢
  cases hrel with
  | none => rfl
  | @some entry _ hentry =>
      cases hentry with
      | ofClass | ofString => rfl
      | same =>
          have hkind : entry.kind.isClassOrIndex = decide (entry.kind = .classIndex) := by
            have hclass := (hfresh entry rfl).1
            revert hclass
            cases entry.kind <;> simp [ConstantKind.isClass, ConstantKind.isClassOrIndex]
          simp only [Option.any_some, hkind]

end LinkedUpTo

namespace LinkedBelow

open RawConstant

variable {constants : List RawConstant} {symbol : List UInt8 → Symbol} {constant : RawConstant}
  {pool : ConstantPool} {index : UInt16} {entry : Entry}

/-- A slot holds nothing or a constant that is not linked. -/
theorem unlinked_of_get? (h : pool.LinkedBelow 1 constants symbol)
    (hentry : pool.get? index = some entry) :
    entry = .vacant ∨ ∃ constant ∈ constants, entry = constant.unlinked symbol := by
  cases hconstant : inSlot? constants index with
  | none =>
      have hcontent := (h.get?_eq_some_iff.mp hentry).2
      rw [inSlot?] at hconstant
      rw [RawConstant.content, hconstant] at hcontent
      exact Or.inl hcontent.symm
  | some constant =>
      have hpos := (bounds_of_at? hconstant).1
      rw [h.get?_of_le hpos hconstant] at hentry
      exact Or.inr ⟨constant, mem_of_at? hconstant, (Option.some.inj hentry).symm⟩

theorem none_linked (h : pool.LinkedBelow 1 constants symbol) : pool.Unlinked := by
  intro index entry hentry
  rcases unlinked_of_get? h hentry with rfl | ⟨constant, -, rfl⟩
  · exact ⟨rfl, by simp [Entry.kind]⟩
  · cases constant with
    | member kind _ _ => cases kind <;> exact ⟨rfl, by simp [unlinked, Entry.kind, MemberKind.constantKind]⟩
    | _ => exact ⟨rfl, by simp [unlinked, Entry.kind]⟩

end LinkedBelow

end ConstantPool

namespace Link

open RawConstant

variable {original pool : ConstantPool} {n : Nat} {index : UInt16} {entry : Entry}
  {settings : Settings}

/-- A result that agrees with a complaint: `x` if there is none, else an error like it. -/
inductive Judged {α : Type} (x : α) : Option FormatError → Except Failure α → Prop
  | accepted : Judged x none (.ok x)
  | refused {error error' : FormatError} (h : error.Alike error') :
      Judged x (some error) (.error (.format error'))

theorem Judged.refuse {α : Type} (x : α) (error : FormatError) :
    Judged x (some error) (.error (.format error)) := .refused (.refl error)

/-- A condition that is looked at only if that is asked for. -/
theorem judged_of_asked (asked condition : Bool) (error : FormatError) :
    Judged none (if asked && !condition then some error else none)
      ((if asked = true then if condition = true then pure () else .error (.format error)
        else pure () : Except Failure Unit) >>= fun _ => pure (none : Option Entry)) := by
  cases asked with
  | false => exact .accepted
  | true =>
      cases condition with
      | true => exact .accepted
      | false => exact .refuse _ _

theorem permits_counterpart {kind : HandleKind} {major : UInt16} {before now : Entry}
    (h : before.Counterpart now) (hpermits : kind.permits major before.kind = false) :
    kind.permits major now.kind = false ∧
      (FormatError.malformed (.handleTarget index kind before.kind)).Alike
        (.malformed (.handleTarget index kind now.kind)) := by
  cases h with
  | same => exact ⟨hpermits, .refl _⟩
  | ofClass => exact ⟨by cases kind <;> simp [HandleKind.permits, Entry.kind, ClassEntity.kind], .classTarget index kind⟩
  | ofString => exact ⟨by cases kind <;> simp [HandleKind.permits, Entry.kind], .stringTarget index kind⟩

/-- What a method handle may refer to is neither a class nor a string. -/
theorem eq_of_permits {kind : HandleKind} {major : UInt16} {before now : Entry}
    (h : before.Counterpart now) (hpermits : kind.permits major before.kind = true) : now = before := by
  cases h with
  | same => rfl
  | ofClass | ofString => cases kind <;> simp [HandleKind.permits, Entry.kind] at hpermits

theorem checkMethodHandle_judged (h : ConstantPool.LinkedUpTo n original pool) (number : UInt8)
    (reference : UInt16) :
    Judged none ((Entry.methodHandle number reference).complaint? settings original index) (do
      checkMethodHandle settings pool index number reference
      return (none : Option Entry)) := by
  have hrel := h.get?_rel reference
  rw [checkMethodHandle_eq, Entry.complaint?]
  generalize original.get? reference = before, pool.get? reference = now at hrel ⊢
  cases HandleKind.ofNumber? number with
  | none => exact .refuse _ _
  | some kind =>
      cases hrel with
      | none => exact .refuse _ _
      | @some before now hentry =>
          cases hpermits : kind.permits settings.major before.kind with
          | true =>
              obtain rfl := eq_of_permits hentry hpermits
              simp only [hpermits, if_true]
              exact .accepted
          | false =>
              obtain ⟨hnow, halike⟩ := permits_counterpart hentry hpermits
              simp only [hpermits, hnow]
              exact .refused halike

/-- The check of an entry looks at a pool that is linked in part and judges by the pool as it was. -/
theorem checkEntry_judged (h : ConstantPool.LinkedUpTo n original pool) (hunlinked : original.Unlinked)
    (hentry : pool.get? index = some entry) (hfirst : original.get? index = some entry)
    (htaken : entry ≠ .vacant) :
    Judged (entry.written? original) (entry.complaint? settings original index)
      (checkEntry settings pool index entry.kind) := by
  rw [checkEntry_of_get? hentry]
  cases entry with
  | vacant => exact absurd rfl htaken
  | utf8 _ | integer _ | float _ | long _ | double _ => exact .accepted
  | classEntity entity =>
      have hclass := (hunlinked index _ hfirst).1
      cases entity <;> cases hclass
  | string symbol => exact absurd rfl (hunlinked index _ hfirst).2
  | classIndex name =>
      rw [checkFound, h.utf8At_eq, Entry.complaint?, Entry.written?]
      cases original.utf8? name with
      | none => exact .refuse _ _
      | some symbol => exact .accepted
  | stringIndex text =>
      rw [checkFound, h.utf8At_eq, Entry.complaint?, Entry.written?]
      cases original.utf8? text with
      | none => exact .refuse _ _
      | some symbol => exact .accepted
  | member kind owner typing =>
      rw [checkFound, checkMember, h.requireClass_eq hunlinked, h.requireNameAndType_eq,
        Entry.complaint?]
      cases original.holds owner .classIndex with
      | false => exact .refuse _ _
      | true =>
          cases original.holds typing .nameAndType with
          | false => exact .refuse _ _
          | true => exact .accepted
  | nameAndType name descriptor =>
      rw [checkFound, checkNameAndType, h.utf8At_eq, h.utf8At_eq, Entry.complaint?]
      cases original.utf8? name with
      | none => exact .refuse _ _
      | some _ =>
          cases original.utf8? descriptor with
          | none => exact .refuse _ _
          | some symbol => exact judged_of_asked _ _ _
  | methodHandle number reference => exact checkMethodHandle_judged h number reference
  | methodType descriptor =>
      rw [checkFound, checkMethodType, h.utf8At_eq, Entry.complaint?]
      cases original.utf8? descriptor with
      | none => exact .refuse _ _
      | some symbol => exact judged_of_asked _ _ _
  | invokeDynamic bootstrap typing =>
      rw [checkFound, h.requireNameAndType_eq, Entry.complaint?]
      cases original.holds typing .nameAndType with
      | false => exact .refuse _ _
      | true => exact .accepted

theorem Judged.ok {α : Type} {x : α} {result : Except Failure α} (h : Judged x none result) :
    result = .ok x := by
  cases h
  rfl

theorem Judged.error {α : Type} {x : α} {error : FormatError} {result : Except Failure α}
    (h : Judged x (some error) result) : ∃ error', error.Alike error' ∧ result = .error (.format error') := by
  cases h with
  | refused halike => exact ⟨_, halike, rfl⟩

theorem linkSlot_of_complaint {error : FormatError} (h : ConstantPool.LinkedUpTo index.toNat original pool)
    (hunlinked : original.Unlinked) (hfirst : original.get? index = some entry)
    (htaken : entry ≠ .vacant) (hcomplaint : entry.complaint? settings original index = some error) :
    ∃ error', error.Alike error' ∧ linkSlot settings pool index entry.kind = .error (.format error') := by
  have hjudged : Judged _ (entry.complaint? settings original index) _ :=
    checkEntry_judged h hunlinked (h.get?_of_le hfirst) hfirst htaken
  rw [hcomplaint] at hjudged
  obtain ⟨error', halike, hcheck⟩ := hjudged.error
  refine ⟨error', halike, ?_⟩
  rw [linkSlot, hcheck]
  rfl

theorem linkSlot_of_obeys (h : ConstantPool.LinkedUpTo index.toNat original pool)
    (hunlinked : original.Unlinked) (hfirst : original.get? index = some entry)
    (htaken : entry ≠ .vacant) (hobeys : entry.Obeys settings original) :
    ∃ pool', linkSlot settings pool index entry.kind = .ok pool' ∧
      ConstantPool.LinkedUpTo (index.toNat + 1) original pool' := by
  have hjudged : Judged _ (entry.complaint? settings original index) _ :=
    checkEntry_judged h hunlinked (h.get?_of_le hfirst) hfirst htaken
  rw [Entry.complaint?_eq_none_iff.mpr hobeys] at hjudged
  obtain ⟨hvalid, hslot⟩ := ConstantPool.get?_eq_some_iff.mp hfirst
  rw [linkSlot, hjudged.ok]
  cases hwritten : entry.written? original with
  | none =>
      refine ⟨pool, rfl, h.write rfl fun i => ?_⟩
      by_cases hi : i = index.toNat
      · have hsame : entry.linkedIn original = entry := by
          rw [Entry.linkedIn, hwritten]
          rfl
        rw [if_pos hi, hi, h.slot_eq, if_neg (Nat.lt_irrefl _), hslot, hsame]
      · rw [if_neg hi]
  | some new =>
      obtain ⟨pool', hput⟩ :=
        (ConstantPool.put_eq_ok_iff pool index new).mpr (h.isValid_eq.trans hvalid)
      refine ⟨pool', ?_, h.write (ConstantPool.size_of_put hput) fun i => ?_⟩
      · dsimp only [bind, Except.bind]
        rw [hput]
        rfl
      · rw [ConstantPool.slot_of_put hput, hslot, Entry.linkedIn, hwritten]
        rfl

/-- A result that checking every entry against the original pool and linking all of them at once
would have as well. -/
inductive AtOnce (settings : Settings) (original : ConstantPool) : Except Failure ConstantPool → Prop
  | accepted (h : ∀ index entry, original.get? index = some entry → entry.Obeys settings original) :
      AtOnce settings original (.ok original.linkedAtOnce)
  | refused {index : UInt16} {error error' : FormatError}
      (h : original.FirstComplaint settings index error) (halike : error.Alike error') :
      AtOnce settings original (.error (.format error'))

theorem AtOnce.ok_of_obeys {result : Except Failure ConstantPool} (h : AtOnce settings original result)
    (hobeys : ∀ index entry, original.get? index = some entry → entry.Obeys settings original) :
    result = .ok original.linkedAtOnce := by
  cases h with
  | accepted => rfl
  | refused hfirst =>
      obtain ⟨entry, hentry, hcomplaint⟩ := hfirst.complaint
      rw [Entry.complaint?_eq_none_iff.mpr (hobeys _ entry hentry)] at hcomplaint
      cases hcomplaint

section Walk

variable {constants before rest : List RawConstant} {symbol : List UInt8 → Symbol}
  {constant : RawConstant}

theorem unlinked_ne_vacant (constant : RawConstant) (symbol : List UInt8 → Symbol) :
    constant.unlinked symbol ≠ .vacant := by
  cases constant <;> simp [unlinked]

/-- The slots before the one where the linker stands are linked and their entries obey. -/
theorem linkFrom_atOnce (h : ConstantPool.LinkedUpTo index.toNat original pool)
    (hplaced : original.LinkedBelow 1 constants symbol) (hconstants : constants = before ++ rest)
    (hindex : index.toNat = 1 + slotCount before)
    (hlower : ∀ i < index, ∀ entry, original.get? i = some entry → entry.Obeys settings original) :
    AtOnce settings original (linkFrom settings pool index) := by
  have hunlinked := hplaced.none_linked
  induction rest generalizing before index pool with
  | nil =>
      have hsize := hplaced.size_eq
      rw [hconstants, List.append_nil] at hsize
      have hfull : ¬index < pool.size := by
        rw [UInt16.lt_iff_toNat_lt, h.size_eq]
        omega
      rw [linkFrom_of_le settings hfull, h.eq_linkedAtOnce (by omega)]
      refine .accepted fun i entry hentry => hlower i ?_ entry hentry
      have hvalid := ConstantPool.lt_of_isValid (ConstantPool.isValid_of_some hentry)
      exact UInt16.lt_iff_toNat_lt.mpr (by omega)
  | cons constant rest ih =>
      have hconstant : inSlot? constants index = some constant := by
        rw [inSlot?, hconstants, hindex]
        exact at?_of_append before rest constant 1
      have hfirst := hplaced.get?_of_le (bounds_of_at? hconstant).1 hconstant
      have htaken := unlinked_ne_vacant constant symbol
      have hnow := h.get?_of_le hfirst
      have hvalid := ConstantPool.isValid_of_some hnow
      have hnext : slotAfter index constant.width = .ok (index + constant.width) := by
        have hbounds := bounds_of_at? hconstant
        have hsize := hplaced.size_eq
        exact slotAfter_of_le original.size (by omega)
      have hvalue := slotAfter_toNat hnext
      have hstep : linkFrom settings pool index =
          linkSlot settings pool index (constant.unlinked symbol).kind >>= fun pool' =>
            linkFrom settings pool' (index + constant.width) := by
        rw [linkFrom_of_lt settings ((ConstantPool.isValid_iff pool index).mp hvalid).2,
          ConstantPool.kindAt_of_some hnow]
        simp only [Except.mapError_ok, bind, Except.bind, width_unlinked, hnext]
      rw [hstep]
      cases hcomplaint : (constant.unlinked symbol).complaint? settings original index with
      | some error =>
          obtain ⟨error', halike, hslot⟩ := linkSlot_of_complaint h hunlinked hfirst htaken hcomplaint
          rw [hslot]
          exact .refused ⟨⟨_, hfirst, hcomplaint⟩, hlower⟩ halike
      | none =>
          have hobeys := Entry.complaint?_eq_none_iff.mp hcomplaint
          obtain ⟨pool', hslot, hlinked⟩ := linkSlot_of_obeys h hunlinked hfirst htaken hobeys
          rw [hslot]
          refine @ih pool' (index + constant.width) (before ++ [constant]) ?_ ?_ ?_ ?_
          · rw [hvalue]
            exact hlinked.skip (Nat.add_le_add_left constant.width_pos _) fun i hlo hhi =>
              hplaced.slot_of_inside hconstant hlo hhi
          · simpa using hconstants
          · rw [hvalue, hindex, slotCount_append, slotCount_cons, slotCount_nil]
            omega
          · intro i hi entry hentry
            rw [UInt16.lt_iff_toNat_lt, hvalue] at hi
            rcases Nat.lt_trichotomy i.toNat index.toNat with hlt | heq | hgt
            · exact hlower i (UInt16.lt_iff_toNat_lt.mpr hlt) entry hentry
            · obtain rfl := UInt16.toNat.inj heq
              rw [hfirst] at hentry
              obtain rfl := Option.some.inj hentry
              exact hobeys
            · have hvacant := hplaced.slot_of_inside hconstant hgt hi
              rw [(ConstantPool.get?_eq_some_iff.mp hentry).2] at hvacant
              subst hvacant
              trivial

end Walk

end Link

namespace ConstantPool

variable {pool : ConstantPool}

/-- The second pass starts from constants in their places. -/
theorem IsFirstPass.linkedBelow (h : pool.IsFirstPass) :
    ∃ constants symbol, pool.LinkedBelow 1 constants symbol := by
  obtain ⟨c, c', table, after, hsize, hread, hplace⟩ := h
  have hpos : 0 < pool.size.toNat := Nat.pos_of_ne_zero fun hzero => hsize (UInt16.toNat.inj hzero)
  obtain ⟨⟨hfull, -⟩, -⟩ :=
    ((RawConstants.readFrom_filled pool.size 1 c hpos).yields _ c').mp ⟨rfl, hread⟩
  have hcount : pool.size.toNat =
      RawConstant.slotCount (RawConstants.read pool.size c).constants.toList + 1 := by
    rw [← hfull, UInt16.toNat_one, Nat.add_comm]
    rfl
  obtain ⟨placed, hplaced, hbelow⟩ := place_vacant (Nat.le_of_eq hcount.symm) table
  rw [hplace] at hplaced
  obtain ⟨hpool, -⟩ := Prod.mk.inj hplaced
  obtain rfl := Except.ok.inj hpool
  exact ⟨_, _, hbelow hcount⟩

/-- Constants that fill a pool are what the first pass reads from their spelling. -/
theorem exists_isFirstPass {constants : List RawConstant} {size : UInt16}
    (hsize : size.toNat = RawConstant.slotCount constants + 1) (hfits : ∀ constant ∈ constants, constant.Fits) :
    ∃ (pool : ConstantPool) (symbol : List UInt8 → Symbol),
      pool.IsFirstPass ∧ pool.LinkedBelow 1 constants symbol := by
  obtain ⟨c, hbytes⟩ := Cursor.consumes_start_iff.mpr
    ⟨[], (List.append_nil (constants.flatMap RawConstant.encode)).symm⟩
  have hfull : (1 : UInt16).toNat + RawConstant.slotCount constants = size.toNat := by
    rw [hsize, UInt16.toNat_one, Nat.add_comm]
  obtain ⟨hconstants, hread⟩ := ((RawConstants.readFrom_filled size 1 _ (by rw [hsize]; exact Nat.succ_pos _)).yields
    constants c).mpr ⟨⟨hfull, hfits⟩, hbytes⟩
  obtain ⟨pool, hplace, hbelow⟩ := place_vacant (Nat.le_of_eq hsize.symm) .empty
  have hbelow := hbelow hsize
  have hpool : pool.size = size := UInt16.toNat.inj (hbelow.size_eq.trans hsize.symm)
  refine ⟨pool, _, ⟨.start (constants.flatMap RawConstant.encode), c, .empty,
    SymbolTable.empty.internAll (RawConstant.texts constants), ?_, ?_, ?_⟩, hbelow⟩
  · intro hzero
    rw [← hpool, hzero] at hsize
    cases hsize
  · rw [hpool]
    exact hread
  · rw [hpool, RawConstants.read, hconstants]
    exact hplace

/-- Linking in place accepts the pools in which every entry obeys its rule before anything is
linked, and links each slot by what the pool held then. A reference that obeys never names the second
slot of a wide entry. What is refused is refused for the lowest entry that disobeys. -/
theorem link_atOnce (h : pool.IsFirstPass) (settings : Link.Settings) :
    (∀ linked, pool.link settings = .ok linked ↔
      (∀ index entry, pool.get? index = some entry → entry.Obeys settings pool) ∧
        linked = pool.linkedAtOnce) ∧
    (∀ index entry, pool.get? index = some entry → entry.kind.isWide = true →
      pool.get? (index + 1) = some .vacant) ∧
    (∀ index entry, pool.get? index = some entry → entry.Obeys settings pool →
      ∀ n ∈ entry.references, ∃ named, pool.get? n = some named ∧ named ≠ .vacant) ∧
    ∀ failure, pool.link settings = .error failure → ∃ index error error',
      pool.FirstComplaint settings index error ∧ error.Alike error' ∧ failure = .format error' := by
  obtain ⟨constants, symbol, hplaced⟩ := h.linkedBelow
  have hresult : Link.AtOnce settings pool (pool.link settings) := by
    refine Link.linkFrom_atOnce ((LinkedUpTo.refl pool).skip (Nat.zero_le 1) fun i _ hi => ?_) hplaced
      (List.nil_append constants).symm rfl fun i hi entry hentry => ?_
    · obtain rfl := Nat.lt_one_iff.mp hi
      rw [hplaced.slot_eq, RawConstant.content, RawConstant.at?_of_lt Nat.one_pos]
    · have hvalid := isValid_iff_toNat.mp (isValid_of_some hentry)
      exact absurd (UInt16.lt_iff_toNat_lt.mp hi) (Nat.not_lt.mpr hvalid.1)
  refine ⟨fun linked => ⟨fun hlink => ?_, fun hgiven => ?_⟩, fun index entry hentry hwide => ?_,
    fun index entry _ hobeys n hn => hobeys.references_taken hn, fun failure hlink => ?_⟩
  · rw [hlink] at hresult
    cases hresult with
    | accepted hobeys => exact ⟨hobeys, rfl⟩
  · obtain ⟨hobeys, rfl⟩ := hgiven
    exact hresult.ok_of_obeys hobeys
  · exact hplaced.second_vacant hentry hwide
  · rw [hlink] at hresult
    cases hresult with
    | refused hfirst halike => exact ⟨_, _, _, hfirst, halike, rfl⟩

/-- A class whose name comes after it, a wide entry, and a string whose text comes before it. -/
theorem link_atOnce_class_and_string : ∃ pool : ConstantPool, pool.IsFirstPass ∧
    ∀ settings, ∃ linked symbol, pool.link settings = .ok linked ∧
      linked.get? 1 = some (.classEntity (.unresolved symbol)) ∧ linked.get? 2 = some (.utf8 symbol) ∧
      linked.get? 4 = some .vacant ∧ linked.get? 5 = some (.string symbol) := by
  let constants : List RawConstant := [.classRef 2, .utf8 [65], .long 5, .string 2]
  obtain ⟨pool, symbol, hfirst, hplaced⟩ := @exists_isFirstPass constants 6 (by decide) (by
    simp [constants, RawConstant.Fits, UInt16.size])
  have hslot (index : UInt16) (constant : RawConstant) (hpos : 1 ≤ index.toNat)
      (hconstant : RawConstant.inSlot? constants index = some constant) :
      pool.get? index = some (constant.unlinked symbol) := hplaced.get?_of_le hpos hconstant
  have hclass : pool.get? 1 = some (.classIndex 2) := hslot 1 (.classRef 2) (by decide) rfl
  have hname : pool.get? 2 = some (.utf8 (symbol [65])) := hslot 2 (.utf8 [65]) (by decide) rfl
  have hwide : pool.get? 3 = some (.long 5) := hslot 3 (.long 5) (by decide) rfl
  have hstring : pool.get? 5 = some (.stringIndex 2) := hslot 5 (.string 2) (by decide) rfl
  have htext : pool.utf8? 2 = some (symbol [65]) := utf8?_eq_some_iff.mpr hname
  have hobeys (settings : Link.Settings) (index : UInt16) (entry : Entry)
      (hentry : pool.get? index = some entry) : entry.Obeys settings pool := by
    rcases hplaced.unlinked_of_get? hentry with rfl | ⟨constant, hconstant, rfl⟩
    · trivial
    · simp only [constants, List.mem_cons, List.not_mem_nil, or_false] at hconstant
      rcases hconstant with rfl | rfl | rfl | rfl
      · exact ⟨_, htext⟩
      · trivial
      · trivial
      · exact ⟨_, htext⟩
  have hlinked {index : UInt16} {entry : Entry} (hentry : pool.get? index = some entry) :
      pool.linkedAtOnce.get? index = some (entry.linkedIn pool) := by
    obtain ⟨hvalid, hslot⟩ := get?_eq_some_iff.mp hentry
    exact get?_eq_some_iff.mpr ⟨hvalid, by rw [slot_linkedAtOnce, hslot]⟩
  refine ⟨pool, hfirst, fun settings => ⟨pool.linkedAtOnce, symbol [65],
    ((link_atOnce hfirst settings).1 _).mpr ⟨hobeys settings, rfl⟩, ?_, ?_, ?_, ?_⟩⟩
  · rw [hlinked hclass, Entry.linkedIn, Entry.written?, htext]
    rfl
  · exact hlinked hname
  · exact hlinked ((link_atOnce hfirst ⟨52, {}⟩).2.1 3 _ hwide rfl)
  · rw [hlinked hstring, Entry.linkedIn, Entry.written?, htext]
    rfl

end ConstantPool

end ClassLoading
