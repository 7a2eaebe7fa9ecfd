import ClassLoading.Proofs.Constant.References

/-!
# Linking

Linking a pool succeeds exactly if every constant refers to what it should, which can be said of the
constants before anything is linked. The linker goes through the slots in order; where it stands, the
slots before are linked and those from there on are not.
-/

namespace ClassLoading

open RawConstant

namespace ConstantPool

/-- A pool of some constants, of which those below slot `n` are linked. -/
structure LinkedBelow (n : Nat) (pool : ConstantPool) (constants : List RawConstant)
    (symbol : List UInt8 → Symbol) : Prop where
  size_eq : pool.size.toNat = slotCount constants + 1
  slot_eq : ∀ i, pool.slot i = content constants symbol n i

namespace LinkedBelow

variable {pool pool' : ConstantPool} {constants : List RawConstant} {symbol : List UInt8 → Symbol}
  {constant : RawConstant} {entry : Entry} {index : UInt16} {role : IndexRole} {n : Nat}

theorem ofSlots_content {size : UInt16} (hsize : size.toNat = slotCount constants + 1) (n : Nat) :
    (ofSlots size (content constants symbol n)).LinkedBelow n constants symbol where
  size_eq := hsize
  slot_eq i := by
    rcases Nat.lt_or_ge i size.toNat with hi | hi
    · exact slot_ofSlots hi
    · have hnone : at? constants 1 i = none := by
        cases hconstant : at? constants 1 i with
        | none => rfl
        | some constant =>
            have hbounds := bounds_of_at? hconstant
            have hwidth := constant.width_pos
            omega
      rw [slot_of_le _ hi, content, hnone]

/-- The constants and how many of them are linked determine a pool. -/
theorem unique (h : pool.LinkedBelow n constants symbol)
    (h' : pool'.LinkedBelow n constants symbol) : pool' = pool := by
  have hsize : pool'.size = pool.size := UInt16.toNat.inj (h'.size_eq.trans h.size_eq.symm)
  have hslots : pool = ofSlots pool.size _ := eq_ofSlots fun i _ => h.slot_eq i
  have hslots' : pool' = ofSlots pool'.size _ := eq_ofSlots fun i _ => h'.slot_eq i
  rw [hslots', hslots, hsize]

theorem get?_eq_some_iff (h : pool.LinkedBelow n constants symbol) :
    pool.get? index = some entry ↔
      pool.isValid index = true ∧ content constants symbol n index.toNat = entry := by
  rw [ConstantPool.get?_eq_some_iff, h.slot_eq]

theorem isValid_of_inSlot? (h : pool.LinkedBelow n constants symbol)
    (hconstant : inSlot? constants index = some constant) : pool.isValid index = true := by
  have hbounds := bounds_of_at? hconstant
  have hpos := constant.width_pos
  have hsize := h.size_eq
  exact isValid_iff_toNat.mpr ⟨by omega, by omega⟩

theorem get?_of_inSlot? (h : pool.LinkedBelow n constants symbol)
    (hconstant : inSlot? constants index = some constant) :
    ∃ entry, pool.get? index = some entry ∧ constant.Form constants symbol entry :=
  ⟨_, h.get?_eq_some_iff.mpr ⟨h.isValid_of_inSlot? hconstant, rfl⟩, form_content hconstant⟩

theorem inSlot?_of_get? (h : pool.LinkedBelow n constants symbol)
    (hentry : pool.get? index = some entry) (hvacant : entry ≠ .vacant) :
    ∃ constant, inSlot? constants index = some constant ∧ constant.Form constants symbol entry := by
  obtain ⟨-, hcontent⟩ := h.get?_eq_some_iff.mp hentry
  cases hconstant : inSlot? constants index with
  | none =>
      have hnone : content constants symbol n index.toNat = .vacant := by
        rw [inSlot?] at hconstant
        rw [content, hconstant]
      rw [hnone] at hcontent
      exact absurd hcontent.symm hvacant
  | some constant =>
      rw [← hcontent]
      exact ⟨constant, rfl, form_content hconstant⟩

theorem get?_of_le (h : pool.LinkedBelow n constants symbol) (hle : n ≤ index.toNat)
    (hconstant : inSlot? constants index = some constant) :
    pool.get? index = some (constant.unlinked symbol) := by
  refine h.get?_eq_some_iff.mpr ⟨h.isValid_of_inSlot? hconstant, ?_⟩
  rw [inSlot?] at hconstant
  rw [content, hconstant]
  exact if_neg (Nat.not_lt.mpr hle)

/-- The slots that begin an entry are those where a constant starts. -/
theorem inSlot?_of_mem_indicesFrom (h : pool.LinkedBelow n constants symbol)
    {before rest : List RawConstant} (hconstants : constants = before ++ rest)
    (hindex : index ∈ pool.indicesFrom (1 + slotCount before)) :
    ∃ constant, inSlot? constants index = some constant := by
  have hsize := h.size_eq
  induction rest generalizing before with
  | nil =>
      rw [hconstants, List.append_nil] at hsize
      rw [indicesFrom_of_le pool (by omega)] at hindex
      cases hindex
  | cons constant rest ih =>
      have hbound : 1 + slotCount before < pool.size.toNat := by
        have := constant.width_pos
        rw [hsize, hconstants, slotCount_append, slotCount_cons]
        omega
      have hconstant : at? constants 1 (1 + slotCount before) = some constant := by
        rw [hconstants]
        exact at?_of_append before rest constant 1
      have hwidth : (pool.slot (1 + slotCount before)).kind.width = constant.width := by
        rw [h.slot_eq]
        exact (form_content hconstant).width_eq
      rw [indicesFrom_slot hbound, hwidth] at hindex
      rcases List.mem_cons.mp hindex with rfl | hindex
      · rw [inSlot?, toNat_index hbound]
        exact ⟨constant, hconstant⟩
      · apply @ih (before ++ [constant]) (by simpa using hconstants)
        rw [slotCount_append, slotCount_cons, slotCount_nil, Nat.add_zero, ← Nat.add_assoc]
        exact hindex

/-- Between the slot of a constant and the one that it leaves free next there is nothing. -/
theorem slot_of_inside (h : pool.LinkedBelow n constants symbol)
    (hconstant : inSlot? constants index = some constant) {i : Nat} (hlo : index.toNat < i)
    (hhi : i < index.toNat + constant.width.toNat) : pool.slot i = .vacant := by
  obtain ⟨before, after, rfl, hindex⟩ := at?_eq_some_iff.mp hconstant
  rw [hindex] at hlo hhi
  rw [h.slot_eq, content, at?_of_inside hlo hhi]

/-- The second slot of a wide entry is left free. -/
theorem second_vacant (h : pool.LinkedBelow n constants symbol)
    (hentry : pool.get? index = some entry) (hwide : entry.kind.isWide = true) :
    pool.get? (index + 1) = some .vacant := by
  have htaken : entry ≠ .vacant := by
    intro hvacant
    subst hvacant
    cases hwide
  obtain ⟨constant, hconstant, hform⟩ := h.inSlot?_of_get? hentry htaken
  have hwidth : constant.width = 2 := by rw [← hform.width_eq, ConstantKind.width, if_pos hwide]
  have hbounds := bounds_of_at? hconstant
  have hsize := h.size_eq
  have hlt := pool.size.toNat_lt
  rw [hwidth, show (2 : UInt16).toNat = 2 from rfl] at hbounds
  have hnext : (index + 1).toNat = index.toNat + 1 := by
    rw [UInt16.toNat_add, UInt16.toNat_one, Nat.mod_eq_of_lt (by omega)]
  rw [ConstantPool.get?_eq_some_iff, isValid_iff_toNat, hnext]
  refine ⟨⟨by omega, by omega⟩, h.slot_of_inside hconstant (Nat.lt_succ_self _) ?_⟩
  rw [hwidth]
  exact Nat.lt_succ_self _

/-- A check that a linked and an unlinked slot pass alike. -/
theorem requireKind_answers (h : pool.LinkedBelow n constants symbol)
    {expected : ConstantKind → Bool} {kind : ConstantKind} (hinvalid : expected .invalid = false)
    (hform : ∀ {constant : RawConstant} {entry : Entry}, constant.Form constants symbol entry →
      (expected entry.kind = true ↔ constant.kind = kind)) :
    Answers (pool.requireKind index role expected) fun _ => HasKind constants index kind := by
  apply ConstantPool.requireKind_answers.congr
  intro _
  constructor
  · intro hgiven
    obtain ⟨entry, hentry, hexpected⟩ := hgiven
    have hvacant : entry ≠ .vacant := by
      intro heq
      subst heq
      rw [show Entry.vacant.kind = .invalid from rfl, hinvalid] at hexpected
      cases hexpected
    obtain ⟨constant, hconstant, hform'⟩ := h.inSlot?_of_get? hentry hvacant
    exact ⟨constant, hconstant, (hform hform').mp hexpected⟩
  · intro hgiven
    obtain ⟨constant, hconstant, hkind⟩ := hgiven
    obtain ⟨entry, hentry, hform'⟩ := h.get?_of_inSlot? hconstant
    exact ⟨entry, hentry, (hform hform').mpr hkind⟩

theorem requireClass_answers (h : pool.LinkedBelow n constants symbol) :
    Answers (pool.requireKind index role ConstantKind.isClassOrIndex)
      fun _ => HasKind constants index .classRef :=
  h.requireKind_answers rfl fun hform => hform.isClassOrIndex_iff

theorem requireNameAndType_answers (h : pool.LinkedBelow n constants symbol) :
    Answers (pool.requireKind index role (· = .nameAndType))
      fun _ => HasKind constants index .nameAndType := by
  refine h.requireKind_answers rfl fun hform => ?_
  rw [decide_eq_true_iff]
  exact hform.kind_iff (Or.inr rfl)

theorem utf8At_answers (h : pool.LinkedBelow n constants symbol) :
    Answers (pool.utf8At index role)
      fun s => ∃ text, HasText constants index text ∧ s = symbol text := by
  apply ConstantPool.utf8At_answers.congr
  intro s
  constructor
  · intro hentry
    obtain ⟨constant, hconstant, hform⟩ := h.inSlot?_of_get? hentry (by simp)
    obtain ⟨text, rfl, hs⟩ := hform.utf8_iff.mp rfl
    exact ⟨text, hconstant, hs⟩
  · intro hgiven
    obtain ⟨text, htext, hs⟩ := hgiven
    obtain ⟨entry, hentry, hform⟩ := h.get?_of_inSlot? htext
    rw [hentry, hform.utf8_iff.mpr ⟨text, rfl, hs⟩]

end LinkedBelow

end ConstantPool

namespace Link

variable {settings : Settings} {pool : ConstantPool} {constants before rest : List RawConstant}
  {symbol : List UInt8 → Symbol} {constant : RawConstant} {index : UInt16} {n : Nat}

theorem checkMember_answers (h : pool.LinkedBelow n constants symbol) (owner typing : UInt16) :
    Answers (checkMember pool owner typing) fun _ =>
      HasKind constants owner .classRef ∧ HasKind constants typing .nameAndType := by
  apply (h.requireClass_answers.bind fun _ _ => h.requireNameAndType_answers).congr
  intro _
  simp

theorem optional_answers (asked condition : Bool) (error : FormatError) :
    Answers (if asked = true then
        if condition = true then pure () else .error (.format error)
      else pure () : Except Failure Unit) fun _ => asked = true → condition = true := by
  cases asked with
  | false => exact (Answers.pure ()).congr fun _ => by simp
  | true => exact (Answers.guard _ error).congr fun _ => by simp

theorem chars_symbol (hsymbol : ∀ text, (symbol text).bytes = text) (text : List UInt8) :
    (symbol text).chars = Symbol.charsOfBytes text := by
  rw [Symbol.chars, hsymbol]

theorem checkNameAndType_answers (h : pool.LinkedBelow n constants symbol)
    (hsymbol : ∀ text, (symbol text).bytes = text) (name descriptor : UInt16) :
    Answers (checkNameAndType settings pool name descriptor) fun _ =>
      (RawConstant.nameAndType name descriptor).Refers settings constants := by
  have heq : checkNameAndType settings pool name descriptor = (do
      let _ ← pool.utf8At name .name
      let s ← pool.utf8At descriptor .descriptor
      if settings.options.validateDescriptors then
        if (Descriptor.isField s.chars || Descriptor.isMethod s.chars) = true then pure ()
        else malformed (.descriptor s.text descriptor)) := by
    unfold checkNameAndType
    cases pool.utf8At name .name <;> rfl
  rw [heq]
  refine (h.utf8At_answers.bind fun _ _ => h.utf8At_answers.bind fun s _ =>
    optional_answers _ _ _).congr fun _ => ?_
  constructor
  · intro hgiven
    obtain ⟨_, ⟨text, htext, -⟩, _, ⟨text', htext', rfl⟩, hvalid⟩ := hgiven
    rw [chars_symbol hsymbol, Bool.or_eq_true, Descriptor.isField_charsOfBytes_iff,
      Descriptor.isMethod_charsOfBytes_iff] at hvalid
    exact ⟨⟨text, htext⟩, text', htext', hvalid⟩
  · intro hgiven
    obtain ⟨⟨text, htext⟩, text', htext', hvalid⟩ := hgiven
    refine ⟨_, ⟨text, htext, rfl⟩, _, ⟨text', htext', rfl⟩, ?_⟩
    rw [chars_symbol hsymbol, Bool.or_eq_true, Descriptor.isField_charsOfBytes_iff,
      Descriptor.isMethod_charsOfBytes_iff]
    exact hvalid

theorem checkMethodType_answers (h : pool.LinkedBelow n constants symbol)
    (hsymbol : ∀ text, (symbol text).bytes = text) (descriptor : UInt16) :
    Answers (checkMethodType settings pool descriptor) fun _ =>
      (RawConstant.methodType descriptor).Refers settings constants := by
  apply (h.utf8At_answers.bind fun s _ => optional_answers _ _ _).congr
  intro _
  constructor
  · intro hgiven
    obtain ⟨_, ⟨text, htext, rfl⟩, hvalid⟩ := hgiven
    rw [chars_symbol hsymbol, Descriptor.isMethod_charsOfBytes_iff] at hvalid
    exact ⟨text, htext, hvalid⟩
  · intro hgiven
    obtain ⟨text, htext, hvalid⟩ := hgiven
    refine ⟨_, ⟨text, htext, rfl⟩, ?_⟩
    rw [chars_symbol hsymbol, Descriptor.isMethod_charsOfBytes_iff]
    exact hvalid

/-- The check of a method handle, in terms of the content of the slot referred to. -/
theorem checkMethodHandle_eq (number : UInt8) (reference : UInt16) :
    checkMethodHandle settings pool index number reference =
      match HandleKind.ofNumber? number, pool.get? reference with
      | none, _ => malformed (.handleKind number)
      | some _, none => .error (.format (.invalidIndex .reference reference))
      | some kind, some entry =>
          if kind.permits settings.major entry.kind = true then pure ()
          else malformed (.handleTarget index kind entry.kind) := by
  unfold checkMethodHandle
  cases HandleKind.ofNumber? number with
  | none => rfl
  | some kind =>
      cases hentry : pool.get? reference with
      | none =>
          simp only [ConstantPool.isValid_of_none hentry]
          rfl
      | some entry =>
          simp only [ConstantPool.isValid_of_some hentry, ConstantPool.kindAt_of_some hentry]
          rfl

theorem mem_handleTargets_of_form {constant : RawConstant} {entry : Entry} {major : UInt16}
    {number : UInt8} (h : constant.Form constants symbol entry) :
    entry.kind ∈ handleTargets major number ↔ constant.kind ∈ handleTargets major number := by
  constructor
  · intro htarget
    have hkind := h.kind_iff (Or.inl (isReference_of_mem_handleTargets htarget))
    rwa [hkind.mp rfl]
  · intro htarget
    have hkind := h.kind_iff (Or.inl (isReference_of_mem_handleTargets htarget))
    rwa [hkind.mpr rfl]

theorem checkMethodHandle_answers (h : pool.LinkedBelow n constants symbol) (number : UInt8)
    (reference : UInt16) :
    Answers (checkMethodHandle settings pool index number reference) fun _ =>
      (RawConstant.methodHandle number reference).Refers settings constants := by
  have hrefers : (RawConstant.methodHandle number reference).Refers settings constants ↔
      ∃ entry, pool.get? reference = some entry ∧
        entry.kind ∈ handleTargets settings.major number := by
    constructor
    · intro hgiven
      obtain ⟨_, htarget, constant, hconstant, rfl⟩ := hgiven
      obtain ⟨entry, hentry, hform⟩ := h.get?_of_inSlot? hconstant
      exact ⟨entry, hentry, (mem_handleTargets_of_form hform).mpr htarget⟩
    · intro hgiven
      obtain ⟨entry, hentry, htarget⟩ := hgiven
      have hvacant : entry ≠ .vacant := by
        intro heq
        subst heq
        cases isReference_of_mem_handleTargets htarget
      obtain ⟨constant, hconstant, hform⟩ := h.inSlot?_of_get? hentry hvacant
      exact ⟨constant.kind, (mem_handleTargets_of_form hform).mp htarget, constant, hconstant, rfl⟩
  rw [checkMethodHandle_eq]
  split
  · rename_i hnone
    apply (Answers.refuse _).congr
    intro _
    simp only [hrefers, ← permits_iff_mem_handleTargets, hnone]
    simp
  · rename_i hentry
    apply (Answers.refuse _).congr
    intro _
    rw [hrefers, hentry]
    simp
  · rename_i kind entry hkind hentry
    apply (Answers.guard _ _).congr
    intro _
    rw [hrefers, hentry]
    simp [← permits_iff_mem_handleTargets, hkind]

/-- A check after which nothing is written. -/
theorem unwritten_answers {check : Except Failure Unit} {P : Prop} (h : Answers check fun _ => P) :
    Answers (do check; return none) fun written : Option Entry => P ∧ written = none := by
  apply (h.bind fun _ _ => Answers.pure none).congr
  intro written
  simp

/-- A text after which `make` of it is written. -/
theorem written_answers (h : pool.LinkedBelow n constants symbol) (text : UInt16) (role : IndexRole)
    (make : Symbol → Entry) :
    Answers (do return some (make (← pool.utf8At text role))) fun written =>
      (∃ content, HasText constants text content) ∧
        written = some (make (symbol (textIn constants text))) := by
  apply (h.utf8At_answers.bind fun s _ => Answers.pure (some (make s))).congr
  intro written
  constructor
  · intro hgiven
    obtain ⟨_, ⟨content, hcontent, rfl⟩, rfl⟩ := hgiven
    rw [textIn_of_hasText hcontent]
    exact ⟨⟨content, hcontent⟩, rfl⟩
  · intro hgiven
    obtain ⟨⟨content, hcontent⟩, rfl⟩ := hgiven
    rw [textIn_of_hasText hcontent]
    exact ⟨_, ⟨content, hcontent, rfl⟩, rfl⟩

/-- The check of an entry that is known to be in its slot. -/
def checkFound (settings : Settings) (pool : ConstantPool) (index : UInt16) :
    Entry → Except Failure (Option Entry)
  | .utf8 _ | .integer _ | .float _ | .long _ | .double _ => return none
  | .member _ owner typing => do
      checkMember pool owner typing
      return none
  | .nameAndType name descriptor => do
      checkNameAndType settings pool name descriptor
      return none
  | .methodHandle number reference => do
      checkMethodHandle settings pool index number reference
      return none
  | .methodType descriptor => do
      checkMethodType settings pool descriptor
      return none
  | .invokeDynamic _ typing => do
      pool.requireKind typing .nameAndType (· = .nameAndType)
      return none
  | .classIndex name => return some (.classEntity (.unresolved (← pool.utf8At name .className)))
  | .stringIndex text => return some (.string (← pool.utf8At text .string))
  | entry => throw (.fault (.linkedTooEarly entry.kind index))

/-- The getters of the linker find what the slot holds. -/
theorem checkEntry_of_get? {entry : Entry} (h : pool.get? index = some entry) :
    checkEntry settings pool index entry.kind = checkFound settings pool index entry := by
  have hat := ConstantPool.entryAt_of_some h
  cases entry with
  | vacant | utf8 _ | integer _ | float _ | long _ | double _ | string _ => rfl
  | classEntity entity => cases entity <;> rfl
  | member kind owner typing =>
      have hfound : pool.referenceAt index = .ok (owner, typing) := by
        rw [ConstantPool.referenceAt, hat]
        rfl
      cases kind <;> (simp only [Entry.kind, MemberKind.constantKind, checkEntry, hfound]; rfl)
  | classIndex _ =>
      simp only [Entry.kind, checkEntry, ConstantPool.classIndexAt, ConstantPool.pickAt, hat]
      rfl
  | stringIndex _ =>
      simp only [Entry.kind, checkEntry, ConstantPool.stringIndexAt, ConstantPool.pickAt, hat]
      rfl
  | nameAndType _ _ =>
      simp only [Entry.kind, checkEntry, ConstantPool.nameAndTypeAt, ConstantPool.pickAt, hat]
      rfl
  | methodHandle _ _ =>
      simp only [Entry.kind, checkEntry, ConstantPool.methodHandleAt, ConstantPool.pickAt, hat]
      rfl
  | methodType _ =>
      simp only [Entry.kind, checkEntry, ConstantPool.methodTypeAt, ConstantPool.pickAt, hat]
      rfl
  | invokeDynamic _ _ =>
      simp only [Entry.kind, checkEntry, ConstantPool.invokeDynamicAt, ConstantPool.pickAt, hat]
      rfl

theorem checkEntry_answers (h : pool.LinkedBelow n constants symbol)
    (hsymbol : ∀ text, (symbol text).bytes = text)
    (hentry : pool.get? index = some (constant.unlinked symbol)) :
    Answers (checkEntry settings pool index (constant.unlinked symbol).kind) fun written =>
      constant.Refers settings constants ∧ written = constant.rewritten constants symbol := by
  rw [checkEntry_of_get? hentry]
  cases constant with
  | utf8 _ | integer _ | float _ | long _ | double _ =>
      exact (Answers.pure none).congr fun written => by simp [Refers, rewritten]
  | classRef name => exact written_answers h name .className (.classEntity <| .unresolved ·)
  | string text => exact written_answers h text .string .string
  | member _ owner typing => exact unwritten_answers (checkMember_answers h owner typing)
  | nameAndType name descriptor =>
      exact unwritten_answers (checkNameAndType_answers h hsymbol name descriptor)
  | methodHandle number reference =>
      exact unwritten_answers (checkMethodHandle_answers h number reference)
  | methodType descriptor => exact unwritten_answers (checkMethodType_answers h hsymbol descriptor)
  | invokeDynamic _ typing => exact unwritten_answers h.requireNameAndType_answers

theorem get?_unlinked (h : pool.LinkedBelow index.toNat constants symbol)
    (hconstant : inSlot? constants index = some constant) :
    pool.get? index = some (constant.unlinked symbol) :=
  h.get?_of_le (Nat.le_refl _) hconstant

theorem linkedBelow_of_slot {pool' : ConstantPool} (h : pool.LinkedBelow index.toNat constants symbol)
    (hconstant : inSlot? constants index = some constant) (hsize : pool'.size = pool.size)
    (hslot : ∀ i, pool'.slot i =
      if i = index.toNat then constant.linked constants symbol else pool.slot i) :
    pool'.LinkedBelow (index.toNat + constant.width.toNat) constants symbol := by
  refine ⟨by rw [hsize, h.size_eq], fun i => ?_⟩
  rw [hslot, content_of_at? hconstant, h.slot_eq]

theorem write_answers {written : Option Entry} (h : pool.LinkedBelow index.toNat constants symbol)
    (hconstant : inSlot? constants index = some constant) :
    written = constant.rewritten constants symbol →
      Answers (match written with
        | none => return pool
        | some entry => (pool.put index entry).mapError .fault : Except Failure ConstantPool)
        fun pool' => pool'.LinkedBelow (index.toNat + constant.width.toNat) constants symbol := by
  intro hwritten
  cases written with
  | none =>
      have hlinked : constant.linked constants symbol = constant.unlinked symbol := by
        rw [linked, ← hwritten]
        rfl
      have hunlinked : pool.slot index.toNat = constant.unlinked symbol :=
        (ConstantPool.get?_eq_some_iff.mp (get?_unlinked h hconstant)).2
      have hafter : pool.LinkedBelow _ constants symbol := linkedBelow_of_slot h hconstant rfl fun i => by
        by_cases hi : i = index.toNat
        · rw [if_pos hi, hi, hunlinked, hlinked]
        · rw [if_neg hi]
      exact Answers.only hafter fun _ => hafter.unique
  | some entry =>
      have hlinked : constant.linked constants symbol = entry := by
        rw [linked, ← hwritten]
        rfl
      obtain ⟨put, hput⟩ :=
        (ConstantPool.put_eq_ok_iff pool index entry).mpr (h.isValid_of_inSlot? hconstant)
      have hafter := linkedBelow_of_slot h hconstant (ConstantPool.size_of_put hput) fun i => by
        rw [ConstantPool.slot_of_put hput, hlinked]
      dsimp only
      rw [hput]
      exact Answers.only hafter fun _ => hafter.unique

theorem linkSlot_answers (h : pool.LinkedBelow index.toNat constants symbol)
    (hsymbol : ∀ text, (symbol text).bytes = text) (hconstant : inSlot? constants index = some constant) :
    Answers (linkSlot settings pool index (constant.unlinked symbol).kind) fun pool' =>
      constant.Refers settings constants ∧
        pool'.LinkedBelow (index.toNat + constant.width.toNat) constants symbol := by
  refine ((checkEntry_answers h hsymbol (get?_unlinked h hconstant)).bind fun written hwritten =>
    write_answers h hconstant hwritten.2).congr fun pool' => ?_
  simp

theorem width_unlinked (constant : RawConstant) (symbol : List UInt8 → Symbol) :
    (constant.unlinked symbol).kind.width = constant.width := by
  cases constant <;> rfl

/-- From the slot where it stands on, the linker checks and rewrites one constant after another. -/
theorem linkFrom_answers (h : pool.LinkedBelow index.toNat constants symbol)
    (hsymbol : ∀ text, (symbol text).bytes = text) (hconstants : constants = before ++ rest)
    (hindex : index.toNat = 1 + slotCount before) :
    Answers (linkFrom settings pool index) fun pool' =>
      (∀ constant ∈ rest, constant.Refers settings constants) ∧
        pool'.LinkedBelow (1 + slotCount constants) constants symbol := by
  induction rest generalizing before index pool with
  | nil =>
      rw [List.append_nil] at hconstants
      rw [hindex, ← hconstants] at h
      have hfull : ¬index < pool.size := by
        rw [UInt16.lt_iff_toNat_lt, h.size_eq, hindex, hconstants]
        omega
      rw [linkFrom_of_le settings hfull]
      exact Answers.only ⟨by simp, h⟩ fun _ hother => h.unique hother.2
  | cons constant rest ih =>
      have hconstant : inSlot? constants index = some constant := by
        rw [inSlot?, hconstants, hindex]
        exact at?_of_append before rest constant 1
      have hvalid := h.isValid_of_inSlot? hconstant
      have hkind := ConstantPool.kindAt_of_some (get?_unlinked h hconstant)
      have hnext : slotAfter index constant.width = .ok (index + constant.width) := by
        have hbounds := bounds_of_at? hconstant
        have hsize := h.size_eq
        exact slotAfter_of_le pool.size (by omega)
      have hvalue := slotAfter_toNat hnext
      have hstep : linkFrom settings pool index =
          linkSlot settings pool index (constant.unlinked symbol).kind >>= fun pool' =>
            linkFrom settings pool' (index + constant.width) := by
        rw [linkFrom_of_lt settings ((ConstantPool.isValid_iff pool index).mp hvalid).2, hkind]
        simp only [Except.mapError_ok, bind, Except.bind, width_unlinked, hnext]
      rw [hstep]
      refine ((linkSlot_answers h hsymbol hconstant).bind fun pool' hpool' =>
        @ih pool' (before ++ [constant]) (index + constant.width) ?_ ?_ ?_).congr
        fun pool' => ?_
      · rw [hvalue]
        exact hpool'.2
      · simpa using hconstants
      · rw [hvalue, hindex, slotCount_append, slotCount_cons, slotCount_nil]
        omega
      · constructor
        · intro hgiven
          obtain ⟨_, ⟨hrefers, -⟩, hrest, hlinked⟩ := hgiven
          exact ⟨List.forall_mem_cons.mpr ⟨hrefers, hrest⟩, hlinked⟩
        · intro hgiven
          obtain ⟨hall, hlinked⟩ := hgiven
          obtain ⟨hrefers, hrest⟩ := List.forall_mem_cons.mp hall
          exact ⟨_, ⟨hrefers, .ofSlots_content h.size_eq _⟩, hrest, hlinked⟩

end Link

namespace ConstantPool

variable {constants : List RawConstant} {symbol : List UInt8 → Symbol} {size : UInt16}

/-- The pool of some constants when all of them are linked. -/
def ofConstants (size : UInt16) (constants : List RawConstant) (symbol : List UInt8 → Symbol) :
    ConstantPool :=
  ofSlots size (content constants symbol size.toNat)

/-- Linking a pool of constants succeeds exactly if each of them refers to what it should. -/
theorem link_answers {settings : Link.Settings} {pool : ConstantPool}
    (hsize : size.toNat = slotCount constants + 1) (h : pool.LinkedBelow 1 constants symbol)
    (hsymbol : ∀ text, (symbol text).bytes = text) :
    Answers (pool.link settings) fun linked =>
      (∀ constant ∈ constants, constant.Refers settings constants) ∧
        linked = ofConstants size constants symbol := by
  have hfrom : Answers (pool.link settings) _ :=
    Link.linkFrom_answers h hsymbol (List.nil_append constants).symm rfl
  apply hfrom.congr
  intro linked
  have hall : (ofConstants size constants symbol).LinkedBelow (1 + slotCount constants) constants symbol := by
    rw [ofConstants, hsize, Nat.add_comm 1]
    exact .ofSlots_content hsize _
  constructor
  · intro hgiven
    obtain ⟨hrefers, hlinked⟩ := hgiven
    exact ⟨hrefers, hall.unique hlinked⟩
  · intro hgiven
    obtain ⟨hrefers, rfl⟩ := hgiven
    exact ⟨hrefers, hall⟩

/-- Constants that fit into a pool are placed without a fault; if they fill it, none of them is linked
yet. -/
theorem place_vacant (hsize : slotCount constants + 1 ≤ size.toNat) (table : SymbolTable) :
    ∃ placed, place constants 1 (vacant size) table = (.ok placed, table.internAll (texts constants)) ∧
      (size.toNat = slotCount constants + 1 →
        placed.LinkedBelow 1 constants (table.internAll (texts constants)).instanceOf) := by
  obtain ⟨placed, hplace, hplaced, hslot⟩ := @place_eq constants 1 (vacant size) table Nat.one_pos
    (by rw [Nat.add_comm]; exact hsize)
  refine ⟨placed, hplace, fun hfull => ⟨by rw [hplaced]; exact hfull, fun i => ?_⟩⟩
  rw [hslot, slot_vacant, content]
  cases hconstant : at? constants 1 i with
  | none => simp [hconstant]
  | some constant =>
      have hbounds := bounds_of_at? hconstant
      simp only [UInt16.toNat_one, hconstant, Option.map_some, Option.getD_some]
      exact (if_neg (by omega)).symm

end ConstantPool

end ClassLoading
