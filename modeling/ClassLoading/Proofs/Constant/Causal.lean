import ClassLoading.Proofs.Causal
import ClassLoading.Proofs.Constant.Linking
import ClassLoading.Proofs.Constant.Spelling

/-!
# Reading constants causally

Neither lookups in a pool nor the linker ever find that bytes are missing. The constants of a pool are
read causally, and where bytes are missing, the constants before are those that more bytes leave.
-/

namespace ClassLoading

open Decoder

namespace ConstantPool

theorem requireKind_neverShort (pool : ConstantPool) (index : UInt16) (role : IndexRole)
    (expected : ConstantKind → Bool) : NeverShort (pool.requireKind index role expected) := by
  rw [requireKind_eq]
  split
  · exact .ok ()
  · exact .error nofun

theorem utf8At_neverShort (pool : ConstantPool) (index : UInt16) (role : IndexRole) :
    NeverShort (pool.utf8At index role) :=
  (pool.requireKind_neverShort index role _).bind fun _ => .mapError _

end ConstantPool

namespace Link

theorem malformed_neverShort {α : Type} (cause : Malformation) :
    NeverShort (malformed cause : Except Failure α) := .error nofun

theorem checkMember_neverShort (pool : ConstantPool) (owner typing : UInt16) :
    NeverShort (checkMember pool owner typing) :=
  (pool.requireKind_neverShort owner .owner _).bind fun _ => pool.requireKind_neverShort typing _ _

theorem optional_neverShort (asked condition : Bool) (error : FormatError)
    (h : (Failure.format error).IsFinal) : NeverShort (if asked = true then
        if condition = true then pure () else .error (.format error)
      else pure () : Except Failure Unit) := by
  cases asked <;> cases condition
  · exact .ok ()
  · exact .ok ()
  · exact .error h
  · exact .ok ()

theorem checkNameAndType_neverShort (settings : Settings) (pool : ConstantPool)
    (name descriptor : UInt16) : NeverShort (checkNameAndType settings pool name descriptor) := by
  have hname : NeverShort (discard (pool.utf8At name .name)) :=
    (pool.utf8At_neverShort name _).bind fun _ => .ok _
  exact hname.bind fun _ => (pool.utf8At_neverShort descriptor _).bind fun _ =>
    optional_neverShort _ _ _ nofun

theorem checkMethodType_neverShort (settings : Settings) (pool : ConstantPool) (descriptor : UInt16) :
    NeverShort (checkMethodType settings pool descriptor) :=
  (pool.utf8At_neverShort descriptor _).bind fun _ => optional_neverShort _ _ _ nofun

theorem checkMethodHandle_neverShort (settings : Settings) (pool : ConstantPool) (index : UInt16)
    (number : UInt8) (reference : UInt16) :
    NeverShort (checkMethodHandle settings pool index number reference) := by
  rw [checkMethodHandle_eq]
  split
  · exact malformed_neverShort _
  · exact .error nofun
  · split
    · exact .ok ()
    · exact malformed_neverShort _

theorem checkEntry_neverShort (settings : Settings) (pool : ConstantPool) (index : UInt16)
    (kind : ConstantKind) : NeverShort (checkEntry settings pool index kind) := by
  cases kind with
  | utf8 | integer | float | long | double => exact .ok none
  | fieldRef | methodRef | interfaceMethodRef =>
      exact (NeverShort.mapError _).bind fun _ =>
        (checkMember_neverShort pool _ _).bind fun _ => .ok none
  | nameAndType =>
      exact (NeverShort.mapError _).bind fun _ =>
        (checkNameAndType_neverShort settings pool _ _).bind fun _ => .ok none
  | methodHandle =>
      exact (NeverShort.mapError _).bind fun _ =>
        (checkMethodHandle_neverShort settings pool index _ _).bind fun _ => .ok none
  | methodType =>
      exact (NeverShort.mapError _).bind fun _ =>
        (checkMethodType_neverShort settings pool _).bind fun _ => .ok none
  | invokeDynamic =>
      exact (NeverShort.mapError _).bind fun _ =>
        (pool.requireKind_neverShort _ _ _).bind fun _ => .ok none
  | classIndex | stringIndex =>
      exact (NeverShort.mapError _).bind fun _ => (pool.utf8At_neverShort _ _).bind fun _ => .ok _
  | _ => exact .error nofun

theorem linkSlot_neverShort (settings : Settings) (pool : ConstantPool) (index : UInt16)
    (kind : ConstantKind) : NeverShort (linkSlot settings pool index kind) := by
  refine (checkEntry_neverShort settings pool index kind).bind fun written => ?_
  cases written with
  | none => exact .ok pool
  | some entry => exact .mapError _

theorem linkFrom_neverShort (settings : Settings) (pool : ConstantPool) (index : UInt16) :
    NeverShort (linkFrom settings pool index) := by
  induction index using slotAfter_induction generalizing pool with
  | slot index ih =>
      by_cases hlt : index < pool.size
      · rw [linkFrom_of_lt settings hlt]
        refine (NeverShort.mapError _).bind fun kind =>
          (linkSlot_neverShort settings pool index kind).bind fun pool' => ?_
        cases hnext : slotAfter index kind.width with
        | error fault => exact .error nofun
        | ok next => exact ih kind next hnext pool'
      · rw [linkFrom_of_le settings hlt]
        exact .ok pool

end Link

namespace RawConstant

theorem readPair_causal (make : UInt16 → UInt16 → RawConstant) : Causal (readPair make) :=
  (Causal.ensure 4).bind fun _ => Causal.u16Unchecked.bind fun _ =>
    Causal.u16Unchecked.bind fun _ => .pure _

theorem requireSecondSlot_causal (size index : UInt16) (kind : ConstantKind) :
    Causal (requireSecondSlot size index kind) :=
  (Causal.ofExcept (.mapError _)).bind fun _ => .require nofun

theorem readBody_causal (size index : UInt16) (kind : ConstantKind) :
    Causal (readBody size index kind) := by
  cases kind with
  | utf8 => exact Causal.u16.bind fun length => (Causal.bytes length.toNat).bind fun _ => .pure _
  | integer | float => exact Causal.u32.bind fun _ => .pure _
  | long | double =>
      exact (requireSecondSlot_causal size index _).bind fun _ => Causal.u64.bind fun _ => .pure _
  | classRef | string | methodType => exact Causal.u16.bind fun _ => .pure _
  | fieldRef | methodRef | interfaceMethodRef | nameAndType | invokeDynamic => exact readPair_causal _
  | methodHandle =>
      exact (Causal.ensure 3).bind fun _ => Causal.u8Unchecked.bind fun _ =>
        Causal.u16Unchecked.bind fun _ => .pure _
  | _ => exact .ofExcept (.error nofun)

theorem read_causal (size index : UInt16) : Causal (read size index) := by
  refine Causal.u8.bind fun tag => ?_
  cases ConstantKind.ofFileTag? tag with
  | none => exact .reject nofun
  | some kind => exact readBody_causal size index kind

end RawConstant

namespace RawConstants

/-- What the reading of the constants from slot `index` on comes to depends only on the bytes up to
where it ends, and so do the constants that it has read until then. -/
structure Causal (size index : UInt16) (c : Cursor) (result : RawConstants) : Prop where
  yields : ∀ {c'}, result.outcome = .ok c' → c'.limit = c.limit ∧
    ∀ more, readFrom size index (c.append more) = ⟨result.constants, .ok (c'.append more)⟩
  fails : ∀ {failure}, result.outcome = .error failure → failure.Within c.limit ∧
    ∀ more, failure.Stands more.length → readFrom size index (c.append more) =
      ⟨result.constants, .error (failure.after more.length)⟩

theorem causal_full {size index : UInt16} {c : Cursor} (hindex : ¬index < size) :
    Causal size index c ⟨#[], .ok c⟩ where
  yields := by
    intro c' h
    obtain rfl := Except.ok.inj h
    exact ⟨rfl, fun more => readFrom_of_full hindex⟩
  fails := by
    intro failure h
    cases h

theorem causal_broken {size index : UInt16} {c : Cursor} {failure : Failure} (hindex : index < size)
    (hread : RawConstant.read size index c = .error failure) :
    Causal size index c ⟨#[], .error failure⟩ where
  yields := by
    intro c' h
    cases h
  fails := by
    intro failure' h
    obtain rfl := Except.error.inj h
    obtain ⟨hwithin, hmore⟩ := (RawConstant.read_causal size index).fails hread
    exact ⟨hwithin, fun more hstands => readFrom_of_error hindex (hmore more hstands)⟩

theorem causal_entry {size index next : UInt16} {c c₁ : Cursor} {constant : RawConstant}
    {rest : RawConstants} (hindex : index < size)
    (hread : RawConstant.read size index c = .ok (constant, c₁))
    (hnext : slotAfter index constant.width = .ok next) (hrest : Causal size next c₁ rest) :
    Causal size index c ⟨#[constant] ++ rest.constants, rest.outcome⟩ := by
  obtain ⟨hlimit, hmore⟩ := (RawConstant.read_causal size index).yields hread
  constructor
  · intro c' h
    obtain ⟨hlimit', hmore'⟩ := hrest.yields h
    refine ⟨hlimit'.trans hlimit, fun more => ?_⟩
    rw [readFrom_of_ok hindex (hmore more) hnext, hmore' more]
  · intro failure h
    obtain ⟨hwithin, hmore'⟩ := hrest.fails h
    refine ⟨hlimit ▸ hwithin, fun more hstands => ?_⟩
    rw [readFrom_of_ok hindex (hmore more) hnext, hmore' more hstands]

theorem readFrom_causal (size index : UInt16) (c : Cursor) :
    Causal size index c (readFrom size index c) := by
  refine readFrom_induction (motive := Causal size) ?full ?broken ?entry index c
  case full =>
    intro index c hindex
    exact causal_full hindex
  case broken =>
    intro index c failure hindex hread
    exact causal_broken hindex hread
  case entry =>
    intro index next c c' constant rest hindex hread hnext _ ih
    exact causal_entry hindex hread hnext ih

end RawConstants

end ClassLoading
