import ClassLoading.Constant.Link
import ClassLoading.Proofs.Symbol.Interning
import Mathlib.Control.Basic

/-!
# Erasing instances

Symbols of equal content may be different instances. Placing and linking constants do not look at the
instances: with the instances of a pool erased they come to the same, failures included.
-/

namespace ClassLoading

/-- The content of a symbol, as an instance that all symbols of that content share. -/
def Symbol.erase (s : Symbol) : Symbol := ⟨s.bytes, 0⟩

/-- What a class slot refers to, whatever the instances. -/
def ClassEntity.erase : ClassEntity → ClassEntity
  | unresolved name => unresolved name.erase
  | resolved handle => resolved ⟨handle.id, handle.name.erase⟩

def Entry.erase : Entry → Entry
  | utf8 symbol => utf8 symbol.erase
  | string symbol => string symbol.erase
  | classEntity entity => classEntity entity.erase
  | entry => entry

def ConstantPool.erase (pool : ConstantPool) : ConstantPool := ⟨pool.size, pool.slots.map Entry.erase⟩

@[simp]
theorem Symbol.chars_erase (s : Symbol) : s.erase.chars = s.chars := rfl

@[simp]
theorem Symbol.text_erase (s : Symbol) : s.erase.text = s.text := rfl

theorem Symbol.erase_inj {s t : Symbol} : s.erase = t.erase ↔ s.bytes = t.bytes := by
  simp [Symbol.erase]

@[simp]
theorem ClassEntity.name_erase (entity : ClassEntity) : entity.erase.name = entity.name.erase := by
  cases entity <;> rfl

@[simp]
theorem Entry.kind_erase (entry : Entry) : entry.erase.kind = entry.kind := by
  cases entry with
  | classEntity entity => cases entity <;> rfl
  | _ => rfl

theorem Except.mapError_map {ε ε' α β : Type} (f : ε → ε') (g : α → β) (x : Except ε α) :
    (g <$> x).mapError f = g <$> x.mapError f := by
  cases x <;> rfl

theorem Except.cases_of_map_eq {ε α β : Type} {f : α → β} {x y : Except ε α}
    (h : f <$> x = f <$> y) :
    (∃ e, x = .error e ∧ y = .error e) ∨ ∃ a b, x = .ok a ∧ y = .ok b ∧ f a = f b := by
  cases x with
  | error e =>
      cases y with
      | error e' =>
          obtain rfl := Except.error.inj h
          exact Or.inl ⟨e, rfl, rfl⟩
      | ok b => cases h
  | ok a =>
      cases y with
      | error e' => cases h
      | ok b => exact Or.inr ⟨a, b, rfl, rfl, Except.ok.inj h⟩

namespace ConstantPool

variable {pool pool' : ConstantPool} {index : UInt16}

@[simp]
theorem isValid_erase (pool : ConstantPool) (index : UInt16) :
    pool.erase.isValid index = pool.isValid index := rfl

theorem get?_erase (pool : ConstantPool) (index : UInt16) :
    pool.erase.get? index = (pool.get? index).map Entry.erase := by
  by_cases hvalid : pool.isValid index = true
  · have hlt := lt_of_isValid hvalid
    have hvalid' : pool.erase.isValid index = true := hvalid
    rw [get?, get?, dif_pos hvalid, dif_pos hvalid']
    exact congrArg some (Vector.getElem_map Entry.erase hlt)
  · have hvalid' : ¬pool.erase.isValid index = true := hvalid
    rw [get?, get?, dif_neg hvalid, dif_neg hvalid']
    rfl

theorem put_erase (pool : ConstantPool) (index : UInt16) (entry : Entry) :
    pool.erase.put index entry.erase = erase <$> pool.put index entry := by
  by_cases hvalid : pool.isValid index = true
  · have hlt := lt_of_isValid hvalid
    have hvalid' : pool.erase.isValid index = true := hvalid
    rw [put, put, dif_pos hvalid, dif_pos hvalid']
    refine congrArg Except.ok ?_
    simp only [erase, Vector.map_set]
  · have hvalid' : ¬pool.erase.isValid index = true := hvalid
    rw [put, put, dif_neg hvalid, dif_neg hvalid']
    rfl

theorem entryAt_erase (pool : ConstantPool) (index : UInt16) :
    pool.erase.entryAt index = Entry.erase <$> pool.entryAt index := by
  rw [entryAt, entryAt, get?_erase]
  cases pool.get? index <;> rfl

theorem kindAt_erase (pool : ConstantPool) (index : UInt16) :
    pool.erase.kindAt index = pool.kindAt index := by
  simp only [kindAt, entryAt_erase, bind_map_left, Entry.kind_erase]

/-- A getter yields the same with instances erased, if what it picks off an entry does. -/
theorem pickAt_erase {α : Type} {pick : Entry → Option α} (f : α → α)
    (hpick : ∀ entry : Entry, pick entry.erase = (pick entry).map f) :
    pool.erase.pickAt index pick = f <$> pool.pickAt index pick := by
  simp only [pickAt, entryAt_erase, bind_map_left, map_bind]
  apply bind_congr
  intro entry
  rw [hpick]
  cases pick entry <;> rfl

theorem symbolAt_erase (pool : ConstantPool) (index : UInt16) :
    pool.erase.symbolAt index = Symbol.erase <$> pool.symbolAt index :=
  pickAt_erase Symbol.erase fun entry => by cases entry <;> rfl

theorem classIndexAt_erase (pool : ConstantPool) (index : UInt16) :
    pool.erase.classIndexAt index = pool.classIndexAt index :=
  (pickAt_erase id fun entry => by cases entry <;> rfl).trans (id_map _)

theorem stringIndexAt_erase (pool : ConstantPool) (index : UInt16) :
    pool.erase.stringIndexAt index = pool.stringIndexAt index :=
  (pickAt_erase id fun entry => by cases entry <;> rfl).trans (id_map _)

theorem methodTypeAt_erase (pool : ConstantPool) (index : UInt16) :
    pool.erase.methodTypeAt index = pool.methodTypeAt index :=
  (pickAt_erase id fun entry => by cases entry <;> rfl).trans (id_map _)

theorem nameAndTypeAt_erase (pool : ConstantPool) (index : UInt16) :
    pool.erase.nameAndTypeAt index = pool.nameAndTypeAt index :=
  (pickAt_erase id fun entry => by cases entry <;> rfl).trans (id_map _)

theorem invokeDynamicAt_erase (pool : ConstantPool) (index : UInt16) :
    pool.erase.invokeDynamicAt index = pool.invokeDynamicAt index :=
  (pickAt_erase id fun entry => by cases entry <;> rfl).trans (id_map _)

theorem methodHandleAt_erase (pool : ConstantPool) (index : UInt16) :
    pool.erase.methodHandleAt index = pool.methodHandleAt index :=
  (pickAt_erase id fun entry => by cases entry <;> rfl).trans (id_map _)

theorem referenceAt_erase (pool : ConstantPool) (index : UInt16) :
    pool.erase.referenceAt index = pool.referenceAt index := by
  simp only [referenceAt, entryAt_erase, bind_map_left]
  apply bind_congr
  intro entry
  cases entry with
  | classEntity entity => cases entity <;> rfl
  | _ => rfl

theorem classAt_erase (pool : ConstantPool) (index : UInt16) :
    pool.erase.classAt index = ClassEntity.erase <$> pool.classAt index := by
  simp only [classAt, entryAt_erase, bind_map_left, map_bind]
  apply bind_congr
  intro entry
  cases entry <;> rfl

theorem requireKind_erase (pool : ConstantPool) (index : UInt16) (role : IndexRole)
    (expected : ConstantKind → Bool) :
    pool.erase.requireKind index role expected = pool.requireKind index role expected := by
  simp only [requireKind, isValid_erase, kindAt_erase]

theorem utf8At_erase (pool : ConstantPool) (index : UInt16) (role : IndexRole) :
    pool.erase.utf8At index role = Symbol.erase <$> pool.utf8At index role := by
  simp only [utf8At, requireKind_erase, symbolAt_erase, map_bind, Except.mapError_map]

end ConstantPool

namespace Link

variable {settings : Settings} {pool : ConstantPool} {index : UInt16}

theorem checkMember_erase (pool : ConstantPool) (owner typing : UInt16) :
    checkMember pool.erase owner typing = checkMember pool owner typing := by
  simp only [checkMember, ConstantPool.requireKind_erase]

theorem checkNameAndType_erase (settings : Settings) (pool : ConstantPool) (name descriptor : UInt16) :
    checkNameAndType settings pool.erase name descriptor =
      checkNameAndType settings pool name descriptor := by
  simp only [checkNameAndType, ConstantPool.utf8At_erase, discard, map_const, Function.comp_apply,
    Functor.map_map, bind_map_left, Symbol.chars_erase, Symbol.text_erase]
  rfl

theorem checkMethodType_erase (settings : Settings) (pool : ConstantPool) (descriptor : UInt16) :
    checkMethodType settings pool.erase descriptor = checkMethodType settings pool descriptor := by
  simp only [checkMethodType, ConstantPool.utf8At_erase, bind_map_left, Symbol.chars_erase,
    Symbol.text_erase]
  rfl

theorem checkMethodHandle_erase (settings : Settings) (pool : ConstantPool) (index : UInt16)
    (number : UInt8) (reference : UInt16) :
    checkMethodHandle settings pool.erase index number reference =
      checkMethodHandle settings pool index number reference := by
  simp only [checkMethodHandle, ConstantPool.isValid_erase, ConstantPool.kindAt_erase]

theorem checkEntry_erase (settings : Settings) (pool : ConstantPool) (index : UInt16)
    (kind : ConstantKind) : checkEntry settings pool.erase index kind =
      Option.map Entry.erase <$> checkEntry settings pool index kind := by
  cases kind <;> simp only [checkEntry, ConstantPool.referenceAt_erase,
    ConstantPool.nameAndTypeAt_erase, ConstantPool.methodHandleAt_erase,
    ConstantPool.methodTypeAt_erase, ConstantPool.invokeDynamicAt_erase,
    ConstantPool.classIndexAt_erase, ConstantPool.stringIndexAt_erase, checkMember_erase,
    checkNameAndType_erase, checkMethodType_erase, checkMethodHandle_erase,
    ConstantPool.requireKind_erase, ConstantPool.utf8At_erase, map_bind, bind_map_left, map_pure,
    Option.map_none, Option.map_some, Entry.erase, ClassEntity.erase] <;> rfl

theorem linkSlot_erase (settings : Settings) (pool : ConstantPool) (index : UInt16)
    (kind : ConstantKind) : linkSlot settings pool.erase index kind =
      ConstantPool.erase <$> linkSlot settings pool index kind := by
  simp only [linkSlot, checkEntry_erase, bind_map_left, map_bind]
  apply bind_congr
  intro written
  cases written with
  | none => rfl
  | some entry =>
      have hput := ConstantPool.put_erase pool index entry
      simp only [Option.map_some, hput, Except.mapError_map]

theorem linkFrom_erase (settings : Settings) (pool : ConstantPool) (index : UInt16) :
    linkFrom settings pool.erase index = ConstantPool.erase <$> linkFrom settings pool index := by
  induction index using slotAfter_induction generalizing pool with
  | slot index ih =>
      by_cases hlt : index < pool.size
      · have hlt' : index < pool.erase.size := hlt
        rw [linkFrom_of_lt settings hlt, linkFrom_of_lt settings hlt']
        simp only [ConstantPool.kindAt_erase, linkSlot_erase, bind_map_left, map_bind]
        refine bind_congr fun kind => bind_congr fun pool' => ?_
        -- The rest is linked with the pool that both sides have linked so far.
        cases hnext : slotAfter index kind.width with
        | error fault => rfl
        | ok next => exact ih kind next hnext pool'
      · have hle : ¬index < pool.erase.size := hlt
        rw [linkFrom_of_le settings hlt, linkFrom_of_le settings hle]
        rfl

end Link

namespace ConstantPool

variable {pool pool' : ConstantPool}

theorem link_erase (settings : Link.Settings) (pool : ConstantPool) :
    pool.erase.link settings = erase <$> pool.link settings :=
  Link.linkFrom_erase settings pool 1

theorem toEntry_erase (constant : RawConstant) (table table' : SymbolTable) :
    (constant.toEntry table).1.erase = (constant.toEntry table').1.erase := by
  cases constant with
  | utf8 bytes =>
      refine congrArg Entry.utf8 (Symbol.erase_inj.mpr ?_)
      exact (table.bytes_instanceOf bytes).trans (table'.bytes_instanceOf bytes).symm
  | _ => rfl

/-- What constants are placed as depends on the symbol table in the instances only. -/
theorem place_erase (constants : List RawConstant) (index : UInt16) (h : pool.erase = pool'.erase)
    (table table' : SymbolTable) :
    erase <$> (place constants index pool table).1 = erase <$> (place constants index pool' table').1 := by
  induction constants generalizing index pool pool' table table' with
  | nil => exact congrArg Except.ok h
  | cons constant constants ih =>
      have hput := put_erase pool index (constant.toEntry table).1
      rw [h, toEntry_erase constant table table', put_erase] at hput
      simp only [place]
      rcases Except.cases_of_map_eq hput with
        ⟨fault, hplaced', hplaced⟩ | ⟨placed', placed, hplaced', hplaced, heq⟩
      · rw [hplaced, hplaced']
      · rw [hplaced, hplaced']
        dsimp only
        cases slotAfter index constant.width with
        | error fault => rfl
        | ok next => exact ih next heq.symm _ _

end ConstantPool

end ClassLoading
