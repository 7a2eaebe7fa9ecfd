import ClassLoading.Proofs.Constant.Walk
import ClassLoading.Proofs.Loader.WellLinked

/-!
# Tilings

The entries of a decoded pool take all of its slots, and none of them twice: where one ends the next begins,
and the last ends with the pool. So a walk comes by exactly the slots that hold something.
-/

namespace ClassLoading

open SlotWalk

theorem RawConstant.Form.kind_ne_invalid {constants : List RawConstant} {symbol : List UInt8 → Symbol}
    {constant : RawConstant} {entry : Entry} (h : constant.Form constants symbol entry) :
    entry.kind ≠ .invalid := by
  rcases h.kind_eq with heq | ⟨-, hclass⟩ | ⟨-, hstring⟩
  · have hin := constant.kind_mem_inFiles
    rw [heq]
    intro hinvalid
    rw [hinvalid] at hin
    revert hin
    decide
  · intro hinvalid
    rw [hinvalid] at hclass
    cases hclass
  · intro hinvalid
    rw [hinvalid] at hstring
    revert hstring
    decide

namespace ConstantPool

variable {pool pool' : ConstantPool} {index : UInt16}

/-- The slot behind the entry that begins at a slot. -/
def behind (pool : ConstantPool) (index : UInt16) : Nat :=
  index.toNat + (pool.slot index.toNat).kind.width.toNat

/-- The slots that the entry takes that begins at a slot. -/
def taken (pool : ConstantPool) (index : UInt16) : List Nat :=
  List.range' index.toNat (pool.slot index.toNat).kind.width.toNat

/-- Every entry ends within the pool, is there, and leaves its second slot free if it has one. -/
structure Tiled (pool : ConstantPool) : Prop where
  fits : ∀ index ∈ pool.indices, pool.behind index ≤ pool.size.toNat
  occupied : ∀ index ∈ pool.indices, (pool.slot index.toNat).kind ≠ .invalid
  followed : ∀ index ∈ pool.indices, ∀ i, index.toNat < i → i < pool.behind index → pool.slot i = .vacant

theorem flatMap_taken_indicesFrom {start : Nat} (hpos : 0 < start) (hstart : start ≤ pool.size.toNat)
    (hfits : ∀ index ∈ pool.indicesFrom start, pool.behind index ≤ pool.size.toNat) :
    (pool.indicesFrom start).flatMap pool.taken = List.range' start (pool.size.toNat - start) := by
  refine pool.indicesFrom_induction
    (motive := fun i slots => i ≤ pool.size.toNat →
      (∀ index ∈ slots, pool.behind index ≤ pool.size.toNat) →
        slots.flatMap pool.taken = List.range' i (pool.size.toNat - i))
    ?done ?visit hpos hstart hfits
  case done =>
    intro i _ hend _ _
    rw [Nat.sub_eq_zero_of_le hend]
    rfl
  case visit =>
    intro i _ hlt ih _ hfits
    have hvalue := toNat_index hlt
    have hbehind := hfits _ List.mem_cons_self
    rw [behind, hvalue] at hbehind
    rw [List.flatMap_cons, ih hbehind fun index hindex => hfits index (List.mem_cons_of_mem _ hindex),
      taken, hvalue, List.range'_append_1]
    congr 1
    omega

namespace Tiled

theorem flatMap_taken (h : pool.Tiled) :
    pool.indices.flatMap pool.taken = List.range' 1 (pool.size.toNat - 1) := by
  rcases Nat.lt_or_ge 0 pool.size.toNat with hsize | hsize
  · exact flatMap_taken_indicesFrom Nat.one_pos hsize h.fits
  · rw [indices, indicesFrom_of_le pool (by omega), Nat.sub_eq_zero_of_le (by omega)]
    rfl

/-- A walk comes by exactly the slots that hold something. -/
theorem mem_indices_iff (h : pool.Tiled) (hvalid : pool.isValid index = true) :
    index ∈ pool.indices ↔ (pool.slot index.toNat).kind ≠ .invalid := by
  refine ⟨h.occupied index, fun hkind => ?_⟩
  obtain ⟨hpos, hlt⟩ := isValid_iff_toNat.mp hvalid
  have htaken : index.toNat ∈ pool.indices.flatMap pool.taken := by
    rw [h.flatMap_taken, List.mem_range'_1]
    omega
  obtain ⟨other, hother, hinside⟩ := List.mem_flatMap.mp htaken
  obtain ⟨hle, hbehind⟩ := List.mem_range'_1.mp hinside
  rcases Nat.eq_or_lt_of_le hle with heq | hgt
  · rwa [← UInt16.toNat.inj heq]
  · rw [h.followed other hother _ hgt hbehind] at hkind
    exact absurd rfl hkind

/-- What class slots refer to does not matter. -/
theorem relink (h : pool.Tiled) (hpool : pool.Relinks pool') : pool'.Tiled := by
  have hbounds {index : UInt16} (hindex : index ∈ pool.indices) :
      0 < index.toNat ∧ index.toNat < pool.size.toNat := bounds_of_mem_indicesFrom Nat.one_pos hindex
  have hbehind {index : UInt16} (hindex : index ∈ pool.indices) : pool'.behind index = pool.behind index := by
    rw [behind, behind, hpool.width_eq (hbounds hindex).1 (hbounds hindex).2]
  refine ⟨fun index hindex => ?_, fun index hindex => ?_, fun index hindex i hlo hhi => ?_⟩ <;>
    rw [hpool.indices_eq] at hindex
  · rw [hbehind hindex, hpool.size_eq]
    exact h.fits index hindex
  · rcases hpool.slot_cases (hbounds hindex).1 (hbounds hindex).2 with heq | ⟨_, entity', -, hentity'⟩
    · rw [heq]
      exact h.occupied index hindex
    · rw [hentity']
      cases entity' <;> exact nofun
  · rw [hbehind hindex] at hhi
    have hvacant := h.followed index hindex i hlo hhi
    have hlt := Nat.lt_of_lt_of_le hhi (h.fits index hindex)
    rcases hpool.slot_cases (Nat.lt_of_le_of_lt (Nat.zero_le _) hlo) hlt with heq | ⟨_, _, hentity, -⟩
    · exact heq.trans hvacant
    · rw [hvacant] at hentity
      cases hentity

end Tiled

section

open RawConstant

variable {constants : List RawConstant} {symbol : List UInt8 → Symbol} {n : Nat}

/-- Constants that lie one behind another, linked or not, tile their pool. -/
theorem LinkedBelow.tiled (h : pool.LinkedBelow n constants symbol) : pool.Tiled := by
  have hstarts {index : UInt16} (hindex : index ∈ pool.indices) : ∃ constant,
      inSlot? constants index = some constant ∧
        constant.Form constants symbol (pool.slot index.toNat) := by
    obtain ⟨constant, hconstant⟩ := h.inSlot?_of_mem_indicesFrom (List.nil_append constants).symm hindex
    rw [h.slot_eq]
    exact ⟨constant, hconstant, form_content hconstant⟩
  refine ⟨fun index hindex => ?_, fun index hindex => ?_, fun index hindex i hlo hhi => ?_⟩
  all_goals obtain ⟨constant, hconstant, hform⟩ := hstarts hindex
  · have hbounds := bounds_of_at? hconstant
    rw [behind, hform.width_eq, h.size_eq]
    omega
  · exact hform.kind_ne_invalid
  · rw [behind, hform.width_eq] at hhi
    exact h.slot_of_inside hconstant hlo hhi

end

end ConstantPool

/-- The pool of a decoded class is tiled. -/
theorem ClassFile.tiled_of_decode {options : Options} {data : List UInt8} {table after : SymbolTable}
    {file : ClassFile} (h : decode options data table = (.ok file, after)) : file.pool.Tiled := by
  obtain ⟨declaration, _, -, -, hdeclares⟩ := declares_of_decode h
  rw [hdeclares.pool_eq]
  exact (ConstantPool.LinkedBelow.ofSlots_content declaration.toNat_poolSize _).tiled

namespace PackedPool

open ConstantPool (resolveCalls)

variable {packed : PackedPool} {pool : ConstantPool} {index : UInt16}

/-- The slots that the entry takes that begins at a slot, by the kind that is stored for it. -/
def taken (packed : PackedPool) (index : UInt16) : List Nat :=
  match packed.kindAt index with
  | .ok kind => List.range' index.toNat kind.width.toNat
  | .error _ => []

namespace Represents

theorem kindAt_eq (h : Represents packed pool) (hvalid : pool.isValid index = true) :
    packed.kindAt index = .ok (pool.slot index.toNat).kind :=
  (h.holds (ConstantPool.get?_eq_some_iff.mpr ⟨hvalid, rfl⟩)).kindAt_eq

theorem isValid_of_kindAt {kind : ConstantKind} (h : Represents packed pool)
    (hkind : packed.kindAt index = .ok kind) : pool.isValid index = true := by
  rw [← h.isValid_eq]
  unfold kindAt at hkind
  split at hkind
  · assumption
  · cases hkind

theorem flatMap_taken (h : Represents packed pool) :
    pool.indices.flatMap packed.taken = pool.indices.flatMap pool.taken := by
  refine List.flatMap_congr fun index hindex => ?_
  have hbounds := ConstantPool.bounds_of_mem_indicesFrom Nat.one_pos hindex
  rw [taken, h.kindAt_eq (ConstantPool.isValid_iff_toNat.mpr hbounds)]
  rfl

end Represents

/-- Whatever was written into a pool and resolved in it, a walk over its slots ends, without a slot that is
out of range and without a counter that is not exact, and comes by the first slot and always the one behind
the entry where it stands, as long as there is one; resolutions do not change its course. For the pool of a
decoded class, the slots that its entries take are all slots in order, each of them once, and a walk comes
by those that hold something. -/
theorem walk_visits_each_entry_once :
    (∀ (size : UInt16) (calls : List Call),
      let packed := (vacant size).after calls
      (∃! slots, packed.Walks slots) ∧
      (∀ slots, packed.Walks slots ↔
        Visits 1 size (fun index => (content calls index).kind.width) slots) ∧
      (∀ counter, Reaches packed.walkStep counter → counter.toNat ≤ size.toNat + 1 ∧
        (counter.toNat < size.toNat →
          packed.isValid counter.toUInt16 = true ∧ counter.toUInt16.toNat = counter.toNat)) ∧
      ∀ slots, packed.Walks slots →
        ∀ resolutions, (packed.after (resolveCalls resolutions)).Walks slots) ∧
    ∀ options data table file after, ClassFile.decode options data table = (.ok file, after) →
      Represents ((vacant file.pool.size).after file.pool.writes) file.pool ∧
      ∀ packed, Represents packed file.pool → ∀ resolutions,
        let later := packed.after (resolveCalls resolutions)
        later.Walks file.pool.indices ∧
        file.pool.indices.flatMap later.taken = List.range' 1 (file.pool.size.toNat - 1) ∧
        ∀ index kind, later.kindAt index = .ok kind →
          (index ∈ file.pool.indices ↔ kind ≠ .invalid) := by
  constructor
  · intro size calls packed
    have hpacked : Represents packed _ := represents_after size calls
    have hremembers := (ConstantPool.Remembers.vacant size).after calls
    have hsize := hremembers.size_eq
    generalize (ConstantPool.vacant size).after calls = pool at hpacked hremembers hsize
    have hwidth (index : UInt16) (hvalid : pool.isValid index = true) :
        (content calls index).kind.width = (pool.slot index.toNat).kind.width := by
      rw [(ConstantPool.get?_eq_some_iff.mp (hremembers.get?_eq hvalid)).2]
      rfl
    refine ⟨⟨pool.indices, hpacked.walks_iff.mpr rfl, fun _ => hpacked.walks_iff.mp⟩, fun slots => ?_,
      fun counter hreaches => hsize ▸ hpacked.reaches hreaches, fun slots hwalks resolutions => ?_⟩
    · rw [hpacked.walks_iff, ← hsize]
      exact (ConstantPool.visits_iff Nat.one_pos hwidth).symm
    · rw [(hpacked.after _).walks_iff, (pool.relinks_after resolutions).indices_eq]
      exact hpacked.walks_iff.mp hwalks
  · intro options data table file after hdecode
    refine ⟨represents_writes file.pool, fun packed hpacked resolutions => ?_⟩
    have hrelinks := file.pool.relinks_after resolutions
    have htiled := (ClassFile.tiled_of_decode hdecode).relink hrelinks
    have hlater := hpacked.after (resolveCalls resolutions)
    rw [← hrelinks.indices_eq, ← hrelinks.size_eq]
    refine ⟨hlater.walks_iff.mpr rfl, hlater.flatMap_taken.trans htiled.flatMap_taken,
      fun index kind hkind => ?_⟩
    have hvalid := hlater.isValid_of_kindAt hkind
    rw [hlater.kindAt_eq hvalid] at hkind
    rw [htiled.mem_indices_iff hvalid, Except.ok.inj hkind]

section

open RawConstant

/-- A class like the plain one, with a long in the last two slots of its pool. -/
def longClass : ClassDeclaration where
  minor := 0
  major := 52
  constants := [.classRef 2, .utf8 [0x41], .long 5]
  body := Loader.plainClass.body
  slotCount_lt := by decide
  constants_fit := by simp [RawConstant.Fits, UInt16.size]

def longFile (symbol : List UInt8 → Symbol) : ClassFile where
  minor := 0
  major := 52
  pool := longClass.pool symbol
  flags := ClassFlags.ofBits 0x0021
  name := symbol [0x41]
  superName := none
  interfaces := []
  fields := []

theorem longClass_declares (symbol : List UInt8 → Symbol) :
    longClass.Declares {} symbol (longFile symbol) where
  minor_eq := rfl
  major_eq := rfl
  version_accepted _ := by decide
  refers constant hconstant := by
    obtain rfl | rfl | rfl : constant = .classRef 2 ∨ constant = .utf8 [0x41] ∨ constant = .long 5 := by
      simpa [longClass] using hconstant
    · exact ⟨[0x41], rfl⟩
    all_goals trivial
  pool_eq := rfl
  body := {
    flags_eq := rfl
    flags_allowed := show AllowedForClass 0x0021 by decide
    thisClass := by
      have hslot : inSlot? longClass.constants 1 = some (.classRef 2) := rfl
      exact ConstantPool.get?_ofConstants longClass.toNat_poolSize hslot
    superClass := Or.inl ⟨rfl, rfl⟩
    interfaces := .nil
    fields := .nil }

theorem indices_longFile (symbol : List UInt8 → Symbol) : (longFile symbol).pool.indices = [1, 2, 3] := by
  have hsize : (longFile symbol).pool.size.toNat = 5 := rfl
  rw [ConstantPool.indices, ConstantPool.indicesFrom_slot (by rw [hsize]; decide)]
  change _ :: (longFile symbol).pool.indicesFrom 2 = _
  rw [ConstantPool.indicesFrom_slot (by rw [hsize]; decide)]
  change _ :: _ :: (longFile symbol).pool.indicesFrom 3 = _
  rw [ConstantPool.indicesFrom_slot (by rw [hsize]; decide)]
  change _ :: _ :: _ :: (longFile symbol).pool.indicesFrom 5 = _
  rw [ConstantPool.indicesFrom_of_le _ (by rw [hsize])]
  rfl

/-- The class with a long, before and after its own slot is resolved. -/
theorem walk_visits_each_entry_once_long : ∃ data file after,
    ClassFile.decode {} data .empty = (.ok file, after) ∧
      let packed := (vacant file.pool.size).after file.pool.writes
      let later := packed.after (resolveCalls [(1, ⟨7, file.name⟩)])
      packed.isValid 1 = true ∧ packed.Walks [1, 2, 3] ∧ later.Walks [1, 2, 3] ∧
        [1, 2, 3].flatMap later.taken = [1, 2, 3, 4] ∧ packed.kindAt 4 = .ok .invalid ∧
          4 ∉ file.pool.indices := by
  let symbols := SymbolTable.empty.internAll (texts longClass.constants)
  have hdecode : ClassFile.decode {} (longClass.encode ++ []) .empty =
      (.ok (longFile symbols.instanceOf), symbols) := ClassFile.decode_of_declares [] (longClass_declares _)
  have hindices := indices_longFile symbols.instanceOf
  generalize hfile : longFile symbols.instanceOf = file at hdecode hindices
  obtain ⟨hall, hparsed⟩ := walk_visits_each_entry_once
  obtain ⟨-, -, hreaches, hkept⟩ := hall file.pool.size file.pool.writes
  obtain ⟨hwrites, hwalk⟩ := hparsed _ _ _ _ _ hdecode
  have hsize : file.pool.size = 5 := by rw [← hfile]; rfl
  have hwalks := (hwalk _ hwrites []).1
  have hfourth : ((vacant file.pool.size).after file.pool.writes).kindAt 4 = .ok .invalid := by
    rw [hwrites.kindAt_eq (by rw [ConstantPool.isValid, hsize]; rfl), ← hfile]
    rfl
  obtain ⟨-, htaken, -⟩ := hwalk _ hwrites [(1, ⟨7, file.name⟩)]
  have hmissing := ((hwalk _ hwrites []).2.2 4 _ hfourth).mp.mt (not_not.mpr rfl)
  have hrange : List.range' 1 (file.pool.size.toNat - 1) = [1, 2, 3, 4] := by rw [hsize]; rfl
  rw [hindices] at hwalks htaken
  exact ⟨_, file, _, hdecode, ((hreaches first .refl).2 (by rw [hsize]; decide)).1, hwalks,
    hkept _ hwalks _, htaken.trans hrange, hfourth, hmissing⟩

end

end PackedPool

end ClassLoading
