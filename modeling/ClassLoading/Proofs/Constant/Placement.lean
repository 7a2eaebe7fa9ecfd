import ClassLoading.Proofs.Constant.Slots
import ClassLoading.Proofs.Symbol.Interning

/-!
# Placing constants

Constants that fit into a pool are written where their layout puts them, and nothing is at fault.
Every text becomes the instance that the symbol table holds for it in the end.
-/

namespace ClassLoading

namespace RawConstant

def texts (constants : List RawConstant) : List (List UInt8) :=
  constants.filterMap fun
    | utf8 bytes => some bytes
    | _ => none

/-- The entry of a constant before it is linked, each text standing for a symbol. -/
def unlinked (symbol : List UInt8 → Symbol) : RawConstant → Entry
  | utf8 bytes => .utf8 (symbol bytes)
  | integer value => .integer value
  | float bits => .float bits
  | long value => .long value
  | double bits => .double bits
  | classRef name => .classIndex name
  | string text => .stringIndex text
  | member kind owner typing => .member kind owner typing
  | nameAndType name descriptor => .nameAndType name descriptor
  | methodHandle kind reference => .methodHandle kind reference
  | methodType descriptor => .methodType descriptor
  | invokeDynamic bootstrap typing => .invokeDynamic bootstrap typing

theorem toEntry_eq (constant : RawConstant) (table : SymbolTable) :
    constant.toEntry table =
      (constant.unlinked table.instanceOf, table.internAll (texts [constant])) := by
  cases constant <;> rfl

/-- What a constant is placed as does not depend on the texts that come after it. -/
theorem unlinked_internAll_cons (constant : RawConstant) (constants : List RawConstant)
    (table : SymbolTable) :
    constant.unlinked (table.internAll (texts (constant :: constants))).instanceOf =
      constant.unlinked table.instanceOf := by
  cases constant with
  | utf8 bytes => exact congrArg Entry.utf8 (SymbolTable.instanceOf_internAll_cons table bytes _)
  | _ => rfl

theorem internAll_texts_cons (constant : RawConstant) (constants : List RawConstant)
    (table : SymbolTable) :
    (table.internAll (texts [constant])).internAll (texts constants) =
      table.internAll (texts (constant :: constants)) := by
  cases constant <;> rfl

end RawConstant

namespace ConstantPool

open RawConstant

theorem place_eq {constants : List RawConstant} {index : UInt16} {pool : ConstantPool}
    {table : SymbolTable} (hpos : 0 < index.toNat)
    (hfits : index.toNat + slotCount constants ≤ pool.size.toNat) :
    ∃ placed, place constants index pool table = (.ok placed, table.internAll (texts constants)) ∧
      placed.size = pool.size ∧ ∀ i, placed.slot i =
        ((at? constants index.toNat i).map
          (unlinked (table.internAll (texts constants)).instanceOf)).getD (pool.slot i) := by
  induction constants generalizing index pool table with
  | nil => exact ⟨pool, rfl, rfl, fun i => rfl⟩
  | cons constant constants ih =>
      rw [slotCount_cons] at hfits
      have hwidth := constant.width_pos
      have hvalid : pool.isValid index = true := isValid_iff_toNat.mpr ⟨hpos, by omega⟩
      obtain ⟨pool₁, hput⟩ := (put_eq_ok_iff pool index (constant.unlinked table.instanceOf)).mpr hvalid
      have hsize := size_of_put hput
      have hnext : slotAfter index constant.width = .ok (index + constant.width) :=
        slotAfter_of_le pool.size (by omega)
      have hvalue := slotAfter_toNat hnext
      obtain ⟨placed, hplace, hplaced, hslot⟩ := @ih (index + constant.width) pool₁
        (table.internAll (texts [constant])) (by omega)
        (by rw [hsize]; omega)
      refine ⟨placed, ?_, hplaced.trans hsize, fun i => ?_⟩
      · rw [place, toEntry_eq]
        dsimp only
        rw [hput]
        dsimp only
        rw [hnext]
        dsimp only
        rw [hplace, internAll_texts_cons]
      · rw [hslot, internAll_texts_cons, slot_of_put hput, at?_cons, hvalue]
        by_cases hi : i = index.toNat
        · rw [if_pos hi, if_pos hi, at?_of_lt (by omega)]
          exact (unlinked_internAll_cons constant constants table).symm
        · rw [if_neg hi, if_neg hi]

end ConstantPool

end ClassLoading
