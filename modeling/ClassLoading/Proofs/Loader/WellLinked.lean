import ClassLoading.Proofs.ClassFile.WellLinked
import ClassLoading.Proofs.Loader.Steps

/-!
# Well-linked loaders

The classes of a loader are well linked, whatever it is asked to load, to define and to resolve. A
class enters as it was decoded, and only what its class slots refer to changes later.
-/

namespace ClassLoading.Loader

variable {loader loader' : Loader}

def WellLinked (loader : Loader) : Prop :=
  ∀ id file, loader.classAt id = .ok file → file.WellLinked loader.options

theorem wellLinked_empty (options : Options) (symbols : SymbolTable) :
    (empty options symbols).WellLinked := by
  intro id file hfile
  have hnone : (#[] : Array ClassFile)[id]? = some file := classAt_eq_ok_iff.mp hfile
  simp at hnone

theorem WellLinked.step (h : loader.WellLinked) (hstep : Step loader loader') : loader'.WellLinked := by
  intro id file hfile
  rw [options_of_step hstep]
  cases hstep with
  | addEntry entry => exact h id file hfile
  | decode hdecode => exact h id file hfile
  | register hdecode hfind =>
      rcases classAt_of_register hfile with hold | ⟨-, rfl⟩
      · exact h id file hold
      · exact ClassFile.wellLinked_of_decode hdecode
  | @link holder target index holderFile targetFile name pool hholder hslot hfind htarget hput =>
      -- Only the class that holds the slot changes, and only in what that slot refers to.
      rw [linked, classAt_set] at hfile
      by_cases hid : id = holder ∧ holder < loader.classes.size
      · rw [if_pos hid] at hfile
        obtain rfl := Except.ok.inj hfile
        have hrelinks := ConstantPool.Relinks.of_put hslot hput
        exact (h holder holderFile hholder).relink hrelinks
      · rw [if_neg hid] at hfile
        exact h id file hfile

theorem WellLinked.steps (h : loader.WellLinked) (hsteps : Steps loader loader') :
    loader'.WellLinked := by
  induction hsteps with
  | refl => exact h
  | tail _ hstep ih => exact ih.step hstep

theorem wellLinked_run (options : Options) (symbols : SymbolTable) (requests : List Request) :
    ((empty options symbols).run requests).WellLinked :=
  (wellLinked_empty options symbols).steps (steps_run _ requests)

section

open ClassFile RawConstant

/-- A class that was decoded stays well linked, whatever its class slots are resolved to and in
whatever order, and so does every class of a loader, whatever was asked of the loader before. -/
theorem wellLinked_of_decode_of_run (options : Options) :
    (∀ data table file after, ClassFile.decode options data table = (.ok file, after) →
      ∀ resolutions, (file.resolveAll resolutions).WellLinked options) ∧
    ∀ symbols requests id file,
      ((empty options symbols).run requests).classAt id = .ok file →
        ∀ resolutions, (file.resolveAll resolutions).WellLinked options := by
  constructor
  · intro data table file after hdecode resolutions
    exact (wellLinked_of_decode hdecode).resolveAll resolutions
  · intro symbols requests id file hfile resolutions
    have hrun := wellLinked_run options symbols requests id file hfile
    rw [options_of_steps (steps_run _ requests)] at hrun
    exact hrun.resolveAll resolutions

/-- A class without a superclass, interfaces or fields: slot 1 names it by the text in slot 2. -/
def plainClass : ClassDeclaration where
  minor := 0
  major := 52
  constants := [.classRef 2, .utf8 [0x41]]
  body := ⟨0x0021, 1, 0, [], [], by decide, by decide⟩
  slotCount_lt := by decide
  constants_fit := by simp [RawConstant.Fits, UInt16.size]

def plainFile (symbol : List UInt8 → Symbol) : ClassFile where
  minor := 0
  major := 52
  pool := plainClass.pool symbol
  flags := ClassFlags.ofBits 0x0021
  name := symbol [0x41]
  superName := none
  interfaces := []
  fields := []

theorem namesClass_plainFile (symbol : List UInt8 → Symbol) :
    BodyDeclaration.NamesClass (plainFile symbol).pool 1 (plainFile symbol).name := by
  have hslot : inSlot? plainClass.constants 1 = some (.classRef 2) := rfl
  exact ConstantPool.get?_ofConstants plainClass.toNat_poolSize hslot

theorem plainClass_declares (symbol : List UInt8 → Symbol) :
    plainClass.Declares {} symbol (plainFile symbol) where
  minor_eq := rfl
  major_eq := rfl
  version_accepted _ := by decide
  refers constant hconstant := by
    obtain rfl | rfl : constant = .classRef 2 ∨ constant = .utf8 [0x41] := by
      simpa [plainClass] using hconstant
    · exact ⟨[0x41], rfl⟩
    · trivial
  pool_eq := rfl
  body := {
    flags_eq := rfl
    flags_allowed := show AllowedForClass 0x0021 by decide
    thisClass := namesClass_plainFile symbol
    superClass := Or.inl ⟨rfl, rfl⟩
    interfaces := .nil
    fields := .nil }

theorem decode_plainClass (table : SymbolTable) : ClassFile.decode {} (plainClass.encode ++ []) table =
    (.ok (plainFile (table.internAll (texts plainClass.constants)).instanceOf),
      table.internAll (texts plainClass.constants)) :=
  decode_of_declares [] (plainClass_declares _)

/-- The plain class, with its own slot resolved to some class, and as a loader defines it. -/
theorem wellLinked_plainFile : ∃ data file after, ClassFile.decode {} data .empty = (.ok file, after) ∧
    (file.resolveAll [(1, ⟨7, file.name⟩)]).WellLinked {} ∧
      ((empty {} .empty).run [.define "A" data]).classAt 0 = .ok file ∧
        (file.resolveAll []).WellLinked {} := by
  let symbols := SymbolTable.empty.internAll (texts plainClass.constants)
  have hdecode : ClassFile.decode {} (plainClass.encode ++ []) .empty =
      (.ok (plainFile symbols.instanceOf), symbols) := decode_plainClass .empty
  have hdefine : ((empty {} .empty).run [.define "A" (plainClass.encode ++ [])]).classAt 0 =
      .ok (plainFile symbols.instanceOf) := by
    simp only [run, List.foldl, perform, define, Loader.decode, empty, hdecode, Except.mapError_ok]
    simp only [find?, Std.HashMap.getElem?_empty]
    exact classAt_register_self ⟨[], {}, symbols, #[], ∅⟩ (plainFile symbols.instanceOf)
  have hdecoded := (wellLinked_of_decode_of_run {}).1 _ _ _ _ hdecode
  have hrun := (wellLinked_of_decode_of_run {}).2 _ _ _ _ hdefine
  exact ⟨_, _, _, hdecode, hdecoded _, hdefine, hrun _⟩

end

end ClassLoading.Loader
