import Mathlib.Data.List.Forall2

/-!
# Alignment of codes

A byte string and the text that it is read as agree on plain characters: these stand in both, in the
same order, and between two of them there is something in the one exactly if there is something in the
other. Cutting at plain characters keeps alignment, so that what is delimited by plain characters in
the one is delimited in the same way in the other.
-/

namespace ClassLoading

/-- The code of an ASCII character other than NUL. -/
def IsPlain (n : Nat) : Prop := 0 < n ∧ n < 0x80

instance (n : Nat) : Decidable (IsPlain n) := inferInstanceAs (Decidable (0 < n ∧ n < 0x80))

/-- One or more codes that are not plain. -/
structure IsRun (codes : List Nat) : Prop where
  nonempty : codes ≠ []
  foreign : ∀ n ∈ codes, ¬IsPlain n

/-- Plain codes stand in both lists, and a run in the one is a run in the other. -/
inductive Aligned : List Nat → List Nat → Prop where
  | nil : Aligned [] []
  | plain {n : Nat} {xs ys : List Nat} (hn : IsPlain n) (rest : Aligned xs ys) :
      Aligned (n :: xs) (n :: ys)
  | run {xs xs' ys ys' : List Nat} (hxs : IsRun xs) (hys : IsRun ys) (rest : Aligned xs' ys') :
      Aligned (xs ++ xs') (ys ++ ys')

namespace IsRun

variable {codes more : List Nat}

theorem singleton {n : Nat} (hn : ¬IsPlain n) : IsRun [n] where
  nonempty := List.cons_ne_nil n []
  foreign := by simpa using hn

theorem append (h : IsRun codes) (h' : IsRun more) : IsRun (codes ++ more) where
  nonempty := List.append_ne_nil_of_left_ne_nil h.nonempty more
  foreign := by
    intro n hn
    rcases List.mem_append.mp hn with hn | hn
    · exact h.foreign n hn
    · exact h'.foreign n hn

end IsRun

namespace Aligned

variable {xs xs' ys ys' zs : List Nat} {n : Nat}

theorem symm (h : Aligned xs ys) : Aligned ys xs := by
  induction h with
  | nil => exact .nil
  | plain hn _ ih => exact .plain hn ih
  | run hxs hys _ ih => exact .run hys hxs ih

theorem append (h : Aligned xs ys) (h' : Aligned xs' ys') : Aligned (xs ++ xs') (ys ++ ys') := by
  induction h with
  | nil => exact h'
  | plain hn _ ih => exact .plain hn ih
  | run hxs hys _ ih =>
      rw [List.append_assoc, List.append_assoc]
      exact .run hxs hys ih

theorem of_run (hxs : IsRun xs) (hys : IsRun ys) : Aligned xs ys := by
  rw [← List.append_nil xs, ← List.append_nil ys]
  exact .run hxs hys .nil

theorem eq_nil (h : Aligned xs ys) (hxs : xs = []) : ys = [] := by
  cases h with
  | nil => rfl
  | plain => cases hxs
  | run hrun => exact absurd (List.append_eq_nil_iff.mp hxs).1 hrun.nonempty

/-- Both lists have the same plain codes. -/
theorem mem_of_isPlain (h : Aligned xs ys) (hn : IsPlain n) (hmem : n ∈ xs) : n ∈ ys := by
  induction h with
  | nil => exact hmem
  | plain _ _ ih =>
      rcases List.mem_cons.mp hmem with rfl | hmem
      · exact List.mem_cons_self
      · exact List.mem_cons_of_mem _ (ih hmem)
  | run hxs _ _ ih =>
      rcases List.mem_append.mp hmem with hmem | hmem
      · exact absurd hn (hxs.foreign n hmem)
      · exact List.mem_append_right _ (ih hmem)

/-- Where one list is plain throughout, the lists are equal. -/
theorem eq_of_isPlain (h : Aligned xs ys) (hplain : ∀ n ∈ xs, IsPlain n) : xs = ys := by
  induction h with
  | nil => rfl
  | plain _ _ ih => rw [ih fun n hn => hplain n (List.mem_cons_of_mem _ hn)]
  | @run run _ _ _ hxs _ _ _ =>
      obtain ⟨n, hn⟩ := List.exists_mem_of_ne_nil run hxs.nonempty
      exact absurd (hplain n (List.mem_append_left _ hn)) (hxs.foreign n hn)

/-- A plain code cuts both lists into aligned parts. -/
theorem cut (hn : IsPlain n) (h : Aligned (xs ++ n :: xs') zs) :
    ∃ ys ys', zs = ys ++ n :: ys' ∧ Aligned xs ys ∧ Aligned xs' ys' := by
  generalize hlist : xs ++ n :: xs' = list at h
  induction h generalizing xs with
  | nil => simp at hlist
  | @plain m ws zs hm rest ih =>
      rcases List.append_eq_cons_iff.mp hlist with ⟨rfl, hhead⟩ | ⟨xs, rfl, htail⟩
      · obtain ⟨rfl, rfl⟩ := List.cons.inj hhead
        exact ⟨[], zs, rfl, .nil, rest⟩
      · obtain ⟨ys, ys', rfl, hys, hys'⟩ := ih htail.symm
        exact ⟨m :: ys, ys', rfl, .plain hm hys, hys'⟩
  | @run run ws run' zs hxs hys rest ih =>
      rcases List.append_eq_append_iff.mp hlist with ⟨inside, hrun, htail⟩ | ⟨xs, rfl, htail⟩
      · -- The code stands behind the run, because no run contains it.
        cases inside with
        | nil =>
            obtain ⟨ys, ys', rfl, hbetween, hys'⟩ := @ih [] htail
            obtain rfl := hbetween.eq_nil rfl
            rw [List.append_nil] at hrun
            exact ⟨run', ys', rfl, hrun ▸ of_run hxs hys, hys'⟩
        | cons m inside =>
            obtain ⟨rfl, -⟩ := List.cons.inj htail
            exact absurd hn (hxs.foreign n (hrun ▸ List.mem_append_right _ List.mem_cons_self))
      · obtain ⟨ys, ys', rfl, hys', hrest⟩ := ih htail.symm
        exact ⟨run' ++ ys, ys', (List.append_assoc ..).symm, .run hxs hys hys', hrest⟩

/-- A plain beginning of one list is the beginning of the other. -/
theorem cut_plain {start : List Nat} (hstart : ∀ n ∈ start, IsPlain n) (h : Aligned (start ++ xs) zs) :
    ∃ ys, zs = start ++ ys ∧ Aligned xs ys := by
  induction start generalizing zs with
  | nil => exact ⟨zs, rfl, h⟩
  | cons n start ih =>
      obtain ⟨hn, hstart⟩ := List.forall_mem_cons.mp hstart
      have hfirst : Aligned ([] ++ n :: (start ++ xs)) zs := h
      obtain ⟨ys, zs, rfl, hbefore, hrest⟩ := cut hn hfirst
      obtain rfl := hbefore.eq_nil rfl
      obtain ⟨ys, rfl, hys⟩ := ih hstart hrest
      exact ⟨ys, rfl, hys⟩

theorem splitOn_append {run : List Nat} (hn : n ∉ run) (xs : List Nat) :
    (run ++ xs).splitOn n = (xs.splitOn n).modifyHead (run ++ ·) := by
  induction run with
  | nil => exact (congrFun List.modifyHead_id (xs.splitOn n)).symm
  | cons m run ih =>
      have hm : ¬(m == n) = true := by
        rw [beq_iff_eq]
        exact fun heq => hn (heq ▸ List.mem_cons_self)
      have htail : (run ++ xs).splitOnP (· == n) = (xs.splitOn n).modifyHead (run ++ ·) :=
        ih fun hmem => hn (List.mem_cons_of_mem m hmem)
      rw [List.cons_append, List.splitOn, List.splitOnP_cons_eq_if_modifyHead, if_neg hm, htail,
        List.modifyHead_modifyHead]
      rfl

theorem forall₂_modifyHead {parts parts' : List (List Nat)} {f g : List Nat → List Nat}
    (hfg : ∀ {part part'}, Aligned part part' → Aligned (f part) (g part'))
    (h : List.Forall₂ Aligned parts parts') :
    List.Forall₂ Aligned (parts.modifyHead f) (parts'.modifyHead g) := by
  cases h with
  | nil => exact .nil
  | cons hpart hparts => exact .cons (hfg hpart) hparts

/-- The parts between plain codes are aligned one by one. -/
theorem splitOn (hn : IsPlain n) (h : Aligned xs ys) :
    List.Forall₂ Aligned (xs.splitOn n) (ys.splitOn n) := by
  induction h with
  | nil => exact .cons .nil .nil
  | @plain m xs ys hm _ ih =>
      by_cases heq : m = n
      · subst heq
        have hcut (xs : List Nat) : (m :: xs).splitOn m = [] :: xs.splitOn m := by
          simp [List.splitOn, List.splitOnP_cons_eq_if_modifyHead]
        rw [hcut, hcut]
        exact .cons .nil ih
      · have hother : n ∉ [m] := fun hmem => heq (List.mem_singleton.mp hmem).symm
        have hkeep (xs : List Nat) : (m :: xs).splitOn n = (xs.splitOn n).modifyHead ([m] ++ ·) :=
          splitOn_append hother xs
        rw [hkeep, hkeep]
        exact forall₂_modifyHead (.plain hm) ih
  | run hxs hys _ ih =>
      rw [splitOn_append fun hmem => hxs.foreign n hmem hn,
        splitOn_append fun hmem => hys.foreign n hmem hn]
      exact forall₂_modifyHead (.run hxs hys) ih

/-- No part between plain codes is empty in one list only. -/
theorem nil_mem_splitOn (hn : IsPlain n) (h : Aligned xs ys) (hnil : [] ∈ xs.splitOn n) :
    [] ∈ ys.splitOn n := by
  have hparts := h.splitOn hn
  generalize xs.splitOn n = parts at hnil hparts
  generalize ys.splitOn n = parts' at hparts
  induction hparts with
  | nil => exact hnil
  | cons hpart _ ih =>
      rcases List.mem_cons.mp hnil with heq | hnil
      · exact List.mem_cons.mpr (Or.inl (hpart.eq_nil heq.symm).symm)
      · exact List.mem_cons_of_mem _ (ih hnil)

end Aligned

end ClassLoading
