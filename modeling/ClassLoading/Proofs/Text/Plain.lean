import ClassLoading.Proofs.Text.Alignment
import ClassLoading.Proofs.Text.ModifiedUtf8

/-!
# Plain characters in texts

A byte string is aligned with the text that it is read as, whether it is read strictly or leniently: a
plain byte is read as its own character, and what is not plain is read as something that is not plain
either. So a text of plain characters has one spelling only, a byte for each character.
-/

namespace ClassLoading

theorem toNat_ofNat_cases (n : Nat) : (Char.ofNat n).toNat = n ∨ (Char.ofNat n).toNat = 0 := by
  by_cases h : n.isValidChar
  · rw [Char.ofNat, dif_pos h]
    exact Or.inl rfl
  · rw [Char.ofNat, dif_neg h]
    exact Or.inr rfl

theorem toNat_ofNat_of_lt {n : Nat} (h : n < 0x80) : (Char.ofNat n).toNat = n :=
  Utf16.toNat_ofNat_of_valid (Or.inl (Nat.lt_trans h (by decide)))

/-- A character that was not made of a plain code is not plain. -/
theorem not_isPlain_ofNat {n : Nat} (hn : ¬IsPlain n) : ¬IsPlain (Char.ofNat n).toNat := by
  rcases toNat_ofNat_cases n with heq | hzero
  · rwa [heq]
  · rw [hzero]
    exact fun h => Nat.lt_irrefl 0 h.1

theorem not_isPlain_of_le {n : Nat} (hn : 0x80 ≤ n) : ¬IsPlain n := fun h => Nat.not_lt.mpr hn h.2

namespace ModifiedUtf8

theorem encode_of_isPlain {c : Char} (hc : IsPlain c.toNat) : encode [c] = [UInt8.ofNat c.toNat] := by
  obtain ⟨hpos, hlt⟩ := hc
  have hcode : (UInt16.ofNat c.toNat).toNat = c.toNat := Utf16.toNat_unit (by omega)
  have hunit : encode [Char.ofNat (UInt16.ofNat c.toNat).toNat] = unitBytes (UInt16.ofNat c.toNat) :=
    encode_ofNat (by omega)
  rw [hcode, Char.ofNat_toNat] at hunit
  rw [hunit, unitBytes_of_one (by omega) (by omega), hcode]

/-- A form is a plain byte or has no plain byte. -/
theorem codes_of_isForm {form : List UInt8} (h : IsForm form) :
    (∃ a : UInt8, IsPlain a.toNat ∧ form = [a]) ∨ IsRun (form.map UInt8.toNat) := by
  have hrun {bytes : List UInt8} (hne : bytes ≠ []) (hall : ∀ b ∈ bytes, 0x80 ≤ b.toNat) :
      IsRun (bytes.map UInt8.toNat) := by
    refine ⟨by simpa using hne, fun n hn => ?_⟩
    obtain ⟨b, hb, rfl⟩ := List.mem_map.mp hn
    exact not_isPlain_of_le (hall b hb)
  cases h with
  | @one a ha => exact Or.inl ⟨a, ⟨ha.1, Nat.lt_succ_of_le ha.2⟩, rfl⟩
  | null =>
      refine Or.inr (hrun (by simp) ?_)
      simp only [List.forall_mem_cons, List.not_mem_nil, false_implies, implies_true, and_true]
      exact ⟨by decide, by decide⟩
  | two ha hb =>
      refine Or.inr (hrun (by simp) ?_)
      simp only [List.forall_mem_cons, List.not_mem_nil, false_implies, implies_true, and_true]
      exact ⟨Nat.le_trans (by decide) ha.1, hb.1⟩
  | three ha hb hc =>
      refine Or.inr (hrun (by simp) ?_)
      simp only [List.forall_mem_cons, List.not_mem_nil, false_implies, implies_true, and_true]
      exact ⟨Nat.le_trans (by decide) ha.1, hb.1, hc.1⟩
  | pair hb hc hb' hc' =>
      refine Or.inr (hrun (by simp) ?_)
      simp only [List.forall_mem_cons, List.not_mem_nil, false_implies, implies_true, and_true]
      exact ⟨by decide, Nat.le_trans (by decide) hb.1, hc.1, by decide,
        Nat.le_trans (by decide) hb'.1, hc'.1⟩

theorem aligned_encode_singleton (c : Char) : Aligned ((encode [c]).map UInt8.toNat) [c.toNat] := by
  by_cases hc : IsPlain c.toNat
  · have hcode : (UInt8.ofNat c.toNat).toNat = c.toNat :=
      UInt8.toNat_ofNat_of_lt (Nat.lt_trans hc.2 (by decide))
    rw [encode_of_isPlain hc, List.map_singleton, hcode]
    exact .plain hc .nil
  · rcases codes_of_isForm (isForm_encode c) with ⟨a, ha, hform⟩ | hrun
    · -- A plain byte is the spelling of a plain character, and no other has the same.
      have hcode : (Char.ofNat a.toNat).toNat = a.toNat := toNat_ofNat_of_lt ha.2
      have hsame : encode [c] = encode [Char.ofNat a.toNat] := by
        rw [hform, encode_of_isPlain (hcode.symm ▸ ha), hcode, UInt8.ofNat_toNat]
      have hdecode := decode?_eq_some_iff.mpr hsame
      rw [decode?_eq_some_iff.mpr rfl] at hdecode
      obtain rfl : c = Char.ofNat a.toNat := by simpa using hdecode
      exact absurd (hcode.symm ▸ ha) hc
    · exact .of_run hrun (.singleton hc)

theorem aligned_encode (text : List Char) :
    Aligned ((encode text).map UInt8.toNat) (text.map Char.toNat) := by
  induction text with
  | nil => exact .nil
  | cons c text ih =>
      rw [encode_cons, List.map_append]
      exact (aligned_encode_singleton c).append ih

end ModifiedUtf8

namespace Utf8

/-- A sequence under way stands for a character that is not plain, however it goes on: with the
least bytes that may follow it has the code 128 or more. None of these bytes is plain. -/
structure Pending.IsLong (p : Pending) : Prop where
  value : if p.due = 1 then 2 ≤ p.value else 2 ≤ p.value * 64 + (p.low - 0x80)
  low : 0x80 ≤ p.low

/-- What has been read of some codes: the characters are aligned with them, but for the run at the end
that the sequence under way consists of. -/
inductive Covers : List Nat → Progress → Prop where
  | settled {codes : List Nat} {done : List Char} (h : Aligned codes (done.reverse.map Char.toNat)) :
      Covers codes ⟨done, none⟩
  | pending {codes run : List Nat} {done : List Char} {p : Pending}
      (h : Aligned codes (done.reverse.map Char.toNat)) (hrun : IsRun run) (hp : p.IsLong) :
      Covers (codes ++ run) ⟨done, some p⟩

variable {codes run : List Nat} {done : List Char} {s : Progress}

/-- A run that is given up, or that makes a character which is not plain. -/
theorem aligned_run {c : Char} (h : Aligned codes (done.reverse.map Char.toNat)) (hrun : IsRun run)
    (hc : ¬IsPlain c.toNat) : Aligned (codes ++ run) ((c :: done).reverse.map Char.toNat) := by
  rw [List.reverse_cons, List.map_append]
  exact h.append (.of_run hrun (.singleton hc))

theorem not_isPlain_replacement : ¬IsPlain replacement.toNat := by decide

theorem aligned_ascii {n : Nat} (hn : n < 0x80) : Aligned [n] [(Char.ofNat n).toNat] := by
  by_cases hplain : IsPlain n
  · rw [toNat_ofNat_of_lt hn]
    exact .plain hplain .nil
  · exact .of_run (.singleton hplain) (.singleton (not_isPlain_ofNat hplain))

/-- A byte at which a sequence may begin. -/
theorem covers_begin (h : Aligned codes (done.reverse.map Char.toNat)) (b : UInt8) :
    Covers (codes ++ [b.toNat]) (begin done b) := by
  unfold begin
  dsimp only
  split
  · rename_i hascii
    refine .settled ?_
    rw [List.reverse_cons, List.map_append]
    exact h.append (aligned_ascii hascii)
  · rename_i hascii
    have hrun : IsRun [b.toNat] := .singleton (not_isPlain_of_le (Nat.not_lt.mp hascii))
    split
    · exact .settled (aligned_run h hrun not_isPlain_replacement)
    · split
      · refine .pending h hrun ⟨?_, Nat.le_refl _⟩
        rw [if_pos rfl]
        dsimp only
        omega
      · split
        · refine .pending h hrun ⟨?_, ?_⟩
          · rw [if_neg (by simp)]
            dsimp only
            split <;> omega
          · dsimp only
            split <;> decide
        · split
          · refine .pending h hrun ⟨?_, ?_⟩
            · rw [if_neg (by simp)]
              dsimp only
              split <;> omega
            · dsimp only
              split <;> decide
          · exact .settled (aligned_run h hrun not_isPlain_replacement)

/-- A byte ends the sequence under way, continues it, or ends it as ill-formed and begins another. -/
theorem covers_step (h : Covers codes s) (b : UInt8) : Covers (codes ++ [b.toNat]) (step s b) := by
  cases h with
  | settled h => exact covers_begin h b
  | @pending codes run done p h hrun hp =>
      simp only [step]
      split
      · rename_i hrange
        have hmore : IsRun (run ++ [b.toNat]) :=
          hrun.append (.singleton (not_isPlain_of_le (Nat.le_trans hp.low hrange.1)))
        have hvalue := hp.value
        rw [List.append_assoc]
        split
        · rename_i hdue
          rw [if_pos hdue] at hvalue
          exact .settled (aligned_run h hmore (not_isPlain_ofNat (not_isPlain_of_le (by omega))))
        · rename_i hdue
          rw [if_neg hdue] at hvalue
          refine .pending h hmore ⟨?_, Nat.le_refl _⟩
          dsimp only
          split <;> omega
      · exact covers_begin (aligned_run h hrun not_isPlain_replacement) b

theorem covers_foldl (h : Covers codes s) (bytes : List UInt8) :
    Covers (codes ++ bytes.map UInt8.toNat) (bytes.foldl step s) := by
  induction bytes generalizing codes s with
  | nil => simpa using h
  | cons b bytes ih =>
      have hrest := ih (covers_step h b)
      rwa [List.append_assoc] at hrest

theorem Covers.text (h : Covers codes s) : Aligned codes (s.text.map Char.toNat) := by
  cases h with
  | settled h => exact h
  | pending h hrun => exact aligned_run h hrun not_isPlain_replacement

theorem aligned_decodeLossy (bytes : List UInt8) :
    Aligned (bytes.map UInt8.toNat) ((decodeLossy bytes).map Char.toNat) := by
  have hstart : Covers [] ⟨[], none⟩ := .settled .nil
  exact (covers_foldl hstart bytes).text

end Utf8

namespace Symbol

/-- However bytes are read as a text, they are aligned with it. -/
theorem aligned_charsOfBytes (bytes : List UInt8) :
    Aligned (bytes.map UInt8.toNat) ((charsOfBytes bytes).map Char.toNat) := by
  rw [charsOfBytes]
  cases hdecode : ModifiedUtf8.decode? bytes with
  | none => exact Utf8.aligned_decodeLossy bytes
  | some text =>
      rw [ModifiedUtf8.decode?_eq_some_iff.mp hdecode]
      exact ModifiedUtf8.aligned_encode text

theorem encode_of_plain {text : List Char} (hplain : ∀ c ∈ text, IsPlain c.toNat) :
    ModifiedUtf8.encode text = text.map (UInt8.ofNat ·.toNat) := by
  induction text with
  | nil => rfl
  | cons c text ih =>
      obtain ⟨hc, htext⟩ := List.forall_mem_cons.mp hplain
      rw [ModifiedUtf8.encode_cons, ModifiedUtf8.encode_of_isPlain hc, ih htext]
      rfl

/-- The only spelling of a plain text has a byte for each of its characters. -/
theorem charsOfBytes_eq_iff {bytes : List UInt8} {text : List Char}
    (hplain : ∀ c ∈ text, IsPlain c.toNat) :
    charsOfBytes bytes = text ↔ bytes = text.map (UInt8.ofNat ·.toNat) := by
  constructor
  · intro h
    have haligned := (aligned_charsOfBytes bytes).symm
    rw [h] at haligned
    have hcodes : text.map Char.toNat = bytes.map UInt8.toNat :=
      haligned.eq_of_isPlain (by simpa using hplain)
    have hback : (bytes.map UInt8.toNat).map UInt8.ofNat = bytes := by
      rw [List.map_map]
      exact List.map_id'' (fun _ => UInt8.ofNat_toNat) bytes
    rw [← hback, ← hcodes, List.map_map]
    rfl
  · intro h
    rw [charsOfBytes, ModifiedUtf8.decode?_eq_some_iff.mpr (h.trans (encode_of_plain hplain).symm),
      Option.getD_some]

/-- A plain text in bytes, one for each of its characters. -/
def plainBytes (text : String) : List UInt8 := text.toList.map (UInt8.ofNat ·.toNat)

theorem textOfBytes_eq_iff {bytes : List UInt8} {text : String}
    (hplain : ∀ c ∈ text.toList, IsPlain c.toNat) : textOfBytes bytes = text ↔ bytes = plainBytes text := by
  rw [plainBytes, ← charsOfBytes_eq_iff hplain, textOfBytes]
  constructor
  · intro h
    rw [← h, String.toList_ofList]
  · intro h
    rw [h, String.ofList_toList]

end Symbol

end ClassLoading
