import ClassLoading.Symbol
import Mathlib.Logic.Function.Basic

/-!
# Texts and their spelling

The forms that modified UTF-8 admits, one for each size of character, are stated on their own. Encoding
and decoding are inverse to each other, and a byte string is decoded exactly if it is made of such
forms: every text has one spelling, and every valid byte string is the spelling of one text.
-/

namespace ClassLoading

namespace Utf16

theorem toNat_unit {n : Nat} (h : n < 0x10000) : (UInt16.ofNat n).toNat = n :=
  UInt16.toNat_ofNat_of_lt h

theorem isHigh_iff {u : UInt16} : isHigh u = true ↔ 0xD800 ≤ u.toNat ∧ u.toNat < 0xDC00 := by
  simp [isHigh, UInt16.le_iff_toNat_le, UInt16.lt_iff_toNat_lt]

theorem isLow_iff {u : UInt16} : isLow u = true ↔ 0xDC00 ≤ u.toNat ∧ u.toNat < 0xE000 := by
  simp [isLow, UInt16.le_iff_toNat_le, UInt16.lt_iff_toNat_lt]

/-- Units that are no surrogates. -/
theorem not_surrogate_iff {u : UInt16} :
    isHigh u ≠ true ∧ isLow u ≠ true ↔ u.toNat < 0xD800 ∨ 0xE000 ≤ u.toNat := by
  rw [Ne, Ne, isHigh_iff, isLow_iff]
  omega

theorem encode_cons (c : Char) (text : List Char) : encode (c :: text) = units c ++ encode text :=
  List.flatMap_cons

theorem encode_append (text more : List Char) : encode (text ++ more) = encode text ++ encode more :=
  List.flatMap_append

theorem toNat_ofNat_of_valid {n : Nat} (h : n < 0xD800 ∨ 0xDFFF < n ∧ n < 0x110000) :
    (Char.ofNat n).toNat = n := by
  rw [Char.ofNat, dif_pos h]
  rfl

/-- A unit that is no surrogate is the only one of its character. -/
theorem units_ofNat {u : UInt16} (hhigh : isHigh u ≠ true) (hlow : isLow u ≠ true) :
    units (Char.ofNat u.toNat) = [u] := by
  have hplain := not_surrogate_iff.mp ⟨hhigh, hlow⟩
  have hlt := u.toNat_lt
  have hcode : (Char.ofNat u.toNat).toNat = u.toNat := toNat_ofNat_of_valid (by omega)
  rw [units, if_pos (by omega), hcode, UInt16.ofNat_toNat]

/-- The units of a pair are those of the character that it stands for. -/
theorem units_pairChar {u v : UInt16} (hu : isHigh u = true) (hv : isLow v = true) :
    units (pairChar u v) = [u, v] := by
  rw [isHigh_iff] at hu
  rw [isLow_iff] at hv
  have hcode : (pairChar u v).toNat =
      0x10000 + ((u.toNat - 0xD800) * 0x400 + (v.toNat - 0xDC00)) := by
    rw [pairChar, toNat_ofNat_of_valid (by omega)]
    omega
  have hhigh : 0xD800 + ((u.toNat - 0xD800) * 0x400 + (v.toNat - 0xDC00)) / 0x400 = u.toNat := by omega
  have hlow : 0xDC00 + ((u.toNat - 0xD800) * 0x400 + (v.toNat - 0xDC00)) % 0x400 = v.toNat := by omega
  rw [units, if_neg (by omega), hcode]
  dsimp only
  rw [Nat.add_sub_cancel_left, hhigh, hlow, UInt16.ofNat_toNat, UInt16.ofNat_toNat]

theorem encode_of_decodeOnto? {done text : List Char} {us : List UInt16}
    (h : decodeOnto? done us = some text) : encode text = encode done.reverse ++ us := by
  fun_induction decodeOnto? done us with
  | case1 done =>
      rw [← Option.some.inj h, List.append_nil]
  | case3 done u hhigh v rest hlow ih =>
      rw [ih h, List.reverse_cons, encode_append, List.append_assoc]
      simp [encode, units_pairChar hhigh hlow]
  | case6 done u rest hhigh hlow ih =>
      rw [ih h, List.reverse_cons, encode_append, List.append_assoc]
      simp [encode, units_ofNat hhigh hlow]
  | _ => cases h

/-- A character has one unit that is no surrogate, or the two of a pair. -/
theorem units_cases (c : Char) :
    (∃ u, units c = [u] ∧ isHigh u ≠ true ∧ isLow u ≠ true ∧ Char.ofNat u.toNat = c) ∨
      ∃ u v, units c = [u, v] ∧ isHigh u = true ∧ isLow v = true ∧ pairChar u v = c := by
  have hvalid : c.toNat < 0xD800 ∨ 0xDFFF < c.toNat ∧ c.toNat < 0x110000 := c.valid
  by_cases hshort : c.toNat < 0x10000
  · have hcode : (UInt16.ofNat c.toNat).toNat = c.toNat := toNat_unit hshort
    rw [units, if_pos hshort]
    have hplain : (UInt16.ofNat c.toNat).toNat < 0xD800 ∨ 0xE000 ≤ (UInt16.ofNat c.toNat).toNat := by
      omega
    obtain ⟨hhigh, hlow⟩ := not_surrogate_iff.mpr hplain
    exact Or.inl ⟨_, rfl, hhigh, hlow, by rw [hcode, Char.ofNat_toNat]⟩
  · rw [units, if_neg hshort]
    generalize hn : c.toNat - 0x10000 = n
    have hlt : n < 0x100000 := by omega
    have hu : (UInt16.ofNat (0xD800 + n / 0x400)).toNat = 0xD800 + n / 0x400 := toNat_unit (by omega)
    have hv : (UInt16.ofNat (0xDC00 + n % 0x400)).toNat = 0xDC00 + n % 0x400 := toNat_unit (by omega)
    refine Or.inr ⟨_, _, rfl, ?_, ?_, ?_⟩
    · rw [isHigh_iff, hu]
      omega
    · rw [isLow_iff, hv]
      omega
    · have hsum : 0x10000 + (0xD800 + n / 0x400 - 0xD800) * 0x400 + (0xDC00 + n % 0x400 - 0xDC00) =
          c.toNat := by omega
      rw [pairChar, hu, hv, hsum, Char.ofNat_toNat]

/-- The units of a character are decoded to it, whatever follows them. -/
theorem decode?_units_append (c : Char) (us : List UInt16) :
    decode? (units c ++ us) = (decode? us).map (c :: ·) := by
  rcases units_cases c with ⟨u, hunits, hhigh, hlow, hc⟩ | ⟨u, v, hunits, hhigh, hlow, hc⟩
  · rw [hunits, List.singleton_append, decode?, decodeOnto?.eq_def]
    simp only [if_neg hhigh, if_neg hlow, hc]
    exact decodeOnto?_eq [c] us
  · rw [hunits, List.cons_append, List.singleton_append, decode?, decodeOnto?]
    simp only [if_pos hhigh, if_pos hlow, hc]
    exact decodeOnto?_eq [c] us

theorem decode?_encode (text : List Char) : decode? (encode text) = some text := by
  induction text with
  | nil => rfl
  | cons c text ih => rw [encode_cons, decode?_units_append, ih, Option.map_some]

/-- Units are decoded to a text exactly if they are its units. -/
theorem decode?_eq_some_iff {us : List UInt16} {text : List Char} :
    decode? us = some text ↔ us = encode text := by
  constructor
  · intro h
    exact (encode_of_decodeOnto? h).symm
  · intro h
    rw [h, decode?_encode]

end Utf16

namespace ModifiedUtf8

theorem toNat_byte {n : Nat} (h : n < 256) : (UInt8.ofNat n).toNat = n :=
  UInt8.toNat_ofNat_of_lt h

theorem isTrail_iff {b : UInt8} : isTrail b = true ↔ 0x80 ≤ b.toNat ∧ b.toNat < 0xC0 := by
  simp [isTrail, UInt8.le_iff_toNat_le, UInt8.lt_iff_toNat_lt]

theorem encode_cons (c : Char) (text : List Char) : encode (c :: text) = encode [c] ++ encode text := by
  simp [encode, Utf16.encode]

section Units

variable {u : UInt16}

theorem unitBytes_of_zero (h : u.toNat = 0) : unitBytes u = [0xC0, 0x80] := if_pos h

theorem unitBytes_of_one (h : 0 < u.toNat) (h' : u.toNat < 0x80) :
    unitBytes u = [UInt8.ofNat u.toNat] := by
  rw [unitBytes, if_neg (by omega), if_pos h']

theorem unitBytes_of_two (h : 0x80 ≤ u.toNat) (h' : u.toNat < 0x800) : unitBytes u =
    [UInt8.ofNat (0xC0 + u.toNat / 64), UInt8.ofNat (0x80 + u.toNat % 64)] := by
  rw [unitBytes, if_neg (by omega), if_neg (by omega), if_pos h']

theorem unitBytes_of_three (h : 0x800 ≤ u.toNat) : unitBytes u =
    [UInt8.ofNat (0xE0 + u.toNat / 4096), UInt8.ofNat (0x80 + u.toNat / 64 % 64),
      UInt8.ofNat (0x80 + u.toNat % 64)] := by
  rw [unitBytes, if_neg (by omega), if_neg (by omega), if_neg (by omega)]

/-- The two bytes that a unit is read from are its own. -/
theorem unitBytes_of_unitOfTwo? {a b : UInt8} (ha : 0xC0 ≤ a.toNat) (ha' : a.toNat < 0xE0)
    (h : unitOfTwo? a b = some u) : unitBytes u = [a, b] := by
  unfold unitOfTwo? at h
  dsimp only at h
  split at h
  · rename_i hform
    simp only [Bool.and_eq_true, Bool.or_eq_true, decide_eq_true_iff, isTrail_iff] at hform
    obtain ⟨hb, hvalue⟩ := hform
    have hu : u.toNat = (a.toNat - 0xC0) * 64 + (b.toNat - 0x80) := by
      rw [← Option.some.inj h, Utf16.toNat_unit (by omega)]
    rcases hvalue with hzero | hlong
    · have ha : a = 0xC0 := UInt8.toNat.inj (by rw [show (0xC0 : UInt8).toNat = 0xC0 from rfl]; omega)
      have hb : b = 0x80 := UInt8.toNat.inj (by rw [show (0x80 : UInt8).toNat = 0x80 from rfl]; omega)
      rw [unitBytes_of_zero (hu.trans hzero), ha, hb]
    · have hfirst : 0xC0 + u.toNat / 64 = a.toNat := by omega
      have hsecond : 0x80 + u.toNat % 64 = b.toNat := by omega
      rw [unitBytes_of_two (by omega) (by omega), hfirst, hsecond, UInt8.ofNat_toNat, UInt8.ofNat_toNat]
  · cases h

theorem unitBytes_of_unitOfThree? {a b c : UInt8} (ha : 0xE0 ≤ a.toNat) (ha' : a.toNat < 0xF0)
    (h : unitOfThree? a b c = some u) : unitBytes u = [a, b, c] := by
  unfold unitOfThree? at h
  dsimp only at h
  split at h
  · rename_i hform
    simp only [Bool.and_eq_true, decide_eq_true_iff, isTrail_iff] at hform
    obtain ⟨⟨hb, hc⟩, hlong⟩ := hform
    have hu : u.toNat = (a.toNat - 0xE0) * 4096 + (b.toNat - 0x80) * 64 + (c.toNat - 0x80) := by
      rw [← Option.some.inj h, Utf16.toNat_unit (by omega)]
    have hfirst : 0xE0 + u.toNat / 4096 = a.toNat := by omega
    have hsecond : 0x80 + u.toNat / 64 % 64 = b.toNat := by omega
    have hthird : 0x80 + u.toNat % 64 = c.toNat := by omega
    rw [unitBytes_of_three (by omega), hfirst, hsecond, hthird, UInt8.ofNat_toNat, UInt8.ofNat_toNat,
      UInt8.ofNat_toNat]
  · cases h

end Units

theorem flatMap_of_unitsOnto? {done us : List UInt16} {bytes : List UInt8}
    (h : unitsOnto? done bytes = some us) :
    us.flatMap unitBytes = done.reverse.flatMap unitBytes ++ bytes := by
  fun_induction unitsOnto? done bytes with
  | case1 done => rw [← Option.some.inj h, List.append_nil]
  | case3 done a rest hlt hne ih =>
      have hlt : a.toNat < 0x80 := UInt8.lt_iff_toNat_lt.mp hlt
      have hpos : 0 < a.toNat := Nat.pos_of_ne_zero fun hzero => hne (UInt8.toNat.inj hzero)
      have hcode : (UInt16.ofNat a.toNat).toNat = a.toNat := Utf16.toNat_unit (by omega)
      have hbytes : unitBytes (UInt16.ofNat a.toNat) = [a] := by
        rw [unitBytes_of_one (by omega) (by omega), hcode, UInt8.ofNat_toNat]
      rw [ih h, List.reverse_cons, List.flatMap_append, List.flatMap_singleton, hbytes,
        List.append_assoc]
      rfl
  | case7 done a hlt hle b rest hlt' u hu ih =>
      have hbytes := unitBytes_of_unitOfTwo? (UInt8.le_iff_toNat_le.mp (UInt8.not_lt.mp hle))
        (UInt8.lt_iff_toNat_lt.mp hlt') hu
      rw [ih h, List.reverse_cons, List.flatMap_append, List.flatMap_singleton, hbytes,
        List.append_assoc]
      rfl
  | case10 done a hlt hle b hlt' c rest hlt'' u hu ih =>
      have hbytes := unitBytes_of_unitOfThree? (UInt8.le_iff_toNat_le.mp (UInt8.not_lt.mp hlt'))
        (UInt8.lt_iff_toNat_lt.mp hlt'') hu
      rw [ih h, List.reverse_cons, List.flatMap_append, List.flatMap_singleton, hbytes,
        List.append_assoc]
      rfl
  | _ => cases h

section Bytes

variable {a b c : UInt8} {u : UInt16} {rest : List UInt8}

theorem not_lt_of_le {least : Nat} (h : least ≤ a.toNat) (hb : b.toNat ≤ least) : ¬a < b :=
  UInt8.not_lt.mpr (UInt8.le_iff_toNat_le.mpr (Nat.le_trans hb h))

theorem units?_cons_of_one (hpos : 0 < a.toNat) (hlt : a.toNat < 0x80) :
    units? (a :: rest) = (units? rest).map (UInt16.ofNat a.toNat :: ·) := by
  have hone : a < 0x80 := UInt8.lt_iff_toNat_lt.mpr hlt
  have hne : a ≠ 0 := fun hzero => Nat.ne_of_gt hpos (congrArg UInt8.toNat hzero)
  rw [units?, unitsOnto?.eq_def]
  simp only [if_pos hone, if_neg hne]
  exact unitsOnto?_eq [_] rest

theorem units?_cons_of_two (ha : 0xC0 ≤ a.toNat) (ha' : a.toNat < 0xE0) (hu : unitOfTwo? a b = some u) :
    units? (a :: b :: rest) = (units? rest).map (u :: ·) := by
  have hone : ¬a < 0x80 := not_lt_of_le ha (by decide)
  have htrail : ¬a < 0xC0 := not_lt_of_le ha (by decide)
  have htwo : a < 0xE0 := UInt8.lt_iff_toNat_lt.mpr ha'
  rw [units?, unitsOnto?.eq_def]
  simp only [if_neg hone, if_neg htrail, if_pos htwo, hu]
  exact unitsOnto?_eq [u] rest

theorem units?_cons_of_three (ha : 0xE0 ≤ a.toNat) (ha' : a.toNat < 0xF0)
    (hu : unitOfThree? a b c = some u) :
    units? (a :: b :: c :: rest) = (units? rest).map (u :: ·) := by
  have hone : ¬a < 0x80 := not_lt_of_le ha (by decide)
  have htrail : ¬a < 0xC0 := not_lt_of_le ha (by decide)
  have htwo : ¬a < 0xE0 := not_lt_of_le ha (by decide)
  have hthree : a < 0xF0 := UInt8.lt_iff_toNat_lt.mpr ha'
  rw [units?, unitsOnto?.eq_def]
  simp only [if_neg hone, if_neg htrail, if_neg htwo, if_pos hthree, hu]
  exact unitsOnto?_eq [u] rest

end Bytes

/-- The bytes of a unit are decoded to it, whatever follows them. -/
theorem units?_unitBytes_append (u : UInt16) (bytes : List UInt8) :
    units? (unitBytes u ++ bytes) = (units? bytes).map (u :: ·) := by
  have hlt := u.toNat_lt
  rcases Nat.eq_zero_or_pos u.toNat with hzero | hpos
  · rw [unitBytes_of_zero hzero]
    have hu : u = 0 := UInt16.toNat.inj hzero
    rw [hu]
    exact units?_cons_of_two (by decide) (by decide) (by decide)
  rcases Nat.lt_or_ge u.toNat 0x80 with hone | hone
  · rw [unitBytes_of_one hpos hone, List.singleton_append]
    have ha := toNat_byte (n := u.toNat) (by omega)
    rw [units?_cons_of_one (by rwa [ha]) (by rwa [ha]), ha, UInt16.ofNat_toNat]
  rcases Nat.lt_or_ge u.toNat 0x800 with htwo | htwo
  · have ha := toNat_byte (n := 0xC0 + u.toNat / 64) (by omega)
    have hb := toNat_byte (n := 0x80 + u.toNat % 64) (by omega)
    rw [unitBytes_of_two hone htwo]
    refine units?_cons_of_two (by omega) (by omega) ?_
    have htrail : isTrail (UInt8.ofNat (0x80 + u.toNat % 64)) = true := isTrail_iff.mpr (by omega)
    have hvalue : (0xC0 + u.toNat / 64 - 0xC0) * 64 + (0x80 + u.toNat % 64 - 0x80) = u.toNat := by omega
    simp only [unitOfTwo?, ha, hb, htrail, hvalue, decide_eq_true hone, Bool.or_true, Bool.and_true,
      if_true, UInt16.ofNat_toNat]
  · have ha := toNat_byte (n := 0xE0 + u.toNat / 4096) (by omega)
    have hb := toNat_byte (n := 0x80 + u.toNat / 64 % 64) (by omega)
    have hc := toNat_byte (n := 0x80 + u.toNat % 64) (by omega)
    rw [unitBytes_of_three htwo]
    refine units?_cons_of_three (by omega) (by omega) ?_
    have htrail : isTrail (UInt8.ofNat (0x80 + u.toNat / 64 % 64)) = true := isTrail_iff.mpr (by omega)
    have htrail' : isTrail (UInt8.ofNat (0x80 + u.toNat % 64)) = true := isTrail_iff.mpr (by omega)
    have hvalue : (0xE0 + u.toNat / 4096 - 0xE0) * 4096 + (0x80 + u.toNat / 64 % 64 - 0x80) * 64 +
        (0x80 + u.toNat % 64 - 0x80) = u.toNat := by omega
    simp only [unitOfThree?, ha, hb, hc, htrail, htrail', hvalue, decide_eq_true htwo, Bool.and_true,
      if_true, UInt16.ofNat_toNat]

theorem units?_flatMap (us : List UInt16) : units? (us.flatMap unitBytes) = some us := by
  induction us with
  | nil => rfl
  | cons u us ih => rw [List.flatMap_cons, units?_unitBytes_append, ih, Option.map_some]

/-- Bytes are decoded to a text exactly if they are its spelling. -/
theorem decode?_eq_some_iff {bytes : List UInt8} {text : List Char} :
    decode? bytes = some text ↔ bytes = encode text := by
  constructor
  · intro h
    obtain ⟨us, hus, htext⟩ := Option.bind_eq_some_iff.mp h
    have hbytes : us.flatMap unitBytes = bytes := flatMap_of_unitsOnto? hus
    rw [encode, ← Utf16.decode?_eq_some_iff.mp htext, hbytes]
  · intro h
    rw [h, decode?, encode, units?_flatMap, Option.bind_some, Utf16.decode?_encode]

/-- The bytes of a range, its ends included. -/
def InRange (least greatest : Nat) (b : UInt8) : Prop := least ≤ b.toNat ∧ b.toNat ≤ greatest

/-- The forms in which single characters are written. A character above `U+FFFF` is written as the two
surrogates of its pair, three bytes each; no other form stands for a surrogate, and only that of
`U+0000` is longer than it has to be. -/
inductive IsForm : List UInt8 → Prop where
  | one {a : UInt8} (ha : InRange 0x01 0x7F a) : IsForm [a]
  | null : IsForm [0xC0, 0x80]
  | two {a b : UInt8} (ha : InRange 0xC2 0xDF a) (hb : InRange 0x80 0xBF b) : IsForm [a, b]
  | three {a b c : UInt8} (ha : InRange 0xE0 0xEF a) (hb : InRange 0x80 0xBF b)
      (hc : InRange 0x80 0xBF c) (hshortest : a = 0xE0 → 0xA0 ≤ b.toNat)
      (hunpaired : a = 0xED → b.toNat < 0xA0) : IsForm [a, b, c]
  | pair {b c b' c' : UInt8} (hb : InRange 0xA0 0xAF b) (hc : InRange 0x80 0xBF c)
      (hb' : InRange 0xB0 0xBF b') (hc' : InRange 0x80 0xBF c') : IsForm [0xED, b, c, 0xED, b', c']

/-- One form after another. -/
inductive IsValid : List UInt8 → Prop where
  | nil : IsValid []
  | cons {form bytes : List UInt8} (hform : IsForm form) (hrest : IsValid bytes) :
      IsValid (form ++ bytes)

section Forms

variable {a b c : UInt8} {u v : UInt16}

theorem inRange_ofNat {least greatest n : Nat} (h : least ≤ n ∧ n ≤ greatest ∧ n < 256) :
    InRange least greatest (UInt8.ofNat n) := by
  obtain ⟨hleast, hgreatest, hlt⟩ := h
  rw [InRange, toNat_byte hlt]
  exact ⟨hleast, hgreatest⟩

theorem encode_ofNat (h : u.toNat < 0xD800 ∨ 0xE000 ≤ u.toNat) :
    encode [Char.ofNat u.toNat] = unitBytes u := by
  obtain ⟨hhigh, hlow⟩ := Utf16.not_surrogate_iff.mpr h
  simp [encode, Utf16.encode, Utf16.units_ofNat hhigh hlow]

theorem encode_pairChar (hu : Utf16.isHigh u = true) (hv : Utf16.isLow v = true) :
    encode [Utf16.pairChar u v] = unitBytes u ++ unitBytes v := by
  simp [encode, Utf16.encode, Utf16.units_pairChar hu hv]

theorem exists_unit_of_two (ha : InRange 0xC2 0xDF a) (hb : InRange 0x80 0xBF b) :
    ∃ u, unitBytes u = [a, b] ∧ u.toNat < 0x800 := by
  obtain ⟨ha, ha'⟩ := ha
  obtain ⟨hb, hb'⟩ := hb
  have htrail : isTrail b = true := isTrail_iff.mpr (by omega)
  have hlong : 0x80 ≤ (a.toNat - 0xC0) * 64 + (b.toNat - 0x80) := by omega
  refine ⟨UInt16.ofNat ((a.toNat - 0xC0) * 64 + (b.toNat - 0x80)), ?_, ?_⟩
  · refine unitBytes_of_unitOfTwo? (by omega) (by omega) ?_
    simp only [unitOfTwo?, htrail, decide_eq_true hlong, Bool.or_true, Bool.and_true, if_true]
  · rw [Utf16.toNat_unit] <;> omega

theorem exists_unit_of_three (ha : InRange 0xE0 0xEF a) (hb : InRange 0x80 0xBF b)
    (hc : InRange 0x80 0xBF c) (hshortest : a = 0xE0 → 0xA0 ≤ b.toNat) : ∃ u, unitBytes u = [a, b, c] ∧
      u.toNat = (a.toNat - 0xE0) * 4096 + (b.toNat - 0x80) * 64 + (c.toNat - 0x80) := by
  obtain ⟨ha, ha'⟩ := ha
  obtain ⟨hb, hb'⟩ := hb
  obtain ⟨hc, hc'⟩ := hc
  have htrail : isTrail b = true := isTrail_iff.mpr (by omega)
  have htrail' : isTrail c = true := isTrail_iff.mpr (by omega)
  have hlong : 0x800 ≤ (a.toNat - 0xE0) * 4096 + (b.toNat - 0x80) * 64 + (c.toNat - 0x80) := by
    rcases Nat.eq_or_lt_of_le ha with heq | hlt
    · have := hshortest (UInt8.toNat.inj heq.symm)
      omega
    · omega
  refine ⟨UInt16.ofNat ((a.toNat - 0xE0) * 4096 + (b.toNat - 0x80) * 64 + (c.toNat - 0x80)), ?_, ?_⟩
  · refine unitBytes_of_unitOfThree? (by omega) (by omega) ?_
    simp only [unitOfThree?, htrail, htrail', decide_eq_true hlong, Bool.and_true, if_true]
  · rw [Utf16.toNat_unit]
    omega

end Forms

/-- Each form is the spelling of a character. -/
theorem exists_char_of_isForm {form : List UInt8} (h : IsForm form) : ∃ c, encode [c] = form := by
  cases h with
  | @one a ha =>
      obtain ⟨ha, ha'⟩ := ha
      have hcode : (UInt16.ofNat a.toNat).toNat = a.toNat := Utf16.toNat_unit (by omega)
      have hbytes : unitBytes (UInt16.ofNat a.toNat) = [a] := by
        rw [unitBytes_of_one (by omega) (by omega), hcode, UInt8.ofNat_toNat]
      exact ⟨_, (encode_ofNat (by omega)).trans hbytes⟩
  | null => exact ⟨Char.ofNat 0, rfl⟩
  | two ha hb =>
      obtain ⟨u, hu, hlt⟩ := exists_unit_of_two ha hb
      exact ⟨_, (encode_ofNat (by omega)).trans hu⟩
  | @three a b c ha hb hc hshortest hunpaired =>
      obtain ⟨u, hu, hvalue⟩ := exists_unit_of_three ha hb hc hshortest
      obtain ⟨ha, ha'⟩ := ha
      obtain ⟨hb, hb'⟩ := hb
      obtain ⟨hc, hc'⟩ := hc
      have hsurrogate : u.toNat < 0xD800 ∨ 0xE000 ≤ u.toNat := by
        by_cases hED : a.toNat = 0xED
        · have := hunpaired (UInt8.toNat.inj hED)
          omega
        · omega
      exact ⟨_, (encode_ofNat (by omega)).trans hu⟩
  | @pair b c b' c' hb hc hb' hc' =>
      have hrange {least greatest : Nat} {b : UInt8} (h : InRange least greatest b)
          (hleast : 0x80 ≤ least) (hgreatest : greatest ≤ 0xBF) : InRange 0x80 0xBF b :=
        ⟨Nat.le_trans hleast h.1, Nat.le_trans h.2 hgreatest⟩
      have hED : InRange 0xE0 0xEF 0xED := ⟨by decide, by decide⟩
      have hne : (0xED : UInt8) ≠ 0xE0 := by decide
      obtain ⟨u, hu, hvalue⟩ :=
        exists_unit_of_three hED (hrange hb (by decide) (by decide)) hc fun heq => absurd heq hne
      obtain ⟨v, hv, hvalue'⟩ :=
        exists_unit_of_three hED (hrange hb' (by decide) (by decide)) hc' fun heq => absurd heq hne
      have hfirst : (0xED : UInt8).toNat = 0xED := rfl
      rw [hfirst] at hvalue hvalue'
      obtain ⟨hb, hbt⟩ := hb
      obtain ⟨hc, hct⟩ := hc
      obtain ⟨hb', hbt'⟩ := hb'
      obtain ⟨hc', hct'⟩ := hc'
      have hhigh : Utf16.isHigh u = true := Utf16.isHigh_iff.mpr (by omega)
      have hlow : Utf16.isLow v = true := Utf16.isLow_iff.mpr (by omega)
      exact ⟨Utf16.pairChar u v, by rw [encode_pairChar hhigh hlow, hu, hv]; rfl⟩

/-- Each character is written in one of the forms. -/
theorem isForm_encode (c : Char) : IsForm (encode [c]) := by
  rcases Utf16.units_cases c with ⟨u, -, hhigh, hlow, rfl⟩ | ⟨u, v, -, hhigh, hlow, rfl⟩
  · have hplain := Utf16.not_surrogate_iff.mp ⟨hhigh, hlow⟩
    have hlt := u.toNat_lt
    rw [encode_ofNat hplain]
    rcases Nat.eq_zero_or_pos u.toNat with hzero | hpos
    · rw [unitBytes_of_zero hzero]
      exact .null
    rcases Nat.lt_or_ge u.toNat 0x80 with hone | hone
    · rw [unitBytes_of_one hpos hone]
      exact .one (inRange_ofNat (by omega))
    rcases Nat.lt_or_ge u.toNat 0x800 with htwo | htwo
    · rw [unitBytes_of_two hone htwo]
      exact .two (inRange_ofNat (by omega)) (inRange_ofNat (by omega))
    · rw [unitBytes_of_three htwo]
      have hfirst := toNat_byte (n := 0xE0 + u.toNat / 4096) (by omega)
      have hsecond := toNat_byte (n := 0x80 + u.toNat / 64 % 64) (by omega)
      refine .three (inRange_ofNat (by omega)) (inRange_ofNat (by omega)) (inRange_ofNat (by omega))
        (fun ha => ?_) fun ha => ?_
      · have hcode : 0xE0 + u.toNat / 4096 = 0xE0 := hfirst.symm.trans (congrArg UInt8.toNat ha)
        omega
      · have hcode : 0xE0 + u.toNat / 4096 = 0xED := hfirst.symm.trans (congrArg UInt8.toNat ha)
        omega
  · rw [encode_pairChar hhigh hlow]
    rw [Utf16.isHigh_iff] at hhigh
    rw [Utf16.isLow_iff] at hlow
    have hfirst : 0xE0 + u.toNat / 4096 = 0xED := by omega
    have hfirst' : 0xE0 + v.toNat / 4096 = 0xED := by omega
    rw [unitBytes_of_three (by omega), unitBytes_of_three (by omega), hfirst, hfirst']
    exact .pair (inRange_ofNat (by omega)) (inRange_ofNat (by omega))
      (inRange_ofNat (by omega)) (inRange_ofNat (by omega))

theorem isValid_encode (text : List Char) : IsValid (encode text) := by
  induction text with
  | nil => exact .nil
  | cons c text ih =>
      rw [encode_cons]
      exact .cons (isForm_encode c) ih

/-- The valid byte strings are the spellings of texts. -/
theorem isValid_iff {bytes : List UInt8} : IsValid bytes ↔ ∃ text, encode text = bytes := by
  constructor
  · intro h
    induction h with
    | nil => exact ⟨[], rfl⟩
    | cons hform _ ih =>
        obtain ⟨c, rfl⟩ := exists_char_of_isForm hform
        obtain ⟨text, rfl⟩ := ih
        exact ⟨c :: text, encode_cons c text⟩
  · intro hgiven
    obtain ⟨text, rfl⟩ := hgiven
    exact isValid_encode text

end ModifiedUtf8

namespace Symbol

theorem textOfBytes_encode (text : List Char) :
    textOfBytes (ModifiedUtf8.encode text) = String.ofList text := by
  rw [textOfBytes, charsOfBytes, ModifiedUtf8.decode?_eq_some_iff.mpr rfl, Option.getD_some]

/-- The spelling of a text is read as that text. -/
theorem textOfBytes_bytesOfText (text : String) : textOfBytes (bytesOfText text) = text := by
  rw [bytesOfText, textOfBytes_encode, String.ofList_toList]

/-- Spelling a text and reading bytes as a text undo each other. The spelling of a text is valid and is
read as that text; valid bytes are read strictly, all others leniently, and the text that valid bytes
are read as is spelt by them again. So different texts are spelt differently, and the valid byte
strings are the spellings of texts. -/
theorem bytesOfText_inverse :
    (∀ text, ModifiedUtf8.IsValid (bytesOfText text) ∧ textOfBytes (bytesOfText text) = text) ∧
      (∀ bytes, ModifiedUtf8.IsValid bytes → bytesOfText (textOfBytes bytes) = bytes) ∧
      (∀ bytes, (ModifiedUtf8.decode? bytes).isSome = true ↔ ModifiedUtf8.IsValid bytes) ∧
      Function.Injective bytesOfText ∧
      ∀ bytes, (∃ text, bytesOfText text = bytes) ↔ ModifiedUtf8.IsValid bytes := by
  have hspelt (bytes : List UInt8) :
      (∃ text, bytesOfText text = bytes) ↔ ModifiedUtf8.IsValid bytes := by
    rw [ModifiedUtf8.isValid_iff]
    constructor
    · intro hgiven
      obtain ⟨text, rfl⟩ := hgiven
      exact ⟨text.toList, rfl⟩
    · intro hgiven
      obtain ⟨text, rfl⟩ := hgiven
      exact ⟨String.ofList text, by rw [bytesOfText, String.toList_ofList]⟩
  refine ⟨fun text => ⟨ModifiedUtf8.isValid_encode _, textOfBytes_bytesOfText text⟩, ?_, ?_, ?_, hspelt⟩
  · intro bytes hvalid
    obtain ⟨text, rfl⟩ := (hspelt bytes).mpr hvalid
    rw [textOfBytes_bytesOfText]
  · intro bytes
    rw [Option.isSome_iff_exists, ModifiedUtf8.isValid_iff]
    exact exists_congr fun text => ModifiedUtf8.decode?_eq_some_iff.trans eq_comm
  · exact Function.LeftInverse.injective textOfBytes_bytesOfText

/-- One character of each size: `a`, `U+0000`, and three above ASCII, the last one a pair. -/
theorem bytesOfText_inverse_sizes :
    ModifiedUtf8.IsValid
        [0x61, 0xC0, 0x80, 0xC3, 0xA9, 0xE2, 0x82, 0xAC, 0xED, 0xA0, 0xB4, 0xED, 0xB4, 0x9E] ∧
      bytesOfText (textOfBytes
          [0x61, 0xC0, 0x80, 0xC3, 0xA9, 0xE2, 0x82, 0xAC, 0xED, 0xA0, 0xB4, 0xED, 0xB4, 0x9E]) =
        [0x61, 0xC0, 0x80, 0xC3, 0xA9, 0xE2, 0x82, 0xAC, 0xED, 0xA0, 0xB4, 0xED, 0xB4, 0x9E] := by
  have hvalid : ModifiedUtf8.IsValid
      [0x61, 0xC0, 0x80, 0xC3, 0xA9, 0xE2, 0x82, 0xAC, 0xED, 0xA0, 0xB4, 0xED, 0xB4, 0x9E] := by
    exact .cons (.one (a := 0x61) ⟨by decide, by decide⟩) <| .cons .null <|
      .cons (.two (a := 0xC3) (b := 0xA9) ⟨by decide, by decide⟩ ⟨by decide, by decide⟩) <|
        .cons (.three (a := 0xE2) (b := 0x82) (c := 0xAC) ⟨by decide, by decide⟩ ⟨by decide, by decide⟩
          ⟨by decide, by decide⟩ (by decide) (by decide)) <|
          .cons (@ModifiedUtf8.IsForm.pair 0xA0 0xB4 0xB4 0x9E ⟨by decide, by decide⟩
            ⟨by decide, by decide⟩ ⟨by decide, by decide⟩ ⟨by decide, by decide⟩) .nil
  exact ⟨hvalid, bytesOfText_inverse.2.1 _ hvalid⟩

end Symbol

end ClassLoading
