import ClassLoading.Proofs.ClassFile.Declaration

/-!
# Prefix-free spellings

The parts of a class file are spelt one behind the other, and no spelling of a part begins another
spelling of such a part. Whoever knows what a class file writes up to some field, and what this field
writes, therefore finds both in every way to read the file as a class file.
-/

namespace ClassLoading

/-- A spelling is known from any bytes that begin with it. -/
def PrefixFree {α : Type} (spell : α → List UInt8) : Prop :=
  ∀ ⦃x x' : α⦄ ⦃tail tail' : List UInt8⦄, spell x ++ tail = spell x' ++ tail' → x = x' ∧ tail = tail'

theorem BigEndian.ofNat_append_inj {width n n' : Nat} {tail tail' : List UInt8} (hn : n < 256 ^ width)
    (hn' : n' < 256 ^ width) (h : ofNat width n ++ tail = ofNat width n' ++ tail') :
    n = n' ∧ tail = tail' := by
  obtain ⟨hnumber, htail⟩ := List.append_inj h (by rw [length_ofNat, length_ofNat])
  refine ⟨?_, htail⟩
  rw [← Nat.mod_eq_of_lt hn, ← toNat_ofNat, hnumber, toNat_ofNat, Nat.mod_eq_of_lt hn']

theorem BigEndian.prefixFree_ofUInt16 : PrefixFree ofUInt16 := by
  intro n n' tail tail' h
  obtain ⟨hn, htail⟩ := ofNat_append_inj (by exact n.toNat_lt) (by exact n'.toNat_lt) h
  exact ⟨UInt16.toNat.inj hn, htail⟩

/-- Things that are spelt at the beginning are found among those that are spelt altogether. -/
theorem PrefixFree.flatMap {α : Type} {spell : α → List UInt8} (hspell : PrefixFree spell) {xs ys : List α}
    {tail tail' : List UInt8} (hle : xs.length ≤ ys.length)
    (h : xs.flatMap spell ++ tail = ys.flatMap spell ++ tail') :
    ∃ more, ys = xs ++ more ∧ tail = more.flatMap spell ++ tail' := by
  induction xs generalizing ys with
  | nil => exact ⟨ys, rfl, h⟩
  | cons x xs ih =>
      cases ys with
      | nil => cases hle
      | cons y ys =>
          rw [List.flatMap_cons, List.flatMap_cons, List.append_assoc, List.append_assoc] at h
          obtain ⟨rfl, hrest⟩ := hspell h
          obtain ⟨more, rfl, htail⟩ := ih (Nat.le_of_succ_le_succ hle) hrest
          exact ⟨more, rfl, htail⟩

/-- As many things as there are altogether are all of them. -/
theorem PrefixFree.flatMap_of_length_eq {α : Type} {spell : α → List UInt8} (hspell : PrefixFree spell)
    {xs ys : List α} {tail tail' : List UInt8} (hlength : xs.length = ys.length)
    (h : xs.flatMap spell ++ tail = ys.flatMap spell ++ tail') : xs = ys ∧ tail = tail' := by
  obtain ⟨more, rfl, rfl⟩ := hspell.flatMap (Nat.le_of_eq hlength) h
  obtain rfl : more = [] := by simpa using hlength
  exact ⟨(List.append_nil xs).symm, rfl⟩

theorem AttributeDeclaration.prefixFree_encode : PrefixFree encode := by
  intro declaration declaration' tail tail' h
  obtain ⟨name, body, hlt⟩ := declaration
  obtain ⟨name', body', hlt'⟩ := declaration'
  simp only [encode, List.append_assoc] at h
  obtain ⟨rfl, hrest⟩ := BigEndian.prefixFree_ofUInt16 h
  obtain ⟨hlength, hbody⟩ := BigEndian.ofNat_append_inj (by exact hlt) (by exact hlt') hrest
  obtain ⟨rfl, htail⟩ := List.append_inj hbody hlength
  exact ⟨rfl, htail⟩

theorem FieldDeclaration.prefixFree_encode : PrefixFree encode := by
  intro declaration declaration' tail tail' h
  obtain ⟨flags, name, descriptor, attributes, hlt⟩ := declaration
  obtain ⟨flags', name', descriptor', attributes', hlt'⟩ := declaration'
  simp only [encode, List.append_assoc] at h
  obtain ⟨rfl, hname⟩ := BigEndian.prefixFree_ofUInt16 h
  obtain ⟨rfl, hdescriptor⟩ := BigEndian.prefixFree_ofUInt16 hname
  obtain ⟨rfl, hcount⟩ := BigEndian.prefixFree_ofUInt16 hdescriptor
  obtain ⟨hlength, hattributes⟩ := BigEndian.ofNat_append_inj (by exact hlt) (by exact hlt') hcount
  obtain ⟨rfl, htail⟩ := AttributeDeclaration.prefixFree_encode.flatMap_of_length_eq hlength hattributes
  exact ⟨rfl, htail⟩

namespace RawConstant

/-- Constants that fill equal pools and are spelt alike are the same. -/
theorem flatMap_encode_inj {constants constants' : List RawConstant} {tail tail' : List UInt8}
    (hcount : slotCount constants = slotCount constants') (hlt : slotCount constants + 1 < UInt16.size)
    (hfits : ∀ constant ∈ constants, constant.Fits) (hfits' : ∀ constant ∈ constants', constant.Fits)
    (h : constants.flatMap encode ++ tail = constants'.flatMap encode ++ tail') :
    constants = constants' ∧ tail = tail' := by
  have hsize : (UInt16.ofNat (slotCount constants + 1)).toNat = slotCount constants + 1 :=
    UInt16.toNat_ofNat_of_lt hlt
  have hfull : (1 : UInt16).toNat + slotCount constants =
      (UInt16.ofNat (slotCount constants + 1)).toNat := by
    rw [hsize, UInt16.toNat_one, Nat.add_comm]
  have hfilled := RawConstants.readFrom_filled (UInt16.ofNat (slotCount constants + 1)) 1
    (.start (constants.flatMap encode ++ tail)) (by rw [← hfull]; exact Nat.le_add_right _ _)
  obtain ⟨c, hbytes⟩ := Cursor.consumes_start_iff.mpr ⟨tail, rfl⟩
  obtain ⟨c', hbytes'⟩ := Cursor.consumes_start_iff.mpr ⟨tail', h⟩
  obtain ⟨hread, -⟩ := (hfilled.yields constants c).mpr ⟨⟨hfull, hfits⟩, hbytes⟩
  obtain ⟨hread', -⟩ := (hfilled.yields constants' c').mpr ⟨⟨hcount ▸ hfull, hfits'⟩, hbytes'⟩
  obtain rfl : constants = constants' := hread.symm.trans hread'
  exact ⟨rfl, List.append_cancel_left h⟩

end RawConstant

/-- What a class file writes up to the beginning of one of its fields. -/
structure Opening where
  minor : UInt16
  major : UInt16
  constants : List RawConstant
  flags : UInt16
  thisClass : UInt16
  superClass : UInt16
  interfaces : List UInt16
  /-- The number of fields, those that come later included. -/
  fieldCount : UInt16
  /-- The fields that come before. -/
  fields : List FieldDeclaration
  slotCount_lt : RawConstant.slotCount constants + 1 < UInt16.size
  constants_fit : ∀ constant ∈ constants, constant.Fits
  interfaces_lt : interfaces.length < UInt16.size
  fields_lt : fields.length < fieldCount.toNat

namespace Opening

def encode (opening : Opening) : List UInt8 :=
  [0xCA, 0xFE, 0xBA, 0xBE] ++ (BigEndian.ofUInt16 opening.minor ++
    (BigEndian.ofUInt16 opening.major ++
      (BigEndian.ofUInt16 (UInt16.ofNat (RawConstant.slotCount opening.constants + 1)) ++
        (opening.constants.flatMap RawConstant.encode ++ (BigEndian.ofUInt16 opening.flags ++
          (BigEndian.ofUInt16 opening.thisClass ++ (BigEndian.ofUInt16 opening.superClass ++
            (BigEndian.ofNat 2 opening.interfaces.length ++
              (opening.interfaces.flatMap BigEndian.ofUInt16 ++
                (BigEndian.ofUInt16 opening.fieldCount ++
                  opening.fields.flatMap FieldDeclaration.encode))))))))))

variable {opening : Opening} {field : FieldDeclaration} {more : List FieldDeclaration}

/-- The class file that goes on with a field and the fields that are left. -/
def close (opening : Opening) (field : FieldDeclaration) (more : List FieldDeclaration)
    (hcount : (opening.fields ++ field :: more).length = opening.fieldCount.toNat) : ClassDeclaration where
  minor := opening.minor
  major := opening.major
  constants := opening.constants
  body := ⟨opening.flags, opening.thisClass, opening.superClass, opening.interfaces,
    opening.fields ++ field :: more, opening.interfaces_lt, hcount ▸ opening.fieldCount.toNat_lt⟩
  slotCount_lt := opening.slotCount_lt
  constants_fit := opening.constants_fit

theorem encode_close (hcount : (opening.fields ++ field :: more).length = opening.fieldCount.toNat) :
    (opening.close field more hcount).encode =
      opening.encode ++ (field.encode ++ more.flatMap FieldDeclaration.encode) := by
  simp only [ClassDeclaration.encode, BodyDeclaration.encode, ClassDeclaration.poolSize, close, hcount,
    encode, List.flatMap_append, List.flatMap_cons, List.append_assoc, BigEndian.ofUInt16]

/-- Every way to read on after an opening and a field is a class file with this opening and field. -/
theorem exists_close {declaration : ClassDeclaration} {rest tail : List UInt8}
    (h : opening.encode ++ (field.encode ++ rest) = declaration.encode ++ tail) :
    ∃ more hcount, declaration = opening.close field more hcount ∧
      rest = more.flatMap FieldDeclaration.encode ++ tail := by
  obtain ⟨minor, major, constants, body, hslots, hfits⟩ := declaration
  obtain ⟨flags, thisClass, superClass, interfaces, fields, hinterfaces, hfields⟩ := body
  simp only [encode, ClassDeclaration.encode, BodyDeclaration.encode, ClassDeclaration.poolSize,
    List.append_assoc] at h
  have hminor := List.append_cancel_left h
  obtain ⟨rfl, hmajor⟩ := BigEndian.prefixFree_ofUInt16 hminor
  obtain ⟨rfl, hsize⟩ := BigEndian.prefixFree_ofUInt16 hmajor
  obtain ⟨hslotsEq, hconstants⟩ := BigEndian.prefixFree_ofUInt16 hsize
  have hcount : RawConstant.slotCount opening.constants = RawConstant.slotCount constants := by
    have hleft : (UInt16.ofNat (RawConstant.slotCount opening.constants + 1)).toNat = _ :=
      UInt16.toNat_ofNat_of_lt opening.slotCount_lt
    have hright : (UInt16.ofNat (RawConstant.slotCount constants + 1)).toNat = _ :=
      UInt16.toNat_ofNat_of_lt hslots
    exact Nat.succ.inj (hleft.symm.trans (hslotsEq ▸ hright))
  obtain ⟨rfl, hflags⟩ := RawConstant.flatMap_encode_inj hcount opening.slotCount_lt
    opening.constants_fit hfits hconstants
  obtain ⟨rfl, hthisClass⟩ := BigEndian.prefixFree_ofUInt16 hflags
  obtain ⟨rfl, hsuperClass⟩ := BigEndian.prefixFree_ofUInt16 hthisClass
  obtain ⟨rfl, hlength⟩ := BigEndian.prefixFree_ofUInt16 hsuperClass
  obtain ⟨hlength, hinterfaceBytes⟩ :=
    BigEndian.ofNat_append_inj (by exact opening.interfaces_lt) (by exact hinterfaces) hlength
  obtain ⟨rfl, hcountBytes⟩ :=
    BigEndian.prefixFree_ofUInt16.flatMap_of_length_eq hlength hinterfaceBytes
  obtain ⟨hfieldCount, hfieldBytes⟩ :=
    BigEndian.ofNat_append_inj (by exact opening.fieldCount.toNat_lt) (by exact hfields) hcountBytes
  have hfirst : (opening.fields ++ [field]).flatMap FieldDeclaration.encode ++ rest =
      fields.flatMap FieldDeclaration.encode ++ tail := by simpa using hfieldBytes
  obtain ⟨more, rfl, hrest⟩ := FieldDeclaration.prefixFree_encode.flatMap (by
    rw [← hfieldCount, List.length_append]
    exact opening.fields_lt) hfirst
  rw [List.append_assoc, List.singleton_append] at hfieldCount
  refine ⟨more, hfieldCount.symm, ?_, hrest⟩
  simp only [close, List.append_assoc, List.singleton_append]

end Opening

end ClassLoading
