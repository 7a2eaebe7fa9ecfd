import ClassLoading.Proofs.ClassFile.ElementSpelling
import ClassLoading.Proofs.Refusal

/-!
# Nesting

The reader of annotations accepts exactly the spellings of those lists in which no value stands deeper
than the limit. No spelling begins another, and each is the spelling of one list only. Where a list is
spelt that is right in every other way but nested deeper, the reader says so, whatever follows.
-/

namespace ClassLoading

open Decoder

/-- A value stands at some depth in a list of annotations: those of the annotations themselves at depth
one, and those inside another value one deeper than that one. -/
inductive StandsAt (uses : List AnnotationUse) : Nat → ElementValue → Prop
  | outermost {use : AnnotationUse} {name : Symbol} {value : ElementValue} : use ∈ uses →
      (name, value) ∈ use.elements → StandsAt uses 1 value
  | nested {depth : Nat} {typeName name : Symbol} {elements : List (Symbol × ElementValue)}
      {value : ElementValue} : StandsAt uses depth (.nested typeName elements) →
      (name, value) ∈ elements → StandsAt uses (depth + 1) value
  | array {depth : Nat} {values : List ElementValue} {value : ElementValue} :
      StandsAt uses depth (.array values) → value ∈ values → StandsAt uses (depth + 1) value

namespace StandsAt

variable {uses : List AnnotationUse} {n depth : Nat} {value : ElementValue}

/-- Below a value there are no more levels than the whole list leaves for it. -/
theorem add_depth_le (h : StandsAt uses depth value)
    (huses : ∀ use ∈ uses, ElementValue.depthOfElements use.elements ≤ n) :
    depth + value.depth ≤ n + 1 := by
  induction h with
  | outermost huse helement =>
      have := ElementValue.depthOfElements_le_iff.mp (huses _ huse) _ helement
      dsimp only at this
      omega
  | nested _ helement ih =>
      rw [ElementValue.depth] at ih
      have := ElementValue.depthOfElements_le_iff.mp (Nat.le_refl _) _ helement
      dsimp only at this
      omega
  | array _ hvalue ih =>
      rw [ElementValue.depth] at ih
      have := ElementValue.depthOfValues_le_iff.mp (Nat.le_refl _) _ hvalue
      omega

/-- If nothing stands deeper than `n`, a value has no more levels than are left where it stands. -/
theorem depth_le (hall : ∀ depth value, StandsAt uses depth value → depth ≤ n) (levels : Nat)
    (h : StandsAt uses depth value) (hleft : n < depth + levels) : value.depth ≤ levels := by
  induction levels generalizing depth value with
  | zero =>
      have := hall depth value h
      omega
  | succ levels ih =>
      cases value with
      | nested typeName elements =>
          refine Nat.succ_le_succ (ElementValue.depthOfElements_le_iff.mpr fun element helement => ?_)
          exact ih (h.nested helement) (by omega)
      | array values =>
          refine Nat.succ_le_succ (ElementValue.depthOfValues_le_iff.mpr fun value hvalue => ?_)
          exact ih (h.array hvalue) (by omega)
      | _ => simp [ElementValue.depth]

/-- Nothing stands deeper than `n` exactly if no annotation has more levels than `n`. -/
theorem forall_le_iff : (∀ depth value, StandsAt uses depth value → depth ≤ n) ↔
    ∀ use ∈ uses, ElementValue.depthOfElements use.elements ≤ n := by
  constructor
  · intro hall use huse
    refine ElementValue.depthOfElements_le_iff.mpr fun element helement => ?_
    exact depth_le hall n (.outermost huse helement) (by omega)
  · intro huses depth value h
    have := h.add_depth_le huses
    have := value.depth_pos
    omega

end StandsAt

section Refusing

variable {pool : ConstantPool} {value : Decoder ElementValue} {R : List UInt8 → ElementValue → Prop}
  {n : Nat} {failure : Failure}

namespace ElementValue

theorem exists_deep_of_elements {elements : List (Symbol × ElementValue)}
    (h : ¬depthOfElements elements ≤ n) : ∃ element ∈ elements, ¬element.2.depth ≤ n := by
  rw [depthOfElements_le_iff] at h
  simpa only [not_forall, exists_prop] using h

theorem exists_deep_of_values {values : List ElementValue} (h : ¬depthOfValues values ≤ n) :
    ∃ value ∈ values, ¬value.depth ≤ n := by
  rw [depthOfValues_le_iff] at h
  simpa only [not_forall, exists_prop] using h

theorem readElement_refuses
    (hvalue : Refuses 0 value (fun bytes => ∃ x, R bytes x ∧ ¬x.depth ≤ n) failure) :
    Refuses 0 (do return (← readUtf8 pool .elementName, ← value))
      (fun bytes => ∃ element, ElementSpelled pool R bytes element ∧ ¬element.2.depth ≤ n) failure := by
  refine (Refuses.rest (readUtf8_reads .elementName) fun _ name _ =>
    (hvalue.first (f := fun x => return (name, x))).mono (Nat.zero_le _) fun _ h => h).mono
    (Nat.le_refl _) fun bytes hbytes => ?_
  obtain ⟨_, ⟨hname, hR⟩, hdeep⟩ := hbytes
  exact ⟨_, _, _, ⟨_, rfl, hname⟩, ⟨_, hR, hdeep⟩, rfl⟩

theorem readUse_refuses (hreads : Reads 0 value (DepthWithin n R))
    (hvalue : Refuses 0 value (fun bytes => ∃ x, R bytes x ∧ ¬x.depth ≤ n) failure) :
    Refuses 0 (readUse pool value)
      (fun bytes => ∃ use, UseSpelled pool R bytes use ∧ ¬depthOfElements use.elements ≤ n) failure := by
  have hreadElement : Reads 0 (do return (← readUtf8 pool .elementName, ← value))
      fun bytes element => ElementSpelled pool R bytes element ∧ element.2.depth ≤ n :=
    (readElement_reads hreads).congr fun _ _ => elementSpelled_depthWithin_iff
  have helements (count : UInt16) := Refuses.replicate hreadElement (readElement_refuses hvalue) count.toNat
  have hparts : Refuses 4 (do
      let typeIndex ← Decoder.u16Unchecked
      let count ← Decoder.u16Unchecked
      let typeName ← Decoder.ofExcept (pool.utf8At typeIndex .annotationType)
      let elements ← Decoder.replicate count.toNat do
        let name ← readUtf8 pool .elementName
        return (name, ← value)
      return (⟨typeName, elements⟩ : AnnotationUse)) _ failure :=
    Refuses.step (Reads.u16Unchecked (by decide)) BigEndian.length_ofUInt16 fun typeIndex =>
      Refuses.step (Reads.u16Unchecked (by decide)) BigEndian.length_ofUInt16 fun count =>
        Refuses.lookup ConstantPool.utf8At_answers fun typeName _ =>
          (helements count).first.mono (Nat.zero_le _) fun _ h => h
  refine (Refuses.ensure hparts ?_).mono (Nat.le_refl _) fun bytes hbytes => ?_
  · intro bytes hbytes
    obtain ⟨typeIndex, _, rfl, count, rest, rfl, -⟩ := hbytes
    simp only [List.length_append, BigEndian.length_ofUInt16]
    omega
  · obtain ⟨use, ⟨htype, hcounted⟩, hdeep⟩ := hbytes
    obtain ⟨count, rest, rfl, hcount, hall⟩ := counted_iff.mp hcounted
    exact ⟨_, _, rfl, count, rest, rfl, _, htype, _, hcount, hall, exists_deep_of_elements hdeep⟩

theorem readArray_refuses (hreads : Reads 0 value (DepthWithin n R))
    (hvalue : Refuses 0 value (fun bytes => ∃ x, R bytes x ∧ ¬x.depth ≤ n) failure) :
    Refuses 0 (do
      let count ← Decoder.u16
      return array (← Decoder.replicate count.toNat value))
      (fun bytes => ∃ values, Counted R bytes values ∧ ¬depthOfValues values ≤ n) failure := by
  have hvalues := (Refuses.counted hreads hvalue).first (f := fun values => return array values)
  rw [bind_assoc] at hvalues
  refine hvalues.mono (Nat.le_refl _) fun bytes hbytes => ?_
  obtain ⟨values, hcounted, hdeep⟩ := hbytes
  exact ⟨values, hcounted, exists_deep_of_values hdeep⟩

/-- What follows a tag is refused if a value inside it is, and those before that are read. -/
theorem readBody_refuses (hreads : Reads 0 value (DepthWithin n R))
    (hvalue : Refuses 0 value (fun bytes => ∃ x, R bytes x ∧ ¬x.depth ≤ n) failure) (tag : ElementTag) :
    Refuses 0 (readBody pool value tag)
      (fun bytes => ∃ x, BodySpelled pool R tag bytes x ∧ ¬x.depth ≤ n + 1) failure where
  stops := by
    intro c bytes tail hc hbytes hunread
    obtain ⟨x, hbody, hdeep⟩ := hbytes
    cases hbody with
    | nested huse =>
        have hdeep : ¬depthOfElements _ ≤ n := fun h => hdeep (Nat.succ_le_succ h)
        exact (readUse_refuses hreads hvalue).first.stops hc ⟨_, huse, hdeep⟩ hunread
    | array hall =>
        have hdeep : ¬depthOfValues _ ≤ n := fun h => hdeep (Nat.succ_le_succ h)
        exact (readArray_refuses hreads hvalue).stops hc ⟨_, hall, hdeep⟩ hunread
    | _ => exact absurd (Nat.le_add_left 1 n) hdeep

/-- Where a value is spelt that is nested deeper than the levels left for it, the decoder says so. -/
theorem read_refuses (pool : ConstantPool) (levels : Nat) :
    Refuses 0 (read pool levels) (fun bytes => ∃ x, Spelled pool bytes x ∧ ¬x.depth ≤ levels)
      (.format (.malformed (.elementDepth maxDepth))) := by
  induction levels with
  | zero => exact ⟨fun _ _ _ => rfl⟩
  | succ levels ih =>
      refine (Refuses.step (S := fun code bytes => ∃ tag x, tag.code = code ∧
        BodySpelled pool (Spelled pool) tag bytes x ∧ ¬x.depth ≤ levels + 1) Reads.u8
        (fun _ => List.length_singleton) fun code => ⟨fun _ hbytes hunread => ?_⟩).mono (Nat.le_refl _)
          fun bytes hbytes => ?_
      · obtain ⟨tag, x, htag, hbody, hdeep⟩ := hbytes
        rw [ElementTag.ofCode?_eq_some_iff.mpr htag]
        exact (readBody_refuses (read_reads pool levels) ih tag).stops (Nat.zero_le _)
          ⟨x, hbody, hdeep⟩ hunread
      · obtain ⟨x, ⟨hbody⟩, hdeep⟩ := hbytes
        exact ⟨_, _, rfl, _, x, ElementTag.code_eq _, hbody, hdeep⟩

end ElementValue

end Refusing

namespace AnnotationUse

variable {pool : ConstantPool} {uses uses' : List AnnotationUse} {bytes bytes' tail tail' : List UInt8}
  {n : Nat}

/-- The spelling of a list of annotations, whatever the depth of the values in it. -/
def SpelledList (pool : ConstantPool) : List UInt8 → List AnnotationUse → Prop :=
  Counted (UseSpelled pool (ElementValue.Spelled pool))

theorem counted_depthWithin_iff :
    Counted (UseSpelled pool (DepthWithin n (ElementValue.Spelled pool))) bytes uses ↔
      SpelledList pool bytes uses ∧ ∀ depth value, StandsAt uses depth value → depth ≤ n := by
  have heq : UseSpelled pool (DepthWithin n (ElementValue.Spelled pool)) =
      fun bytes use => UseSpelled pool (ElementValue.Spelled pool) bytes use ∧
        ElementValue.depthOfElements use.elements ≤ n := by
    funext bytes use
    exact propext useSpelled_depthWithin_iff
  rw [StandsAt.forall_le_iff, heq]
  exact counted_and_iff

/-- The levels of a list of annotations are bounded. -/
theorem exists_depth_le (uses : List AnnotationUse) :
    ∃ n, ∀ depth value, StandsAt uses depth value → depth ≤ n := by
  refine ⟨ElementValue.depthOfElements (uses.flatMap elements), StandsAt.forall_le_iff.mpr
    fun use huse => ElementValue.depthOfElements_le_iff.mpr fun element helement => ?_⟩
  exact ElementValue.depthOfElements_le_iff.mp (Nat.le_refl _) element
    (List.mem_flatMap.mpr ⟨use, huse, helement⟩)

theorem spelledList_unique (h : SpelledList pool bytes uses) (h' : SpelledList pool bytes' uses')
    (heq : bytes ++ tail = bytes' ++ tail') : bytes = bytes' ∧ uses = uses' := by
  obtain ⟨n, hn⟩ := exists_depth_le uses
  obtain ⟨n', hn'⟩ := exists_depth_le uses'
  have hreads : Reads 0 _ (Counted (UseSpelled pool (DepthWithin (max n n') (ElementValue.Spelled pool)))) :=
    Reads.counted (ElementValue.readUse_reads (ElementValue.read_reads pool (max n n')))
  obtain ⟨hbytes, huses, -⟩ := hreads.unique
    (counted_depthWithin_iff.mpr ⟨h, fun depth value hstands =>
      Nat.le_trans (hn depth value hstands) (Nat.le_max_left ..)⟩)
    (counted_depthWithin_iff.mpr ⟨h', fun depth value hstands =>
      Nat.le_trans (hn' depth value hstands) (Nat.le_max_right ..)⟩) heq
  exact ⟨hbytes, huses⟩

theorem readAll_refuses (pool : ConstantPool) : Refuses 0 (readAll pool)
    (fun bytes => ∃ uses, SpelledList pool bytes uses ∧
      ∃ depth value, StandsAt uses depth value ∧ ElementValue.maxDepth < depth)
    (.format (.malformed (.elementDepth ElementValue.maxDepth))) := by
  have huse : Reads 0 _ fun bytes use => UseSpelled pool (ElementValue.Spelled pool) bytes use ∧
      ElementValue.depthOfElements use.elements ≤ ElementValue.maxDepth :=
    (ElementValue.readUse_reads (ElementValue.read_reads pool ElementValue.maxDepth)).congr
      fun _ _ => useSpelled_depthWithin_iff
  refine (Refuses.counted huse (ElementValue.readUse_refuses
    (ElementValue.read_reads pool ElementValue.maxDepth)
    (ElementValue.read_refuses pool ElementValue.maxDepth))).mono (Nat.le_refl _) fun bytes hbytes => ?_
  obtain ⟨uses, hspelled, depth, value, hstands, hdeep⟩ := hbytes
  refine ⟨uses, hspelled, ?_⟩
  by_contra hnone
  have hall : ∀ use ∈ uses, ElementValue.depthOfElements use.elements ≤ ElementValue.maxDepth := by
    simpa only [not_exists, not_and, Decidable.not_not] using hnone
  have := StandsAt.forall_le_iff.mpr hall depth value hstands
  omega

theorem constantKind?_eq_some_iff (tag : ElementTag) (kind : ConstantKind) :
    tag.constantKind? = some kind ↔ (Char.ofNat tag.code.toNat, kind) ∈ ElementTag.constantLetters := by
  have hletter : Char.ofNat tag.code.toNat = tag.letter := by cases tag <;> rfl
  rw [hletter]
  exact ElementTag.constantKind?_eq_some_iff

/-- Annotations are read exactly where they are spelt, to the end of the spelling, if no value in them
stands deeper than 256. No spelling of a list begins that of another, and none spells two. A list that is
spelt but holds a deeper value is refused for that, whatever follows it. -/
theorem readAll_iff_spelledList (pool : ConstantPool) (c : Cursor) :
    (∀ uses c', readAll pool c = .ok (uses, c') ↔ ∃ bytes, SpelledList pool bytes uses ∧
      (∀ depth value, StandsAt uses depth value → depth ≤ 256) ∧ c.Consumes bytes c') ∧
    (∀ bytes bytes' uses uses', bytes <+: c.unread → bytes' <+: c.unread →
      SpelledList pool bytes uses → SpelledList pool bytes' uses' → bytes = bytes' ∧ uses = uses') ∧
    (∀ bytes uses depth value, bytes <+: c.unread → SpelledList pool bytes uses →
      StandsAt uses depth value → 256 < depth →
        readAll pool c = .error (.format (.malformed (.elementDepth 256)))) ∧
    ∀ (tag : ElementTag) kind,
      tag.constantKind? = some kind ↔
        (Char.ofNat tag.code.toNat, kind) ∈ ElementTag.constantLetters := by
  refine ⟨fun uses c' => ?_, fun bytes bytes' uses uses' hbytes hbytes' h h' => ?_,
    fun bytes uses depth value hbytes h hstands hdeep => ?_, constantKind?_eq_some_iff⟩
  · rw [(readAll_reads pool).yields (Nat.zero_le _)]
    simp only [counted_depthWithin_iff, and_assoc]
    rfl
  · obtain ⟨tail, htail⟩ := hbytes
    obtain ⟨tail', htail'⟩ := hbytes'
    exact spelledList_unique h h' (htail.trans htail'.symm)
  · obtain ⟨tail, htail⟩ := hbytes
    exact (readAll_refuses pool).stops (Nat.zero_le _) ⟨uses, h, depth, value, hstands, hdeep⟩ htail.symm

section Tower

/-- Arrays around an empty one. -/
def tower : Nat → ElementValue
  | 0 => .array []
  | n + 1 => .array [tower n]

def towerBytes : Nat → List UInt8
  | 0 => 0x5B :: BigEndian.ofNat 2 0
  | n + 1 => 0x5B :: (BigEndian.ofNat 2 1 ++ towerBytes n)

theorem counted_singleton {α : Type} {R : List UInt8 → α → Prop} {x : α} (h : R bytes x) :
    Counted R (BigEndian.ofNat 2 1 ++ bytes) [x] := by
  have hone := SpelledAll.cons h .nil
  rw [List.append_nil] at hone
  exact .mk (by simp [UInt16.size]) hone

theorem spelled_tower (pool : ConstantPool) (n : Nat) :
    ElementValue.Spelled pool (towerBytes n) (tower n) := by
  induction n with
  | zero => exact @ElementValue.Spelled.mk _ .array _ _ (.array (.mk (by decide) .nil))
  | succ n ih => exact @ElementValue.Spelled.mk _ .array _ _ (.array (counted_singleton ih))

theorem depth_tower (n : Nat) : (tower n).depth = n + 1 := by
  induction n with
  | zero => rfl
  | succ n ih => rw [tower, ElementValue.depth, ElementValue.depthOfValues, ih, ElementValue.depthOfValues,
      Nat.max_zero]

theorem standsAt_tower {uses : List AnnotationUse} {depth n : Nat} (h : StandsAt uses depth (tower n)) :
    StandsAt uses (depth + n) (.array []) := by
  induction n generalizing depth with
  | zero => exact h
  | succ n ih =>
      have := ih (h.array (List.mem_singleton_self _))
      rwa [Nat.add_assoc, Nat.add_comm 1] at this

/-- A pool of one text. -/
def onePool : ConstantPool := ⟨2, #v[.vacant, .utf8 ⟨[0x61], 0⟩]⟩

/-- One annotation, of which one element is a tower. -/
def towerUse (n : Nat) : List AnnotationUse := [⟨⟨[0x61], 0⟩, [(⟨[0x61], 0⟩, tower n)]⟩]

def towerUseBytes (n : Nat) : List UInt8 :=
  BigEndian.ofNat 2 1 ++ (BigEndian.ofUInt16 1 ++
    (BigEndian.ofNat 2 1 ++ (BigEndian.ofUInt16 1 ++ towerBytes n)))

theorem spelledList_towerUse (n : Nat) : SpelledList onePool (towerUseBytes n) (towerUse n) := by
  have hname : onePool.get? 1 = some (.utf8 ⟨[0x61], 0⟩) := by decide
  exact counted_singleton (.mk hname (counted_singleton (.mk hname (spelled_tower onePool n))))

/-- An empty array is accepted at depth 256, and refused one level further in. -/
theorem readAll_iff_spelledList_tower :
    (StandsAt (towerUse 256) 257 (.array []) ∧
      readAll onePool (.start (towerUseBytes 256)) =
        .error (.format (.malformed (.elementDepth 256)))) ∧
    StandsAt (towerUse 255) 256 (.array []) ∧
      ∃ c, readAll onePool (.start (towerUseBytes 255)) = .ok (towerUse 255, c) := by
  have hstands (n : Nat) : StandsAt (towerUse n) (1 + n) (.array []) :=
    standsAt_tower (.outermost (List.mem_singleton_self _) (List.mem_singleton_self _))
  have haccepted (n : Nat) (hn : n ≤ 255) :
      ∃ c, readAll onePool (.start (towerUseBytes n)) = .ok (towerUse n, c) := by
    have hdepth : ∀ depth value, StandsAt (towerUse n) depth value → depth ≤ 256 := by
      refine StandsAt.forall_le_iff.mpr fun use huse => ?_
      obtain rfl := List.mem_singleton.mp huse
      simp only [ElementValue.depthOfElements, ElementValue.depthOfElement, depth_tower]
      omega
    have hconsumes : (Cursor.start (towerUseBytes n)).Consumes (towerUseBytes n)
        ⟨0 + (towerUseBytes n).length, []⟩ := ⟨(List.append_nil _).symm, rfl⟩
    exact ⟨_, ((readAll_iff_spelledList _ _).1 _ _).mpr ⟨_, spelledList_towerUse n, hdepth, hconsumes⟩⟩
  exact ⟨⟨hstands 256, (readAll_iff_spelledList _ _).2.2.1 _ _ _ _ (List.prefix_refl _)
    (spelledList_towerUse 256) (hstands 256) (by decide)⟩, hstands 255, haccepted 255 (Nat.le_refl _)⟩

end Tower

end AnnotationUse

end ClassLoading
