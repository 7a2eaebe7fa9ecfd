import ClassLoading.Constant.Link

/-!
# Descriptors and their spelling

Reading a descriptor undoes writing it, and nothing else is read: a text is accepted exactly if it is
the spelling of a well-formed type. Brackets and parameters are read greedily, which loses nothing
because no spelling begins another.
-/

namespace ClassLoading

/-- A class name: parts between slashes, none of them empty, without the characters that end a name. -/
structure IsClassName (name : List Char) : Prop where
  nonempty : name ≠ []
  plain : ∀ c ∈ name, c ≠ ';' ∧ c ≠ '.' ∧ c ≠ '['
  parts : [] ∉ name.splitOn '/'

namespace FieldType

/-- A primitive type, or a class with a proper name. -/
def IsElement : FieldType → Prop
  | object className => IsClassName className.toList
  | array _ => False
  | _ => True

/-- At most 255 array layers over a primitive type or a class with a proper name. -/
structure WellFormed (t : FieldType) : Prop where
  layers_le : t.layers ≤ 255
  innermost : t.innermost.IsElement

variable {t t' : FieldType} {text rest rest' : List Char}

theorem layered_layers (t : FieldType) : layered t.layers t.innermost = t := by
  induction t with
  | array t ih => rw [layers, innermost, layered, ih]
  | _ => rfl

theorem IsElement.layers_eq (h : t.IsElement) : t.layers = 0 := by
  cases t with
  | array t => exact h.elim
  | _ => rfl

theorem IsElement.innermost_eq (h : t.IsElement) : t.innermost = t := by
  cases t with
  | array t => exact h.elim
  | _ => rfl

theorem IsElement.layers_layered (h : t.IsElement) (depth : Nat) :
    (layered depth t).layers = depth := by
  induction depth with
  | zero => exact h.layers_eq
  | succ depth ih => rw [layered, layers, ih]

theorem IsElement.innermost_layered (h : t.IsElement) (depth : Nat) :
    (layered depth t).innermost = t := by
  induction depth with
  | zero => exact h.innermost_eq
  | succ depth ih => rw [layered, innermost, ih]

theorem render_layered (depth : Nat) (t : FieldType) :
    (layered depth t).render = List.replicate depth '[' ++ t.render := by
  induction depth with
  | zero => rfl
  | succ depth ih => rw [layered, render, ih, List.replicate_succ, List.cons_append]

theorem endsName_eq_false_iff {c : Char} :
    endsName c = false ↔ c ≠ ';' ∧ c ≠ '.' ∧ c ≠ '[' := by
  simp [endsName, and_assoc]

theorem hasNoEmptyPart_iff {name : List Char} :
    hasNoEmptyPart name = true ↔ [] ∉ name.splitOn '/' := by
  simp only [hasNoEmptyPart, List.all_eq_true, Bool.not_eq_true', List.isEmpty_eq_false_iff]
  constructor
  · intro h hnil
    exact h [] hnil rfl
  · intro h part hpart hnil
    exact h (hnil ▸ hpart)

/-- A name ends at the first character that no name contains, which has to be its semicolon. -/
theorem readName?_eq_some_iff : readName? text = some (t, rest) ↔
    ∃ name, t = .object (String.ofList name) ∧ IsClassName name ∧ text = name ++ ';' :: rest := by
  constructor
  · intro h
    have hsplit := (text.takeWhile_append_dropWhile (p := (!endsName ·))).symm
    simp only [readName?] at h
    split at h
    · rename_i rest' hrest
      split at h
      · rename_i hparts
        obtain ⟨rfl, rfl⟩ := Prod.mk.inj (Option.some.inj h)
        rw [hrest] at hsplit
        have hparts := hasNoEmptyPart_iff.mp hparts
        refine ⟨_, rfl, ⟨?_, ?_, hparts⟩, hsplit⟩
        · intro hnil
          rw [hnil] at hparts
          simp at hparts
        · intro c hc
          have hplain := List.all_eq_true.mp List.all_takeWhile c hc
          exact endsName_eq_false_iff.mp (by simpa using hplain)
      · cases h
    · cases h
  · intro hgiven
    obtain ⟨name, rfl, hname, rfl⟩ := hgiven
    have hplain : ∀ c ∈ name, (!endsName c) = true := by
      intro c hc
      rw [endsName_eq_false_iff.mpr (hname.plain c hc)]
      rfl
    have htake : (name ++ ';' :: rest).takeWhile (!endsName ·) = name := by
      rw [List.takeWhile_append_of_pos hplain, List.takeWhile_cons_of_neg (by decide), List.append_nil]
    have hdrop : (name ++ ';' :: rest).dropWhile (!endsName ·) = ';' :: rest := by
      rw [List.dropWhile_append_of_pos hplain, List.dropWhile_cons_of_neg (by decide)]
    simp only [readName?, htake, hdrop, hasNoEmptyPart_iff.mpr hname.parts, if_true]

theorem isElement_of_ofLetter? {c : Char} (h : ofLetter? c = some t) :
    t.IsElement ∧ t.render = [c] := by
  unfold ofLetter? at h
  split at h
  all_goals first | (obtain rfl := Option.some.inj h; exact ⟨trivial, rfl⟩) | cases h

/-- A type without array layers is read exactly where it is spelt. -/
theorem readElement?_eq_some_iff :
    readElement? text = some (t, rest) ↔ t.IsElement ∧ text = t.render ++ rest := by
  constructor
  · intro h
    unfold readElement? at h
    split at h
    · cases h
    · obtain ⟨name, rfl, hname, rfl⟩ := readName?_eq_some_iff.mp h
      refine ⟨?_, ?_⟩
      · rwa [IsElement, String.toList_ofList]
      · simp [render]
    · obtain ⟨letter, hletter, heq⟩ := Option.map_eq_some_iff.mp h
      obtain ⟨rfl, rfl⟩ := Prod.mk.inj heq
      obtain ⟨helement, hrender⟩ := isElement_of_ofLetter? hletter
      exact ⟨helement, by rw [hrender]; rfl⟩
  · intro hgiven
    obtain ⟨helement, rfl⟩ := hgiven
    cases t with
    | object className =>
        have hread : readName? (className.toList ++ ';' :: rest) = some (.object className, rest) :=
          readName?_eq_some_iff.mpr ⟨className.toList, by rw [String.ofList_toList], helement, rfl⟩
        simpa [render, readElement?] using hread
    | array t => exact helement.elim
    | _ => rfl

/-- What follows the brackets does not start with one more. -/
theorem IsElement.takeWhile_render (h : t.IsElement) (depth : Nat) (rest : List Char) :
    (List.replicate depth '[' ++ (t.render ++ rest)).takeWhile (· = '[') =
      List.replicate depth '[' := by
  have hstop : (t.render ++ rest).takeWhile (· = '[') = [] := by
    cases t with
    | array t => exact h.elim
    | _ => rfl
  rw [List.takeWhile_append_of_pos (by simp), hstop, List.append_nil]

/-- A text is its brackets and what follows them. -/
theorem replicate_append_drop (text : List Char) :
    List.replicate (text.takeWhile (· = '[')).length '[' ++
      text.drop (text.takeWhile (· = '[')).length = text := by
  have hbrackets : text.takeWhile (· = '[') =
      List.replicate (text.takeWhile (· = '[')).length '[' := by
    refine List.eq_replicate_iff.mpr ⟨rfl, fun c hc => ?_⟩
    exact of_decide_eq_true (List.all_eq_true.mp List.all_takeWhile c hc)
  have hrest : text.drop (text.takeWhile (· = '[')).length = text.dropWhile (· = '[') := by
    have hdrop := @List.drop_left _ (text.takeWhile (· = '[')) (text.dropWhile (· = '['))
    rwa [List.takeWhile_append_dropWhile] at hdrop
  rw [← hbrackets, hrest, List.takeWhile_append_dropWhile]

/-- A type is read exactly where it is spelt, if it is well formed. -/
theorem read?_eq_some_iff :
    read? text = some (t, rest) ↔ t.WellFormed ∧ text = t.render ++ rest := by
  constructor
  · intro h
    simp only [read?] at h
    split at h
    · rename_i hdepth
      obtain ⟨⟨element, rest'⟩, helement, heq⟩ := Option.map_eq_some_iff.mp h
      obtain ⟨rfl, rfl⟩ := Prod.mk.inj heq
      obtain ⟨helement, hrest⟩ := readElement?_eq_some_iff.mp helement
      refine ⟨⟨?_, ?_⟩, ?_⟩
      · rw [helement.layers_layered]
        exact hdepth
      · rw [helement.innermost_layered]
        exact helement
      · rw [render_layered, List.append_assoc, ← hrest, replicate_append_drop]
    · cases h
  · intro hgiven
    obtain ⟨hwell, rfl⟩ := hgiven
    have hspelling : t.render ++ rest =
        List.replicate t.layers '[' ++ (t.innermost.render ++ rest) := by
      rw [← List.append_assoc, ← render_layered, layered_layers]
    have hdepth : ((t.render ++ rest).takeWhile (· = '[')).length = t.layers := by
      rw [hspelling, hwell.innermost.takeWhile_render, List.length_replicate]
    have hdrop : (t.render ++ rest).drop t.layers = t.innermost.render ++ rest := by
      rw [hspelling]
      exact List.drop_left' List.length_replicate
    have helement : readElement? (t.innermost.render ++ rest) = some (t.innermost, rest) :=
      readElement?_eq_some_iff.mpr ⟨hwell.innermost, rfl⟩
    simp only [read?, hdepth, hdrop, helement, Option.map_some, layered_layers]
    exact if_pos hwell.layers_le

theorem ofChars?_eq_some_iff : ofChars? text = some t ↔ t.WellFormed ∧ text = t.render := by
  have hread : ofChars? text = some t ↔ read? text = some (t, []) := by
    unfold ofChars?
    split <;> simp_all
  rw [hread, read?_eq_some_iff, List.append_nil]

/-- No type is spelt where a text starts with another character than the first of a type. -/
theorem read?_cons_eq_none {c : Char} (hc : c ∉ ['B', 'C', 'D', 'F', 'I', 'J', 'L', 'S', 'Z', '['])
    (rest : List Char) : read? (c :: rest) = none := by
  rw [Option.eq_none_iff_forall_not_mem]
  intro result hresult
  obtain ⟨t, rest'⟩ := result
  obtain ⟨-, hspelling⟩ := read?_eq_some_iff.mp hresult
  cases t <;> simp_all [render]

end FieldType

section Result

variable {result result' : Option FieldType} {text rest rest' : List Char}

/-- No result type, or a well-formed one. -/
def ResultWellFormed : Option FieldType → Prop
  | none => True
  | some t => t.WellFormed

/-- A result type is read exactly where it is spelt. -/
theorem readResult?_eq_some_iff : readResult? text = some (result, rest) ↔
    ResultWellFormed result ∧ text = MethodType.renderResult result ++ rest := by
  constructor
  · intro h
    unfold readResult? at h
    split at h
    · rename_i t rest' hread
      obtain ⟨rfl, rfl⟩ := Prod.mk.inj (Option.some.inj h)
      exact FieldType.read?_eq_some_iff.mp hread
    · split at h
      · obtain ⟨rfl, rfl⟩ := Prod.mk.inj (Option.some.inj h)
        exact ⟨trivial, rfl⟩
      · cases h
  · intro hgiven
    obtain ⟨hwell, rfl⟩ := hgiven
    cases result with
    | none =>
        have hnone : FieldType.read? ('V' :: rest) = none := FieldType.read?_cons_eq_none (by decide) rest
        simp only [MethodType.renderResult, List.singleton_append, readResult?, hnone]
    | some t =>
        have hread : FieldType.read? (t.render ++ rest) = some (t, rest) :=
          FieldType.read?_eq_some_iff.mpr ⟨hwell, rfl⟩
        simp only [MethodType.renderResult, readResult?, hread]

theorem renderResult_append_inj (h : ResultWellFormed result) (h' : ResultWellFormed result')
    (heq : MethodType.renderResult result ++ rest = MethodType.renderResult result' ++ rest') :
    result = result' ∧ rest = rest' := by
  have hread : readResult? (MethodType.renderResult result ++ rest) = some (result, rest) :=
    readResult?_eq_some_iff.mpr ⟨h, rfl⟩
  rw [readResult?_eq_some_iff.mpr ⟨h', heq⟩] at hread
  obtain ⟨rfl, rfl⟩ := Prod.mk.inj (Option.some.inj hread)
  exact ⟨rfl, rfl⟩

end Result

namespace MethodType

variable {m : MethodType} {parameters : List FieldType} {text rest : List Char}

/-- All parameter types and the result type are well formed. -/
structure WellFormed (m : MethodType) : Prop where
  parameters : ∀ t ∈ m.parameters, t.WellFormed
  result : ResultWellFormed m.result

theorem readParameters_of_none (h : FieldType.read? text = none) :
    readParameters [] text = ([], text) := by
  rw [readParameters]
  split <;> simp_all

/-- What is read behind one parameter comes after it. -/
theorem readParameters_of_some {t : FieldType} (h : FieldType.read? text = some (t, rest)) :
    readParameters [] text =
      (t :: (readParameters [] rest).1, (readParameters [] rest).2) := by
  rw [readParameters]
  split
  · simp_all
  · rename_i t' rest' hread
    rw [h] at hread
    obtain ⟨rfl, rfl⟩ := Prod.mk.inj (Option.some.inj hread)
    rw [readParameters_eq]
    rfl

theorem readParameters_spelt (text : List Char) :
    (∀ t ∈ (readParameters [] text).1, t.WellFormed) ∧
      text = (readParameters [] text).1.flatMap FieldType.render ++ (readParameters [] text).2 := by
  induction hn : text.length using Nat.strongRecOn generalizing text with
  | ind n ih =>
    cases hread : FieldType.read? text with
    | none => simp [readParameters_of_none hread]
    | some found =>
        obtain ⟨t, rest⟩ := found
        obtain ⟨hwell, hspelling⟩ := FieldType.read?_eq_some_iff.mp hread
        obtain ⟨hall, hrest⟩ := ih rest.length (hn ▸ FieldType.length_read? hread) rest rfl
        rw [readParameters_of_some hread]
        refine ⟨List.forall_mem_cons.mpr ⟨hwell, hall⟩, ?_⟩
        rw [List.flatMap_cons, List.append_assoc, ← hrest, hspelling]

/-- Parameters spelt one after another are all read, up to a place where no type is spelt. -/
theorem readParameters_render (hall : ∀ t ∈ parameters, t.WellFormed)
    (hrest : FieldType.read? rest = none) :
    readParameters [] (parameters.flatMap FieldType.render ++ rest) = (parameters, rest) := by
  induction parameters with
  | nil => exact readParameters_of_none hrest
  | cons t parameters ih =>
      obtain ⟨hwell, hall⟩ := List.forall_mem_cons.mp hall
      have hread : FieldType.read? (t.render ++ (parameters.flatMap FieldType.render ++ rest)) =
          some (t, parameters.flatMap FieldType.render ++ rest) :=
        FieldType.read?_eq_some_iff.mpr ⟨hwell, rfl⟩
      rw [List.flatMap_cons, List.append_assoc, readParameters_of_some hread, ih hall]

theorem ofChars?_eq_some_iff : ofChars? text = some m ↔ m.WellFormed ∧ text = m.render := by
  constructor
  · intro h
    unfold ofChars? at h
    split at h
    · rename_i text
      obtain ⟨hall, hspelling⟩ := readParameters_spelt text
      split at h
      · rename_i parameters rest hparameters
        rw [hparameters] at hall hspelling
        split at h
        · rename_i result hresult
          obtain rfl := Option.some.inj h
          obtain ⟨hwell, hrest⟩ := readResult?_eq_some_iff.mp hresult
          rw [List.append_nil] at hrest
          refine ⟨⟨hall, hwell⟩, ?_⟩
          rw [hspelling, hrest]
          rfl
        · cases h
      · cases h
    · cases h
  · intro hgiven
    obtain ⟨hwell, rfl⟩ := hgiven
    have hstop : FieldType.read? (')' :: renderResult m.result) = none :=
      FieldType.read?_cons_eq_none (by decide) _
    have hresult : readResult? (renderResult m.result) = some (m.result, []) :=
      readResult?_eq_some_iff.mpr ⟨hwell.result, (List.append_nil _).symm⟩
    simp only [render, List.cons_append, ofChars?, readParameters_render hwell.parameters hstop,
      hresult]

end MethodType

namespace Descriptor

/-- Methods open with a parenthesis, which no type of a field does. -/
theorem not_field_and_method (text : List Char) : ¬(isField text = true ∧ isMethod text = true) := by
  intro hgiven
  obtain ⟨hfield, hmethod⟩ := hgiven
  obtain ⟨t, ht⟩ := Option.isSome_iff_exists.mp hfield
  obtain ⟨m, hm⟩ := Option.isSome_iff_exists.mp hmethod
  obtain ⟨-, rfl⟩ := MethodType.ofChars?_eq_some_iff.mp hm
  have hnone : FieldType.read? m.render = none := FieldType.read?_cons_eq_none (by decide) _
  simp only [FieldType.ofChars?, hnone, reduceCtorEq] at ht

/-- Reading descriptors is the inverse of writing them. A text is read as a type, or as the types of
a method, exactly if these are well formed and the text is their spelling; no text is both; and a
result type is read off the front of a text in the only way in which the text starts with one. -/
theorem read_iff_render (text : List Char) :
    (∀ t, FieldType.ofChars? text = some t ↔ t.WellFormed ∧ text = t.render) ∧
      (∀ m, MethodType.ofChars? text = some m ↔ m.WellFormed ∧ text = m.render) ∧
      ¬(isField text = true ∧ isMethod text = true) ∧
      (∀ result rest, readResult? text = some (result, rest) ↔
        ResultWellFormed result ∧ text = MethodType.renderResult result ++ rest) ∧
      ∀ result result', ResultWellFormed result → ResultWellFormed result' →
        MethodType.renderResult result <+: MethodType.renderResult result' → result = result' := by
  refine ⟨fun t => FieldType.ofChars?_eq_some_iff, fun m => MethodType.ofChars?_eq_some_iff, ?_,
    fun result rest => readResult?_eq_some_iff, ?_⟩
  · exact not_field_and_method text
  · intro result result' h h' hstarts
    obtain ⟨rest, hrest⟩ := hstarts
    rw [← List.append_nil (MethodType.renderResult result')] at hrest
    exact (renderResult_append_inj h h' hrest).1

/-- A class name within an array among the parameters, and no result. -/
theorem read_iff_render_nested :
    (MethodType.mk [.int, .array (.object "a/b")] none).WellFormed ∧
      MethodType.ofChars? "(I[La/b;)V".toList =
        some ⟨[.int, .array (.object "a/b")], none⟩ := by
  have hplain : "a/b".toList.all (fun c => decide (c ≠ ';' ∧ c ≠ '.' ∧ c ≠ '[')) = true := by decide
  have hname : IsClassName "a/b".toList :=
    ⟨by decide, fun c hc => of_decide_eq_true (List.all_eq_true.mp hplain c hc), by decide⟩
  have hwell : (MethodType.mk [.int, .array (.object "a/b")] none).WellFormed :=
    ⟨List.forall_mem_cons.mpr ⟨⟨by decide, trivial⟩,
      List.forall_mem_cons.mpr ⟨⟨by decide, hname⟩, by simp⟩⟩, trivial⟩
  exact ⟨hwell, ((read_iff_render _).2.1 _).mpr ⟨hwell, by decide⟩⟩

end Descriptor

end ClassLoading
