import ClassLoading.Proofs.Decoder

/-!
# Refusals

A decoder refuses a set of byte strings with a failure if it ends with that failure wherever the unread
bytes begin with one of them, whatever follows. Behind a first part that is read, the refusal of the
rest is one of the whole.
-/

namespace ClassLoading.Decoder

variable {α β : Type} {covered : Nat} {failure : Failure}

/-- Where at least `covered` bytes are left and they begin with some of `T`, the decoder ends with a
failure. -/
structure Refuses (covered : Nat) (decoder : Decoder α) (T : List UInt8 → Prop) (failure : Failure) :
    Prop where
  stops : ∀ {c : Cursor} {bytes tail : List UInt8}, covered ≤ c.remaining → T bytes →
    c.unread = bytes ++ tail → decoder c = .error failure

namespace Refuses

variable {d : Decoder α} {f : α → Decoder β} {T T' : List UInt8 → Prop} {R : List UInt8 → α → Prop}
  {S : α → List UInt8 → Prop}

theorem mono {less : Nat} (h : Refuses less d T failure) (hcovered : less ≤ covered)
    (hT : ∀ bytes, T' bytes → T bytes) : Refuses covered d T' failure where
  stops hc hbytes hunread := h.stops (Nat.le_trans hcovered hc) (hT _ hbytes) hunread

/-- What the first part refuses is refused, whatever it is to be followed by. -/
theorem first (hd : Refuses covered d T failure) : Refuses covered (d >>= f) T failure where
  stops hc hbytes hunread := bind_of_error (hd.stops hc hbytes hunread)

/-- Behind a first part that is read, what the rest refuses is refused. -/
theorem rest (hd : Reads covered d R)
    (hf : ∀ bytes x, R bytes x → Refuses (covered - bytes.length) (f x) (S x) failure) :
    Refuses covered (d >>= f)
      (fun bytes => ∃ x start later, R start x ∧ S x later ∧ bytes = start ++ later) failure where
  stops := by
    intro c bytes tail hc hbytes hunread
    obtain ⟨x, start, later, hR, hS, rfl⟩ := hbytes
    rw [List.append_assoc] at hunread
    have hstart : c.Consumes start ⟨c.position + start.length, later ++ tail⟩ := ⟨hunread, rfl⟩
    have hleft := hstart.remaining
    rw [bind_of_ok ((hd.yields hc x _).mpr ⟨start, hR, hstart⟩)]
    exact (hf start x hR).stops (by omega) hS rfl

theorem step {spell : α → List UInt8} {width : Nat}
    (hd : Reads covered d fun bytes x => bytes = spell x) (hwidth : ∀ x, (spell x).length = width)
    (hf : ∀ x, Refuses (covered - width) (f x) (S x) failure) :
    Refuses covered (d >>= f) (fun bytes => ∃ x later, bytes = spell x ++ later ∧ S x later) failure := by
  have hnext : ∀ bytes x, bytes = spell x → Refuses (covered - bytes.length) (f x) (S x) failure := by
    intro _ x heq
    rw [heq, hwidth]
    exact hf x
  refine (rest hd hnext).mono (Nat.le_refl _) fun bytes hbytes => ?_
  obtain ⟨x, later, rfl, hS⟩ := hbytes
  exact ⟨x, _, later, rfl, hS, rfl⟩

theorem lookup {result : Except Failure α} {P : α → Prop} (hresult : Answers result P)
    (hf : ∀ x, P x → Refuses covered (f x) (S x) failure) :
    Refuses covered (ofExcept result >>= f) (fun bytes => ∃ x, P x ∧ S x bytes) failure where
  stops := by
    intro c bytes tail hc hbytes hunread
    obtain ⟨x, hP, hS⟩ := hbytes
    rw [(hresult.ok_iff x).mpr hP]
    exact (hf x hP).stops hc hS hunread

theorem ensure {n : Nat} {next : Unit → Decoder β} (hnext : Refuses (max covered n) (next ()) T failure)
    (hlength : ∀ bytes, T bytes → n ≤ bytes.length) :
    Refuses covered (Decoder.ensure n >>= next) T failure where
  stops := by
    intro c bytes tail hc hbytes hunread
    have hn : n ≤ c.remaining := by
      have := hlength bytes hbytes
      rw [Cursor.remaining, hunread, List.length_append]
      omega
    rw [bind_of_ok (ensure_of_le hn)]
    exact hnext.stops (Nat.max_le.mpr ⟨hc, hn⟩) hbytes hunread

/-- Several values one after another are refused if one of them is, and those before it are read. -/
theorem replicate {value : Decoder α} {P : α → Prop}
    (hvalue : Reads 0 value fun bytes x => R bytes x ∧ P x)
    (hrefuses : Refuses 0 value (fun bytes => ∃ x, R bytes x ∧ ¬P x) failure) (count : Nat) :
    Refuses 0 (Decoder.replicate count value)
      (fun bytes => ∃ xs, xs.length = count ∧ SpelledAll R bytes xs ∧ ∃ x ∈ xs, ¬P x) failure := by
  induction count with
  | zero =>
      refine ⟨fun _ hbytes _ => ?_⟩
      obtain ⟨xs, hlength, -, x, hx, -⟩ := hbytes
      rw [List.eq_nil_of_length_eq_zero hlength] at hx
      cases hx
  | succ count ih =>
      rw [replicate_succ]
      refine ⟨fun hc hbytes hunread => ?_⟩
      obtain ⟨xs, hlength, hall, x, hx, hP⟩ := hbytes
      cases hall with
      | nil => cases hx
      | @cons start later y ys hy hys =>
          by_cases hfirst : P y
          · have hlater : ∃ x ∈ ys, ¬P x := by
              rcases List.mem_cons.mp hx with rfl | hx
              · exact absurd hfirst hP
              · exact ⟨x, hx, hP⟩
            have hothers := Refuses.rest hvalue fun _ y _ =>
              (ih.first (f := fun ys => return y :: ys)).mono (Nat.zero_le _) fun _ h => h
            exact hothers.stops hc
              ⟨y, start, later, ⟨hy, hfirst⟩, ⟨ys, Nat.succ.inj hlength, hys, hlater⟩, rfl⟩ hunread
          · rw [List.append_assoc] at hunread
            exact hrefuses.first.stops hc ⟨y, hy, hfirst⟩ hunread

/-- A counted list is refused if one of its values is, and those before it are read. -/
theorem counted {value : Decoder α} {P : α → Prop}
    (hvalue : Reads 0 value fun bytes x => R bytes x ∧ P x)
    (hrefuses : Refuses 0 value (fun bytes => ∃ x, R bytes x ∧ ¬P x) failure) :
    Refuses 0 (do Decoder.replicate (← Decoder.u16).toNat value)
      (fun bytes => ∃ xs, Counted R bytes xs ∧ ∃ x ∈ xs, ¬P x) failure := by
  refine (step Reads.u16 BigEndian.length_ofUInt16 fun count =>
    (replicate hvalue hrefuses count.toNat).mono (Nat.zero_le _) fun _ h => h).mono (Nat.le_refl _)
      fun bytes hbytes => ?_
  obtain ⟨xs, hcounted, hP⟩ := hbytes
  obtain ⟨count, later, rfl, hcount, hall⟩ := counted_iff.mp hcounted
  exact ⟨count, later, rfl, xs, hcount, hall, hP⟩

end Refuses

end ClassLoading.Decoder
