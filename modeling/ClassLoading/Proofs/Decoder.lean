import ClassLoading.Decoder
import Mathlib.Algebra.Ring.Nat
import Mathlib.Tactic.Simproc.ExistsAndEq

/-!
# Spellings

A decoder reads a relation between byte strings and values if it accepts exactly the inputs that
begin with a spelling of a value, and takes exactly the bytes of that spelling. Unchecked reads
are covered by the number of bytes that is known to be left, and where they are, nothing is at
fault. The statements compose along the monad, so that a decoder built from smaller ones reads the
relation built from theirs.
-/

namespace ClassLoading

namespace BigEndian

def ofUInt16 (n : UInt16) : List UInt8 := ofNat 2 n.toNat

def ofUInt32 (n : UInt32) : List UInt8 := ofNat 4 n.toNat

def ofUInt64 (n : UInt64) : List UInt8 := ofNat 8 n.toNat

@[simp] theorem length_ofUInt16 (n : UInt16) : (ofUInt16 n).length = 2 := length_ofNat 2 _

@[simp] theorem length_ofUInt32 (n : UInt32) : (ofUInt32 n).length = 4 := length_ofNat 4 _

@[simp] theorem length_ofUInt64 (n : UInt64) : (ofUInt64 n).length = 8 := length_ofNat 8 _

theorem toNat_ofNat (width n : Nat) : toNat (ofNat width n) = n % 256 ^ width := by
  induction width generalizing n with
  | zero => simp [ofNat, Nat.mod_one]
  | succ width ih =>
      rw [ofNat, toNat_concat, ih, Nat.pow_succ, Nat.mul_comm (256 ^ width), Nat.mod_mul]
      have : (UInt8.ofNat n).toNat = n % 256 := by simp
      omega

theorem toNat_lt (bytes : List UInt8) : toNat bytes < 256 ^ bytes.length := by
  rw [← bytes.reverse_reverse]
  induction bytes.reverse with
  | nil => simp
  | cons b bytes ih =>
      have := b.toNat_lt
      simp only [List.reverse_cons, toNat_concat, List.length_append, List.length_singleton,
        Nat.pow_succ]
      omega

theorem ofNat_one (n : UInt8) : ofNat 1 n.toNat = [n] := by simp [ofNat]

end BigEndian

theorem Except.mapError_ok {ε ε' α : Type} (f : ε → ε') (x : α) :
    (Except.ok x : Except ε α).mapError f = .ok x := rfl

theorem Except.mapError_error {ε ε' α : Type} (f : ε → ε') (e : ε) :
    (Except.error e : Except ε α).mapError f = .error (f e) := rfl

/-- The bytes from `c` up to `c'`. -/
def Cursor.Consumes (c : Cursor) (bytes : List UInt8) (c' : Cursor) : Prop :=
  c.unread = bytes ++ c'.unread ∧ c'.position = c.position + bytes.length

namespace Cursor

theorem Consumes.refl (c : Cursor) : c.Consumes [] c := by simp [Consumes]

theorem consumes_nil_iff {c c' : Cursor} : c.Consumes [] c' ↔ c' = c := by
  cases c
  cases c'
  simp only [Consumes, List.nil_append, List.length_nil, Nat.add_zero, mk.injEq]
  constructor <;> rintro ⟨h, h'⟩ <;> exact ⟨h'.symm ▸ rfl, h.symm ▸ rfl⟩

theorem Consumes.trans {c c' c'' : Cursor} {first rest : List UInt8} (h : c.Consumes first c')
    (h' : c'.Consumes rest c'') : c.Consumes (first ++ rest) c'' := by
  constructor
  · rw [h.1, h'.1, List.append_assoc]
  · rw [h'.2, h.2, List.length_append, Nat.add_assoc]

theorem Consumes.split {c c'' : Cursor} {first rest : List UInt8}
    (h : c.Consumes (first ++ rest) c'') :
    ∃ c', c.Consumes first c' ∧ c'.Consumes rest c'' := by
  refine ⟨⟨c.position + first.length, rest ++ c''.unread⟩, ⟨?_, rfl⟩, rfl, ?_⟩
  · rw [h.1, List.append_assoc]
  · rw [h.2, List.length_append, Nat.add_assoc]

theorem Consumes.remaining {c c' : Cursor} {bytes : List UInt8} (h : c.Consumes bytes c') :
    c.remaining = bytes.length + c'.remaining := by
  simp only [Cursor.remaining, h.1, List.length_append]

/-- Advancing by `n` bytes consumes the next `n` bytes, if they are there. -/
theorem consumes_advance {c : Cursor} {n : Nat} (h : n ≤ c.remaining) :
    c.Consumes (c.unread.take n) (c.advance n) := by
  have hlength : (c.unread.take n).length = n := by
    rw [List.length_take]
    exact Nat.min_eq_left h
  exact ⟨(List.take_append_drop n c.unread).symm, by rw [hlength]; rfl⟩

theorem eq_advance_of_consumes {c c' : Cursor} {bytes : List UInt8} (h : c.Consumes bytes c') :
    c' = c.advance bytes.length ∧ bytes = c.unread.take bytes.length := by
  obtain ⟨position', unread'⟩ := c'
  obtain ⟨hunread, hposition⟩ := h
  dsimp only at hunread hposition
  subst hposition
  simp [advance, hunread]

/-- What is consumed from the start of a byte string is the beginning of that string. -/
theorem consumes_start_iff {data bytes : List UInt8} :
    (∃ c, (start data).Consumes bytes c) ↔ ∃ tail, data = bytes ++ tail := by
  constructor
  · intro hgiven
    obtain ⟨c, h, -⟩ := hgiven
    exact ⟨c.unread, h⟩
  · intro hgiven
    obtain ⟨tail, h⟩ := hgiven
    exact ⟨⟨0 + bytes.length, tail⟩, h, rfl⟩

end Cursor

/-- A computation that is never at fault, and the values that it may end with. -/
structure Answers {α : Type} (result : Except Failure α) (P : α → Prop) : Prop where
  ok_iff : ∀ x, result = .ok x ↔ P x
  safe : ∀ fault, result ≠ .error (.fault fault)

namespace Answers

variable {α β : Type} {result : Except Failure α} {P Q : α → Prop}

theorem congr (h : ∀ x, P x ↔ Q x) (hresult : Answers result P) : Answers result Q where
  ok_iff x := (hresult.ok_iff x).trans (h x)
  safe := hresult.safe

protected theorem pure (x : α) : Answers (pure x : Except Failure α) (· = x) where
  ok_iff y := by
    constructor
    · intro h
      exact (Except.ok.inj h).symm
    · intro heq
      subst heq
      rfl
  safe fault h := by cases h

theorem only {x : α} (hx : P x) (honly : ∀ y, P y → y = x) : Answers (.ok x) P :=
  (Answers.pure x).congr fun y => by
    constructor
    · intro heq
      subst heq
      exact hx
    · exact honly y

theorem refuse (error : FormatError) : Answers (.error (.format error) : Except Failure α)
    fun _ => False where
  ok_iff x := by simp
  safe fault h := by cases h

theorem bind {f : α → Except Failure β} {S : α → β → Prop} (hresult : Answers result P)
    (hf : ∀ x, P x → Answers (f x) (S x)) :
    Answers (result >>= f) fun y => ∃ x, P x ∧ S x y := by
  cases result with
  | error failure =>
      refine ⟨fun y => ?_, fun fault => ?_⟩
      · have hnone (x : α) (hP : P x) : False := by
          have := (hresult.ok_iff x).mpr hP
          cases this
        constructor
        · intro h
          cases h
        · intro hgiven
          obtain ⟨x, hP, -⟩ := hgiven
          exact (hnone x hP).elim
      · intro h
        exact hresult.safe fault (congrArg _ (Except.error.inj h))
  | ok x =>
      have hP := (hresult.ok_iff x).mp rfl
      have honly (x' : α) (hP' : P x') : x' = x :=
        (Except.ok.inj ((hresult.ok_iff x').mpr hP')).symm
      apply (hf x hP).congr
      intro y
      constructor
      · intro hS
        exact ⟨x, hP, hS⟩
      · intro hgiven
        obtain ⟨x', hP', hS⟩ := hgiven
        obtain rfl := honly x' hP'
        exact hS

theorem guard (condition : Prop) [Decidable condition] (error : FormatError) :
    Answers (if condition then pure () else .error (.format error) : Except Failure Unit)
      fun _ => condition := by
  by_cases h : condition
  · rw [if_pos h]
    exact (Answers.pure ()).congr fun _ => by simp [h]
  · rw [if_neg h]
    exact (refuse error).congr fun _ => by simp [h]

end Answers

namespace Decoder

variable {α β σ : Type} {covered : Nat}

/-- Where at least `covered` bytes are left, the decoder yields a value exactly if the unread bytes
begin with a spelling of it, which it consumes, and it is never at fault. -/
structure Reads (covered : Nat) (decoder : Decoder α) (Spells : List UInt8 → α → Prop) : Prop where
  yields : ∀ {c : Cursor}, covered ≤ c.remaining → ∀ x c',
    decoder c = .ok (x, c') ↔ ∃ bytes, Spells bytes x ∧ c.Consumes bytes c'
  safe : ∀ {c : Cursor}, covered ≤ c.remaining → ∀ fault, decoder c ≠ .error (.fault fault)

theorem bind_of_ok {d : Decoder α} {f : α → Decoder β} {c c' : Cursor} {x : α}
    (h : d c = .ok (x, c')) : (d >>= f) c = f x c' := by
  simp only [bind, StateT.bind, Except.bind, h]

theorem bind_of_error {d : Decoder α} {f : α → Decoder β} {c : Cursor} {failure : Failure}
    (h : d c = .error failure) : (d >>= f) c = .error failure := by
  simp only [bind, StateT.bind, Except.bind, h]

theorem bind_eq_ok_iff {d : Decoder α} {f : α → Decoder β} {c c'' : Cursor} {y : β} :
    (d >>= f) c = .ok (y, c'') ↔ ∃ x c', d c = .ok (x, c') ∧ f x c' = .ok (y, c'') := by
  constructor
  · intro h
    cases hd : d c with
    | error failure =>
        rw [bind_of_error hd] at h
        cases h
    | ok result =>
        rw [bind_of_ok hd] at h
        exact ⟨result.1, result.2, rfl, h⟩
  · intro hgiven
    obtain ⟨x, c', hx, hy⟩ := hgiven
    rw [bind_of_ok hx, hy]

theorem bind_eq_error_iff {d : Decoder α} {f : α → Decoder β} {c : Cursor} {failure : Failure} :
    (d >>= f) c = .error failure ↔
      d c = .error failure ∨ ∃ x c', d c = .ok (x, c') ∧ f x c' = .error failure := by
  constructor
  · intro h
    cases hd : d c with
    | error failure' =>
        rw [bind_of_error hd] at h
        obtain rfl := Except.error.inj h
        exact Or.inl rfl
    | ok result =>
        rw [bind_of_ok hd] at h
        exact Or.inr ⟨result.1, result.2, rfl, h⟩
  · intro hgiven
    rcases hgiven with h | ⟨x, c', hx, hy⟩
    · exact bind_of_error h
    · rw [bind_of_ok hx, hy]

theorem iterate_succ (step : σ → Decoder σ) (count : Nat) (s : σ) :
    iterate step (count + 1) s = @bind Decoder _ σ σ (step s) (iterate step count) := by
  funext c
  rw [iterate]
  cases hs : step s c with
  | error failure => rw [bind_of_error hs]
  | ok result => rw [bind_of_ok hs]

theorem ensure_of_le {c : Cursor} {n : Nat} (h : n ≤ c.remaining) : ensure n c = .ok ((), c) := by
  simp only [ensure, Cursor.ensure_eq, if_pos h]

theorem ensure_of_lt {c : Cursor} {n : Nat} (h : c.remaining < n) :
    ensure n c = .error (.format (.truncated ⟨c.position, n, c.remaining⟩)) := by
  simp only [ensure, Cursor.ensure_eq, if_neg (Nat.not_le.mpr h)]

theorem number_of_le {c : Cursor} {width : Nat} (h : width ≤ c.remaining) :
    number width c = .ok (BigEndian.toNat (c.unread.take width), c.advance width) := by
  simp only [number, Cursor.number, Cursor.ensure_eq, if_pos h, bind, Except.bind, pure, Except.pure]

theorem number_of_lt {c : Cursor} {width : Nat} (h : c.remaining < width) :
    number width c = .error (.format (.truncated ⟨c.position, width, c.remaining⟩)) := by
  simp only [number, Cursor.number, Cursor.ensure_eq, if_neg (Nat.not_le.mpr h), bind, Except.bind]

theorem numberUnchecked_of_le {c : Cursor} {width : Nat} (h : width ≤ c.remaining) :
    numberUnchecked width c = .ok (BigEndian.toNat (c.unread.take width), c.advance width) := by
  simp only [numberUnchecked, Cursor.numberUnchecked, Cursor.has_eq, decide_eq_true h, if_true]

theorem skipUnchecked_of_le {c : Cursor} {n : Nat} (h : n ≤ c.remaining) :
    skipUnchecked n c = .ok ((), c.advance n) := by
  simp only [skipUnchecked, Cursor.skipUnchecked, Cursor.has_eq, decide_eq_true h, if_true]

theorem framed_of_ok {d : Decoder α} {length : Nat} {error : Nat → FormatError} {c c' : Cursor}
    {x : α} (h : d c = .ok (x, c')) :
    framed length error d c =
      if c'.position - c.position = length then .ok (x, c')
      else .error (.format (error (c'.position - c.position))) := by
  have hstart : position c = .ok (c.position, c) := rfl
  have hend : position c' = .ok (c'.position, c') := rfl
  rw [framed, bind_of_ok hstart, bind_of_ok h, bind_of_ok hend]
  by_cases hlength : c'.position - c.position = length
  · simp only [require, hlength, decide_true, if_true]
    rfl
  · simp only [require, hlength, decide_false, Bool.false_eq_true, if_false]
    rfl

theorem framed_of_error {d : Decoder α} {length : Nat} {error : Nat → FormatError} {c : Cursor}
    {failure : Failure} (h : d c = .error failure) : framed length error d c = .error failure := by
  have hstart : position c = .ok (c.position, c) := rfl
  rw [framed, bind_of_ok hstart, bind_of_error h]

namespace Reads

variable {d : Decoder α} {f : α → Decoder β} {R R' : List UInt8 → α → Prop}
  {S : α → List UInt8 → β → Prop}

theorem congr (h : ∀ bytes x, R bytes x ↔ R' bytes x) (hd : Reads covered d R) :
    Reads covered d R' := by
  have heq : R = R' := by
    funext bytes x
    exact propext (h bytes x)
  rwa [heq] at hd

/-- A decoder that relies on fewer bytes may be used where more are known to be left. -/
theorem mono {more : Nat} (h : covered ≤ more) (hd : Reads covered d R) : Reads more d R where
  yields hc := hd.yields (Nat.le_trans h hc)
  safe hc := hd.safe (Nat.le_trans h hc)

/-- After a first part has been read, so many bytes fewer cover the rest. -/
theorem bind (hd : Reads covered d R)
    (hf : ∀ bytes x, R bytes x → Reads (covered - bytes.length) (f x) (S x)) :
    Reads covered (d >>= f) fun bytes y =>
      ∃ x first rest, R first x ∧ S x rest y ∧ bytes = first ++ rest where
  yields := by
    intro c hc y c''
    rw [bind_eq_ok_iff]
    constructor
    · intro hgiven
      obtain ⟨x, c', hx, hy⟩ := hgiven
      obtain ⟨first, hR, hfirst⟩ := (hd.yields hc x c').mp hx
      have hc' : covered - first.length ≤ c'.remaining := by
        have := hfirst.remaining
        omega
      obtain ⟨rest, hS, hrest⟩ := ((hf first x hR).yields hc' y c'').mp hy
      exact ⟨first ++ rest, ⟨x, first, rest, hR, hS, rfl⟩, hfirst.trans hrest⟩
    · intro hgiven
      obtain ⟨bytes, ⟨x, first, rest, hR, hS, rfl⟩, hbytes⟩ := hgiven
      obtain ⟨c', hfirst, hrest⟩ := hbytes.split
      have hc' : covered - first.length ≤ c'.remaining := by
        have := hfirst.remaining
        omega
      exact ⟨x, c', (hd.yields hc x c').mpr ⟨first, hR, hfirst⟩,
        ((hf first x hR).yields hc' y c'').mpr ⟨rest, hS, hrest⟩⟩
  safe := by
    intro c hc fault h
    rcases bind_eq_error_iff.mp h with h | ⟨x, c', hx, h⟩
    · exact hd.safe hc fault h
    · obtain ⟨first, hR, hfirst⟩ := (hd.yields hc x c').mp hx
      have hc' : covered - first.length ≤ c'.remaining := by
        have := hfirst.remaining
        omega
      exact (hf first x hR).safe hc' fault h

protected theorem pure (x : α) : Reads covered (pure x) fun bytes y => bytes = [] ∧ y = x where
  yields := by
    intro c _ y c'
    have hpure : (pure x : Decoder α) c = .ok (x, c) := rfl
    rw [hpure, Except.ok.injEq, Prod.mk.injEq]
    constructor
    · intro hgiven
      obtain ⟨rfl, rfl⟩ := hgiven
      exact ⟨[], ⟨rfl, rfl⟩, Cursor.Consumes.refl c⟩
    · intro hgiven
      obtain ⟨_, ⟨rfl, rfl⟩, hc⟩ := hgiven
      exact ⟨rfl, (Cursor.consumes_nil_iff.mp hc).symm⟩
  safe := by
    intro c _ fault h
    cases h

theorem reject (error : FormatError) : Reads covered (Decoder.reject error : Decoder α)
    fun _ _ => False where
  yields := by
    intro c _ x c'
    simp [Decoder.reject]
  safe := by
    intro c _ fault h
    cases h

theorem require {condition : Bool} {error : FormatError} {next : Unit → Decoder β}
    {T : List UInt8 → β → Prop} (hnext : condition = true → Reads covered (next ()) T) :
    Reads covered (Decoder.require condition error >>= next)
      fun bytes y => condition = true ∧ T bytes y := by
  cases condition with
  | false =>
      have h : (Decoder.require false error >>= next) = Decoder.reject error := rfl
      rw [h]
      exact (reject error).congr (by simp)
  | true =>
      have h : (Decoder.require true error >>= next) = next () := rfl
      rw [h]
      exact (hnext rfl).congr (by simp)

theorem lookup {result : Except Failure α} {next : α → Decoder β} {P : α → Prop}
    (hresult : Answers result P) (hnext : ∀ x, P x → Reads covered (next x) (S x)) :
    Reads covered (ofExcept result >>= next) fun bytes y => ∃ x, P x ∧ S x bytes y := by
  cases result with
  | error failure =>
      cases failure with
      | fault fault => exact absurd rfl (hresult.safe fault)
      | format error =>
          have h : (ofExcept (.error (.format error)) >>= next) = Decoder.reject error := rfl
          have hnone (x : α) : ¬P x := by
            intro hP
            have := (hresult.ok_iff x).mpr hP
            cases this
          rw [h]
          exact (reject error).congr (by simp [hnone])
  | ok x =>
      have h : (ofExcept (.ok x) >>= next) = next x := rfl
      have hP (x' : α) : P x' ↔ x' = x := by
        rw [← hresult.ok_iff, Except.ok.injEq, eq_comm]
      rw [h]
      exact (hnext x ((hP x).mpr rfl)).congr (by simp [hP])

theorem answer {result : Except Failure α} {P : α → Prop} (hresult : Answers result P) :
    Reads covered (ofExcept result) fun bytes x => bytes = [] ∧ P x := by
  rw [← bind_pure (ofExcept result)]
  apply (lookup hresult fun x _ => Reads.pure x).congr
  intro bytes x
  simp [and_comm]

/-- Behind a check, the bytes that were checked for are covered. -/
theorem ensure {n : Nat} {next : Unit → Decoder β} {T : List UInt8 → β → Prop}
    (hnext : Reads (max covered n) (next ()) T) (hlength : ∀ bytes y, T bytes y → n ≤ bytes.length) :
    Reads covered (Decoder.ensure n >>= next) T where
  yields := by
    intro c hc y c'
    rcases Nat.lt_or_ge c.remaining n with hn | hn
    · rw [bind_of_error (ensure_of_lt hn)]
      simp only [reduceCtorEq, false_iff]
      intro h
      obtain ⟨bytes, hT, hbytes⟩ := h
      have := hlength bytes y hT
      have := hbytes.remaining
      omega
    · rw [bind_of_ok (ensure_of_le hn)]
      exact hnext.yields (Nat.max_le.mpr ⟨hc, hn⟩) y c'
  safe := by
    intro c hc fault
    rcases Nat.lt_or_ge c.remaining n with hn | hn
    · rw [bind_of_error (ensure_of_lt hn)]
      simp
    · rw [bind_of_ok (ensure_of_le hn)]
      exact hnext.safe (Nat.max_le.mpr ⟨hc, hn⟩) fault

/-- An advance over `width` bytes that are there consumes a string of that length. -/
theorem ok_advance_iff {c c' : Cursor} {width : Nat} {x y : α}
    (value : List UInt8 → α) (hwidth : width ≤ c.remaining) (hx : value (c.unread.take width) = x) :
    (Except.ok (x, c.advance width) : Except Failure (α × Cursor)) = .ok (y, c') ↔
      ∃ bytes, (bytes.length = width ∧ value bytes = y) ∧ c.Consumes bytes c' := by
  have hadvance := Cursor.consumes_advance hwidth
  constructor
  · intro h
    obtain ⟨rfl, rfl⟩ := Prod.mk.inj (Except.ok.inj h)
    refine ⟨c.unread.take width, ⟨?_, hx⟩, hadvance⟩
    rw [List.length_take]
    exact Nat.min_eq_left hwidth
  · intro hgiven
    obtain ⟨bytes, ⟨rfl, rfl⟩, hbytes⟩ := hgiven
    obtain ⟨hc', htake⟩ := Cursor.eq_advance_of_consumes hbytes
    rw [← htake] at hx
    rw [hc', hx]

theorem number (width : Nat) : Reads covered (Decoder.number width)
    fun bytes n => bytes.length = width ∧ BigEndian.toNat bytes = n where
  yields := by
    intro c _ n c'
    rcases Nat.lt_or_ge c.remaining width with hlt | hle
    · rw [number_of_lt hlt]
      simp only [reduceCtorEq, false_iff]
      intro h
      obtain ⟨bytes, ⟨hlength, -⟩, hbytes⟩ := h
      have := hbytes.remaining
      omega
    · rw [number_of_le hle]
      exact ok_advance_iff _ hle rfl
  safe := by
    intro c _ fault
    rcases Nat.lt_or_ge c.remaining width with hlt | hle
    · rw [number_of_lt hlt]
      simp
    · rw [number_of_le hle]
      simp

theorem numberUnchecked {width : Nat} (hwidth : width ≤ covered) :
    Reads covered (Decoder.numberUnchecked width)
      fun bytes n => bytes.length = width ∧ BigEndian.toNat bytes = n where
  yields := by
    intro c hc n c'
    have hle := Nat.le_trans hwidth hc
    rw [numberUnchecked_of_le hle]
    exact ok_advance_iff _ hle rfl
  safe := by
    intro c hc fault
    rw [numberUnchecked_of_le (Nat.le_trans hwidth hc)]
    simp

theorem skipUnchecked {n : Nat} (hn : n ≤ covered) :
    Reads covered (Decoder.skipUnchecked n) fun bytes _ => bytes.length = n where
  yields := by
    intro c hc _ c'
    have hle := Nat.le_trans hn hc
    rw [skipUnchecked_of_le hle]
    exact (ok_advance_iff (fun _ => ()) hle rfl).trans (by simp)
  safe := by
    intro c hc fault
    rw [skipUnchecked_of_le (Nat.le_trans hn hc)]
    simp

theorem bytes (n : Nat) : Reads covered (Decoder.bytes n)
    fun bytes x => bytes.length = n ∧ bytes = x where
  yields := by
    intro c _ x c'
    rcases Nat.lt_or_ge c.remaining n with hlt | hle
    · rw [Decoder.bytes, bind_of_error (ensure_of_lt hlt)]
      simp only [reduceCtorEq, false_iff]
      intro h
      obtain ⟨bytes, ⟨hlength, -⟩, hbytes⟩ := h
      have := hbytes.remaining
      omega
    · rw [Decoder.bytes, bind_of_ok (ensure_of_le hle), bind_of_ok rfl,
        bind_of_ok (skipUnchecked_of_le hle)]
      exact ok_advance_iff _ hle rfl
  safe := by
    intro c _ fault
    rcases Nat.lt_or_ge c.remaining n with hlt | hle
    · rw [Decoder.bytes, bind_of_error (ensure_of_lt hlt)]
      simp
    · rw [Decoder.bytes, bind_of_ok (ensure_of_le hle), bind_of_ok rfl,
        bind_of_ok (skipUnchecked_of_le hle)]
      exact nofun

/-- A number read as a word of `width` bytes; `value` is the number of a word. -/
theorem word {d : Decoder Nat} {width : Nat} {make : Nat → α} {value : α → Nat}
    (hd : Reads covered d fun bytes n => bytes.length = width ∧ BigEndian.toNat bytes = n)
    (hvalue : ∀ n, n < 256 ^ width → value (make n) = n) (hlt : ∀ x, value x < 256 ^ width)
    (hmake : ∀ x, make (value x) = x) :
    Reads covered (d >>= fun n => Pure.pure (make n))
      fun bytes x => bytes = BigEndian.ofNat width (value x) := by
  apply (hd.bind fun _ _ _ => Reads.pure _).congr
  intro bytes x
  constructor
  · intro h
    obtain ⟨n, first, rest, ⟨hlength, rfl⟩, ⟨rfl, rfl⟩, rfl⟩ := h
    have hfirst := BigEndian.toNat_lt first
    rw [hlength] at hfirst
    rw [hvalue _ hfirst, List.append_nil, ← hlength, BigEndian.ofNat_toNat]
  · intro heq
    subst heq
    have hx : BigEndian.toNat (BigEndian.ofNat width (value x)) = value x := by
      rw [BigEndian.toNat_ofNat]
      exact Nat.mod_eq_of_lt (hlt x)
    exact ⟨value x, _, [], ⟨BigEndian.length_ofNat width _, hx⟩, ⟨rfl, (hmake x).symm⟩, by simp⟩

theorem u8 : Reads covered Decoder.u8 fun bytes n => bytes = [n] :=
  (word (number 1) (fun _ h => UInt8.toNat_ofNat_of_lt h) UInt8.toNat_lt
    fun _ => UInt8.ofNat_toNat).congr fun bytes n => by rw [BigEndian.ofNat_one]

theorem u16 : Reads covered Decoder.u16 fun bytes n => bytes = BigEndian.ofUInt16 n :=
  word (number 2) (fun _ h => UInt16.toNat_ofNat_of_lt h) UInt16.toNat_lt fun _ => UInt16.ofNat_toNat

theorem u32 : Reads covered Decoder.u32 fun bytes n => bytes = BigEndian.ofUInt32 n :=
  word (number 4) (fun _ h => UInt32.toNat_ofNat_of_lt h) UInt32.toNat_lt fun _ => UInt32.ofNat_toNat

theorem u64 : Reads covered Decoder.u64 fun bytes n => bytes = BigEndian.ofUInt64 n :=
  word (number 8) (fun _ h => UInt64.toNat_ofNat_of_lt h) UInt64.toNat_lt fun _ => UInt64.ofNat_toNat

theorem u8Unchecked (h : 1 ≤ covered) : Reads covered Decoder.u8Unchecked fun bytes n => bytes = [n] :=
  (word (numberUnchecked h) (fun _ h => UInt8.toNat_ofNat_of_lt h) UInt8.toNat_lt
    fun _ => UInt8.ofNat_toNat).congr fun bytes n => by rw [BigEndian.ofNat_one]

theorem u16Unchecked (h : 2 ≤ covered) :
    Reads covered Decoder.u16Unchecked fun bytes n => bytes = BigEndian.ofUInt16 n :=
  word (numberUnchecked h) (fun _ h => UInt16.toNat_ofNat_of_lt h) UInt16.toNat_lt
    fun _ => UInt16.ofNat_toNat

theorem u32Unchecked (h : 4 ≤ covered) :
    Reads covered Decoder.u32Unchecked fun bytes n => bytes = BigEndian.ofUInt32 n :=
  word (numberUnchecked h) (fun _ h => UInt32.toNat_ofNat_of_lt h) UInt32.toNat_lt
    fun _ => UInt32.ofNat_toNat

/-- What is read determines its spelling and its value: no spelling begins another, and none has two
values. -/
theorem unique (hd : Reads 0 d R) {bytes bytes' tail tail' : List UInt8} {x x' : α} (h : R bytes x)
    (h' : R bytes' x') (heq : bytes ++ tail = bytes' ++ tail') :
    bytes = bytes' ∧ x = x' ∧ tail = tail' := by
  have hconsumes : (Cursor.start (bytes ++ tail)).Consumes bytes ⟨0 + bytes.length, tail⟩ := ⟨rfl, rfl⟩
  have hconsumes' : (Cursor.start (bytes ++ tail)).Consumes bytes' ⟨0 + bytes'.length, tail'⟩ :=
    ⟨heq, rfl⟩
  have hread := (hd.yields (Nat.zero_le _) _ _).mpr ⟨bytes, h, hconsumes⟩
  rw [(hd.yields (Nat.zero_le _) _ _).mpr ⟨bytes', h', hconsumes'⟩] at hread
  obtain ⟨rfl, hcursor⟩ := Prod.mk.inj (Except.ok.inj hread)
  obtain ⟨-, rfl⟩ := Cursor.mk.inj hcursor
  exact ⟨(List.append_cancel_right heq), rfl, rfl⟩

/-- A value whose spelling is known is followed by the spelling of the rest. -/
theorem step {spell : α → List UInt8} {width : Nat}
    (hd : Reads covered d fun bytes x => bytes = spell x) (hwidth : ∀ x, (spell x).length = width)
    (hnext : ∀ x, Reads (covered - width) (f x) (S x)) :
    Reads covered (d >>= f) fun bytes y => ∃ x rest, bytes = spell x ++ rest ∧ S x rest y := by
  have hbind : ∀ bytes x, bytes = spell x → Reads (covered - bytes.length) (f x) (S x) := by
    intro _ x heq
    subst heq
    rw [hwidth]
    exact hnext x
  apply (hd.bind hbind).congr
  intro bytes y
  constructor
  · intro h
    obtain ⟨x, _, rest, rfl, hS, rfl⟩ := h
    exact ⟨x, rest, rfl, hS⟩
  · intro h
    obtain ⟨x, rest, rfl, hS⟩ := h
    exact ⟨x, _, rest, rfl, hS, rfl⟩

/-- A framed value is one whose spelling has the length that was declared. -/
theorem framed {length : Nat} {error : Nat → FormatError} (hd : Reads covered d R) :
    Reads covered (Decoder.framed length error d) fun bytes x => bytes.length = length ∧ R bytes x where
  yields := by
    intro c hc x c'
    constructor
    · intro h
      cases hx : d c with
      | error failure =>
          rw [framed_of_error hx] at h
          cases h
      | ok result =>
          rw [framed_of_ok hx] at h
          split at h
          · rename_i hlength
            obtain ⟨rfl, rfl⟩ := Prod.mk.inj (Except.ok.inj h)
            obtain ⟨bytes, hR, hbytes⟩ := (hd.yields hc _ _).mp hx
            have hposition := hbytes.2
            exact ⟨bytes, ⟨by omega, hR⟩, hbytes⟩
          · cases h
    · intro hgiven
      obtain ⟨bytes, ⟨hlength, hR⟩, hbytes⟩ := hgiven
      have hposition := hbytes.2
      rw [framed_of_ok ((hd.yields hc x c').mpr ⟨bytes, hR, hbytes⟩), if_pos (by omega)]
  safe := by
    intro c hc fault h
    cases hx : d c with
    | error failure =>
        rw [framed_of_error hx] at h
        exact hd.safe hc fault (hx.trans (congrArg _ (Except.error.inj h)))
    | ok result =>
        rw [framed_of_ok hx] at h
        split at h <;> cases h

end Reads

/-- One spelling after another. -/
inductive SpelledAll (R : List UInt8 → α → Prop) : List UInt8 → List α → Prop
  | nil : SpelledAll R [] []
  | cons {first rest : List UInt8} {x : α} {xs : List α} :
      R first x → SpelledAll R rest xs → SpelledAll R (first ++ rest) (x :: xs)

/-- The number of some values in two bytes, and then their spellings. -/
inductive Counted (R : List UInt8 → α → Prop) : List UInt8 → List α → Prop
  | mk {bytes : List UInt8} {xs : List α} : xs.length < UInt16.size → SpelledAll R bytes xs →
      Counted R (BigEndian.ofNat 2 xs.length ++ bytes) xs

theorem counted_iff {R : List UInt8 → α → Prop} {bytes : List UInt8} {xs : List α} :
    Counted R bytes xs ↔ ∃ (count : UInt16) (rest : List UInt8),
      bytes = BigEndian.ofUInt16 count ++ rest ∧ xs.length = count.toNat ∧ SpelledAll R rest xs := by
  constructor
  · intro h
    cases h with
    | mk hlength hall =>
        have hcount : (UInt16.ofNat xs.length).toNat = xs.length := UInt16.toNat_ofNat_of_lt hlength
        refine ⟨UInt16.ofNat xs.length, _, ?_, hcount.symm, hall⟩
        rw [BigEndian.ofUInt16, hcount]
  · intro hgiven
    obtain ⟨count, rest, rfl, hcount, hall⟩ := hgiven
    rw [BigEndian.ofUInt16, ← hcount]
    exact .mk (hcount ▸ count.toNat_lt) hall

theorem SpelledAll.of_mem {R : List UInt8 → α → Prop} {bytes : List UInt8} {x : α} {xs : List α}
    (hall : SpelledAll R bytes xs) (hx : x ∈ xs) : ∃ bytes, R bytes x := by
  induction hall with
  | nil => cases hx
  | cons hR _ ih =>
      rcases List.mem_cons.mp hx with rfl | hx
      · exact ⟨_, hR⟩
      · exact ih hx

theorem Counted.of_mem {R : List UInt8 → α → Prop} {bytes : List UInt8} {x : α} {xs : List α}
    (hcounted : Counted R bytes xs) (hx : x ∈ xs) : ∃ bytes, R bytes x := by
  obtain ⟨_, hall⟩ := hcounted
  exact hall.of_mem hx

/-- A property of the values may be asked for together with their spellings or apart from them. -/
theorem spelledAll_and_iff {R : List UInt8 → α → Prop} {P : α → Prop} {bytes : List UInt8}
    {xs : List α} :
    SpelledAll (fun bytes x => R bytes x ∧ P x) bytes xs ↔ SpelledAll R bytes xs ∧ ∀ x ∈ xs, P x := by
  constructor
  · intro h
    induction h with
    | nil => exact ⟨.nil, by simp⟩
    | cons h _ ih => exact ⟨.cons h.1 ih.1, List.forall_mem_cons.mpr ⟨h.2, ih.2⟩⟩
  · intro hgiven
    obtain ⟨h, hP⟩ := hgiven
    induction h with
    | nil => exact .nil
    | cons hR _ ih =>
        obtain ⟨hx, hxs⟩ := List.forall_mem_cons.mp hP
        exact .cons ⟨hR, hx⟩ (ih hxs)

theorem counted_and_iff {R : List UInt8 → α → Prop} {P : α → Prop} {bytes : List UInt8}
    {xs : List α} :
    Counted (fun bytes x => R bytes x ∧ P x) bytes xs ↔ Counted R bytes xs ∧ ∀ x ∈ xs, P x := by
  simp only [counted_iff, spelledAll_and_iff]
  constructor
  · intro h
    obtain ⟨count, rest, rfl, hcount, hall, hP⟩ := h
    exact ⟨⟨count, rest, rfl, hcount, hall⟩, hP⟩
  · intro h
    obtain ⟨⟨count, rest, rfl, hcount, hall⟩, hP⟩ := h
    exact ⟨count, rest, rfl, hcount, hall, hP⟩

/-- One spelling after another, each of them of a step between two states. -/
inductive SpelledSteps (R : σ → List UInt8 → σ → Prop) : Nat → List UInt8 → σ → σ → Prop
  | refl (s : σ) : SpelledSteps R 0 [] s s
  | step {count : Nat} {first rest : List UInt8} {s s' s'' : σ} :
      R s first s' → SpelledSteps R count rest s' s'' →
        SpelledSteps R (count + 1) (first ++ rest) s s''

namespace Reads

/-- Several values, each of which relies on `width` bytes and takes no more. -/
theorem replicate {value : Decoder α} {R : List UInt8 → α → Prop} {width : Nat}
    (hvalue : Reads width value R)
    (hwidth : 0 < width → ∀ bytes x, R bytes x → bytes.length ≤ width) (count : Nat) :
    Reads (count * width) (Decoder.replicate count value)
      fun bytes xs => xs.length = count ∧ SpelledAll R bytes xs := by
  induction count with
  | zero =>
      rw [replicate_zero]
      apply (Reads.pure []).congr
      intro bytes xs
      constructor
      · intro hgiven
        obtain ⟨rfl, rfl⟩ := hgiven
        exact ⟨rfl, .nil⟩
      · intro hgiven
        obtain ⟨hlength, hall⟩ := hgiven
        cases hall with
        | nil => exact ⟨rfl, rfl⟩
        | cons _ _ => cases hlength
  | succ count ih =>
      rw [replicate_succ]
      have hsucc : (count + 1) * width = count * width + width := Nat.succ_mul count width
      have hfirst : Reads ((count + 1) * width) value R := hvalue.mono (by omega)
      refine (hfirst.bind fun first x hR => (ih.mono ?_).bind fun _ _ _ => Reads.pure _).congr
        fun bytes xs => ?_
      · rcases Nat.eq_zero_or_pos width with h | h
        · simp [h]
        · have := hwidth h first x hR
          omega
      · constructor
        · intro hgiven
          obtain ⟨x, first, _, hR, ⟨xs, rest, _, ⟨rfl, hall⟩, ⟨rfl, rfl⟩, rfl⟩, rfl⟩ := hgiven
          rw [List.append_nil]
          exact ⟨rfl, .cons hR hall⟩
        · intro hgiven
          obtain ⟨hlength, hall⟩ := hgiven
          cases hall with
          | nil => cases hlength
          | cons hR hall =>
              exact ⟨_, _, _, hR, ⟨_, _, [], ⟨Nat.succ.inj hlength, hall⟩, ⟨rfl, rfl⟩, by simp⟩, rfl⟩

theorem counted {value : Decoder α} {R : List UInt8 → α → Prop} (hvalue : Reads 0 value R) :
    Reads 0 (do Decoder.replicate (← Decoder.u16).toNat value) (Counted R) := by
  have hall (count : UInt16) := Reads.replicate hvalue (fun h => absurd h (Nat.lt_irrefl 0)) count.toNat
  apply (Reads.u16.step BigEndian.length_ofUInt16 fun count => hall count).congr
  intro bytes xs
  rw [counted_iff]

theorem iterate {step : σ → Decoder σ} {R : σ → List UInt8 → σ → Prop}
    (hstep : ∀ s, Reads 0 (step s) (R s)) (count : Nat) (s : σ) :
    Reads 0 (Decoder.iterate step count s) fun bytes s' => SpelledSteps R count bytes s s' := by
  induction count generalizing s with
  | zero =>
      apply (Reads.pure s).congr
      intro bytes s'
      constructor
      · intro hgiven
        obtain ⟨rfl, rfl⟩ := hgiven
        exact .refl _
      · intro hgiven
        cases hgiven
        exact ⟨rfl, rfl⟩
  | succ count ih =>
      rw [iterate_succ]
      apply ((hstep s).bind fun _ s' _ => (ih s').mono (Nat.zero_le _)).congr
      intro bytes s''
      constructor
      · intro hgiven
        obtain ⟨s', first, rest, hR, hsteps, rfl⟩ := hgiven
        exact .step hR hsteps
      · intro hgiven
        cases hgiven
        rename_i hR hsteps
        exact ⟨_, _, _, hR, hsteps, rfl⟩

end Reads

end Decoder

end ClassLoading
