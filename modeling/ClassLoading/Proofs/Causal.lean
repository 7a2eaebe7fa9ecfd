import ClassLoading.Proofs.Decoder

/-!
# Causal decoders

A decoder is causal if it looks no further than it reads: more bytes behind its input leave a value,
and an error about bytes that are there, as they were, and a shortage stays one until as many bytes
follow as were missing. The statements compose along the monad.
-/

namespace ClassLoading

namespace Cursor

/-- The number of bytes before and behind the position. -/
def limit (c : Cursor) : Nat := c.position + c.remaining

/-- The cursor where more bytes follow. -/
def append (c : Cursor) (more : List UInt8) : Cursor := ⟨c.position, c.unread ++ more⟩

@[simp] theorem remaining_append (c : Cursor) (more : List UInt8) :
    (c.append more).remaining = c.remaining + more.length := List.length_append

theorem start_append (data more : List UInt8) : start (data ++ more) = (start data).append more := rfl

@[simp] theorem limit_start (data : List UInt8) : (start data).limit = data.length := Nat.zero_add _

theorem position_le_limit (c : Cursor) : c.position ≤ c.limit := Nat.le_add_right ..

variable {c : Cursor} {n : Nat}

theorem limit_advance (h : n ≤ c.remaining) : (c.advance n).limit = c.limit := by
  have hposition : (c.advance n).position = c.position + n := rfl
  rw [limit, limit, hposition, remaining_advance]
  omega

theorem advance_append (h : n ≤ c.remaining) (more : List UInt8) :
    (c.append more).advance n = (c.advance n).append more := by
  simp only [advance, append, List.drop_append_of_le_length h]

theorem take_append (h : n ≤ c.remaining) (more : List UInt8) :
    (c.append more).unread.take n = c.unread.take n :=
  List.take_append_of_le_length h

end Cursor

namespace Failure

/-- The failure when `more` bytes follow, if it still is one then. -/
def after (more : Nat) : Failure → Failure
  | format (.truncated shortage) =>
      format (.truncated { shortage with remaining := shortage.remaining + more })
  | failure => failure

/-- The failure is still one when `more` bytes follow. Of broken promises nothing is known. -/
def Stands (more : Nat) : Failure → Prop
  | format (.truncated shortage) => shortage.remaining + more < shortage.needed
  | format _ => True
  | fault _ => False

/-- A shortage is one of the bytes up to `limit`. -/
def Within (limit : Nat) : Failure → Prop
  | format (.truncated shortage) =>
      shortage.offset + shortage.remaining = limit ∧ shortage.remaining < shortage.needed
  | _ => True

/-- The failure is no shortage. -/
def IsFinal (failure : Failure) : Prop := ∀ shortage, failure ≠ format (.truncated shortage)

variable {failure : Failure}

theorem IsFinal.after_eq (h : failure.IsFinal) (more : Nat) : failure.after more = failure := by
  unfold after
  split
  · exact absurd rfl (h _)
  · rfl

theorem IsFinal.within (h : failure.IsFinal) (limit : Nat) : failure.Within limit := by
  unfold Within
  split
  · exact absurd rfl (h _)
  · trivial

theorem IsFinal.stands {error : FormatError} (h : (format error).IsFinal) (more : Nat) :
    (format error).Stands more := by
  cases error with
  | truncated shortage => exact absurd rfl (h shortage)
  | _ => trivial

end Failure

/-- A computation that reads nothing does not end for want of bytes. -/
def NeverShort {α : Type} (result : Except Failure α) : Prop :=
  ∀ failure, result = .error failure → failure.IsFinal

namespace NeverShort

variable {α β : Type} {result : Except Failure α}

theorem ok (x : α) : NeverShort (.ok x) := by
  intro failure h
  cases h

theorem error {failure : Failure} (h : failure.IsFinal) :
    NeverShort (.error failure : Except Failure α) := by
  intro failure' h'
  obtain rfl := Except.error.inj h'
  exact h

theorem bind {f : α → Except Failure β} (hresult : NeverShort result) (hf : ∀ x, NeverShort (f x)) :
    NeverShort (result >>= f) := by
  cases result with
  | error failure => exact error (hresult failure rfl)
  | ok x => exact hf x

theorem mapError (result : Except Fault α) : NeverShort (result.mapError .fault) := by
  cases result with
  | error fault => exact error nofun
  | ok x => exact ok x

end NeverShort

namespace Decoder

variable {α β σ : Type}

/-- What the decoder comes to depends only on the bytes up to where it ends. -/
structure Causal (decoder : Decoder α) : Prop where
  yields : ∀ {c x c'}, decoder c = .ok (x, c') →
    c'.limit = c.limit ∧ ∀ more, decoder (c.append more) = .ok (x, c'.append more)
  fails : ∀ {c failure}, decoder c = .error failure → failure.Within c.limit ∧
    ∀ more, failure.Stands more.length → decoder (c.append more) = .error (failure.after more.length)

namespace Causal

variable {d : Decoder α} {f : α → Decoder β}

theorem bind (hd : Causal d) (hf : ∀ x, Causal (f x)) : Causal (d >>= f) where
  yields := by
    intro c y c'' h
    obtain ⟨x, c', hx, hy⟩ := bind_eq_ok_iff.mp h
    obtain ⟨hlimit, hmore⟩ := hd.yields hx
    obtain ⟨hlimit', hmore'⟩ := (hf x).yields hy
    refine ⟨hlimit'.trans hlimit, fun more => ?_⟩
    rw [bind_of_ok (hmore more), hmore' more]
  fails := by
    intro c failure h
    rcases bind_eq_error_iff.mp h with hfailed | ⟨x, c', hx, hfailed⟩
    · obtain ⟨hwithin, hmore⟩ := hd.fails hfailed
      exact ⟨hwithin, fun more hstands => bind_of_error (hmore more hstands)⟩
    · obtain ⟨hlimit, hmore⟩ := hd.yields hx
      obtain ⟨hwithin, hmore'⟩ := (hf x).fails hfailed
      refine ⟨hlimit ▸ hwithin, fun more hstands => ?_⟩
      rw [bind_of_ok (hmore more), hmore' more hstands]

theorem pure (x : α) : Causal (Pure.pure x : Decoder α) where
  yields := by
    intro c y c' h
    obtain ⟨rfl, rfl⟩ := Prod.mk.inj (Except.ok.inj h)
    exact ⟨rfl, fun more => rfl⟩
  fails := by
    intro c failure h
    cases h

theorem ofExcept {result : Except Failure α} (h : NeverShort result) :
    Causal (Decoder.ofExcept result) where
  yields := by
    intro c x c' hx
    cases result with
    | error failure => cases hx
    | ok y =>
        obtain ⟨rfl, rfl⟩ := Prod.mk.inj (Except.ok.inj hx)
        exact ⟨rfl, fun more => rfl⟩
  fails := by
    intro c failure hfailure
    cases result with
    | ok y => cases hfailure
    | error failure' =>
        obtain rfl := Except.error.inj hfailure
        have hfinal := h failure' rfl
        exact ⟨hfinal.within _, fun more _ => congrArg Except.error (hfinal.after_eq _).symm⟩

theorem reject {error : FormatError} (h : (Failure.format error).IsFinal) :
    Causal (Decoder.reject error : Decoder α) :=
  ofExcept (NeverShort.error h)

theorem require {condition : Bool} {error : FormatError} (h : (Failure.format error).IsFinal) :
    Causal (Decoder.require condition error) := by
  cases condition with
  | false => exact reject h
  | true => exact pure ()

/-- Where fewer than `n` bytes are left, the decoder fails, and fails as long as that is so. -/
def ShortOf (n : Nat) (decoder : Decoder α) : Prop :=
  ∀ {c}, c.remaining < n → ∃ failure, decoder c = .error failure ∧ failure.Within c.limit ∧
    ∀ more, failure.Stands more.length → decoder (c.append more) = .error (failure.after more.length)

theorem shortOf_of_truncated {n : Nat} (h : ∀ {c}, c.remaining < n →
    d c = .error (.format (.truncated ⟨c.position, n, c.remaining⟩))) : ShortOf n d := by
  intro c hlt
  refine ⟨_, h hlt, ⟨rfl, hlt⟩, fun more hstands => ?_⟩
  have hstill : (c.append more).remaining < n := by
    rw [Cursor.remaining_append]
    exact hstands
  rw [h hstill, Cursor.remaining_append]
  rfl

theorem shortOf_of_fault {n : Nat} (h : ∀ {c}, c.remaining < n → ∃ fault, d c = .error (.fault fault)) :
    ShortOf n d := by
  intro c hlt
  obtain ⟨fault, hfault⟩ := h hlt
  exact ⟨_, hfault, trivial, fun more hstands => hstands.elim⟩

/-- A decoder that takes the next `n` bytes is causal, if it fails where they are not there. -/
theorem of_shortOf {n : Nat} (value : List UInt8 → α) (hshort : ShortOf n d)
    (hread : ∀ {c}, n ≤ c.remaining → d c = .ok (value (c.unread.take n), c.advance n)) : Causal d where
  yields := by
    intro c x c' h
    rcases Nat.lt_or_ge c.remaining n with hlt | hle
    · obtain ⟨failure, hfailure, -⟩ := hshort hlt
      rw [hfailure] at h
      cases h
    · rw [hread hle] at h
      obtain ⟨rfl, rfl⟩ := Prod.mk.inj (Except.ok.inj h)
      refine ⟨Cursor.limit_advance hle, fun more => ?_⟩
      rw [hread (by rw [Cursor.remaining_append]; omega), Cursor.take_append hle,
        Cursor.advance_append hle]
  fails := by
    intro c failure h
    rcases Nat.lt_or_ge c.remaining n with hlt | hle
    · obtain ⟨failure', hfailure, hlasts⟩ := hshort hlt
      obtain rfl := Except.error.inj (h.symm.trans hfailure)
      exact hlasts
    · rw [hread hle] at h
      cases h

theorem number (width : Nat) : Causal (Decoder.number width) :=
  of_shortOf BigEndian.toNat (shortOf_of_truncated number_of_lt) number_of_le

theorem numberUnchecked (width : Nat) : Causal (Decoder.numberUnchecked width) := by
  refine of_shortOf BigEndian.toNat
    (shortOf_of_fault fun {c} hlt => ⟨.uncheckedRead c.position, ?_⟩) numberUnchecked_of_le
  simp [Decoder.numberUnchecked, Cursor.numberUnchecked, Cursor.has_eq, Nat.not_le.mpr hlt]

theorem skipUnchecked (n : Nat) : Causal (Decoder.skipUnchecked n) := by
  refine of_shortOf (fun _ => ())
    (shortOf_of_fault fun {c} hlt => ⟨.uncheckedSkip n c.position, ?_⟩) skipUnchecked_of_le
  simp [Decoder.skipUnchecked, Cursor.skipUnchecked, Cursor.has_eq, Nat.not_le.mpr hlt]

theorem bytes (n : Nat) : Causal (Decoder.bytes n) := by
  refine of_shortOf (n := n) id (shortOf_of_truncated fun hlt => ?_) fun hle => ?_
  · rw [Decoder.bytes, bind_of_error (ensure_of_lt hlt)]
  · rw [Decoder.bytes, bind_of_ok (ensure_of_le hle), bind_of_ok rfl,
      bind_of_ok (skipUnchecked_of_le hle)]
    rfl

theorem ensure (n : Nat) : Causal (Decoder.ensure n) where
  yields := by
    intro c x c' h
    rcases Nat.lt_or_ge c.remaining n with hlt | hle
    · rw [ensure_of_lt hlt] at h
      cases h
    · rw [ensure_of_le hle] at h
      obtain ⟨-, rfl⟩ := Prod.mk.inj (Except.ok.inj h)
      refine ⟨rfl, fun more => ensure_of_le ?_⟩
      rw [Cursor.remaining_append]
      omega
  fails := by
    intro c failure h
    rcases Nat.lt_or_ge c.remaining n with hlt | hle
    · obtain ⟨failure', hfailure, hlasts⟩ :=
        shortOf_of_truncated (d := Decoder.ensure n) ensure_of_lt hlt
      obtain rfl := Except.error.inj (h.symm.trans hfailure)
      exact hlasts
    · rw [ensure_of_le hle] at h
      cases h

theorem position : Causal Decoder.position where
  yields := by
    intro c x c' h
    obtain ⟨rfl, rfl⟩ := Prod.mk.inj (Except.ok.inj h)
    exact ⟨rfl, fun more => rfl⟩
  fails := by
    intro c failure h
    cases h

theorem u8 : Causal Decoder.u8 := (number 1).bind fun _ => pure _

theorem u16 : Causal Decoder.u16 := (number 2).bind fun _ => pure _

theorem u32 : Causal Decoder.u32 := (number 4).bind fun _ => pure _

theorem u64 : Causal Decoder.u64 := (number 8).bind fun _ => pure _

theorem u8Unchecked : Causal Decoder.u8Unchecked := (numberUnchecked 1).bind fun _ => pure _

theorem u16Unchecked : Causal Decoder.u16Unchecked := (numberUnchecked 2).bind fun _ => pure _

theorem u32Unchecked : Causal Decoder.u32Unchecked := (numberUnchecked 4).bind fun _ => pure _

theorem framed {length : Nat} {error : Nat → FormatError} (hd : Causal d)
    (herror : ∀ taken, (Failure.format (error taken)).IsFinal) :
    Causal (Decoder.framed length error d) :=
  position.bind fun _ => hd.bind fun _ => position.bind fun _ =>
    (require (herror _)).bind fun _ => pure _

theorem replicate (count : Nat) (hd : Causal d) : Causal (Decoder.replicate count d) := by
  induction count with
  | zero =>
      rw [replicate_zero]
      exact pure []
  | succ count ih =>
      rw [replicate_succ]
      exact hd.bind fun _ => ih.bind fun _ => pure _

theorem iterate {step : σ → Decoder σ} (hstep : ∀ s, Causal (step s)) (count : Nat) (s : σ) :
    Causal (Decoder.iterate step count s) := by
  induction count generalizing s with
  | zero => exact pure s
  | succ count ih =>
      rw [iterate_succ]
      exact (hstep s).bind ih

end Causal

/-- What a run comes to, with something besides that it keeps even if it fails, depends only on the
bytes up to where it ends. -/
structure CausalRun (run : Cursor → Except Failure (α × Cursor) × σ) : Prop where
  yields : ∀ {c x c' kept}, run c = (.ok (x, c'), kept) →
    c'.limit = c.limit ∧ ∀ more, run (c.append more) = (.ok (x, c'.append more), kept)
  fails : ∀ {c failure kept}, run c = (.error failure, kept) → failure.Within c.limit ∧
    ∀ more, failure.Stands more.length →
      run (c.append more) = (.error (failure.after more.length), kept)

/-- A decoder before a run; `kept` is what is kept if the decoder fails. -/
def before (d : Decoder α) (kept : σ) (run : α → Cursor → Except Failure (β × Cursor) × σ)
    (c : Cursor) : Except Failure (β × Cursor) × σ :=
  match d c with
  | .error failure => (.error failure, kept)
  | .ok (x, c') => run x c'

section Before

variable {d : Decoder α} {kept : σ} {run : α → Cursor → Except Failure (β × Cursor) × σ} {c : Cursor}

theorem before_of_ok {x : α} {c' : Cursor} (h : d c = .ok (x, c')) :
    d.before kept run c = run x c' := by
  rw [before, h]

theorem before_of_error {failure : Failure} (h : d c = .error failure) :
    d.before kept run c = (.error failure, kept) := by
  rw [before, h]

theorem CausalRun.before (hd : Causal d) (hrun : ∀ x, CausalRun (run x)) :
    CausalRun (d.before kept run) where
  yields := by
    intro c y c'' kept' h
    cases hresult : d c with
    | error failure =>
        rw [before_of_error hresult] at h
        cases h
    | ok result =>
        obtain ⟨hlimit, hmore⟩ := hd.yields hresult
        rw [before_of_ok hresult] at h
        obtain ⟨hlimit', hmore'⟩ := (hrun result.1).yields h
        refine ⟨hlimit'.trans hlimit, fun more => ?_⟩
        rw [before_of_ok (hmore more), hmore' more]
  fails := by
    intro c failure kept' h
    cases hresult : d c with
    | error failure' =>
        obtain ⟨hwithin, hmore⟩ := hd.fails hresult
        rw [before_of_error hresult] at h
        obtain ⟨hfailure, rfl⟩ := Prod.mk.inj h
        obtain rfl := Except.error.inj hfailure
        exact ⟨hwithin, fun more hstands => before_of_error (hmore more hstands)⟩
    | ok result =>
        obtain ⟨hlimit, hmore⟩ := hd.yields hresult
        rw [before_of_ok hresult] at h
        obtain ⟨hwithin, hmore'⟩ := (hrun result.1).fails h
        refine ⟨hlimit ▸ hwithin, fun more hstands => ?_⟩
        rw [before_of_ok (hmore more), hmore' more hstands]

end Before

end Decoder

end ClassLoading
