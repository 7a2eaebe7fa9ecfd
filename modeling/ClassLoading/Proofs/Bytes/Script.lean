import ClassLoading.Bytes.Script
import ClassLoading.Proofs.Decoder

/-!
# Accounts of reading scripts

Whatever operations a script mixes, and whichever of them fail, the bytes before the position are
those that the operations have accounted for: the encodings of the numbers read, the bytes read and
the bytes passed over, in their order. An operation fails only for want of bytes, and then leaves the
cursor where it was.
-/

namespace ClassLoading.Cursor

variable {c : Cursor} {step : Step}

namespace Step

/-- The bytes that have to be left. -/
def size : Step → Nat
  | number n | numberUnchecked n | bytes n | ensure n | skip n | skipUnchecked n => n
  | unread | atEnd => 0

/-- The bytes that the cursor moves by. -/
def taken : Step → Nat
  | number n | numberUnchecked n | bytes n | skip n | skipUnchecked n => n
  | ensure _ | unread | atEnd => 0

/-- The same operation with a check of its own. -/
def checked : Step → Step
  | numberUnchecked width => number width
  | skipUnchecked size => skip size
  | step => step

/-- What an operation yields where enough bytes are left. -/
def value (c : Cursor) : Step → Value
  | number width | numberUnchecked width => .number (BigEndian.toNat (c.unread.take width))
  | bytes size => .bytes (c.unread.take size)
  | ensure _ | skip _ | skipUnchecked _ => .nothing
  | unread => .bytes c.unread
  | atEnd => .truth (c.remaining = 0)

/-- What an operation says where too few bytes are left. -/
def failure (c : Cursor) : Step → StepFailure
  | numberUnchecked _ => .fault (.uncheckedRead c.position)
  | skipUnchecked size => .fault (.uncheckedSkip size c.position)
  | step => .shortage ⟨c.position, step.size, c.remaining⟩

/-- The bytes behind what an operation yields: those that encode the number, those read or those
passed over. Looking ahead has none. -/
def spelled (c : Cursor) : Step → Value → List UInt8
  | number width, .number n | numberUnchecked width, .number n => BigEndian.ofNat width n
  | bytes _, .bytes read => read
  | skip size, _ | skipUnchecked size, _ => c.unread.take size
  | _, _ => []

theorem taken_le_size (step : Step) : step.taken ≤ step.size := by
  cases step with
  | ensure size => exact Nat.zero_le _
  | _ => exact Nat.le_refl _

theorem size_checked (step : Step) : step.checked.size = step.size := by cases step <;> rfl

theorem taken_checked (step : Step) : step.checked.taken = step.taken := by cases step <;> rfl

theorem value_checked (c : Cursor) (step : Step) : step.checked.value c = step.value c := by
  cases step <;> rfl

theorem spelled_value (h : step.size ≤ c.remaining) :
    step.spelled c (step.value c) = c.unread.take step.taken := by
  have hencoded {n : Nat} (hn : n ≤ c.remaining) :
      BigEndian.ofNat n (BigEndian.toNat (c.unread.take n)) = c.unread.take n := by
    have hlength : (c.unread.take n).length = n := List.length_take_of_le hn
    simpa only [hlength] using BigEndian.ofNat_toNat (c.unread.take n)
  cases step with
  | number width | numberUnchecked width => exact hencoded h
  | _ => rfl

theorem number_lt {width n : Nat} (h : step.checked = number width) (hn : step.value c = .number n) :
    n < 256 ^ width := by
  have hnumber : Value.number (BigEndian.toNat (c.unread.take width)) = .number n := by
    rw [← hn, ← value_checked, h]
    rfl
  obtain rfl := Value.number.inj hnumber
  refine Nat.lt_of_lt_of_le (BigEndian.toNat_lt _) (Nat.pow_le_pow_right (by decide) ?_)
  exact List.length_take_le width c.unread

end Step

section Operations

variable {n : Nat}

theorem has_of_le (h : n ≤ c.remaining) : c.has n = true := by
  rw [has_eq, decide_eq_true h]

theorem has_of_lt (h : c.remaining < n) : ¬c.has n = true := by
  rw [has_eq, decide_eq_true_eq]
  exact Nat.not_le.mpr h

theorem ensure_of_le (h : n ≤ c.remaining) : c.ensure n = .ok () := by
  rw [ensure_eq, if_pos h]

theorem ensure_of_lt (h : c.remaining < n) : c.ensure n = .error ⟨c.position, n, c.remaining⟩ := by
  rw [ensure_eq, if_neg (Nat.not_le.mpr h)]

theorem atEnd_eq (c : Cursor) : c.atEnd = decide (c.remaining = 0) := by
  rw [atEnd, remaining]
  cases c.unread <;> rfl

theorem run_of_le (h : step.size ≤ c.remaining) :
    c.run step = (.ok (step.value c), c.advance step.taken) := by
  cases step with
  | number width => rw [run, number, ensure_of_le (n := width) h]; rfl
  | numberUnchecked width => rw [run, numberUnchecked, if_pos (has_of_le (n := width) h)]; rfl
  | bytes size => rw [run, bytes, ensure_of_le (n := size) h]; rfl
  | ensure size => rw [run, ensure_of_le (n := size) h]; rfl
  | skip size => rw [run, skip, ensure_of_le (n := size) h]; rfl
  | skipUnchecked size => rw [run, skipUnchecked, if_pos (has_of_le (n := size) h)]; rfl
  | unread => rfl
  | atEnd => rw [run, atEnd_eq]; rfl

theorem run_of_lt (h : c.remaining < step.size) : c.run step = (.error (step.failure c), c) := by
  cases step with
  | number width => rw [run, number, ensure_of_lt (n := width) h]; rfl
  | numberUnchecked width => rw [run, numberUnchecked, if_neg (has_of_lt (n := width) h)]; rfl
  | bytes size => rw [run, bytes, ensure_of_lt (n := size) h]; rfl
  | ensure size => rw [run, ensure_of_lt (n := size) h]; rfl
  | skip size => rw [run, skip, ensure_of_lt (n := size) h]; rfl
  | skipUnchecked size => rw [run, skipUnchecked, if_neg (has_of_lt (n := size) h)]; rfl
  | unread | atEnd => exact absurd h (Nat.not_lt_zero _)

theorem run_checked (h : step.size ≤ c.remaining) : c.run step.checked = c.run step := by
  have hchecked : step.checked.size ≤ c.remaining := by rwa [Step.size_checked]
  rw [run_of_le hchecked, run_of_le h, Step.value_checked, Step.taken_checked]

/-- What an operation on the cursor `c` comes to, and where it leaves the cursor. -/
structure Lawful (c : Cursor) (step : Step) (outcome : Except StepFailure Value) (c' : Cursor) :
    Prop where
  ok_iff : (∃ value, outcome = .ok value) ↔ step.size ≤ c.remaining
  yields : step.size ≤ c.remaining →
    outcome = .ok (step.value c) ∧ c'.position = c.position + step.taken
  fails : c.remaining < step.size → outcome = .error (step.failure c) ∧ c' = c
  checked_eq : step.size ≤ c.remaining → c.run step.checked = (outcome, c')
  number_lt : ∀ width n, step.checked = .number width → outcome = .ok (.number n) → n < 256 ^ width

theorem lawful_run (c : Cursor) (step : Step) : Lawful c step (c.run step).1 (c.run step).2 := by
  rcases Nat.lt_or_ge c.remaining step.size with hlt | hle
  · rw [run_of_lt hlt]
    exact {
      ok_iff := ⟨nofun, fun hle => absurd hle (Nat.not_le.mpr hlt)⟩
      yields := fun hle => absurd hle (Nat.not_le.mpr hlt)
      fails := fun _ => ⟨rfl, rfl⟩
      checked_eq := fun hle => absurd hle (Nat.not_le.mpr hlt)
      number_lt := nofun }
  · have hchecked := run_checked hle
    rw [run_of_le hle] at hchecked ⊢
    exact {
      ok_iff := ⟨fun _ => hle, fun _ => ⟨step.value c, rfl⟩⟩
      yields := fun _ => ⟨rfl, rfl⟩
      fails := fun hlt => absurd hle (Nat.not_le.mpr hlt)
      checked_eq := fun _ => hchecked
      number_lt := fun width n hnumber hn => Step.number_lt hnumber (Except.ok.inj hn) }

end Operations

/-- The bytes that an operation accounts for; one that fails accounts for none. -/
def accountedBy (c : Cursor) (step : Step) : List UInt8 :=
  match (c.run step).1 with
  | .ok value => step.spelled c value
  | .error _ => []

/-- The bytes that the operations of a script account for, one after another. -/
def accounted : Cursor → List Step → List UInt8
  | _, [] => []
  | c, step :: steps => c.accountedBy step ++ accounted (c.run step).2 steps

/-- The cursor behind a script. -/
def reached : Cursor → List Step → Cursor
  | c, [] => c
  | c, step :: steps => reached (c.run step).2 steps

/-- One operation moves the cursor over the bytes that it accounts for. -/
theorem consumes_run (c : Cursor) (step : Step) : c.Consumes (c.accountedBy step) (c.run step).2 := by
  rw [accountedBy]
  rcases Nat.lt_or_ge c.remaining step.size with hlt | hle
  · rw [run_of_lt hlt]
    exact .refl c
  · rw [run_of_le hle]
    dsimp only
    rw [Step.spelled_value hle]
    exact consumes_advance (Nat.le_trans step.taken_le_size hle)

/-- A script moves the cursor over the bytes that its operations account for. -/
theorem consumes_reached (c : Cursor) (steps : List Step) :
    c.Consumes (c.accounted steps) (c.reached steps) := by
  induction steps generalizing c with
  | nil => exact .refl c
  | cons step steps ih => exact (consumes_run c step).trans (ih _)

theorem reached_concat (c : Cursor) (steps : List Step) (step : Step) :
    c.reached (steps ++ [step]) = ((c.reached steps).run step).2 := by
  induction steps generalizing c with
  | nil => rfl
  | cons first steps ih => exact ih _

theorem runAll_append (c : Cursor) (steps others : List Step) :
    runAll c (steps ++ others) = runAll c steps ++ runAll (c.reached steps) others := by
  induction steps generalizing c with
  | nil => rfl
  | cons step steps ih => exact congrArg (c.run step :: ·) (ih _)

/-- A cursor stands in `data` where the bytes `read` end. -/
structure Stands (data read : List UInt8) (c : Cursor) : Prop where
  position_le : c.position ≤ data.length
  position_add_remaining : c.position + c.remaining = data.length
  unread_eq : c.unread = data.drop c.position
  read_eq : read = data.take c.position

theorem stands_of_consumes {data read : List UInt8} (h : (start data).Consumes read c) :
    Stands data read c := by
  have hdata : data = read ++ c.unread := h.1
  have hposition : c.position = read.length := h.2.trans (Nat.zero_add _)
  have hlength : data.length = c.position + c.remaining := by
    rw [hdata, hposition, List.length_append, remaining]
  refine ⟨by omega, hlength.symm, ?_, ?_⟩
  · rw [hdata, hposition, List.drop_left]
  · rw [hdata, hposition, List.take_left]

/-- In a script read from the start, whatever came before, an operation obeys the law, and the cursor
stands, before it and after it, where the bytes end that were accounted for until then. -/
theorem runAll_lawful (data : List UInt8) (earlier later : List Step) (step : Step) :
    ∃ c outcome c',
      runAll (start data) (earlier ++ step :: later) =
        runAll (start data) earlier ++ (outcome, c') :: runAll c' later ∧
      Stands data (accounted (start data) earlier) c ∧
      Lawful c step outcome c' ∧
      Stands data (accounted (start data) (earlier ++ [step])) c' := by
  let c := (start data).reached earlier
  have hafter := consumes_reached (start data) (earlier ++ [step])
  rw [reached_concat] at hafter
  exact ⟨c, (c.run step).1, (c.run step).2, runAll_append (start data) earlier (step :: later),
    stands_of_consumes (consumes_reached _ _), lawful_run c step, stands_of_consumes hafter⟩

example : runAll (start [1, 2, 3, 4, 5]) [.skip 2, .numberUnchecked 4, .bytes 3, .atEnd, .number 1] =
    [(.ok .nothing, ⟨2, [3, 4, 5]⟩), (.error (.fault (.uncheckedRead 2)), ⟨2, [3, 4, 5]⟩),
      (.ok (.bytes [3, 4, 5]), ⟨5, []⟩), (.ok (.truth true), ⟨5, []⟩),
      (.error (.shortage ⟨5, 1, 0⟩), ⟨5, []⟩)] := by
  rfl

end ClassLoading.Cursor
