import ClassLoading.Constant.Link
import ClassLoading.Proofs.Constant.Packing

/-!
# Programs of calls

The functions that use a pool, as programs of its calls: what a program does next depends on what the
pool has answered so far. A program can be run on a pool and on a packed pool, and ends alike on both.
Placing, linking and the checked lookups are such programs, so that all that is known of them on pools
carries over to packed pools.
-/

namespace ClassLoading

/-- A program of calls of a pool. -/
inductive PoolProgram (α : Type) : Type where
  | done (result : Except Failure α)
  | size (next : UInt16 → PoolProgram α)
  | get (index : UInt16) (getter : Getter) (next : getter.Value → PoolProgram α)
  | put (index : UInt16) (entry : Entry) (next : PoolProgram α)

/-- Why a program stopped on a packed pool. -/
inductive PackedFailure where
  | format (error : FormatError)
  | fault (fault : PackedFault)
deriving DecidableEq, Repr

def Failure.packed : Failure → PackedFailure
  | .format error => .format error
  | .fault cause => .fault (.slot cause)

namespace PoolProgram

variable {α β : Type}

protected def bind (program : PoolProgram α) (f : α → PoolProgram β) : PoolProgram β :=
  match program with
  | done (.ok x) => f x
  | done (.error failure) => done (.error failure)
  | size next => size fun slots => (next slots).bind f
  | get index getter next => get index getter fun value => (next value).bind f
  | put index entry next => put index entry (next.bind f)

instance : Monad PoolProgram where
  pure x := done (.ok x)
  bind := PoolProgram.bind

def ask (index : UInt16) (getter : Getter) : PoolProgram getter.Value :=
  get index getter fun value => pure value

def kindAt (index : UInt16) : PoolProgram ConstantKind := ask index .kind

def slots : PoolProgram UInt16 := size pure

def ofExcept (result : Except Failure α) : PoolProgram α := done result

/-- What a program comes to on a pool, and the pool as it is then. -/
def run : PoolProgram α → ConstantPool → Except Failure (α × ConstantPool)
  | done result, pool => result.map (·, pool)
  | size next, pool => (next pool.size).run pool
  | get index getter next, pool =>
      match pool.get index getter with
      | .ok value => (next value).run pool
      | .error fault => .error (.fault fault)
  | put index entry next, pool =>
      match pool.put index entry with
      | .ok pool' => next.run pool'
      | .error fault => .error (.fault fault)

/-- What a program comes to on a packed pool, and the pool as it is then. -/
def runPacked : PoolProgram α → PackedPool → Except PackedFailure (α × PackedPool)
  | done result, packed => (result.mapError Failure.packed).map (·, packed)
  | size next, packed => (next packed.size).runPacked packed
  | get index getter next, packed =>
      match packed.get index getter with
      | .ok value => (next value).runPacked packed
      | .error fault => .error (.fault fault)
  | put index entry next, packed =>
      match packed.put index entry with
      | (.ok (), packed') => next.runPacked packed'
      | (.error fault, _) => .error (.fault fault)

/-- A run on a packed pool has ended as a run on a pool did, with the same content of the slots. -/
inductive EndsAlike : Except Failure (α × ConstantPool) → Except PackedFailure (α × PackedPool) → Prop
  | ok (x : α) {pool : ConstantPool} {packed : PackedPool} (h : packed.Represents pool) :
      EndsAlike (.ok (x, pool)) (.ok (x, packed))
  | error (failure : Failure) : EndsAlike (.error failure) (.error failure.packed)

/-- A program that is run on a packed pool ends as it does on the pool that is packed. -/
theorem endsAlike_run {packed : PackedPool} {pool : ConstantPool} (h : packed.Represents pool)
    (program : PoolProgram α) : EndsAlike (program.run pool) (program.runPacked packed) := by
  induction program generalizing packed pool with
  | done result =>
      cases result with
      | ok x => exact .ok x h
      | error failure => exact .error failure
  | size next ih =>
      rw [run, runPacked, h.size_eq]
      exact ih pool.size h
  | get index getter next ih =>
      simp only [run, runPacked, h.get_eq]
      cases pool.get index getter with
      | ok value => exact ih value h
      | error fault => exact .error (.fault fault)
  | put index entry next ih =>
      rcases h.put index entry with ⟨pool', hput, hpacked, hrepresents⟩ | ⟨fault, hput, hpacked⟩
      · have hpair : packed.put index entry = (.ok (), (packed.put index entry).2) :=
          Prod.ext hpacked rfl
        simp only [run, hput]
        rw [runPacked, hpair]
        exact ih hrepresents
      · simp only [run, runPacked, hput, hpacked]
        exact .error (.fault fault)

theorem EndsAlike.exists_failure {result : Except Failure (α × ConstantPool)} {cause : PackedFailure}
    (h : EndsAlike result (.error cause)) : ∃ failure, result = .error failure ∧ failure.packed = cause := by
  cases h with
  | error failure => exact ⟨failure, rfl, rfl⟩

theorem EndsAlike.exists_represents {x : α} {pool : ConstantPool}
    {result : Except PackedFailure (α × PackedPool)} (h : EndsAlike (.ok (x, pool)) result) :
    ∃ packed, result = .ok (x, packed) ∧ packed.Represents pool := by
  cases h with
  | ok x hrepresents => exact ⟨_, rfl, hrepresents⟩

theorem EndsAlike.eq_error {failure : Failure} {result : Except PackedFailure (α × PackedPool)}
    (h : EndsAlike (.error failure) result) : result = .error failure.packed := by
  cases h with
  | error failure => rfl

/-- A program that is not at fault on a pool is not at fault on a packed pool either: no slot is found
to hold anything but what its kind says. -/
theorem runPacked_safe {packed : PackedPool} {pool : ConstantPool} (h : packed.Represents pool)
    {program : PoolProgram α} (hsafe : ∀ fault, program.run pool ≠ .error (.fault fault))
    (fault : PackedFault) : program.runPacked packed ≠ .error (.fault fault) := by
  intro hfault
  obtain ⟨failure, hrun, hfailure⟩ := (hfault ▸ endsAlike_run h program).exists_failure
  cases failure with
  | format error => cases hfailure
  | fault cause => exact hsafe cause hrun

theorem run_bind (program : PoolProgram α) (f : α → PoolProgram β) (pool : ConstantPool) :
    (program >>= f).run pool = (do
      let (x, pool') ← program.run pool
      (f x).run pool') := by
  change (program.bind f).run pool = _
  induction program generalizing pool with
  | done result => cases result <;> rfl
  | size next ih => exact ih pool.size pool
  | get index getter next ih =>
      rw [PoolProgram.bind, run, run]
      cases pool.get index getter with
      | ok value => exact ih value pool
      | error fault => rfl
  | put index entry next ih =>
      rw [PoolProgram.bind, run, run]
      cases pool.put index entry with
      | ok pool' => exact ih pool'
      | error fault => rfl

theorem run_slots (f : UInt16 → PoolProgram α) (pool : ConstantPool) :
    (slots >>= f).run pool = (f pool.size).run pool := rfl

/-- A program that leaves a pool as it is and finds out `result`. -/
def Finds (program : PoolProgram α) (pool : ConstantPool) (result : Except Failure α) : Prop :=
  program.run pool = result.map (·, pool)

namespace Finds

variable {pool : ConstantPool} {program : PoolProgram α} {result : Except Failure α}

protected theorem pure (x : α) : Finds (pure x) pool (pure x) := rfl

theorem safe (h : program.Finds pool result) (hsafe : ∀ fault, result ≠ .error (.fault fault))
    (fault : Fault) : program.run pool ≠ .error (.fault fault) := by
  intro hfault
  rw [h] at hfault
  cases result with
  | ok x => cases hfault
  | error failure => exact hsafe fault (congrArg _ (Except.error.inj hfault))

theorem bind {f : α → PoolProgram β} {g : α → Except Failure β} (h : program.Finds pool result)
    (hf : ∀ x, (f x).Finds pool (g x)) : (program >>= f).Finds pool (result >>= g) := by
  rw [Finds, run_bind, h]
  cases result with
  | error failure => rfl
  | ok x => exact hf x

theorem ofExcept (result : Except Failure α) : (ofExcept result).Finds pool result := rfl

theorem ask (index : UInt16) (getter : Getter) :
    (ask index getter).Finds pool ((pool.get index getter).mapError .fault) := by
  rw [Finds, PoolProgram.ask, run]
  cases pool.get index getter <;> rfl

theorem kindAt (index : UInt16) :
    (kindAt index).Finds pool ((pool.kindAt index).mapError .fault) := ask index .kind

theorem slots {f : UInt16 → PoolProgram α} (h : (f pool.size).Finds pool result) :
    (PoolProgram.slots >>= f).Finds pool result := h

theorem discard (h : program.Finds pool result) :
    (discard program).Finds pool (discard result) := by
  change Finds (program >>= fun _ => pure ()) pool _
  rw [Finds, run_bind, h]
  cases result <;> rfl

section Parts

variable {γ : Type} {index : UInt16} {second : Getter}

/-- A getter that yields the second part of an entry. -/
theorem askSecond {both : Except Fault (γ × second.Value)}
    (hsecond : pool.get index second = Prod.snd <$> both) {f : second.Value → PoolProgram β}
    {g : γ × second.Value → Except Failure β} (hf : ∀ x y, (f y).Finds pool (g (x, y))) :
    (PoolProgram.ask index second >>= f).Finds pool (both.mapError .fault >>= g) := by
  rw [Finds, run_bind, ask, hsecond]
  cases both with
  | error fault => rfl
  | ok pair => exact hf pair.1 pair.2

/-- Two getters that yield the parts of an entry. -/
theorem askBoth {first : Getter} {both : Except Fault (first.Value × second.Value)}
    (hfirst : pool.get index first = Prod.fst <$> both)
    (hsecond : pool.get index second = Prod.snd <$> both)
    {f : first.Value → second.Value → PoolProgram β}
    {g : first.Value × second.Value → Except Failure β} (hf : ∀ x y, (f x y).Finds pool (g (x, y))) :
    (do f (← PoolProgram.ask index first) (← PoolProgram.ask index second)).Finds pool
      (both.mapError .fault >>= g) := by
  rw [Finds, run_bind, ask, hfirst]
  cases both with
  | error fault => rfl
  | ok pair =>
      change Finds (PoolProgram.ask index second >>= f pair.1) pool (g pair)
      rw [Finds, run_bind, ask, hsecond]
      exact hf pair.1 pair.2

end Parts

end Finds

def requireKind (index : UInt16) (role : IndexRole) (expected : ConstantKind → Bool) :
    PoolProgram Unit := do
  if 0 < index && index < (← slots) then
    if expected (← kindAt index) then return ()
  ofExcept (.error (.format (.invalidIndex role index)))

/-- What a getter yields for a slot whose kind was checked before. -/
def lookup (index : UInt16) (role : IndexRole) (expected : ConstantKind → Bool) (getter : Getter) :
    PoolProgram getter.Value := do
  requireKind index role expected
  ask index getter

def utf8At (index : UInt16) (role : IndexRole) : PoolProgram Symbol :=
  lookup index role (· = .utf8) .symbol

def checkMember (owner typing : UInt16) : PoolProgram Unit := do
  requireKind owner .owner ConstantKind.isClassOrIndex
  requireKind typing .nameAndType (· = .nameAndType)

def checkNameAndType (settings : Link.Settings) (name descriptor : UInt16) : PoolProgram Unit := do
  discard (utf8At name .name)
  let symbol ← utf8At descriptor .descriptor
  if settings.options.validateDescriptors then
    unless Descriptor.isField symbol.chars || Descriptor.isMethod symbol.chars do
      ofExcept (Link.malformed (.descriptor symbol.text descriptor))

def checkMethodHandle (settings : Link.Settings) (index : UInt16) (number : UInt8)
    (reference : UInt16) : PoolProgram Unit := do
  match HandleKind.ofNumber? number with
  | none => ofExcept (Link.malformed (.handleKind number))
  | some kind =>
      unless 0 < reference && reference < (← slots) do
        ofExcept (.error (.format (.invalidIndex .reference reference)))
      let target ← kindAt reference
      unless kind.permits settings.major target do
        ofExcept (Link.malformed (.handleTarget index kind target))

def checkMethodType (settings : Link.Settings) (descriptor : UInt16) : PoolProgram Unit := do
  let symbol ← utf8At descriptor .descriptor
  if settings.options.validateDescriptors then
    unless Descriptor.isMethod symbol.chars do
      ofExcept (Link.malformed (.methodDescriptor symbol.text descriptor))

/-- Checks the entry of a slot, given its kind; the answer is what is to be written in its place, if
anything. -/
def checkEntry (settings : Link.Settings) (index : UInt16) : ConstantKind → PoolProgram (Option Entry)
  | .utf8 | .integer | .float | .long | .double => return none
  | .fieldRef | .methodRef | .interfaceMethodRef => do
      checkMember (← ask index .owner) (← ask index .memberTyping)
      return none
  | .nameAndType => do
      checkNameAndType settings (← ask index .name) (← ask index .descriptor)
      return none
  | .methodHandle => do
      checkMethodHandle settings index (← ask index .handleKind) (← ask index .handleReference)
      return none
  | .methodType => do
      checkMethodType settings (← ask index .methodType)
      return none
  | .invokeDynamic => do
      requireKind (← ask index .callTyping) .nameAndType (· = .nameAndType)
      return none
  | .classIndex => do
      return some (.classEntity (.unresolved (← utf8At (← ask index .classIndex) .className)))
  | .stringIndex => do
      return some (.string (← utf8At (← ask index .stringIndex) .string))
  | kind => ofExcept (.error (.fault (.linkedTooEarly kind index)))

def linkSlot (settings : Link.Settings) (index : UInt16) (kind : ConstantKind) : PoolProgram Unit := do
  match ← checkEntry settings index kind with
  | none => return ()
  | some linked => put index linked (return ())

/-- Links the slots from `index` on. -/
def linkFrom (settings : Link.Settings) (index : UInt16) : PoolProgram Unit := do
  if index < (← slots) then
    let kind ← kindAt index
    linkSlot settings index kind
    match h : slotAfter index kind.width with
    | .error fault => ofExcept (.error (.fault fault))
    | .ok next =>
        have := slotAfter_toNat h
        have := kind.width_pos
        linkFrom settings next
termination_by UInt16.size - index.toNat
decreasing_by
  have := next.toNat_lt
  simp only [UInt16.size] at *
  omega

/-- Writes constants into the slots from `index` on, their texts interned one after another. -/
def place : List RawConstant → UInt16 → SymbolTable → PoolProgram Unit
  | [], _, _ => return ()
  | constant :: constants, index, table =>
      put index (constant.toEntry table).1
        (match slotAfter index constant.width with
        | .error fault => ofExcept (.error (.fault fault))
        | .ok next => place constants next (constant.toEntry table).2)

/-- Places constants and links them. -/
def build (settings : Link.Settings) (constants : List RawConstant) (table : SymbolTable) :
    PoolProgram Unit := do
  place constants 1 table
  linkFrom settings 1

section Running

variable {pool : ConstantPool}

theorem requireKind_finds (index : UInt16) (role : IndexRole) (expected : ConstantKind → Bool) :
    (requireKind index role expected).Finds pool (pool.requireKind index role expected) := by
  unfold requireKind ConstantPool.requireKind
  apply Finds.slots
  change Finds (if pool.isValid index then _ else _) pool _
  split
  · refine (Finds.kindAt index).bind fun kind => ?_
    cases expected kind <;> rfl
  · rfl

theorem lookup_finds (index : UInt16) (role : IndexRole) (expected : ConstantKind → Bool)
    (getter : Getter) : (lookup index role expected getter).Finds pool (do
      pool.requireKind index role expected
      (pool.get index getter).mapError .fault) :=
  (requireKind_finds index role expected).bind fun () => Finds.ask index getter

theorem utf8At_finds (index : UInt16) (role : IndexRole) :
    (utf8At index role).Finds pool (pool.utf8At index role) :=
  lookup_finds index role (· = .utf8) .symbol

theorem checkMember_finds (owner typing : UInt16) :
    (checkMember owner typing).Finds pool (Link.checkMember pool owner typing) :=
  (requireKind_finds owner _ _).bind fun () => requireKind_finds typing _ _

theorem checkNameAndType_finds (settings : Link.Settings) (name descriptor : UInt16) :
    (checkNameAndType settings name descriptor).Finds pool
      (Link.checkNameAndType settings pool name descriptor) := by
  unfold checkNameAndType Link.checkNameAndType
  refine (utf8At_finds name .name).discard.bind fun () => ?_
  refine (utf8At_finds descriptor .descriptor).bind fun symbol => ?_
  split
  · split <;> rfl
  · rfl

theorem checkMethodHandle_finds (settings : Link.Settings) (index : UInt16) (number : UInt8)
    (reference : UInt16) : (checkMethodHandle settings index number reference).Finds pool
      (Link.checkMethodHandle settings pool index number reference) := by
  unfold checkMethodHandle Link.checkMethodHandle
  cases HandleKind.ofNumber? number with
  | none => rfl
  | some kind =>
      apply Finds.slots
      change Finds (if pool.isValid reference then _ else _) pool _
      dsimp only
      split
      · refine (Finds.kindAt reference).bind fun target => ?_
        split <;> rfl
      · rfl

theorem checkMethodType_finds (settings : Link.Settings) (descriptor : UInt16) :
    (checkMethodType settings descriptor).Finds pool
      (Link.checkMethodType settings pool descriptor) := by
  refine (utf8At_finds descriptor .descriptor).bind fun symbol => ?_
  split
  · split <;> rfl
  · rfl

theorem checkEntry_finds (settings : Link.Settings) (index : UInt16) (kind : ConstantKind) :
    (checkEntry settings index kind).Finds pool (Link.checkEntry settings pool index kind) := by
  cases kind with
  | utf8 | integer | float | long | double => exact Finds.pure none
  | fieldRef | methodRef | interfaceMethodRef =>
      exact Finds.askBoth rfl rfl fun owner typing =>
        (checkMember_finds owner typing).bind fun () => Finds.pure none
  | nameAndType =>
      exact Finds.askBoth rfl rfl fun name descriptor =>
        (checkNameAndType_finds settings name descriptor).bind fun () => Finds.pure none
  | methodHandle =>
      exact Finds.askBoth rfl rfl fun number reference =>
        (checkMethodHandle_finds settings index number reference).bind fun () => Finds.pure none
  | methodType =>
      exact (Finds.ask index .methodType).bind fun descriptor =>
        (checkMethodType_finds settings descriptor).bind fun () => Finds.pure none
  | invokeDynamic =>
      exact Finds.askSecond rfl fun _ typing =>
        (requireKind_finds typing .nameAndType _).bind fun () => Finds.pure none
  | classIndex =>
      exact (Finds.ask index .classIndex).bind fun name =>
        (utf8At_finds name .className).bind fun symbol => Finds.pure _
  | stringIndex =>
      exact (Finds.ask index .stringIndex).bind fun text =>
        (utf8At_finds text .string).bind fun symbol => Finds.pure _
  | _ => rfl

theorem run_linkSlot (settings : Link.Settings) (index : UInt16) (kind : ConstantKind) :
    (linkSlot settings index kind).run pool = (Link.linkSlot settings pool index kind).map ((), ·) := by
  rw [linkSlot, run_bind, checkEntry_finds, Link.linkSlot]
  cases Link.checkEntry settings pool index kind with
  | error failure => rfl
  | ok found =>
      cases found with
      | none => rfl
      | some linked =>
          change run (put index linked (return ())) pool = ((pool.put index linked).mapError .fault).map _
          rw [run]
          cases pool.put index linked <;> rfl

theorem run_linkFrom (settings : Link.Settings) (index : UInt16) (pool : ConstantPool) :
    (linkFrom settings index).run pool = (Link.linkFrom settings pool index).map ((), ·) := by
  induction index using slotAfter_induction generalizing pool with
  | slot index ih =>
      rw [linkFrom, run_slots]
      by_cases hindex : index < pool.size
      · rw [if_pos hindex, Link.linkFrom_of_lt settings hindex, run_bind, Finds.kindAt]
        cases pool.kindAt index with
        | error fault => rfl
        | ok kind =>
            change run (linkSlot settings index kind >>= _) pool = Except.map _ (do
              let pool' ← Link.linkSlot settings pool index kind
              let next ← (slotAfter index kind.width).mapError .fault
              Link.linkFrom settings pool' next)
            rw [run_bind, run_linkSlot]
            cases Link.linkSlot settings pool index kind with
            | error failure => rfl
            | ok pool' =>
                simp only [Except.map, bind, Except.bind]
                split
                · rename_i fault hafter
                  rw [hafter]
                  rfl
                · rename_i next hafter
                  rw [hafter]
                  exact ih kind next hafter pool'
      · rw [if_neg hindex, Link.linkFrom_of_le settings hindex]
        rfl

theorem run_place (constants : List RawConstant) (index : UInt16) (table : SymbolTable)
    (pool : ConstantPool) : (place constants index table).run pool =
      ((pool.place constants index table).1.mapError .fault).map ((), ·) := by
  induction constants generalizing index table pool with
  | nil => rfl
  | cons constant constants ih =>
      rw [place, run, ConstantPool.place]
      dsimp only
      cases pool.put index (constant.toEntry table).1 with
      | error fault => rfl
      | ok pool' =>
          dsimp only
          cases slotAfter index constant.width with
          | error fault => rfl
          | ok next => exact ih next _ pool'

theorem run_build {placed : ConstantPool} {constants : List RawConstant} {table after : SymbolTable}
    (settings : Link.Settings) (hplace : pool.place constants 1 table = (.ok placed, after)) :
    (build settings constants table).run pool = (placed.link settings).map ((), ·) := by
  rw [build, run_bind, run_place, hplace]
  exact run_linkFrom settings 1 placed

end Running

/-- A getter that is for the entries of all the kinds that are expected is never refused. -/
theorem lookup_safe {expected : ConstantKind → Bool} {getter : Getter}
    (haccepts : ∀ entry : Entry, expected entry.kind = true → (getter.pick entry).isSome = true)
    {packed : PackedPool} {pool : ConstantPool} (h : packed.Represents pool) (index : UInt16)
    (role : IndexRole) (fault : PackedFault) :
    (lookup index role expected getter).runPacked packed ≠ .error (.fault fault) := by
  refine runPacked_safe h (fun cause hcause => ?_) fault
  rw [lookup_finds, ConstantPool.requireKind_eq, ConstantPool.get_eq] at hcause
  cases hslot : pool.get? index with
  | none =>
      rw [hslot] at hcause
      cases hcause
  | some entry =>
      rw [hslot] at hcause
      by_cases hexpected : expected entry.kind = true
      · obtain ⟨value, hvalue⟩ := Option.isSome_iff_exists.mp (haccepts entry hexpected)
        simp only [Option.any_some, hexpected, if_true, Getter.read, hvalue] at hcause
        cases hcause
      · simp only [Option.any_some, hexpected] at hcause
        cases hcause

end PoolProgram

end ClassLoading
