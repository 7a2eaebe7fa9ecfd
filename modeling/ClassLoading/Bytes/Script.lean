import ClassLoading.Bytes.Cursor

/-!
# Reading scripts

A script is a list of cursor operations, carried out one after another. Each yields a value or says
why it failed, and a failed operation leaves the cursor where it was.
-/

namespace ClassLoading.Cursor

/-- One operation of a script; widths and sizes count bytes. -/
inductive Step where
  | number (width : Nat)
  | numberUnchecked (width : Nat)
  | bytes (size : Nat)
  | ensure (size : Nat)
  | skip (size : Nat)
  | skipUnchecked (size : Nat)
  | unread
  | atEnd
deriving DecidableEq, Repr

/-- What an operation yields. -/
inductive Value where
  | nothing
  | number (value : Nat)
  | bytes (value : List UInt8)
  | truth (value : Bool)
deriving DecidableEq, Repr

/-- Why an operation failed. -/
inductive StepFailure where
  | shortage (shortage : Shortage)
  | fault (fault : Fault)
deriving DecidableEq, Repr

/-- Keeps the cursor of a failed operation. -/
def settle {ε : Type} (c : Cursor) (failure : ε → StepFailure) :
    Except ε (Value × Cursor) → Except StepFailure Value × Cursor
  | .ok (value, c') => (.ok value, c')
  | .error e => (.error (failure e), c)

/-- Carries out one operation. -/
def run (c : Cursor) : Step → Except StepFailure Value × Cursor
  | .number width => c.settle .shortage ((c.number width).map fun (n, c') => (.number n, c'))
  | .numberUnchecked width =>
      c.settle .fault ((c.numberUnchecked width).map fun (n, c') => (.number n, c'))
  | .bytes size => c.settle .shortage ((c.bytes size).map fun (bs, c') => (.bytes bs, c'))
  | .ensure size => c.settle .shortage ((c.ensure size).map fun () => (.nothing, c))
  | .skip size => c.settle .shortage ((c.skip size).map fun c' => (.nothing, c'))
  | .skipUnchecked size => c.settle .fault ((c.skipUnchecked size).map fun c' => (.nothing, c'))
  | .unread => (.ok (.bytes c.unread), c)
  | .atEnd => (.ok (.truth c.atEnd), c)

/-- Carries out a script; each outcome comes with the cursor after it. -/
def runAll : Cursor → List Step → List (Except StepFailure Value × Cursor)
  | _, [] => []
  | c, step :: steps => c.run step :: runAll (c.run step).2 steps

end ClassLoading.Cursor
