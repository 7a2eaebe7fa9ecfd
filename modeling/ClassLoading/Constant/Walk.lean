import ClassLoading.Constant.Packed

/-!
# Walks over slots

How the entries of a pool are gone through in memory. A counter of 32 bits starts at the first slot and moves
behind the entry where it stands, until it has come to the size of the pool. The slot where it stands is
given by its low sixteen bits.
-/

namespace ClassLoading

namespace SlotWalk

/-- Where a walk starts. -/
def first : UInt32 := 1

/-- One step over slots whose kinds can be asked for: the slot where the counter stands, and the counter
behind the entry in it; nothing at the end. -/
def step {ε : Type} (size : UInt16) (kindAt : UInt16 → Except ε ConstantKind) (counter : UInt32) :
    Except ε (Option (UInt16 × UInt32)) :=
  if size.toUInt32 ≤ counter then .ok none
  else do
    let index := counter.toUInt16
    let kind ← kindAt index
    return some (index, counter + kind.width.toUInt32)

end SlotWalk

def ConstantPool.walkStep (pool : ConstantPool) : UInt32 → Except Fault (Option (UInt16 × UInt32)) :=
  SlotWalk.step pool.size pool.kindAt

def PackedPool.walkStep (pool : PackedPool) :
    UInt32 → Except PackedFault (Option (UInt16 × UInt32)) :=
  SlotWalk.step pool.size pool.kindAt

end ClassLoading
