/-
Copy-on-write by several threads at once.

`CopyOnWrite` holds the shard's lock twice, around the test of the reference
count and around the final decrement, and calls `AllocateSingle` in between,
which locks on its own.  Several holders of the same block can therefore be
anywhere between these sections at the same time.  Here each section is one step
of one holder; a schedule says whose turn it is, and `FreeSingle`, a single
section, is a step of a holder that gives its reference back instead.
-/
import DenseCore.Memory.BlockManager

namespace DenseCore.BlockManager

variable {σ : Type}

/-- Where a holder of a reference stands. -/
inductive Holder where
  /-- about to call `CopyOnWrite` -/
  | mayCopy
  /-- found the block shared, about to allocate -/
  | shared
  /-- has allocated a block of its own and copied into it -/
  | copied (newBlock : Int)
  /-- back from the call, `none` for `-1` -/
  | returned (blockId : Option Int)
  /-- about to call `FreeSingle` -/
  | mayFree
  | freed
deriving DecidableEq, Repr

/-- The manager and the holders of references to one block. -/
structure CowState (σ : Type) where
  manager : BlockManager σ
  holders : List Holder

/-- The first section: the bounds check and the reference count test. -/
def testShared (m : BlockManager σ) (b : Int) : Holder :=
  if ¬ m.InRange b then .returned none
  else if (m.blocks b).refCount ≤ 1 then .returned (some b)
  else .shared

/-- The allocation between the sections. -/
def allocateCopy (m : BlockManager σ) (c : AllocChoice) : Holder × BlockManager σ :=
  match m.allocateSingle c with
  | (none, m₁) => (.returned none, m₁)
  | (some b', m₁) => (.copied b', m₁)

/-- The last section, and the slot count that is copied behind it. -/
def dropSource (m : BlockManager σ) (b b' : Int) : BlockManager σ :=
  let m₁ := m.modifyBlock b fun k => { k with refCount := k.refCount - 1 }
  m₁.modifyBlock b' fun k => { k with numFilledSlots := (m₁.blocks b).numFilledSlots }

/-- One step of a holder of a reference to `b`. -/
def holderStep (b : Int) (m : BlockManager σ) (c : AllocChoice) : Holder → Holder × BlockManager σ
  | .mayCopy => (m.testShared b, m)
  | .shared => m.allocateCopy c
  | .copied b' => (.returned (some b'), m.dropSource b b')
  | .mayFree => (.freed, m.freeSingle b)
  | .returned id => (.returned id, m)
  | .freed => (.freed, m)

namespace CowState

/-- Holder `i` takes its turn. -/
def step (b : Int) (s : CowState σ) (turn : Nat × AllocChoice) : CowState σ :=
  match s.holders[turn.1]? with
  | none => s
  | some h =>
    { manager := (holderStep b s.manager turn.2 h).2
      holders := s.holders.set turn.1 (holderStep b s.manager turn.2 h).1 }

/-- The sections of several threads, in the order of a schedule. -/
def run (b : Int) (s : CowState σ) (schedule : List (Nat × AllocChoice)) : CowState σ :=
  schedule.foldl (step b) s

end CowState

/-- Back from the call. -/
def Holder.done : Holder → Bool
  | .returned _ => true
  | .freed => true
  | _ => false

end DenseCore.BlockManager
