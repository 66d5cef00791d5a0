/-
Two sequences on the same blocks.

`ForkSequence` makes a child that shares the blocks of its parent, each with one more
reference, and `EnsureBlockWritable` is what a caller has to ask before it writes into a
block of a sequence: it answers with the block that may be written, which is a private
copy if the old one was shared.  Both are methods of the scheduler in
`runtime/scheduler.cpp` and `scheduler_queue.cpp`; a result of `-1` is `none`.

A run takes them in any order with the calls of a client, which may use the block
manager beside them.
-/
import DenseCore.Runtime.Protocol

namespace DenseCore

namespace BlockManager

variable {σ : Type}

/-- The loop of `ForkSequence`: a block that cannot be forked is left out. -/
def forkAll (m : BlockManager σ) : List Int → List Int × BlockManager σ
  | [] => ([], m)
  | b :: rest =>
    let forked := m.fork b
    let more := forkAll forked.2 rest
    (forked.1.toList ++ more.1, more.2)

end BlockManager

namespace Scheduler

variable {σ : Type}

variable (s : Scheduler σ)

/-- `seq_status_[parent]` and `seq_generated_tokens_[parent]` enter an unknown parent with
their default values. -/
def forkSequence (parentSeqId : Int) : Int × Scheduler σ :=
  let newSeqId := s.nextSeqId
  let status := (s.seqStatus parentSeqId).getD .waiting
  let generated := (s.seqGeneratedTokens parentSeqId).getD 0
  let forked := s.blockManager.forkAll ((s.seqBlockIds parentSeqId).getD [])
  (newSeqId, { s with
      blockManager := forked.2
      nextSeqId := s.nextSeqId + 1
      seqStatus := Function.update (Function.update s.seqStatus parentSeqId (some status))
        newSeqId (some status)
      seqBlockIds :=
        if (s.seqBlockIds parentSeqId).isSome then
          Function.update s.seqBlockIds newSeqId (some forked.1)
        else s.seqBlockIds
      seqPriority :=
        if (s.seqPriority parentSeqId).isSome then
          Function.update s.seqPriority newSeqId (s.seqPriority parentSeqId)
        else s.seqPriority
      seqArrival :=
        if (s.seqArrival parentSeqId).isSome then
          Function.update s.seqArrival newSeqId (s.seqArrival parentSeqId)
        else s.seqArrival
      seqGeneratedTokens :=
        Function.update (Function.update s.seqGeneratedTokens parentSeqId (some generated))
          newSeqId (some generated)
      seqContextLen := Function.update s.seqContextLen newSeqId
        (some (s.getSequenceContextLen parentSeqId)) })

/-- `blocks[block_index]`, behind the checks of the sequence and of the index. -/
def tableEntry (seqId blockIndex : Int) : Option Int :=
  match s.seqBlockIds seqId with
  | none => none
  | some blocks =>
    if blockIndex < 0 ∨ (blocks.length : Int) ≤ blockIndex then none
    else blocks[blockIndex.toNat]?

/-- `blocks[block_index] = block_id`. -/
def setTableEntry (seqId blockIndex b : Int) : Scheduler σ :=
  { s with
    seqBlockIds := Function.update s.seqBlockIds seqId
      ((s.seqBlockIds seqId).map fun blocks => blocks.set blockIndex.toNat b) }

/-- `EnsureBlockWritable` -/
def ensureBlockWritable (seqId blockIndex : Int) (c : AllocChoice) : Option Int × Scheduler σ :=
  match s.tableEntry seqId blockIndex with
  | none => (none, s)
  | some oldBlockId =>
    if s.blockManager.isShared oldBlockId then
      let copied := s.blockManager.copyOnWrite oldBlockId c
      let s₁ := { s with blockManager := copied.2 }
      match copied.1.1 with
      | none => (some oldBlockId, s₁)
      | some newBlockId =>
        if newBlockId ≠ oldBlockId then
          (some newBlockId, s₁.setTableEntry seqId blockIndex newBlockId)
        else (some oldBlockId, s₁)
    else (some oldBlockId, s)

end Scheduler

namespace Client

variable {σ : Type}

/-- A call of the client, or a fork of one of its sequences. -/
inductive SharingCall (σ : Type) where
  | client (call : Call σ)
  | forkSequence (parentSeqId : Int)
  | ensureBlockWritable (seqId blockIndex : Int) (c : AllocChoice)

/-- What such a call does. -/
def sharingStep (salt : UInt64) (c : Client σ) : SharingCall σ → Client σ
  | .client call => c.step salt call
  | .forkSequence parentSeqId => { c with sch := (c.sch.forkSequence parentSeqId).2 }
  | .ensureBlockWritable seqId blockIndex choice =>
    { c with sch := (c.sch.ensureBlockWritable seqId blockIndex choice).2 }

/-- Many calls, one after another. -/
def sharingRun (salt : UInt64) (c : Client σ) (calls : List (SharingCall σ)) : Client σ :=
  calls.foldl (sharingStep salt) c

end Client

end DenseCore
