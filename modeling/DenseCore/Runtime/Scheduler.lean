/-
The continuous-batching scheduler decides, once per iteration, which sequences
run: new prompts in chunks (prefill), running sequences one token each (decode),
and under memory pressure who gives up its blocks.

This file is the scheduler as `runtime/scheduler.cpp`, `scheduler_queue.cpp` and
`scheduler_policy.cpp` compute it, one function per method.  The maps keyed by
sequence id are functions to `Option`, the two hash sets are lists without
duplicates, and a group's `sequence_ids` is one id, since a group is only ever
created with one.  The manager the scheduler points to is one of its fields.

What the code leaves open is a parameter: the order in which a hash set is
visited and ties are sorted, the clock, and the choices of each allocation.  The
floating-point tests become functions of the integers they are made from: memory
usage against the two watermarks is a function of the used and the total block
count, and a request's hashed score against the strictness is a function of its
key.
-/
import DenseCore.Memory.BlockManager
import Mathlib.Data.List.Sort

namespace DenseCore

/-- `SequenceStatus` -/
inductive SequenceStatus where
  | waiting
  | running
  | swapped
  | finished
  | cancelled
  deriving DecidableEq, Repr

/-- Why an output is empty. -/
inductive SchedulerEmptyReason where
  | none
  | noFreeBlocks
  | prefillBudgetZero
  | contextBucketMismatch
  | maxNumSeqsReached
  | maxPrefillSeqsReached
  | moeBudgetDeferred
  | waitingSeqPresentButUnschedulable
  | runningSeqPresentButDecodeUnschedulable
  deriving DecidableEq, Repr

/-- Why a request can not be scheduled. -/
inductive SchedulerUnschedulableReason where
  | none
  | promptExceedsBatchBudget
  | requiredBlocksExceedCapacity
  deriving DecidableEq, Repr

/-- One request's place in the waiting queue. -/
structure SequenceGroup where
  requestId : Int
  sequenceId : Int
  priority : Int
  arrivalTime : Nat
  sharedPrefixLen : Int := 0
  sharedBlockIds : List Int := []
  numTokensToProcess : Int := 0
  maxPrefillChunkTokens : Int := -1
  alignInitialPrefillForPrefixSnapshot : Bool := false
  predictedExperts : List Int := []
  deriving DecidableEq, Repr

/-- The cached blocks of a sequence that is prefilled. -/
structure PrefixCacheInfo where
  seqId : Int
  cachedTokens : Int
  cachedBlockIds : List Int
  deriving DecidableEq, Repr

/-- The chunk of a sequence that is prefilled. -/
structure PrefillChunkInfo where
  seqId : Int := -1
  chunkTokens : Int := 0
  deriving DecidableEq, Repr

/-- `SchedulerOutput` -/
structure SchedulerOutput where
  prefillSeqIds : List Int := []
  decodeSeqIds : List Int := []
  preemptedSeqIds : List Int := []
  swapInSeqIds : List Int := []
  newBlockAllocations : List (Int × List Int) := []
  freedBlocks : List (Int × List Int) := []
  prefixCacheHits : List PrefixCacheInfo := []
  prefillChunkInfo : List PrefillChunkInfo := []
  totalTokens : Int := 0
  numPrefillTokens : Int := 0
  numDecodeTokens : Int := 0
  batchContextLen : Int := -1
  emptyReason : SchedulerEmptyReason := .none
  unschedulableReason : SchedulerUnschedulableReason := .none
  diagnosticSeqId : Int := -1
  deriving DecidableEq, Repr

namespace SchedulerOutput

def isEmpty (o : SchedulerOutput) : Bool := o.prefillSeqIds.isEmpty && o.decodeSeqIds.isEmpty

/-- How many sequences the output lists. -/
def scheduledSeqCount (o : SchedulerOutput) : Nat :=
  o.prefillSeqIds.length + o.decodeSeqIds.length

end SchedulerOutput

/-- `moe_batch_strictness` clamped to the unit interval; strictly inside it, what
counts is on which requests the hashed score falls below it. -/
inductive MoeStrictness where
  | fifo
  | strict
  | graded (scoreBelow : Int → Bool)

/-- `SchedulerConfig` -/
structure SchedulerConfig where
  maxNumSeqs : Int := 256
  maxNumBatchedTokens : Int := 2048
  enablePriority : Bool := true
  /-- `GetMemoryUsage() > watermark_high`, of the used and the total block count. -/
  aboveWatermarkHigh : Int → Int → Bool := fun used total => decide (10 * used > 9 * total)
  /-- `GetMemoryUsage() <= watermark_low`. -/
  withinWatermarkLow : Int → Int → Bool := fun used total => decide (10 * used ≤ 8 * total)
  enableChunkedPrefill : Bool := true
  maxPrefillTokens : Int := 2048
  maxPrefillSeqs : Int := 256
  maxParallelPrefillChunkTokens : Int := 128
  enableMixedPrefillDecode : Bool := false
  maxMixedPrefillTokens : Int := 128
  enforceHomogeneousBatchNPast : Bool := true
  decodeHomogeneousBatchNPast : Bool := false
  isolatePrefillDecode : Bool := true
  maxConsecutiveDecodeBatches : Int := 8
  fillSlotsBeforeFirstDecode : Bool := false
  enableMoeClustering : Bool := false
  maxActiveExperts : Int := 8
  moeBatchStrictness : MoeStrictness := .fifo

/-- An order in which a hash set may be visited and ties may be sorted. -/
structure Arrangement where
  arrange : {α : Type} → List α → List α
  perm : ∀ {α : Type} (l : List α), (arrange l).Perm l

/-- The queue is left in its order. -/
def Arrangement.asStored : Arrangement where
  arrange := id
  perm := fun _ => List.Perm.refl _

/-- `std::sort` by a strict comparison: sorted, with ties in any order. -/
def Arrangement.sort {α : Type} (a : Arrangement) (lt : α → α → Bool) (l : List α) : List α :=
  (a.arrange l).insertionSort fun x y => lt y x = false

/-- Everything one call of `Schedule` may find or draw. -/
structure ScheduleChoice where
  now : Nat := 0
  arrangement : Arrangement := Arrangement.asStored
  allocSwapped : Int → AllocChoice := fun _ => {}
  allocWaiting : Int → AllocChoice := fun _ => {}
  allocFallback : Int → AllocChoice := fun _ => {}

/-- `static_cast<size_t>(n)`. -/
def asSize (n : Int) : Nat := (n % 2 ^ 64).toNat

def intMax : Int := 2 ^ 31 - 1

/-- `SequenceBlockTable::BlocksNeeded`. -/
def blocksNeeded (nTokens : Int) : Int := (nTokens + blockSlots - 1).tdiv blockSlots

/-- `Scheduler`, with its maps as functions. -/
structure Scheduler (σ : Type) where
  blockManager : BlockManager σ
  config : SchedulerConfig
  waitingQueue : List SequenceGroup := []
  runningSeqs : List Int := []
  swappedSeqs : List Int := []
  seqStatus : Int → Option SequenceStatus := fun _ => none
  nextSeqId : Int := 1
  seqGeneratedTokens : Int → Option Int := fun _ => none
  seqContextLen : Int → Option Int := fun _ => none
  seqPriority : Int → Option Int := fun _ => none
  seqArrival : Int → Option Nat := fun _ => none
  seqPromptLen : Int → Option Int := fun _ => none
  seqAllowChunkedPrefill : Int → Option Bool := fun _ => none
  consecutiveDecodeBatches : Int := 0
  seqBlockIds : Int → Option (List Int) := fun _ => none
  seqPredictedExperts : Int → Option (List Int) := fun _ => none
  lastEmptyReason : SchedulerEmptyReason := .none
  lastUnschedulableReason : SchedulerUnschedulableReason := .none

namespace Scheduler

variable {σ : Type}

/-- The constructor, with the caps it puts on the configuration. -/
def init (bm : BlockManager σ) (config : SchedulerConfig) : Scheduler σ :=
  let maxPrefillTokens := min config.maxPrefillTokens (max 1 config.maxNumBatchedTokens)
  { blockManager := bm
    config :=
      { config with
        maxPrefillTokens := maxPrefillTokens
        maxPrefillSeqs := min config.maxPrefillSeqs (max 1 config.maxNumSeqs)
        maxParallelPrefillChunkTokens :=
          min config.maxParallelPrefillChunkTokens maxPrefillTokens } }

/-! ### What the scheduler remembers of a sequence -/

variable (s : Scheduler σ)

def getSequencePriority (seqId : Int) : Int := (s.seqPriority seqId).getD 100

def getSequenceProgress (seqId : Int) : Int :=
  (s.seqGeneratedTokens seqId).getD 0

def getSequenceContextLen (seqId : Int) : Int := (s.seqContextLen seqId).getD 0

/-- A sequence without a recorded arrival has just arrived. -/
def getSequenceArrival (now : Nat) (seqId : Int) : Nat :=
  (s.seqArrival seqId).getD now

def setStatus (seqId : Int) (status : SequenceStatus) : Scheduler σ :=
  { s with seqStatus := Function.update s.seqStatus seqId (some status) }

/-- Enter the running set. -/
def markRunning (seqId : Int) : Scheduler σ :=
  { s.setStatus seqId .running with runningSeqs := s.runningSeqs.insert seqId }

/-- Tokens are added to a sequence's context. -/
def advanceContext (seqId tokens : Int) : Scheduler σ :=
  { s with
    seqContextLen := Function.update s.seqContextLen seqId
      (some (s.getSequenceContextLen seqId + tokens)) }

/-! ### Requests -/

/-- `AddRequest` -/
def addRequest (salt : UInt64) (now : Nat) (requestId promptLen priority : Int)
    (prefixTokens : Option (List Int32)) (allowChunkedPrefill requireSnapshot : Bool)
    (maxPrefillChunkTokens : Int) (validator : Option (List σ → Bool)) :
    Option Int × Scheduler σ :=
  if allowChunkedPrefill = false ∧ promptLen > s.config.maxNumBatchedTokens then (none, s)
  else
    let seqId := s.nextSeqId
    let hasPrefix := prefixTokens.any fun ts => !ts.isEmpty
    let found :=
      if hasPrefix then
        s.blockManager.findLongestCachedPrefixWithVerification salt prefixTokens promptLen
          requireSnapshot validator
      else ({}, s.blockManager)
    let group : SequenceGroup :=
      { requestId := requestId
        sequenceId := seqId
        priority := priority
        arrivalTime := now
        numTokensToProcess := promptLen
        maxPrefillChunkTokens := if maxPrefillChunkTokens > 0 then maxPrefillChunkTokens else -1
        alignInitialPrefillForPrefixSnapshot :=
          allowChunkedPrefill && requireSnapshot && hasPrefix }
    let group :=
      if found.1.cachedTokens > 0 ∧ found.1.cachedBlockIds ≠ [] then
        { group with
          sharedPrefixLen := found.1.cachedTokens
          sharedBlockIds := found.1.cachedBlockIds
          numTokensToProcess := max 0 (promptLen - found.1.cachedTokens) }
      else group
    (some seqId, { s with
        blockManager := found.2
        nextSeqId := s.nextSeqId + 1
        waitingQueue := s.waitingQueue ++ [group]
        seqStatus := Function.update s.seqStatus seqId (some .waiting)
        seqPriority := Function.update s.seqPriority seqId (some priority)
        seqArrival := Function.update s.seqArrival seqId (some now)
        seqGeneratedTokens := Function.update s.seqGeneratedTokens seqId (some 0)
        seqContextLen := Function.update s.seqContextLen seqId (some group.sharedPrefixLen)
        seqPromptLen := Function.update s.seqPromptLen seqId (some promptLen)
        seqAllowChunkedPrefill :=
          Function.update s.seqAllowChunkedPrefill seqId (some allowChunkedPrefill) })

/-- `CleanupSequenceState`; freeing is skipped when the table is absent or empty. -/
def cleanupSequenceState (seqId : Int) (eraseFromWaitingQueue : Bool)
    (freeBlockManagerBlocks : Bool) : Scheduler σ :=
  { s with
    blockManager :=
      if freeBlockManagerBlocks then s.blockManager.free ((s.seqBlockIds seqId).getD [])
      else s.blockManager
    waitingQueue :=
      if eraseFromWaitingQueue then s.waitingQueue.filter fun g => g.sequenceId ≠ seqId
      else s.waitingQueue
    runningSeqs := s.runningSeqs.filter fun x => x ≠ seqId
    swappedSeqs := s.swappedSeqs.filter fun x => x ≠ seqId
    seqPriority := Function.update s.seqPriority seqId none
    seqArrival := Function.update s.seqArrival seqId none
    seqGeneratedTokens := Function.update s.seqGeneratedTokens seqId none
    seqContextLen := Function.update s.seqContextLen seqId none
    seqPromptLen := Function.update s.seqPromptLen seqId none
    seqAllowChunkedPrefill := Function.update s.seqAllowChunkedPrefill seqId none
    seqPredictedExperts := Function.update s.seqPredictedExperts seqId none
    seqBlockIds := Function.update s.seqBlockIds seqId none }

/-- `RemoveRequest` -/
def removeRequest (seqId : Int) (finished : Bool) : Scheduler σ :=
  let s₁ :=
    if (s.seqStatus seqId).isSome then
      s.setStatus seqId (if finished then .finished else .cancelled)
    else s
  s₁.cleanupSequenceState seqId true false

/-! ### Progress -/

/-- `FindWaitingGroupLocked`, as far as its callers look: what is left to prefill. -/
def waitingRemaining (seqId : Int) : Option Int :=
  (s.waitingQueue.find? fun g => g.sequenceId = seqId).map (·.numTokensToProcess)

/-- Write the first waiting group of a sequence. -/
def modifyWaiting (seqId : Int) (f : SequenceGroup → SequenceGroup) :
    List SequenceGroup → List SequenceGroup
  | [] => []
  | g :: rest => if g.sequenceId = seqId then f g :: rest else g :: modifyWaiting seqId f rest

/-- `OnPrefillChunkComplete` -/
def onPrefillChunkComplete (seqId tokensProcessed : Int) (prefillFinished : Bool) : Scheduler σ :=
  if seqId < 0 ∨ tokensProcessed ≤ 0 then s
  else
    let s₁ := s.advanceContext seqId tokensProcessed
    match s₁.waitingRemaining seqId with
    | none => if prefillFinished then s₁.markRunning seqId else s₁
    | some remaining =>
      let left := max 0 (remaining - tokensProcessed)
      if prefillFinished ∨ left = 0 then
        { s₁ with
          waitingQueue := s₁.waitingQueue.filter fun g => g.sequenceId ≠ seqId }.markRunning seqId
      else
        { s₁ with
          waitingQueue := modifyWaiting seqId (fun g => { g with numTokensToProcess := left })
            s₁.waitingQueue }.setStatus seqId .waiting

/-- `OnDecodeStepComplete` -/
def onDecodeStepComplete (seqId tokensProcessed : Int) : Scheduler σ :=
  if seqId < 0 ∨ tokensProcessed ≤ 0 then s
  else
    let s₁ := (s.markRunning seqId).advanceContext seqId tokensProcessed
    { s₁ with
      seqGeneratedTokens := Function.update s.seqGeneratedTokens seqId
        (some (s.getSequenceProgress seqId + tokensProcessed)) }

/-- A report that leaves it to the scheduler whether the sequence still prefills. -/
def updateProgress (seqId tokensGenerated : Int) : Scheduler σ :=
  if tokensGenerated ≤ 0 then s
  else
    match s.waitingRemaining seqId with
    | some remaining =>
      s.onPrefillChunkComplete seqId tokensGenerated (decide (remaining ≤ tokensGenerated))
    | none => s.onDecodeStepComplete seqId tokensGenerated

/-- `UpdateProgressBatch` -/
def updateProgressBatch (progressUpdates : List (Int × Int)) : Scheduler σ :=
  progressUpdates.foldl
    (fun (s : Scheduler σ) (update : Int × Int) =>
      if update.1 < 0 ∨ update.2 ≤ 0 then s
      else
        match s.waitingRemaining update.1 with
        | some remaining =>
          s.onPrefillChunkComplete update.1 update.2 (decide (remaining ≤ update.2))
        | none => s.onDecodeStepComplete update.1 update.2) s

def setPredictedExperts (seqId : Int) (experts : List Int) : Scheduler σ :=
  if s.seqPredictedExperts seqId = some experts then s
  else
    { s with
      seqPredictedExperts := Function.update s.seqPredictedExperts seqId (some experts)
      waitingQueue := modifyWaiting seqId (fun g => { g with predictedExperts := experts })
        s.waitingQueue }

end Scheduler

end DenseCore
