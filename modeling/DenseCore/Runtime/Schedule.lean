/-
One call of `Scheduler::Schedule`: preemption, swap-in, then prefill and decode
passes over one shared output.

The passes are loops that carry several variables, so each loop has a record of
what it carries and a function for its body.  A body's `continue` is the value
the body returns early; `break` in the swap-in loop is a body that does nothing
once the slots are used up.
-/
import DenseCore.Runtime.Scheduler

namespace DenseCore

open Function (update)

/-! ### Expert locality -/

/-- How many of the experts are active already. -/
def countExpertOverlap (experts activeExperts : List Int) : Int :=
  (experts.filter fun e => e ∈ activeExperts).length

/-- How many of the experts are not active yet. -/
def countNewExperts (experts activeExperts : List Int) : Int :=
  (experts.filter fun e => e ∉ activeExperts).length

/-- The experts of a request would exceed the budget. -/
def shouldDeferForMoEBudget (requestKey : Int) (experts activeExperts : List Int)
    (config : SchedulerConfig) : Bool :=
  if config.enableMoeClustering = false ∨ experts = [] then false
  else if activeExperts = [] then false
  else if activeExperts.length + countNewExperts experts activeExperts ≤ config.maxActiveExperts then
    false
  else
    match config.moeBatchStrictness with
    | .fifo => false
    | .strict => true
    | .graded scoreBelow => scoreBelow requestKey

/-- What the selection loops compare. -/
structure ExpertFit where
  priority : Int
  overlap : Int
  newExperts : Int
  expertCount : Int
  arrival : Nat

/-- `better`, against the best candidate so far. -/
def ExpertFit.betterThan (activeExperts : List Int) (c best : ExpertFit) : Bool :=
  if c.priority < best.priority then true
  else if c.priority = best.priority then
    if activeExperts ≠ [] ∧ c.overlap ≠ best.overlap then decide (c.overlap > best.overlap)
    else if activeExperts ≠ [] ∧ c.newExperts ≠ best.newExperts then
      decide (c.newExperts < best.newExperts)
    else if activeExperts ≠ [] ∧ c.expertCount ≠ best.expertCount then
      decide (c.expertCount < best.expertCount)
    else decide (c.arrival < best.arrival)
  else false

def addExperts (activeExperts experts : List Int) : List Int :=
  experts.foldl (fun active e => active.insert e) activeExperts

def SequenceGroup.fit (group : SequenceGroup) (activeExperts : List Int) : ExpertFit :=
  { priority := group.priority
    overlap := countExpertOverlap group.predictedExperts activeExperts
    newExperts := countNewExperts group.predictedExperts activeExperts
    expertCount := group.predictedExperts.length
    arrival := group.arrivalTime }

/-- The inner loop of the clustering: the first pending group, unless a better one
follows. -/
def pickClustered (activeExperts : List Int) (first : SequenceGroup)
    (pending : List SequenceGroup) : SequenceGroup :=
  (pending.foldl (fun (best : SequenceGroup × ExpertFit) group =>
      if (group.fit activeExperts).betterThan activeExperts best.2 then
        (group, group.fit activeExperts)
      else best)
    (first,
      { priority := first.priority
        overlap := -1
        newExperts := intMax
        expertCount := intMax
        arrival := first.arrivalTime })).1

/-- The outer loop, which empties `pending` one group at a time. -/
def clusterPending : Nat → List Int → List SequenceGroup → List SequenceGroup
  | 0, _, pending => pending
  | _ + 1, _, [] => []
  | n + 1, activeExperts, first :: rest =>
    let best := pickClustered activeExperts first (first :: rest)
    best :: clusterPending n (addExperts activeExperts best.predictedExperts)
      ((first :: rest).erase best)

/-- `shared_prefix_len > 0 && !shared_block_ids.empty()`. -/
def SequenceGroup.HasHit (group : SequenceGroup) : Prop :=
  0 < group.sharedPrefixLen ∧ group.sharedBlockIds ≠ []

instance (group : SequenceGroup) : Decidable group.HasHit := inferInstanceAs (Decidable (_ ∧ _))

namespace Scheduler

variable {σ : Type}

/-! ### Preemption and swap-in -/

variable (s : Scheduler σ)

/-- The comparison by which the id lists are sorted. -/
def runsBefore (now : Nat) (a b : Int) : Bool :=
  if s.getSequencePriority a ≠ s.getSequencePriority b then
    decide (s.getSequencePriority a < s.getSequencePriority b)
  else decide (s.getSequenceArrival now a < s.getSequenceArrival now b)

/-- The best victim so far. -/
structure PreemptionVictim where
  victim : Int := -1
  priority : Int := -1
  progress : Int := intMax
  arrival : Nat := 0

/-- A running sequence is compared with the best victim so far. -/
def considerVictim (now : Nat) (best : PreemptionVictim) (seqId : Int) :
    PreemptionVictim :=
  let priority := s.getSequencePriority seqId
  let progress := s.getSequenceProgress seqId
  let arrival := s.getSequenceArrival now seqId
  let byProgress : Bool :=
    decide (progress < best.progress) || (decide (progress = best.progress) &&
        (decide (best.victim < 0) || decide (arrival > best.arrival)))
  let isBetterVictim : Bool :=
    if s.config.enablePriority then
      decide (priority > best.priority) || (decide (priority = best.priority) && byProgress)
    else byProgress
  if isBetterVictim then ⟨seqId, priority, progress, arrival⟩ else best

def selectPreemptionVictim (choice : ScheduleChoice) : Int :=
  ((choice.arrangement.arrange s.runningSeqs).foldl (s.considerVictim choice.now) {}).victim

/-- The blocks that are not free. -/
def usedBlocks : Int :=
  s.blockManager.numBlocks - s.blockManager.getFreeBlockCount

/-- One victim is swapped out when memory runs short. -/
def preemptSequences (choice : ScheduleChoice) (output : SchedulerOutput) :
    Scheduler σ × SchedulerOutput :=
  if s.config.withinWatermarkLow s.usedBlocks s.blockManager.numBlocks ∨ s.runningSeqs = [] then
    (s, output)
  else
    let victim := s.selectPreemptionVictim choice
    if victim < 0 then (s, output)
    else
      ({ s.setStatus victim .swapped with
          runningSeqs := s.runningSeqs.filter fun x => x ≠ victim
          swappedSeqs := s.swappedSeqs.insert victim
          seqBlockIds := update s.seqBlockIds victim none },
        { output with preemptedSeqIds := output.preemptedSeqIds ++ [victim] })

/-- The loop variables of the swap-in. -/
structure SwapInPass (σ : Type) where
  sch : Scheduler σ
  output : SchedulerOutput
  availableSlots : Int

/-- The blocks a swapped sequence needs for its prompt and what it has generated. -/
def swapInBlocks (seqId : Int) : Int :=
  let totalTokens := (s.seqPromptLen seqId).getD 0 + s.getSequenceProgress seqId
  blocksNeeded (if totalTokens ≤ 0 then 1 else totalTokens)

/-- The sequence runs again, on new blocks. -/
def SwapInPass.takeIn (p : SwapInPass σ) (seqId : Int) (newBlocks : List Int) : SwapInPass σ :=
  { sch :=
      { p.sch.markRunning seqId with
        seqBlockIds := update p.sch.seqBlockIds seqId (some newBlocks)
        swappedSeqs := p.sch.swappedSeqs.filter fun x => x ≠ seqId }
    output :=
      { p.output with
        swapInSeqIds := p.output.swapInSeqIds ++ [seqId]
        newBlockAllocations := p.output.newBlockAllocations ++ [(seqId, newBlocks)] }
    availableSlots := p.availableSlots - 1 }

/-- One swapped sequence, while nothing has stopped the loop. -/
def swapInOne (choice : ScheduleChoice) (p : SwapInPass σ) (seqId : Int) : SwapInPass σ :=
  if p.availableSlots ≤ 0 then p
  else if p.sch.blockManager.getFreeBlockCount < p.sch.swapInBlocks seqId then p
  else
    let newBlocks := p.sch.blockManager.allocate (p.sch.swapInBlocks seqId) (choice.allocSwapped seqId)
    let p₁ := { p with sch := { p.sch with blockManager := newBlocks.2 } }
    if newBlocks.1 = [] then p₁ else p₁.takeIn seqId newBlocks.1

/-- `ScheduleSwapped` -/
def scheduleSwapped (choice : ScheduleChoice) (output : SchedulerOutput) :
    Scheduler σ × SchedulerOutput :=
  if s.swappedSeqs = [] then (s, output)
  else
    let slots := s.config.maxNumSeqs - s.runningSeqs.length
    if slots ≤ 0 then (s, output)
    else
      let ids := choice.arrangement.sort (s.runsBefore choice.now)
        (choice.arrangement.arrange s.swappedSeqs)
      let p := ids.foldl (swapInOne choice) ⟨s, output, slots⟩
      (p.sch, p.output)

/-! ### Decode -/

/-- The loop variables of `ScheduleRunning`; `unscheduled` are the ids not yet
marked, in the order of `running_ids`. -/
structure RunningPass where
  output : SchedulerOutput
  tokensBudget : Int
  activeExperts : List Int
  targetContextLen : Int
  unscheduled : List Int

/-- How a sequence's experts fit the active ones. -/
def seqFit (now : Nat) (activeExperts : List Int) (seqId : Int) : ExpertFit :=
  let experts := (s.seqPredictedExperts seqId).getD []
  { priority := s.getSequencePriority seqId
    overlap := countExpertOverlap experts activeExperts
    newExperts := countNewExperts experts activeExperts
    expertCount := experts.length
    arrival := s.getSequenceArrival now seqId }

/-- Is the candidate in the context bucket the batch has settled on? -/
def inContextBucket (p : RunningPass) (seqId : Int) : Bool :=
  !(s.config.decodeHomogeneousBatchNPast && decide (0 ≤ p.targetContextLen) &&
    decide (s.getSequenceContextLen seqId ≠ p.targetContextLen))

/-- The experts of the sequence do not fit. -/
def deferredForExperts (p : RunningPass) (seqId : Int) : Bool :=
  match s.seqPredictedExperts seqId with
  | none => false
  | some experts => shouldDeferForMoEBudget seqId experts p.activeExperts s.config

/-- The scan over the candidates: the best one that is not deferred. -/
def bestRunning (now : Nat) (p : RunningPass) : Option (Int × ExpertFit) :=
  p.unscheduled.foldl
    (fun best seqId =>
      if s.inContextBucket p seqId && !s.deferredForExperts p seqId then
        match best with
        | none => some (seqId, s.seqFit now p.activeExperts seqId)
        | some b =>
          if (s.seqFit now p.activeExperts seqId).betterThan p.activeExperts b.2 then
            some (seqId, s.seqFit now p.activeExperts seqId)
          else some b
      else best) none

/-- The candidate of one round, with the fallback of an empty batch. -/
def pickRunning (now : Nat) (p : RunningPass) : Option Int :=
  match s.bestRunning now p with
  | some (seqId, _) => some seqId
  | none =>
    if p.output.decodeSeqIds = [] then p.unscheduled.find? (s.inContextBucket p) else none

/-- `while (true)`: a round marks one more id, so the ids bound the rounds. -/
def runningRounds (s : Scheduler σ) (now : Nat) : Nat → RunningPass → RunningPass
  | 0, p => p
  | n + 1, p =>
    match s.pickRunning now p with
    | none => p
    | some seqId =>
      if p.output.scheduledSeqCount ≥ asSize s.config.maxNumSeqs ∨ p.tokensBudget ≤ 0 then p
      else
        let target :=
          if p.targetContextLen < 0 then s.getSequenceContextLen seqId else p.targetContextLen
        runningRounds s now n
          { output :=
              { p.output with
                decodeSeqIds := p.output.decodeSeqIds ++ [seqId]
                numDecodeTokens := p.output.numDecodeTokens + 1
                totalTokens := p.output.totalTokens + 1
                batchContextLen := target }
            tokensBudget := p.tokensBudget - 1
            activeExperts :=
              addExperts p.activeExperts ((s.seqPredictedExperts seqId).getD [])
            targetContextLen := target
            unscheduled := p.unscheduled.erase seqId }

/-- Nothing can be decoded although something runs. -/
def noteUndecodable (output : SchedulerOutput) : SchedulerOutput :=
  if output.emptyReason = .none ∧ s.runningSeqs ≠ [] then
    { output with emptyReason := .runningSeqPresentButDecodeUnschedulable }
  else output

/-- `ScheduleRunning` -/
def scheduleRunning (choice : ScheduleChoice) (output : SchedulerOutput) :
    SchedulerOutput :=
  let budget := s.config.maxNumBatchedTokens - output.totalTokens
  if budget ≤ 0 then s.noteUndecodable output
  else
    let ids := choice.arrangement.sort (s.runsBefore choice.now)
      (choice.arrangement.arrange s.runningSeqs)
    let p := s.runningRounds choice.now ids.length ⟨output, budget, [], -1, ids⟩
    if p.output.decodeSeqIds = [] then s.noteUndecodable p.output else p.output

/-! ### Prefill -/

/-- The prompt may be cut into chunks. -/
def canChunk (seqId : Int) : Bool :=
  s.config.enableChunkedPrefill && (s.seqAllowChunkedPrefill seqId).getD true

/-- The loop variables of `ScheduleWaiting`. -/
structure WaitingPass (σ : Type) where
  sch : Scheduler σ
  output : SchedulerOutput
  tokensBudget : Int
  prefillTokenCap : Int
  blockedReason : SchedulerEmptyReason := .none
  unschedulableReason : SchedulerUnschedulableReason := .none
  diagnosticSeqId : Int := -1
  stillWaiting : List SequenceGroup := []
  activeExperts : List Int := []
  targetContextLen : Int

namespace WaitingPass

variable (p : WaitingPass σ)

/-- The group goes back to the queue. -/
def keep (group : SequenceGroup) : WaitingPass σ :=
  { p with stillWaiting := p.stillWaiting ++ [group] }

/-- The group stays in the queue; the first reason for that is remembered. -/
def block (reason : SchedulerEmptyReason) (group : SequenceGroup) : WaitingPass σ :=
  (if p.blockedReason = .none then
    { p with blockedReason := reason, diagnosticSeqId := group.sequenceId }
  else p).keep group

/-- The group can never be scheduled; the first such group is remembered. -/
def reject (reason : SchedulerUnschedulableReason) (group : SequenceGroup) : WaitingPass σ :=
  if p.unschedulableReason = .none then
    { p with unschedulableReason := reason, diagnosticSeqId := group.sequenceId }
  else p

/-- The tokens that a group may have of what is left. -/
def prefillBudget (queueLen : Nat) (group : SequenceGroup) : Int :=
  let config := p.sch.config
  let budget :=
    if 0 ≤ p.prefillTokenCap then min p.tokensBudget p.prefillTokenCap else p.tokensBudget
  if p.sch.canChunk group.sequenceId then
    let capped := min budget config.maxPrefillTokens
    let pressure := config.maxPrefillSeqs > 1 ∧ (queueLen > 1 ∨ p.output.prefillSeqIds ≠ [])
    let shared := if pressure then min capped config.maxParallelPrefillChunkTokens else capped
    if group.maxPrefillChunkTokens > 0 then min shared group.maxPrefillChunkTokens else shared
  else budget

/-- The size of the chunk; the first one may be trimmed to whole blocks. -/
def tokensNeeded (queueLen : Nat) (group : SequenceGroup) : Int :=
  if p.sch.canChunk group.sequenceId then
    let tokens := min group.numTokensToProcess (p.prefillBudget queueLen group)
    if group.alignInitialPrefillForPrefixSnapshot ∧
        p.sch.getSequenceContextLen group.sequenceId = 0 ∧ tokens > blockSlots ∧
        tokens % blockSlots ≠ 0 then
      tokens - tokens % blockSlots
    else tokens
  else group.numTokensToProcess

/-- The group gets its chunk: the output lists it, with its new blocks and, the
first time, with the blocks its cached prefix already has. -/
def schedulePrefill (group : SequenceGroup) (seqBlocks newBlocks : List Int)
    (tokens : Int) : WaitingPass σ :=
  let s := p.sch
  let seqId := group.sequenceId
  let target :=
    if p.targetContextLen < 0 then s.getSequenceContextLen seqId else p.targetContextLen
  { p with
    sch :=
      { s.setStatus seqId .waiting with
        seqBlockIds := update s.seqBlockIds seqId (some (seqBlocks ++ newBlocks))
        seqGeneratedTokens := update s.seqGeneratedTokens seqId (some 0)
        seqPriority := update s.seqPriority seqId (some group.priority)
        seqArrival := update s.seqArrival seqId (some group.arrivalTime) }
    output :=
      { p.output with
        prefillSeqIds := p.output.prefillSeqIds ++ [seqId]
        prefillChunkInfo := p.output.prefillChunkInfo ++ [⟨seqId, tokens⟩]
        numPrefillTokens := p.output.numPrefillTokens + tokens
        totalTokens := p.output.totalTokens + tokens
        batchContextLen := target
        newBlockAllocations :=
          if newBlocks = [] then p.output.newBlockAllocations
          else p.output.newBlockAllocations ++ [(seqId, newBlocks)]
        prefixCacheHits :=
          if group.HasHit then
            p.output.prefixCacheHits ++ [⟨seqId, group.sharedPrefixLen, group.sharedBlockIds⟩]
          else p.output.prefixCacheHits }
    tokensBudget := p.tokensBudget - tokens
    prefillTokenCap :=
      if 0 ≤ p.prefillTokenCap then max 0 (p.prefillTokenCap - tokens) else p.prefillTokenCap
    stillWaiting :=
      p.stillWaiting ++
        [if group.HasHit then { group with sharedPrefixLen := 0, sharedBlockIds := [] } else group]
    activeExperts := addExperts p.activeExperts group.predictedExperts
    targetContextLen := target }

/-- `seq_blocks`: the recorded table, or the cached prefix when that is empty. -/
def seqBlocks (group : SequenceGroup) : List Int :=
  let recorded := (p.sch.seqBlockIds group.sequenceId).getD []
  if recorded = [] ∧ group.sharedBlockIds ≠ [] then group.sharedBlockIds else recorded

/-- `auto& seq_blocks = seq_block_ids_[seq_id]`, which the scheduler keeps even
when the group is then not scheduled. -/
def recordBlocks (group : SequenceGroup) : WaitingPass σ :=
  { p with
    sch :=
      { p.sch with
        seqBlockIds := update p.sch.seqBlockIds group.sequenceId
          (some (p.seqBlocks group)) } }

/-- The blocks that a chunk needs beyond those the group has. -/
def blocksToAllocate (group : SequenceGroup) (tokens : Int) : Int :=
  max 0 (blocksNeeded (p.sch.getSequenceContextLen group.sequenceId + tokens) -
    (p.seqBlocks group).length)

/-- The part of the loop body that finds the blocks for a chunk. -/
def admitGroup (choose : Int → AllocChoice) (p : WaitingPass σ) (group : SequenceGroup)
    (tokens : Int) : WaitingPass σ :=
  let manager := p.sch.blockManager
  let missing := p.blocksToAllocate group tokens
  let p₁ := p.recordBlocks group
  if missing > manager.numBlocks then
    (p₁.reject .requiredBlocksExceedCapacity group).keep group
  else if missing > 0 then
    if manager.getFreeBlockCount < missing then p₁.block .noFreeBlocks group
    else
      let newBlocks := manager.allocate missing (choose group.sequenceId)
      let p₂ := { p₁ with sch := { p₁.sch with blockManager := newBlocks.2 } }
      if (newBlocks.1.length : Int) ≠ missing then p₂.block .noFreeBlocks group
      else p₂.schedulePrefill group (p.seqBlocks group) newBlocks.1 tokens
  else p₁.schedulePrefill group (p.seqBlocks group) [] tokens

/-- The body of the loop over the sorted queue. -/
def considerGroup (queueLen : Nat) (choose : Int → AllocChoice) (p : WaitingPass σ)
    (group : SequenceGroup) : WaitingPass σ :=
  let s := p.sch
  let config := s.config
  let seqId := group.sequenceId
  if p.output.scheduledSeqCount ≥ asSize config.maxNumSeqs then
    p.block .maxNumSeqsReached group
  else if p.output.prefillSeqIds.length ≥ asSize (max 1 config.maxPrefillSeqs) then
    p.block .maxPrefillSeqsReached group
  else if group.numTokensToProcess ≤ 0 then { p with sch := s.markRunning seqId }
  else if s.canChunk seqId = false ∧ group.numTokensToProcess > config.maxNumBatchedTokens then
    { p.reject .promptExceedsBatchBudget group with
      sch := (s.setStatus seqId .cancelled).cleanupSequenceState seqId false true }
  else if s.canChunk seqId = false ∧ group.numTokensToProcess > p.prefillBudget queueLen group then
    p.block .prefillBudgetZero group
  else
    let tokens := p.tokensNeeded queueLen group
    if tokens ≤ 0 then p.block .prefillBudgetZero group
    else if config.enforceHomogeneousBatchNPast = true ∧ 0 ≤ p.targetContextLen ∧
        s.getSequenceContextLen seqId ≠ p.targetContextLen then
      p.block .contextBucketMismatch group
    else if config.enableMoeClustering = true ∧ group.predictedExperts ≠ [] ∧
        shouldDeferForMoEBudget group.requestId group.predictedExperts p.activeExperts config ∧
        p.output.prefillSeqIds ≠ [] then
      p.block .moeBudgetDeferred group
    else p.admitGroup choose group tokens

end WaitingPass

/-- The order of the queue. -/
def groupBefore (a b : SequenceGroup) : Bool :=
  if a.priority ≠ b.priority then decide (a.priority < b.priority)
  else decide (a.arrivalTime < b.arrivalTime)

/-- `sorted_queue`, clustered by experts when that is asked for. -/
def sortedQueue (arrangement : Arrangement) : List SequenceGroup :=
  let sorted := arrangement.sort groupBefore s.waitingQueue
  if s.config.enableMoeClustering = true ∧ sorted.length > 1 then
    clusterPending sorted.length [] sorted
  else sorted

/-- `ScheduleWaiting` -/
def scheduleWaiting (choice : ScheduleChoice) (choose : Int → AllocChoice)
    (output : SchedulerOutput) (prefillTokenCap : Int) : Scheduler σ × SchedulerOutput :=
  let queue := s.sortedQueue choice.arrangement
  let p := queue.foldl (WaitingPass.considerGroup queue.length choose)
    { sch := s
      output := output
      tokensBudget := s.config.maxNumBatchedTokens - output.totalTokens
      prefillTokenCap := prefillTokenCap
      targetContextLen := output.batchContextLen }
  ({ p.sch with waitingQueue := p.stillWaiting },
    if p.output.isEmpty && !p.stillWaiting.isEmpty then
      { p.output with
        emptyReason :=
          if p.blockedReason = .none then .waitingSeqPresentButUnschedulable else p.blockedReason
        unschedulableReason := p.unschedulableReason
        diagnosticSeqId := p.diagnosticSeqId }
    else p.output)

/-! ### One iteration -/

/-- Isolated phases: may the waiting prompts go first? -/
def schedulePrefillFirst : Bool :=
  if s.waitingQueue = [] then false
  else if s.runningSeqs = [] then true
  else if s.config.fillSlotsBeforeFirstDecode &&
      decide (s.runningSeqs.length < asSize s.config.maxNumSeqs) &&
      s.waitingQueue.all (fun g =>
        decide (g.numTokensToProcess ≤ s.config.maxPrefillTokens) &&
          (decide (g.maxPrefillChunkTokens ≤ 0) ||
            decide (g.numTokensToProcess ≤ g.maxPrefillChunkTokens))) &&
      s.runningSeqs.all (fun seqId => s.seqGeneratedTokens seqId = some 0) then true
  else decide (s.consecutiveDecodeBatches ≥ s.config.maxConsecutiveDecodeBatches)

/-- The one context length of the decode batch, if there is one. -/
def decodeContextBucket (s : Scheduler σ) : Int → List Int → Option Int
  | bucket, [] => some bucket
  | bucket, seqId :: rest =>
    if bucket < 0 then s.decodeContextBucket (s.getSequenceContextLen seqId) rest
    else if bucket ≠ s.getSequenceContextLen seqId then none
    else s.decodeContextBucket bucket rest

/-- The context length and the token cap of a prefill beside a decode batch. -/
def mixedPrefillCap (output : SchedulerOutput) : Option (Int × Int) :=
  match s.decodeContextBucket (-1) output.decodeSeqIds with
  | none => none
  | some bucket =>
    let remaining := max 0 (s.config.maxNumBatchedTokens - output.totalTokens)
    let cap := min s.config.maxMixedPrefillTokens (min s.config.maxPrefillTokens remaining)
    if 0 ≤ bucket ∧ cap > 0 then some (bucket, cap) else none

/-- The reasons of the last pass are noted in the scheduler. -/
def noteReasons (empty : SchedulerEmptyReason)
    (unschedulable : SchedulerUnschedulableReason) : Scheduler σ :=
  { s with lastEmptyReason := empty, lastUnschedulableReason := unschedulable }

/-- The decode batch is set; admit a bounded prefill beside it when allowed. -/
def finishDecode (choice : ScheduleChoice) (output : SchedulerOutput) :
    Scheduler σ × SchedulerOutput :=
  let mixed :=
    if s.config.enableMixedPrefillDecode = true ∧ s.waitingQueue ≠ [] then s.mixedPrefillCap output
    else none
  let r :=
    match mixed with
    | none => (s, output)
    | some (bucket, cap) =>
      s.scheduleWaiting choice choice.allocFallback { output with batchContextLen := bucket } cap
  let admitted := decide (r.2.prefillSeqIds.length > output.prefillSeqIds.length)
  ({ r.1.noteReasons .none .none with
      consecutiveDecodeBatches :=
        if admitted && r.1.waitingQueue.isEmpty then 0 else r.1.consecutiveDecodeBatches + 1 },
    r.2)

/-- Decode first, and prefill only when nothing could be decoded. -/
def scheduleDecodeFirst (choice : ScheduleChoice) (output : SchedulerOutput) :
    Scheduler σ × SchedulerOutput :=
  let decoded := s.scheduleRunning choice output
  if decoded.decodeSeqIds ≠ [] then s.finishDecode choice decoded
  else
    let r := s.scheduleWaiting choice choice.allocFallback decoded (-1)
    let s₁ := if r.2.prefillSeqIds ≠ [] then { r.1 with consecutiveDecodeBatches := 0 } else r.1
    (if r.2.isEmpty then s₁.noteReasons r.2.emptyReason r.2.unschedulableReason else s₁, r.2)

/-- Decode and prefill in batches of their own. -/
def scheduleIsolated (choice : ScheduleChoice) (output : SchedulerOutput) :
    Scheduler σ × SchedulerOutput :=
  if s.schedulePrefillFirst then
    let r := s.scheduleWaiting choice choice.allocWaiting output (-1)
    if r.2.prefillSeqIds ≠ [] then
      ({ r.1.noteReasons .none .none with consecutiveDecodeBatches := 0 }, r.2)
    else r.1.scheduleDecodeFirst choice r.2
  else s.scheduleDecodeFirst choice output

/-- The legacy path: decode and prefill share the output. -/
def scheduleLegacy (choice : ScheduleChoice) (output : SchedulerOutput) :
    Scheduler σ × SchedulerOutput :=
  let r := s.scheduleWaiting choice choice.allocWaiting (s.scheduleRunning choice output) (-1)
  (if r.2.isEmpty then r.1.noteReasons r.2.emptyReason r.2.unschedulableReason
    else r.1.noteReasons .none .none, r.2)

/-- `Schedule` -/
def schedule (choice : ScheduleChoice) : Scheduler σ × SchedulerOutput :=
  let s₀ := s.noteReasons .none .none
  let preempted :=
    if s₀.config.aboveWatermarkHigh s₀.usedBlocks s₀.blockManager.numBlocks then
      s₀.preemptSequences choice {}
    else (s₀, {})
  let swapped := preempted.1.scheduleSwapped choice preempted.2
  if swapped.1.config.isolatePrefillDecode then swapped.1.scheduleIsolated choice swapped.2
  else swapped.1.scheduleLegacy choice swapped.2

end Scheduler

end DenseCore
