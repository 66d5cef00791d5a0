/-
The worker loop as far as it moves KV blocks: it registers requests with the
scheduler, replays the scheduler's output on its own block tables, makes the
blocks it is about to write private, and after each forward pass reports progress
and grows the tables.

This is `EngineLoop` of `runtime/worker.cpp` with the prefix-cache policy of
`worker_prefix_cache_policy.inl`.  The loop is cut into actions at the points
where something from outside enters: a request, a cancellation or a finished
generation, the fast path, a `Schedule` call with the batch it leads to, the
outcome of the forward pass for one batch entry.  A run is any sequence of
actions, so whatever holds after every run holds in the order the loop has too.

The forward pass itself is a parameter: which token it samples and which recurrent
states it leaves.  Times, metrics and callbacks are left out.  So is the flush of
`pending_scheduler_progress`, which the program never raises above zero.
-/
import DenseCore.Runtime.Schedule

namespace DenseCore

/-- What the loop reads off the model and the runtime configuration. -/
structure ModelTraits (σ : Type) where
  salt : UInt64 := 0
  /-- `IsPrefixCacheAllowedForModel`. -/
  prefixCacheAllowed : Bool := true
  /-- `ModelRequiresPrefixStateSnapshot`. -/
  requiresPrefixStateSnapshot : Bool := false
  /-- `IsHybridSSMSnapshotRestoreAllowedForModel`. -/
  snapshotRestoreAllowed : Bool := true
  isHybridSsm : Bool := false
  /-- `BuildHybridSSMSnapshotValidatorForRequest`, from the request's own states. -/
  snapshotValidator : List σ → Option (List σ → Bool) := fun _ => none

/-- `SwapState`, without the copied bytes. -/
structure SwapState where
  active : Bool := false
  totalTokens : Int := 0
  numBlocks : Nat := 0
  deriving DecidableEq, Repr

/-- A request as the worker keeps it. -/
structure Request (σ : Type) where
  id : Int
  seqId : Int
  tokens : List Int32
  originalPromptTokensForCache : List Int32
  sequenceTokensForPrefixCache : List Int32
  registeredPrefixBlocks : Nat := 0
  prefixCacheAllowed : Bool := false
  nPast : Int := 0
  isPrefill : Bool := true
  isEmbedding : Bool := false
  blockTable : List Int := []
  swapState : SwapState := {}
  isSwapped : Bool := false
  ssmRuntimeStates : List σ := []
  prefillChunkTokensEffective : Int := 0

/-- `requests` is `active_requests` less the finished ones, which is also what
`seq_to_request` maps to; `batch` holds the entries of the batch whose outcome is
still to be processed; `log` is the history of `Schedule` outputs, newest first,
which only statements read. -/
structure Engine (σ : Type) where
  scheduler : Scheduler σ
  requests : List (Request σ) := []
  batch : List (Int × Int) := []
  log : List SchedulerOutput := []

namespace Engine

variable {σ : Type}

def init (numBlocks : Nat) (blockSize : Int) (config : SchedulerConfig) : Engine σ :=
  { scheduler := Scheduler.init (BlockManager.init numBlocks blockSize) config }

variable (t : ModelTraits σ) (e : Engine σ)

/-- `current_kv_cache->block_manager`, the manager the scheduler points to as well. -/
def manager : BlockManager σ := e.scheduler.blockManager

def setManager (m : BlockManager σ) : Engine σ :=
  { e with scheduler := { e.scheduler with blockManager := m } }

/-- The request of a sequence. -/
def findRequest (seqId : Int) : Option (Request σ) :=
  e.requests.find? fun r => r.seqId = seqId

/-- The engine with one request changed. -/
def updateRequest (seqId : Int) (f : Request σ → Request σ) : Engine σ :=
  { e with requests := e.requests.map fun r => if r.seqId = seqId then f r else r }

/-! ### Arrival and departure -/

/-- A tokenised request as it comes out of the pending queue. -/
structure Submission (σ : Type) where
  id : Int := 0
  tokens : List Int32
  priority : Int := 100
  isEmbedding : Bool := false
  prefillChunkTokens : Int := 0
  ssmRuntimeStates : List σ := []
  now : Nat := 0

/-- A request arrives. -/
def submit (e : Engine σ) (r : Submission σ) : Engine σ :=
  if r.tokens = [] then e
  else
    let added := e.scheduler.addRequest t.salt r.now r.id r.tokens.length r.priority
      (if t.prefixCacheAllowed then some r.tokens else none) (!r.isEmbedding)
      t.requiresPrefixStateSnapshot r.prefillChunkTokens (t.snapshotValidator r.ssmRuntimeStates)
    match added.1 with
    | none => { e with scheduler := added.2 }
    | some seqId =>
      { e with
        scheduler := added.2
        requests := e.requests ++ [
           { id := r.id
             seqId := seqId
             tokens := r.tokens
             originalPromptTokensForCache := r.tokens
             sequenceTokensForPrefixCache := r.tokens
             prefixCacheAllowed := t.prefixCacheAllowed
             isEmbedding := r.isEmbedding
             ssmRuntimeStates := r.ssmRuntimeStates
             prefillChunkTokensEffective := max 0 r.prefillChunkTokens }] }

/-- The blocks of a request go back to the manager. -/
def freeRequestBlocks (seqId : Int) : Engine σ :=
  match e.findRequest seqId with
  | none => e
  | some r =>
    (e.setManager (e.manager.free r.blockTable)).updateRequest seqId fun r =>
      { r with blockTable := [] }

/-- `free_request_blocks`, `RemoveRequest` and the end of the mapping: how every
request leaves, whether cancelled, failed or finished. -/
def retire (seqId : Int) (completed : Bool) : Engine σ :=
  let e₁ := e.freeRequestBlocks seqId
  { e₁ with
    scheduler := e₁.scheduler.removeRequest seqId completed
    requests := e₁.requests.filter fun r => r.seqId ≠ seqId }

/-! ### Replaying a scheduler output -/

/-- Step 4. -/
def applyBlockAllocations (allocations : List (Int × List Int)) : Engine σ :=
  allocations.foldl
    (fun e a => e.updateRequest a.1 fun r => { r with blockTable := r.blockTable ++ a.2 }) e

/-- The recurrent states a hit restores: the snapshot of its last block, when one
is kept there and fits. -/
def restoredStates (m : BlockManager σ) (hit : PrefixCacheInfo) (states : List σ) : List σ :=
  match hit.cachedBlockIds.getLast? with
  | none => states
  | some snapshotBlock =>
    if t.requiresPrefixStateSnapshot = false ∨ states = [] ∨ t.snapshotRestoreAllowed = false then
      states
    else
      match m.loadHybridSSMSnapshotForBlock snapshotBlock, t.snapshotValidator states with
      | some snapshot, some accepts =>
        if 0 < hit.cachedTokens ∧ hit.cachedTokens % blockSlots = 0 ∧ accepts snapshot then
          snapshot
        else states
      | _, _ => states

/-- A request takes the cached blocks that the scheduler found for it. -/
def applyPrefixCacheHit (e : Engine σ) (hit : PrefixCacheInfo) : Engine σ :=
  e.updateRequest hit.seqId fun r =>
    { r with
      prefixCacheAllowed := t.prefixCacheAllowed
      blockTable := r.blockTable ++ hit.cachedBlockIds
      nPast := r.nPast + hit.cachedTokens
      tokens :=
        if 0 < hit.cachedTokens ∧ hit.cachedTokens ≤ r.tokens.length then
          r.tokens.drop hit.cachedTokens.toNat
        else r.tokens
      registeredPrefixBlocks :=
        max r.registeredPrefixBlocks (hit.cachedTokens.tdiv blockSlots).toNat
      ssmRuntimeStates := restoredStates t e.manager hit r.ssmRuntimeStates }

/-- Step 4a. -/
def applyPrefixCacheHits (e : Engine σ) (hits : List PrefixCacheInfo) : Engine σ :=
  if t.prefixCacheAllowed then hits.foldl (applyPrefixCacheHit t) e else e

/-- Step 4b, for one sequence. -/
def swapIn (seqId : Int) : Engine σ :=
  match e.findRequest seqId with
  | none => e
  | some r =>
    if r.swapState.active = false then e
    else if r.blockTable.length ≠ r.swapState.numBlocks then e.retire seqId false
    else e.updateRequest seqId fun r => { r with swapState := {}, isSwapped := false }

/-- Step 5, for one entry. -/
def releaseFreed (freed : Int × List Int) : Engine σ :=
  e.setManager (e.manager.free freed.2)

/-- Step 6, for one sequence. -/
def swapOut (seqId : Int) : Engine σ :=
  match e.findRequest seqId with
  | none => e
  | some r =>
    if r.blockTable = [] then e
    else
      (e.setManager (e.manager.free r.blockTable)).updateRequest seqId fun r =>
        { r with
          swapState := ⟨true, r.nPast, r.blockTable.length⟩
          isSwapped := true
          blockTable := [] }

/-- Step 7: the request an empty output declares unschedulable fails. -/
def failUnschedulable (output : SchedulerOutput) : Engine σ :=
  if output.isEmpty ∧ output.unschedulableReason ≠ .none ∧ 0 ≤ output.diagnosticSeqId ∧
      (e.findRequest output.diagnosticSeqId).isSome then
    e.retire output.diagnosticSeqId false
  else e

/-- Steps 4 and 4a. -/
def applyTables (e : Engine σ) (output : SchedulerOutput) : Engine σ :=
  (e.applyBlockAllocations output.newBlockAllocations).applyPrefixCacheHits t output.prefixCacheHits

/-- Steps 4 to 7. -/
def applyOutput (e : Engine σ) (output : SchedulerOutput) : Engine σ :=
  let e₁ := output.swapInSeqIds.foldl swapIn (e.applyTables t output)
  let e₂ := output.preemptedSeqIds.foldl swapOut (output.freedBlocks.foldl releaseFreed e₁)
  e₂.failUnschedulable output

/-! ### Building the batch -/

/-- What building a batch may find or draw: the cancellation flags, which other
threads set, and the choices of each copy-on-write. -/
structure BuildChoice where
  cancelled : Int → Bool := fun _ => false
  copy : Int → Nat → AllocChoice := fun _ _ => {}

/-- A block of a request's table is made its own before a write. -/
def ensureRequestBlockWritable (seqId : Int) (blockIndex : Nat) (c : AllocChoice) :
    Bool × Engine σ :=
  match e.findRequest seqId with
  | none => (true, e)
  | some r =>
    match r.blockTable[blockIndex]? with
    | none => (true, e)
    | some old =>
      if old < 0 then (false, e)
      else if e.manager.isShared old = false then (true, e)
      else
        match e.manager.copyOnWrite old c with
        | ((none, _), m) => (false, e.setManager m)
        | ((some writable, _), m) =>
          (true, (e.setManager m).updateRequest seqId fun r =>
            { r with blockTable := r.blockTable.set blockIndex writable })

/-- The loop over the blocks of a span of positions, which stops at a failure. -/
def ensureBlocksWritable (seqId : Int) (copy : Nat → AllocChoice) :
    List Nat → Engine σ → Bool × Engine σ
  | [], e => (true, e)
  | k :: rest, e =>
    match e.ensureRequestBlockWritable seqId k (copy k) with
    | (false, e₁) => (false, e₁)
    | (true, e₁) => ensureBlocksWritable seqId copy rest e₁

/-- The blocks of a range of positions are made the request's own. -/
def ensureRequestBlocksWritable (seqId startPos tokenCount : Int)
    (copy : Nat → AllocChoice) : Bool × Engine σ :=
  if tokenCount ≤ 0 then (true, e)
  else if startPos < 0 then (false, e)
  else
    let first := (startPos / blockSlots).toNat
    let last := ((startPos + tokenCount - 1) / blockSlots).toNat
    ensureBlocksWritable seqId copy (List.range' first (last + 1 - first)) e

/-- A batch while it is put together. -/
structure BatchBuild (σ : Type) where
  engine : Engine σ
  entries : List (Int × Int) := []
  isEmbedding : Option Bool := none

/-- One scheduled sequence joins the batch with the tokens it takes, unless it is
gone, cancelled, of the other kind, or has a block that cannot be made private. -/
def joinBatch (choice : BuildChoice) (take : Request σ → Int) (b : BatchBuild σ) (seqId : Int) :
    BatchBuild σ :=
  match b.engine.findRequest seqId with
  | none => b
  | some r =>
    if choice.cancelled seqId then b
    else if r.isEmbedding ≠ b.isEmbedding.getD r.isEmbedding then b
    else
      let b₁ := { b with isEmbedding := some (b.isEmbedding.getD r.isEmbedding) }
      if take r ≤ 0 then b₁
      else
        match b₁.engine.ensureRequestBlocksWritable seqId r.nPast (take r) (choice.copy seqId) with
        | (false, e) => { b₁ with engine := e }
        | (true, e) => { b₁ with engine := e, entries := b₁.entries ++ [(seqId, take r)] }

/-- `prefill_chunk_tokens`: the last positive chunk the output gives a sequence. -/
def chunkTokens (output : SchedulerOutput) (seqId : Int) : Option Int :=
  ((output.prefillChunkInfo.filter fun c =>
    decide (c.seqId = seqId) && decide (0 ≤ c.seqId) && decide (0 < c.chunkTokens)).getLast?).map
      (·.chunkTokens)

/-- How many tokens of a prefill the batch takes. -/
def prefillTokensToTake (output : SchedulerOutput) (r : Request σ) : Int :=
  let whole : Int := r.tokens.length
  let chunk := min whole ((chunkTokens output r.seqId).getD whole)
  if r.prefillChunkTokensEffective > 0 then min chunk r.prefillChunkTokensEffective else chunk

/-- The batch of an output: prefills first, then one token each. -/
def buildBatch (choice : BuildChoice) (output : SchedulerOutput) : Engine σ :=
  let prefilled := output.prefillSeqIds.foldl (joinBatch choice (prefillTokensToTake output)) ⟨e, [], none⟩
  let built := output.decodeSeqIds.foldl (joinBatch choice fun _ => 1) prefilled
  { built.engine with batch := built.entries }

/-- `Schedule`, the replay of its output and the batch that results. -/
def scheduleStep (e : Engine σ) (choice : ScheduleChoice) (build : BuildChoice) : Engine σ :=
  let r := e.scheduler.schedule choice
  let e₁ := { e with scheduler := r.1, log := r.2 :: e.log }.applyOutput t r.2
  e₁.buildBatch build r.2

/-! ### The single-request fast path -/

/-- What the fast path depends on besides the engine. -/
structure FastPathChoice where
  pendingEmpty : Bool := true
  alloc : AllocChoice := {}
  build : BuildChoice := {}

/-- What the prefix cache holds of a request's tokens. -/
def probeReusablePrefixCacheForRequest (m : BlockManager σ) (r : Request σ) :
    BlockManager.PrefixCacheMatch × BlockManager σ :=
  if r.prefixCacheAllowed = false ∨ r.originalPromptTokensForCache = [] then ({}, m)
  else
    let found := m.findLongestCachedPrefixWithVerification t.salt
      (some r.originalPromptTokensForCache) r.originalPromptTokensForCache.length
      t.requiresPrefixStateSnapshot (t.snapshotValidator r.ssmRuntimeStates)
    (found.1, found.2.free found.1.cachedBlockIds)

def resolveRecurrentPrefixSnapshotPrefillTokens (r : Request σ) (requested : Int) : Int :=
  if r.prefixCacheAllowed = false ∨ t.requiresPrefixStateSnapshot = false ∨ r.nPast ≠ 0 ∨
      requested ≤ blockSlots then requested
  else requested - requested % blockSlots

/-- The one request the fast path may serve without asking the scheduler. -/
def fastPathRequest (e : Engine σ) (choice : FastPathChoice) : Option (Request σ) :=
  match e.requests with
  | [r] =>
    if choice.pendingEmpty = true ∧ e.scheduler.waitingQueue = [] ∧
        e.scheduler.swappedSeqs = [] ∧ e.scheduler.runningSeqs.length ≤ 1 ∧
        r.isEmbedding = false ∧ r.isSwapped = false ∧ choice.build.cancelled r.seqId = false ∧
        r.tokens ≠ [] ∧ ¬ (t.isHybridSsm ∧ r.isPrefill ∧ r.tokens.length > blockSlots) then
      some r
    else none
  | _ => none

/-- The output the fast path makes up for its request. -/
def fastPathOutput (r : Request σ) (tokens : Int) : SchedulerOutput :=
  if r.isPrefill then
    { prefillSeqIds := [r.seqId]
      numPrefillTokens := tokens
      totalTokens := tokens
      batchContextLen := r.nPast }
  else
    { decodeSeqIds := [r.seqId]
      numDecodeTokens := 1
      totalTokens := tokens
      batchContextLen := r.nPast }

/-- Cover the tokens to process with blocks, then build the batch; a shortage
leaves the decision to `Schedule`. -/
def fastPathServe (choice : FastPathChoice) (r : Request σ) (tokens : Int) : Engine σ :=
  let needed := (r.nPast + tokens + blockSlots - 1).tdiv blockSlots
  let missing := needed - r.blockTable.length
  if missing ≤ 0 then e.buildBatch choice.build (fastPathOutput r tokens)
  else
    let newBlocks := e.manager.allocate missing choice.alloc
    let e₁ := e.setManager newBlocks.2
    if (newBlocks.1.length : Int) = missing then
      (e₁.updateRequest r.seqId fun r => { r with blockTable := r.blockTable ++ newBlocks.1 }).buildBatch
        choice.build (fastPathOutput r tokens)
    else e₁

/-- The path for a single request. -/
def fastPathStep (e : Engine σ) (choice : FastPathChoice) : Engine σ :=
  match e.fastPathRequest t choice with
  | none => e
  | some r =>
    let probe := probeReusablePrefixCacheForRequest t e.manager r
    let e₁ := e.setManager probe.2
    if probe.1.cachedTokens > 0 ∧ probe.1.cachedBlockIds ≠ [] then e₁
    else
      let tokens :=
        if r.isPrefill then resolveRecurrentPrefixSnapshotPrefillTokens t r r.tokens.length else 1
      if tokens ≤ 0 then e₁ else e₁.fastPathServe choice r tokens

/-! ### After the forward pass -/

/-- What the forward pass leaves for one batch entry, and the choices of the
allocations that follow it. -/
structure ForwardResult (σ : Type) where
  sampled : Int32
  states : List σ := []
  grow : Nat → AllocChoice := fun _ => {}

/-- The blocks `register_completed_prefix_blocks` walks over. -/
def completedBlocks (r : Request σ) : List Nat :=
  let promptBlocks := r.originalPromptTokensForCache.length / blockSlots
  let completed := min (r.nPast / blockSlots).toNat (min r.blockTable.length promptBlocks)
  (List.range' r.registeredPrefixBlocks (completed - r.registeredPrefixBlocks)).takeWhile fun k =>
    decide (k * blockSlots + blockSlots ≤ r.sequenceTokensForPrefixCache.length)

/-- A whole block of a request is registered with its tokens. -/
def registerBlock (r : Request σ) (m : BlockManager σ) (k : Nat) : BlockManager σ :=
  let attach := t.requiresPrefixStateSnapshot && decide (((k + 1) * blockSlots : Nat) = r.nPast)
  m.registerPrefixBlockWithTokens (r.blockTable.getD k (-1))
    (BlockManager.computeTokenHash t.salt r.sequenceTokensForPrefixCache
      (k * blockSlots + blockSlots : Nat))
    (some (r.sequenceTokensForPrefixCache.drop (k * blockSlots))) blockSlots
    (if attach then some r.ssmRuntimeStates else none)

/-- All whole blocks of a request are registered. -/
def registerCompletedPrefixBlocks (e : Engine σ) (seqId : Int) : Engine σ :=
  match e.findRequest seqId with
  | none => e
  | some r =>
    if t.prefixCacheAllowed = false ∨ r.sequenceTokensForPrefixCache = [] ∨ r.blockTable = [] ∨
        r.nPast ≤ 0 then e
    else
      (e.setManager ((completedBlocks r).foldl (registerBlock t r) e.manager)).updateRequest seqId
        fun r => { r with
          registeredPrefixBlocks := r.registeredPrefixBlocks + (completedBlocks r).length }

/-- Allocate one block at a time until the table covers the next token. -/
def growTable (seqId : Int) (grow : Nat → AllocChoice) : Nat → Engine σ → Bool × Engine σ
  | 0, e => (true, e)
  | n + 1, e =>
    match e.manager.allocate 1 (grow n) with
    | ([], m) => (false, e.setManager m)
    | (b :: _, m) =>
      growTable seqId grow n ((e.setManager m).updateRequest seqId fun r =>
        { r with blockTable := r.blockTable ++ [b] })

/-- Running out of memory here ends the request. -/
def growForNextToken (seqId : Int) (grow : Nat → AllocChoice) : Engine σ :=
  match e.findRequest seqId with
  | none => e
  | some r =>
    let needed := (r.nPast + 1 + blockSlots - 1).tdiv blockSlots
    match growTable seqId grow (needed - r.blockTable.length).toNat e with
    | (true, e₁) => e₁
    | (false, e₁) => e₁.retire seqId true

/-- What the worker does after a chunk of a prefill. -/
def finishPrefillChunk (e : Engine σ) (r : Request σ) (processed : Int)
    (res : ForwardResult σ) : Engine σ :=
  let e₁ := (e.updateRequest r.seqId fun r =>
    { r with nPast := r.nPast + processed, ssmRuntimeStates := res.states })
  let e₂ := e₁.registerCompletedPrefixBlocks t r.seqId
  if processed < r.tokens.length then
    { e₂ with
      scheduler := e₂.scheduler.onPrefillChunkComplete r.seqId processed false }.updateRequest r.seqId
        fun r => { r with tokens := r.tokens.drop processed.toNat }
  else
    ({ e₂ with
      scheduler := e₂.scheduler.onPrefillChunkComplete r.seqId processed true }.updateRequest r.seqId
        fun r => { r with
          tokens := [res.sampled]
          isPrefill := false
          originalPromptTokensForCache := [] }).growForNextToken r.seqId res.grow

/-- The decoded token's input joins the cacheable sequence when it is the next one. -/
def appendDecoded (r : Request σ) (processed : Int) : Option Int32 :=
  match r.tokens with
  | [input] =>
    if processed = 1 ∧ 0 ≤ input.toInt ∧
        (r.sequenceTokensForPrefixCache.length : Int) = r.nPast + processed - 1 then some input
    else none
  | _ => none

/-- What the worker does after a decoding step. -/
def finishDecodeStep (e : Engine σ) (r : Request σ) (processed : Int)
    (res : ForwardResult σ) : Engine σ :=
  let e₁ := e.updateRequest r.seqId fun r =>
    { r with
      tokens := [res.sampled]
      nPast := r.nPast + processed
      ssmRuntimeStates := res.states }
  let e₂ :=
    match appendDecoded r processed with
    | none => e₁
    | some input =>
      (e₁.updateRequest r.seqId fun r =>
        { r with
          sequenceTokensForPrefixCache := r.sequenceTokensForPrefixCache ++ [input]
        }).registerCompletedPrefixBlocks t r.seqId
  { e₂ with
    scheduler := e₂.scheduler.onDecodeStepComplete r.seqId processed }.growForNextToken r.seqId
      res.grow

/-- Process the next entry of the batch. -/
def completeStep (e : Engine σ) (res : ForwardResult σ) : Engine σ :=
  match e.batch with
  | [] => e
  | (seqId, processed) :: rest =>
    let e₁ := { e with batch := rest }
    match e₁.findRequest seqId with
    | none => e₁
    | some r =>
      if r.isEmbedding then e₁.retire seqId true
      else if r.isPrefill then e₁.finishPrefillChunk t r processed res
      else e₁.finishDecodeStep t r processed res

/-! ### Runs -/

/-- The actions of the worker loop. -/
inductive Action (σ : Type) where
  | submit (r : Submission σ)
  | retire (seqId : Int) (completed : Bool)
  | fastPath (choice : FastPathChoice)
  | schedule (choice : ScheduleChoice) (build : BuildChoice)
  | complete (res : ForwardResult σ)
  | setPredictedExperts (seqId : Int) (experts : List Int)

/-- What an action does. -/
def step (e : Engine σ) : Action σ → Engine σ
  | .submit r => e.submit t r
  | .retire seqId completed => e.retire seqId completed
  | .fastPath choice => e.fastPathStep t choice
  | .schedule choice build => e.scheduleStep t choice build
  | .complete res => e.completeStep t res
  | .setPredictedExperts seqId experts =>
    { e with scheduler := e.scheduler.setPredictedExperts seqId experts }

/-- Many actions, one after another. -/
def run (e : Engine σ) (acts : List (Action σ)) : Engine σ :=
  acts.foldl (step t) e

end Engine

end DenseCore
