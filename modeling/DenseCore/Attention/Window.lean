/-
Which past tokens a query may look at, and where their keys are.

Three pieces of the program answer that question.  `ComputeKVRetentionSpan` says
which part of the history a policy keeps and `MapRetainedHistoryIndex` numbers it
(`llm/config/runtime_config.cpp`).  The standard attention path gathers the
history into the rows of one tensor and adds a mask to the scores; the gather is
`cb_kv_update_and_gather_custom` (`runtime/inference_runtime.inl`) and the mask is
`BuildAttentionMaskTensor` (`llm/attention/internal.cpp`).  The paged decode path
reads the cache in place, by the spans `paged_exec.cpp` computes per token, either
in `ComputePagedAttentionScalarHeads` or in the Highway kernel.

What is modelled of a gathered row is where its data come from, and of a score
whether it is masked; the numbers themselves play no part in either.
-/
import DenseCore.Memory.BlockManager

namespace DenseCore.Attention

/-- What of the history is kept. -/
structure KVRetentionPolicy where
  slidingWindow : Int := -1
  sinkTokens : Int := 0
  enabled : Bool := false

/-- The part of the history that is kept. -/
structure KVRetentionSpan where
  historyKept : Int := 0
  sinkKept : Int := 0
  tailStart : Int := 0
  deriving DecidableEq, Repr

/-- `LoadKVRetentionPolicy`, from the values of its two environment variables. -/
def loadKVRetentionPolicy (slidingWindowEnv sinkTokensEnv : Int) : KVRetentionPolicy :=
  let slidingWindow := if slidingWindowEnv < 0 then -1 else slidingWindowEnv
  { slidingWindow := slidingWindow
    sinkTokens := if sinkTokensEnv < 0 then 0 else sinkTokensEnv
    enabled := decide (0 ≤ slidingWindow) }

/-- `std::clamp`, for bounds in order. -/
def clamp (x lo hi : Int) : Int := if x < lo then lo else if hi < x then hi else x

/-- `ComputeKVRetentionSpan` -/
def computeKVRetentionSpan (nPast : Int) (policy : KVRetentionPolicy) : KVRetentionSpan :=
  if nPast ≤ 0 then {}
  else if policy.enabled = false ∨ policy.slidingWindow < 0 then
    { historyKept := nPast, sinkKept := nPast, tailStart := nPast }
  else
    let sinkKept := clamp policy.sinkTokens 0 nPast
    let tailStart := max sinkKept (nPast - max 0 policy.slidingWindow)
    { historyKept := sinkKept + max 0 (nPast - tailStart)
      sinkKept := sinkKept
      tailStart := tailStart }

/-- The place in the history of a row that is kept. -/
def mapRetainedHistoryIndex (span : KVRetentionSpan) (retainedIndex : Int) : Int :=
  if retainedIndex < span.sinkKept then retainedIndex
  else span.tailStart + (retainedIndex - span.sinkKept)

/-- The policy a callback uses: a layer that forces the full history ignores the
configured one. -/
def effectivePolicy (policy : KVRetentionPolicy) (forceFullHistory : Bool) : KVRetentionPolicy :=
  if forceFullHistory then { slidingWindow := -1, sinkTokens := 0, enabled := false } else policy

/-! ### The mask of the standard path -/

/-- The two values in a mask. -/
inductive MaskValue where
  | zero
  | negInf
  deriving DecidableEq, Repr

/-- The mask tensor: its two used dimensions and the entry for query `q`, key `k`. -/
structure MaskTensor where
  nKeys : Int
  nRows : Int
  entry : Int → Int → MaskValue

/-- The part of the history the mask believes was gathered. -/
def maskSpan (sinkTokens nPast slidingWindow : Int) : KVRetentionSpan :=
  let sinkKept := clamp (max 0 sinkTokens) 0 nPast
  let tailStart :=
    if 0 ≤ slidingWindow then max sinkKept (nPast - max 0 slidingWindow) else nPast
  { historyKept := if 0 ≤ slidingWindow then sinkKept + max 0 (nPast - tailStart) else nPast
    sinkKept := sinkKept
    tailStart := tailStart }

/-- The position the mask takes a gathered row to hold. -/
def maskKeyPos (sinkTokens nPast slidingWindow : Int) (k : Int) : Int :=
  let span := maskSpan sinkTokens nPast slidingWindow
  if k < span.historyKept then mapRetainedHistoryIndex span k
  else nPast + (k - span.historyKept)

/-- Whether a key position is visible from a query position. -/
def allowsKey (slidingWindow keyPos queryPos : Int) : Bool :=
  decide (keyPos ≤ queryPos) &&
    !(decide (0 ≤ slidingWindow) && decide (keyPos < queryPos - slidingWindow))

/-- `BuildAttentionMaskTensor`; `sinkTokens` is `DENSECORE_SINK_TOKENS`. -/
def buildAttentionMaskTensor (sinkTokens nTotalTokens nQueries nPast slidingWindow nPadded : Int) :
    Option MaskTensor :=
  if nTotalTokens ≤ 0 ∨ nQueries ≤ 0 then none
  else
    some
      { nKeys := nTotalTokens
        nRows := if nPadded < nQueries then nQueries else nPadded
        entry := fun q k =>
          if nQueries ≤ q then .zero
          else if allowsKey slidingWindow (maskKeyPos sinkTokens nPast slidingWindow k) (nPast + q)
          then .zero else .negInf }

/-! ### The gather of the standard path -/

/-- Where the data of a gathered row come from: a slot of a logical block of the
sequence's table, or a token of the current batch. -/
inductive RowSource where
  | unwritten
  | zeroed
  | cached (logicalBlock slot : Int)
  | current (token : Int)
  deriving DecidableEq, Repr

/-- What one execution of the gather reads beside the tensors. -/
structure GatherInput where
  nTokens : Int
  nTotal : Int
  readOnlySharedKv : Bool
  forceFullHistory : Bool
  policy : KVRetentionPolicy
  hasValidSeq : Bool
  /-- The sequence's entry of `batch->n_past`, when that vector is long enough. -/
  seqNPast : Option Int
  blockTableSize : Int

/-- Write `n` consecutive rows from row `t` on. -/
def fillRows (rows : Int → RowSource) (t n : Int) (f : Int → RowSource) : Int → RowSource :=
  fun r => if t ≤ r ∧ r < t + n then f (r - t) else rows r

/-- The inner `while`: how far a read may extend inside one block. -/
def extendRun (span : KVRetentionSpan) (tEnd t tokenPos logicalBlock : Int) : Nat → Int → Int
  | 0, run => run
  | fuel + 1, run =>
    if t + run < tEnd ∧ t + run < span.historyKept then
      let next := mapRetainedHistoryIndex span (t + run)
      if next ≠ tokenPos + run then run
      else if next / blockSlots ≠ logicalBlock then run
      else extendRun span tEnd t tokenPos logicalBlock fuel (run + 1)
    else run

/-- The history loop of one task, from row `t` on. -/
def gatherHistory (input : GatherInput) (span : KVRetentionSpan) (tEnd : Int) :
    Nat → Int → (Int → RowSource) → (Int → RowSource)
  | 0, _, rows => rows
  | fuel + 1, t, rows =>
    if tEnd ≤ t then rows
    else if input.hasValidSeq = false ∨ span.historyKept ≤ t then
      fillRows rows t (tEnd - t) fun _ => .zeroed
    else
      let tokenPos := mapRetainedHistoryIndex span t
      let logicalBlock := tokenPos / blockSlots
      let slot := tokenPos % blockSlots
      if logicalBlock < 0 ∨ input.blockTableSize ≤ logicalBlock then
        gatherHistory input span tEnd fuel (t + 1) (fillRows rows t 1 fun _ => .zeroed)
      else
        let run := extendRun span tEnd t tokenPos logicalBlock (tEnd - t).toNat 1
        gatherHistory input span tEnd fuel (t + run)
          (fillRows rows t run fun i => .cached logicalBlock (slot + i))

/-- The rows a task of `nth` handles when `total` rows are shared out evenly. -/
def chunk (total : Int) (ith nth : Nat) : Int × Int :=
  let perThread := (total + nth - 1) / nth
  (ith * perThread, min (ith * perThread + perThread) total)

/-- `cb_kv_update_and_gather_custom` as one task sees the rows of `dst`. -/
def kvUpdateAndGather (input : GatherInput) (nth : Nat) (rows : Int → RowSource) (ith : Nat) :
    Int → RowSource :=
  let nPast := input.nTotal - input.nTokens
  if input.nTokens < 0 ∨ input.nTotal < 0 ∨ nPast < 0 then rows
  else
    let historyTokens := if input.readOnlySharedKv then input.nTotal else nPast
    let rows₁ :=
      if 0 < historyTokens then
        let span :=
          match input.hasValidSeq, input.seqNPast with
          | true, some n =>
            computeKVRetentionSpan (if input.readOnlySharedKv then historyTokens else max 0 n)
              (effectivePolicy input.policy input.forceFullHistory)
          | _, _ => {}
        let c := chunk historyTokens ith nth
        gatherHistory input span c.2 (c.2 - c.1).toNat c.1 rows
      else rows
    if 0 < input.nTokens ∧ input.readOnlySharedKv = false then
      let c := chunk input.nTokens ith nth
      fillRows rows₁ (nPast + c.1) (c.2 - c.1) fun i => .current (c.1 + i)
    else rows₁

/-- The rows of `dst` after the tasks have run, in some order. -/
def gatheredRows (input : GatherInput) (nth : Nat) (order : List Nat) : Int → RowSource :=
  order.foldl (kvUpdateAndGather input nth) fun _ => .unwritten

/-- The token position whose key or value a row holds. -/
def RowSource.position (nPast : Int) : RowSource → Option Int
  | .cached logicalBlock slot => some (logicalBlock * blockSlots + slot)
  | .current token => some (nPast + token)
  | _ => none

/-! ### The paged decode path -/

/-- The spans `paged_exec.cpp` computes for a decode token. -/
structure PagedSpans where
  retained : KVRetentionSpan
  mask : KVRetentionSpan
  noncontiguous : Bool
  contextStartPos : Int
  contextLen : Int

/-- The spans that the paged kernels read. -/
def pagedSpans (policy : KVRetentionPolicy) (forceFullHistory : Bool) (sinkTokens : Int)
    (slidingWindow nPast blockTableSize : Int) : PagedSpans :=
  let maskPolicy : KVRetentionPolicy :=
    { enabled := decide (0 ≤ slidingWindow)
      slidingWindow := if 0 ≤ slidingWindow then slidingWindow else -1
      sinkTokens := max 0 sinkTokens }
  let mask := computeKVRetentionSpan nPast maskPolicy
  let retained :=
    if 0 ≤ slidingWindow then mask
    else computeKVRetentionSpan nPast (effectivePolicy policy forceFullHistory)
  let truncated := decide (retained.historyKept < nPast)
  { retained := retained
    mask := mask
    noncontiguous := truncated && decide (0 < retained.sinkKept)
    contextStartPos := if truncated && decide (retained.sinkKept = 0) then retained.tailStart else 0
    contextLen := max 1 (min (retained.historyKept + 1) (blockTableSize * blockSlots)) }

variable (s : PagedSpans)

/-- The position the scalar path reads at context index `t`. -/
def scalarTokenPos (currentPos t : Int) : Int :=
  if t < s.retained.historyKept then mapRetainedHistoryIndex s.retained t else currentPos

/-- The position the scalar path tests against the window at context index `t`. -/
def scalarMaskKeyPos (slidingWindow currentPos t : Int) : Int :=
  if 0 ≤ slidingWindow then
    if t < s.mask.historyKept then mapRetainedHistoryIndex s.mask t
    else currentPos + (t - s.mask.historyKept)
  else scalarTokenPos s currentPos t

/-- The positions `ComputePagedAttentionScalarHeads` gives a score. -/
def scalarAttended (slidingWindow currentPos blockTableSize : Int) : List Int :=
  (List.range s.contextLen.toNat).filterMap fun (t : Nat) =>
    let tokenPos := scalarTokenPos s currentPos t
    if allowsKey slidingWindow (scalarMaskKeyPos s slidingWindow currentPos t) currentPos = true ∧
        0 ≤ tokenPos / blockSlots ∧ tokenPos / blockSlots < blockTableSize then
      some tokenPos
    else none

/-- The position the Highway kernel tests against the window for a physical position. -/
def hwyKeyPos (slidingWindow queryPos physicalKeyPos : Int) : Int :=
  let contextIndex := physicalKeyPos - s.contextStartPos
  if 0 ≤ slidingWindow ∧ 0 ≤ s.mask.historyKept then
    if contextIndex < s.mask.historyKept then
      if contextIndex < s.mask.sinkKept then contextIndex
      else s.mask.tailStart + (contextIndex - s.mask.sinkKept)
    else queryPos + (contextIndex - s.mask.historyKept)
  else physicalKeyPos

/-- The positions the Highway kernel visits in one logical block. -/
def hwyBlockPositions (logicalBlock : Int) : List Int :=
  let blockAbsStart := logicalBlock * blockSlots
  let slotBegin :=
    if logicalBlock = max 0 (s.contextStartPos / blockSlots)
    then max 0 (s.contextStartPos % blockSlots) else 0
  let slotEnd := min (blockSlots : Int) (s.contextStartPos + s.contextLen - blockAbsStart)
  (List.range (slotEnd - slotBegin).toNat).map fun (t : Nat) =>
    blockAbsStart + (slotBegin + (t : Int))

/-- The logical blocks the kernel visits: from the block of the first position to
the first that starts past the context. -/
def hwyBlocks (blockTableSize : Int) : List Int :=
  let startBlock := max 0 (s.contextStartPos / blockSlots)
  ((List.range (blockTableSize - startBlock).toNat).map fun (i : Nat) =>
    startBlock + (i : Int)).takeWhile
    fun b => decide (b * blockSlots < s.contextStartPos + s.contextLen)

/-- The positions `PagedAttention_Hwy` gives a score. -/
def hwyAttended (slidingWindow queryPos blockTableSize : Int) : List Int :=
  ((hwyBlocks s blockTableSize).flatMap (hwyBlockPositions s)).filter fun pos =>
    !(decide (0 ≤ queryPos) &&
      !allowsKey slidingWindow (hwyKeyPos s slidingWindow queryPos pos) queryPos)

/-- The positions the paged decode path attends: the scalar path when the kernel
is not available or the retained history has a gap, the kernel otherwise. -/
def pagedAttended (hwyReady : Bool) (s : PagedSpans)
    (slidingWindow currentPos blockTableSize : Int) : List Int :=
  if !hwyReady || s.noncontiguous then scalarAttended s slidingWindow currentPos blockTableSize
  else hwyAttended s slidingWindow currentPos blockTableSize

/-- The pointer to a logical block, null when the table holds no valid id for it. -/
def blockPtr (maxBlocks : Int) (blockTable : List Int) (logicalBlock : Int) : Option Int :=
  blockTable[logicalBlock.toNat]?.filter fun blockId => 0 ≤ blockId && blockId < maxBlocks

/-- The physical blocks and slots behind the attended positions; either path passes
over a block whose pointer is null. -/
def attendedSlots (maxBlocks : Int) (blockTable : List Int) (positions : List Int) :
    List (Int × Int) :=
  positions.filterMap fun tokenPos =>
    (blockPtr maxBlocks blockTable (tokenPos / blockSlots)).map fun blockId =>
      (blockId, tokenPos % blockSlots)

end DenseCore.Attention
