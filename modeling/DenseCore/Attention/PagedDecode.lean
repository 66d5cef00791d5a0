/-
The paged decode callback as a program of several tasks.

`cb_paged_attention_decode` (`llm/attention/paged_exec.cpp`) is run by all tasks of
a graph node at once.  The tasks first write the keys and values of the current
tokens into the cache and then read the cache; they meet through four atomic
counters of the node's `PagedAttentionUserData`.  A graph that is kept and computed
again hands the same counters to the next execution, and the worker zeroes them
before every compute, in `ResetPagedDecodeGraphExecutionState`
(`runtime/worker.cpp`).

Every atomic access, every write of one token's keys or values, every change of the
shared block pointer tables and every tile of attention is a step of its own.  The
log of an execution, newest event first, is what the statements are about.
-/
import Mathlib.Algebra.Order.Ring.Int
import DenseCore.Lib.Tasks
import DenseCore.Lib.Split

namespace DenseCore.PagedDecode

open Lib

/-! ### What the tasks of one execution are given -/

/-- The fields of a `ggml_tensor` the callback looks at. -/
structure TensorView where
  hasData : Bool := true
  isF32 : Bool := true
  ne0 : Int
  ne1 : Int
  ne2 : Int
  nb0 : Nat
  nb1 : Nat

/-- The sizes of a `BatchSpec`. -/
structure BatchSizes where
  numSeqs : Int
  tokens : Int
  seqId : Int
  pos : Int
  blockTables : Int
  nPast : Int

/-- The types of cached rows that the kernel tells apart. -/
inductive CacheType where
  | f32 | f16 | q4_0 | q8_0 | other
  deriving DecidableEq, Repr

/-- How blocks lie in memory. -/
structure BlockLayout where
  headStrideBytes : Nat
  slotStrideBytes : Nat

/-- One execution of a node: its tensors, the user data that do not change while it
runs, the current batch and the runtime's configuration. -/
structure Call where
  graphThreads : Int
  nTasks : Int
  hasCache : Bool := true
  hasSources : Bool := true
  q : TensorView
  k : TensorView
  v : TensorView
  dst : TensorView
  headDim : Int
  vHeadDimSet : Int
  nHead : Int
  nHeadKvSet : Int
  cacheNHeadKv : Int
  writeCurrentKv : Bool
  batch : Option BatchSizes
  headTileEnv : Option Nat  -- DENSECORE_PAGED_ATTN_DECODE_HEAD_TILE, if a positive integer
  simd : Bool
  cacheType : CacheType
  kLayout : BlockLayout
  vLayout : BlockLayout
  hasSharedBlockPtrs : Bool

namespace Call

variable (c : Call)

/-- `ResolvePagedAttentionCallbackThreads`: how many tasks take part. -/
def nth : Nat :=
  let graphCap := if 0 < c.graphThreads then c.graphThreads else 1
  let nodeCap := if 0 < c.nTasks then c.nTasks else 1
  (if graphCap < nodeCap then graphCap else nodeCap).toNat

/-- The task has work in this call. -/
def participates (ith : Nat) : Bool := decide (ith < c.nth)

def vHeadDim : Int := if 0 < c.vHeadDimSet then c.vHeadDimSet else c.headDim

def nHeadKv : Int := if 0 < c.nHeadKvSet then c.nHeadKvSet else c.cacheNHeadKv

def qTokens : Nat := c.q.ne2.toNat

/-- The tensors have the shapes that the kernel works on. -/
def shapesOk : Bool :=
  c.q.ne0 == c.headDim && c.q.ne1 == c.nHead && c.k.ne0 == c.headDim && c.k.ne1 == c.nHeadKv &&
  c.v.ne0 == c.vHeadDim && c.v.ne1 == c.nHeadKv && c.k.ne2 == c.q.ne2 && c.v.ne2 == c.q.ne2 &&
  c.dst.ne0 == c.vHeadDim && c.dst.ne1 == c.nHead && c.dst.ne2 == c.q.ne2

/-- The elements and rows of the tensors lie next to each other. -/
def layoutOk : Bool :=
  c.q.nb0 == 4 && c.k.nb0 == 4 && c.v.nb0 == 4 && c.dst.nb0 == 4 &&
  c.q.nb1 == c.headDim.toNat * 4 && c.k.nb1 == c.headDim.toNat * 4 &&
  c.v.nb1 == c.vHeadDim.toNat * 4 && c.dst.nb1 == c.vHeadDim.toNat * 4

/-- The batch has one entry for each token. -/
def batchOk : Bool :=
  match c.batch with
  | none => false
  | some b => b.numSeqs == c.q.ne2 && b.tokens == c.q.ne2 && b.seqId == c.q.ne2 && b.pos == c.q.ne2 &&
      b.blockTables == b.numSeqs && b.nPast == b.numSeqs

/-- Without these the callback returns at once. -/
def present : Bool :=
  c.hasCache && c.dst.hasData && decide (0 < c.graphThreads) && c.hasSources

/-- The checks before the first phase, which come out alike for all tasks.  Where one
fails, task 0 zeroes the output. -/
def inputsOk : Bool :=
  (c.q.hasData && c.k.hasData && c.v.hasData) &&
  (decide (0 < c.q.ne2) && decide (0 < c.headDim) && decide (0 < c.vHeadDim) && decide (0 < c.nHead)) &&
  (decide (0 < c.nHeadKv) && c.nHead % c.nHeadKv == 0) &&
  (c.q.isF32 && c.k.isF32 && c.v.isF32 && c.dst.isF32) &&
  c.shapesOk && c.layoutOk && c.batchOk

/-- Each task takes one token. -/
def tokenParallel : Bool := c.nth == c.qTokens && decide (1 < c.qTokens)

/-- The ways of the first phase. -/
inductive Mode where
  | readOnly | tokenParallel | single | barrier
  deriving DecidableEq, Repr

/-- How the call divides its work. -/
def mode : Mode :=
  if c.writeCurrentKv = false then .readOnly
  else if c.tokenParallel then .tokenParallel
  else if c.qTokens = 1 then .single
  else .barrier

/-- `ResolvePagedAttentionDecodeHeadTile`, for the positive arguments it gets here. -/
def headTile : Nat :=
  match c.headTileEnv with
  | some tile => max 1 tile
  | none =>
    let nHead := c.nHead.toNat
    if c.qTokens = 1 then
      let target := min nHead (max c.nth (c.nth * 2))
      let adaptive := max 1 ((nHead + max 1 target - 1) / max 1 target)
      let adaptive := if nHead ≤ c.nth / 2 then max adaptive 2 else adaptive
      min adaptive 8
    else if c.qTokens ≤ 4 then
      let target := max 1 ((c.nth + c.qTokens - 1) / c.qTokens)
      min (max 1 ((nHead + target - 1) / target)) 8
    else 8

/-- How many tiles the heads of a token make. -/
def tilesPerToken : Nat := max 1 ((c.nHead.toNat + c.headTile - 1) / c.headTile)

/-- The tiles of task `ith`, from the first to before the last. -/
def tileStart (ith : Nat) : Nat :=
  if c.tokenParallel then ith * c.tilesPerToken
  else splitStart (c.qTokens * c.tilesPerToken) c.nth ith

/-- Where the tiles of a task end. -/
def tileEnd (ith : Nat) : Nat :=
  if c.tokenParallel then ith * c.tilesPerToken + c.tilesPerToken
  else splitStart (c.qTokens * c.tilesPerToken) c.nth (ith + 1)

def cacheTypeId : Int :=
  if c.simd = false then -1
  else match c.cacheType with
    | .f32 => 0
    | .f16 => 1
    | .q4_0 => 4
    | .q8_0 => 8
    | .other => -1

/-- The vector kernel can be used. -/
def hwyReady : Bool :=
  c.simd && decide (0 ≤ c.cacheTypeId) && decide (0 < c.kLayout.headStrideBytes) &&
  decide (0 < c.kLayout.slotStrideBytes) && decide (0 < c.vLayout.headStrideBytes) &&
  decide (0 < c.vLayout.slotStrideBytes)

/-- One token: the tasks share one pair of block pointer tables. -/
def sharesTables : Bool := c.qTokens == 1 && c.hwyReady && c.hasSharedBlockPtrs

end Call

/-! ### Counters, events and control points -/

/-- The atomic counters.  The epochs are 64-bit. -/
structure PagedAttentionUserData where
  epochStarted : Nat := 0
  epochDone : Nat := 0
  kvWritersDone : Nat := 0
  sharedBlockPtrsReady : Nat := 0
  deriving DecidableEq, Repr

/-- The counter of epochs has 64 bits. -/
def epochLimit : Nat := 2 ^ 64

/-- `ResetPagedDecodeGraphExecutionState`, for one node. -/
def PagedAttentionUserData.resetExecutionState (_ : PagedAttentionUserData) :
    PagedAttentionUserData where
  epochStarted := 0
  epochDone := 0
  kvWritersDone := 0
  sharedBlockPtrsReady := 0

/-- What a task does to the cache. -/
inductive Event where
  | zeroedOutput (ith : Nat)
  | wroteK (ith token : Nat)
  | wroteV (ith token : Nat)
  | clearedTables (ith : Nat)
  | filledTables (ith : Nat)
  | readTables (ith : Nat)
  | readTile (ith tile : Nat)
  deriving DecidableEq, Repr

/-- What the tasks share, with a log of what they did. -/
structure Shared where
  ud : PagedAttentionUserData
  log : List Event

/-- One more event in the log. -/
def Shared.emit (sh : Shared) (e : Event) : Shared := { sh with log := e :: sh.log }

/-- Where a task is: each control point is named after the step it takes next. -/
inductive Pc where
  | entry
  | resetWriters
  | openEpoch
  | awaitStarted
  | loadStarted
  | loadDone (started : Nat)
  | writeK (epoch token : Nat)
  | writeV (epoch token : Nat)
  | countWriter (epoch : Nat)
  | publish (epoch : Nat)
  | awaitDone (epoch : Nat)
  | tiles
  | clearTables
  | fillTables
  | storeReady
  | awaitReady
  | takeTables
  | readTile (tile : Nat)
  | finished
  deriving DecidableEq, Repr

/-! ### The steps -/

variable (c : Call)

/-- Where the first phase begins. -/
def Call.firstPhase (ith : Nat) : Pc :=
  match c.mode with
  | .readOnly => .tiles
  | .tokenParallel => .writeK 0 ith
  | .single => if ith = 0 then .openEpoch else .awaitStarted
  | .barrier => if ith = 0 then .resetWriters else .loadStarted

/-- The write loop of the barrier: the next token of this task, if there is one. -/
def Call.nextToken (epoch token : Nat) : Pc :=
  if token < c.qTokens then .writeK epoch token else .countWriter epoch

/-- What follows the write of one token's values. -/
def Call.afterWrite (epoch token : Nat) : Pc :=
  match c.mode with
  | .single => .publish epoch
  | .barrier => c.nextToken epoch (token + c.nth)
  | _ => .tiles

/-- What follows the start of an epoch. -/
def Call.afterOpen (epoch ith : Nat) : Pc :=
  match c.mode with
  | .single => .writeK epoch 0
  | _ => c.nextToken epoch ith

/-- One step of task `ith`. -/
def act (ith : Nat) (sh : Shared) : Pc → Shared × Pc
  | .entry =>
    if c.present = false ∨ c.participates ith = false then (sh, .finished)
    else if c.inputsOk = false then (if ith = 0 then sh.emit (.zeroedOutput ith) else sh, .finished)
    else (sh, c.firstPhase ith)
  | .resetWriters => ({ sh with ud := { sh.ud with kvWritersDone := 0 } }, .openEpoch)
  | .openEpoch =>
    let epoch := (sh.ud.epochStarted + 1) % epochLimit
    ({ sh with ud := { sh.ud with epochStarted := epoch } }, c.afterOpen epoch ith)
  -- the single token's readers wait for any epoch at all
  | .awaitStarted =>
    (sh, if sh.ud.epochStarted ≠ 0 then .awaitDone sh.ud.epochStarted else .awaitStarted)
  | .loadStarted => (sh, .loadDone sh.ud.epochStarted)
  | .loadDone started =>
    (sh, if sh.ud.epochDone < started then c.nextToken started ith else .loadStarted)
  | .writeK epoch token => (sh.emit (.wroteK ith token), .writeV epoch token)
  | .writeV epoch token => (sh.emit (.wroteV ith token), c.afterWrite epoch token)
  | .countWriter epoch =>
    let writersDone := sh.ud.kvWritersDone + 1
    ({ sh with ud := { sh.ud with kvWritersDone := writersDone } },
      if writersDone = c.nth then .publish epoch else .awaitDone epoch)
  | .publish epoch => ({ sh with ud := { sh.ud with epochDone := epoch } }, .tiles)
  | .awaitDone epoch => (sh, if sh.ud.epochDone < epoch then .awaitDone epoch else .tiles)
  | .tiles =>
    (sh, if c.tileEnd ith ≤ c.tileStart ith then .finished
      else if c.sharesTables then (if ith = 0 then .clearTables else .awaitReady)
      else .readTile (c.tileStart ith))
  | .clearTables => (sh.emit (.clearedTables ith), .fillTables)
  | .fillTables => (sh.emit (.filledTables ith), .storeReady)
  | .storeReady => ({ sh with ud := { sh.ud with sharedBlockPtrsReady := 1 } }, .takeTables)
  | .awaitReady => (sh, if sh.ud.sharedBlockPtrsReady = 0 then .awaitReady else .takeTables)
  | .takeTables => (sh.emit (.readTables ith), .readTile (c.tileStart ith))
  | .readTile tile =>
    (sh.emit (.readTile ith tile), if tile + 1 < c.tileEnd ith then .readTile (tile + 1) else .finished)
  | .finished => (sh, .finished)

/-- All tasks at the callback's first line. -/
def Call.enter (ud : PagedAttentionUserData) : Pool Shared Pc where
  shared := { ud := ud, log := [] }
  pc := fun _ => .entry

/-- One execution of the node, as far as the schedule goes. -/
def Call.execute (ud : PagedAttentionUserData) (schedule : List Nat) : Pool Shared Pc :=
  (Call.enter ud).run (act c) schedule

/-! ### Executions one after another -/

/-- One execution among those of the same user data, and whether the worker's reset
came before it. -/
structure Round where
  reset : Bool
  call : Call
  schedule : List Nat

/-- The user data as the worker leaves it before a round. -/
def Round.begin (r : Round) (ud : PagedAttentionUserData) : PagedAttentionUserData :=
  if r.reset then ud.resetExecutionState else ud

/-- A round from its start. -/
def Round.play (r : Round) (ud : PagedAttentionUserData) : Pool Shared Pc :=
  r.call.execute (r.begin ud) r.schedule

/-- The counters after finished executions, the latest first.  No execution starts
before all tasks of the one before it have returned. -/
inductive Played : List Round → PagedAttentionUserData → Prop
  | fresh : Played [] {}
  | next {before : List Round} {ud : PagedAttentionUserData} (r : Round) (h : Played before ud)
      (hdone : ∀ ith, ith < r.call.nth → (r.play ud).pc ith = .finished) :
      Played (r :: before) (r.play ud).shared.ud

/-- The executions since the last reset. -/
def sinceReset : List Round → Nat
  | [] => 0
  | r :: before => if r.reset then 1 else sinceReset before + 1

/-! ### The order of writes and reads -/

/-- Every current token's keys and values are written, each by the task that owns
the token. -/
def CurrentKvWritten (log : List Event) : Prop :=
  c.writeCurrentKv = true → ∀ token, token < c.qTokens →
    .wroteK (token % c.nth) token ∈ log ∧ .wroteV (token % c.nth) token ∈ log

/-- What must have happened before an event. -/
def Event.InOrder (earlier : List Event) : Event → Prop
  | .zeroedOutput _ => True
  | .wroteK _ _ | .wroteV _ _ => c.tokenParallel = false → ∀ ith tile, .readTile ith tile ∉ earlier
  | .clearedTables _ | .filledTables _ =>
    ∀ ith, .readTables ith ∉ earlier ∧ ∀ tile, .readTile ith tile ∉ earlier
  | .readTables _ => .filledTables 0 ∈ earlier
  | .readTile _ _ =>
    (c.tokenParallel = false → CurrentKvWritten c earlier) ∧
    (c.sharesTables = true → .filledTables 0 ∈ earlier)

/-- No read comes before the writes it depends on, and none of these comes after a
read. -/
def ReadsFollowWrites (log : List Event) : Prop :=
  ∀ e earlier, e :: earlier <:+ log → e.InOrder c earlier

end DenseCore.PagedDecode
