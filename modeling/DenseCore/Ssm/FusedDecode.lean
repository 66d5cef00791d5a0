/-
The fused decode operators of the short convolution.

For one token, `cb_lfm2_shortconv_out_q4k_decode` runs the convolution and the output
projection in one node, and `cb_lfm2_shortconv_inout_q4k_decode` the input projection
too (`llm/ssm/shortconv.cpp`).  The tasks of a node share the work and meet through
stamps in the node's `LFM2ShortConvUserData`: a stamp mixes the addresses of the
tensors with the token's position, and a task that waits for it gives up after some
8192 looks and returns.

Every load, store and increment of an atomic is a step, and so is every stretch of
computation between two of them.  ggml's quantisation, its dot products and its packed
kernel are parameters, as is whether the cache of repacked weights has room.
-/
import DenseCore.Lib.Tasks
import DenseCore.Ssm.Conv

namespace DenseCore.FusedDecode

open Lib Ssm

variable {K Q W P : Type}

/-! ### What ggml provides -/

/-- Vectors of type `K`, quantised vectors `Q`, weight matrices `W` and their
repackings `P`. -/
structure Kernels (K Q W P : Type) where
  fromFloat : List K → Q
  vecDot : W → Nat → Q → K
  vecDotPair : W → Nat → Q → K × K
  repack : W → P
  gemv : P → Nat → Q → K

/-- A packed product equals the row-wise one, as does the product of two rows. -/
structure Kernels.Agree (kn : Kernels K Q W P) : Prop where
  gemv_eq : ∀ w row q, kn.gemv (kn.repack w) row q = kn.vecDot w row q
  pair_eq : ∀ w row q, kn.vecDotPair w row q = (kn.vecDot w row q, kn.vecDot w (row + 1) q)

/-! ### Nodes -/

/-- The two fused operators. -/
inductive Op where
  | out | inout
  deriving DecidableEq, Repr

/-- The tensor types the operators tell apart. -/
inductive GgmlType where
  | f32 | q4K | other
  deriving DecidableEq, Repr

/-- What the operators read of a tensor. -/
structure TensorView where
  type : GgmlType
  ne0 : Nat
  ne1 : Nat
  data : UInt64

/-- A node of the graph with the fixed part of its user data.  `input` is the packed
projection `BCx` for `out` and the layer's input for `inout`. -/
structure Node (K W : Type) where
  op : Op
  input : TensorView
  inProj : TensorView
  outProj : TensorView
  dst : TensorView
  inWeight : W
  outWeight : W
  convWeight : Nat → K
  channels : Nat
  kernel : Nat
  traitsOk : Bool := true  -- ggml has the Q8_K and Q4_K traits
  isaSupported : Bool
  kernelAvailable : Bool
  rowPairSupported : Bool

/-- The block length of Q8_K and Q4_K. -/
def blckSize : Nat := 256

namespace Node

variable (n : Node K W)

/-- How many rows the output projection has. -/
def outDim : Nat := n.dst.ne0

/-- How many rows the input projection has: `B`, `C` and `x` of every channel. -/
def inRows : Nat := 3 * n.channels

/-- The user data of the convolution between the projections. -/
def conv : Lfm2ShortConvUserData K where
  convWeight := n.convWeight
  channels := n.channels
  kernel := n.kernel

/-- The operators' own checks. -/
def entryOk : Bool :=
  match n.op with
  | .out =>
    n.input.type == .f32 && n.outProj.type == .q4K && n.dst.type == .f32 && n.input.ne1 == 1 &&
    n.dst.ne1 == 1 && decide (0 < n.channels) && decide (1 < n.kernel) &&
    decide (3 * n.channels ≤ n.input.ne0) && n.outProj.ne0 == n.channels &&
    n.dst.ne0 == n.outProj.ne1 && n.traitsOk
  | .inout =>
    n.input.type == .f32 && n.inProj.type == .q4K && n.outProj.type == .q4K && n.dst.type == .f32 &&
    n.input.ne1 == 1 && n.dst.ne1 == 1 && decide (0 < n.channels) && decide (1 < n.kernel) &&
    n.inProj.ne0 == n.input.ne0 && decide (0 < n.input.ne0) &&
    decide (3 * n.channels ≤ n.inProj.ne1) && n.outProj.ne0 == n.channels &&
    n.dst.ne0 == n.outProj.ne1 && n.traitsOk &&
    n.inRows % 8 == 0 && n.input.ne0 % blckSize == 0 && n.outDim % 8 == 0 &&
    n.outProj.ne0 % blckSize == 0 && n.isaSupported && n.kernelAvailable

/-- Whether the output projection looks for a repacked weight. -/
def usesPacked : Bool :=
  match n.op with
  | .out => n.outDim % 8 == 0 && n.outProj.ne0 % blckSize == 0 && n.isaSupported && n.kernelAvailable
  | .inout => true

/-- Whether the output projection takes its rows two at a time. -/
def rowPair : Bool := n.rowPairSupported && n.outProj.ne0 % blckSize == 0

end Node

/-! ### Executions -/

/-- One execution of a node. -/
structure Exec (K : Type) where
  nth : Nat
  seqId : Int  -- `token_seq_ids[0]`
  position : Int  -- `token_positions[0]`
  input : Nat → K
  inLookup : Bool  -- the cache returns a repacked weight when asked for one
  outLookup : Bool

/-- `nth` is at least one. -/
def Exec.taskCount (e : Exec K) : Nat := max 1 e.nth

/-- The stamp of an execution. -/
def stamp (n : Node K W) (e : Exec K) : UInt64 :=
  let mixed := UInt64.ofInt e.position * 0x9e3779b97f4a7c15
  match n.op with
  | .out => n.dst.data ^^^ (n.input.data <<< 1) ^^^ (n.outProj.data <<< 7) ^^^ mixed
  | .inout =>
    n.dst.data ^^^ (n.input.data <<< 1) ^^^ (n.inProj.data <<< 7) ^^^ (n.outProj.data <<< 13) ^^^ mixed

/-- A repacked weight kept in the user data, and what it was made from. -/
structure PackedSlot (P : Type) where
  packed : Option P := none
  weightData : UInt64 := 0
  rows : Nat := 0
  cols : Nat := 0

/-- Look the weight up unless it is there already. -/
def PackedSlot.refresh (slot : PackedSlot P) (found : Option P) (data : UInt64) (rows cols : Nat) :
    PackedSlot P :=
  if slot.packed.isNone = true ∨ slot.weightData ≠ data ∨ slot.rows ≠ rows ∨ slot.cols ≠ cols then
    { packed := found, weightData := data, rows := rows, cols := cols }
  else slot

/-- What the tasks share: the changing part of the user data, the sequences' states
and the output. -/
structure Shared (K Q P : Type) where
  states : ConvStates K
  bcx : Nat → K
  inputQ8 : Q
  y : Nat → K
  yQ8 : Q
  readyStamp : UInt64
  yStamp : UInt64
  outStamp : UInt64
  inDone : Nat
  inSlot : PackedSlot P
  outSlot : PackedSlot P
  dst : Nat → K
  faulted : Bool  -- an index outside a state vector

/-- The three stamps a task waits for. -/
inductive Wait where
  | ready | y | out
  deriving DecidableEq, Repr

/-- Where a task is: each control point is named after the step it takes next. -/
inductive Pc where
  | entry
  | prepare
  | lookupIn
  | resetDone
  | publishReady
  | inGemv
  | countIn
  | convolve
  | publishY
  | chooseOut
  | lookupOut
  | publishOut
  | outGemv
  | rowWise
  | await (w : Wait) (spinCount : Nat)
  | finished
  | gaveUp (w : Wait)
  | unpacked
  deriving DecidableEq, Repr

/-- The task has left the operator. -/
def Pc.returned : Pc → Bool
  | .finished | .gaveUp _ | .unpacked => true
  | _ => false

/-- The stamp that a wait reads. -/
def Shared.stampOf (sh : Shared K Q P) : Wait → UInt64
  | .ready => sh.readyStamp
  | .y => sh.yStamp
  | .out => sh.outStamp

/-- How often a wait looks before it gives up. -/
def spinLimit : Nat := 8192

/-! ### The work between two atomics -/

section Work

variable (kn : Kernels K Q W P) (n : Node K W) (e : Exec K)

/-- The convolution of the current token, from the projection `bcx`; zeros without a
state.  Then its quantisation. -/
def convolve [CommSemiring K] (bcx : Nat → K) (sh : Shared K Q P) : Shared K Q P :=
  match n.conv.resolveState sh.states e.seqId with
  | none =>
    let y := mapChannels (fun _ => 0) sh.y 0 n.channels
    { sh with y := y, yQ8 := kn.fromFloat ((List.range n.channels).map y) }
  | some tgt =>
    let r := do
      let b ← sh.states.buffer tgt
      lfm2ShortConvStep n.channels n.kernel bcx (fun i => bcx (n.channels + i))
        (fun i => bcx (2 * n.channels + i)) n.convWeight b sh.y
    match r with
    | some (b, y) =>
      { sh with states := sh.states.write b tgt, y := y,
                yQ8 := kn.fromFloat ((List.range n.channels).map y) }
    | none => { sh with faulted := true }

/-- The projection at hand: the node's input, or what the tasks have projected. -/
def convInput (sh : Shared K Q P) : Nat → K :=
  match n.op with
  | .out => e.input
  | .inout => sh.bcx

/-- `RunQ4KRepackedGemv` on the tiles from `first` to before `last`, of eight rows. -/
def runGemv (p : P) (q : Q) (first last : Nat) (output : Nat → K) : Nat → K :=
  fun row => if first * 8 ≤ row ∧ row < last * 8 then kn.gemv p row q else output row

/-- Two rows at a time, `count` times. -/
def rowPairs (q : Q) (row : Nat) : Nat → (Nat → K) → (Nat → K)
  | 0, output => output
  | count + 1, output =>
    let sums := kn.vecDotPair n.outWeight row q
    rowPairs q (row + 2) count (Function.update (Function.update output row sums.1) (row + 1) sums.2)

/-- One row at a time. -/
def rowSingles (q : Q) (row : Nat) : Nat → (Nat → K) → (Nat → K)
  | 0, output => output
  | count + 1, output =>
    rowSingles q (row + 1) count (Function.update output row (kn.vecDot n.outWeight row q))

/-- The row-wise output projection of the rows from `first` to before `last`. -/
def runRows (q : Q) (first last : Nat) (output : Nat → K) : Nat → K :=
  if n.rowPair then
    -- an odd first row goes alone, whether or not it is in the range
    let output :=
      if first % 2 = 1 then Function.update output first (kn.vecDot n.outWeight first q)
      else output
    let row := if first % 2 = 1 then first + 1 else first
    let pairs := (last - row) / 2
    rowSingles kn n q (row + 2 * pairs) (last - (row + 2 * pairs)) (rowPairs kn n q row pairs output)
  else rowSingles kn n q first (last - first) output

/-- The tiles of task `ith`. -/
def tileStart (rows ith : Nat) : Nat := splitStart (rows / 8) e.taskCount ith

/-- The first row of a task. -/
def rowStart (ith : Nat) : Nat := splitStart n.outDim e.taskCount ith

end Work

/-! ### The steps -/

/-- Where a wait leads when the stamp is there. -/
def Wait.next : Wait → Pc
  | .ready => .inGemv
  | .y => .chooseOut
  | .out => .outGemv

/-- One step of task `ith`. -/
def act [CommSemiring K] (kn : Kernels K Q W P) (n : Node K W) (e : Exec K) (ith : Nat)
    (sh : Shared K Q P) : Pc → Shared K Q P × Pc
  | .entry =>
    if n.entryOk = false ∨ e.taskCount ≤ ith then (sh, .finished)
    else match n.op with
      | .out => (sh, if ith = 0 then .convolve else .await .y 0)
      | .inout => (sh, if ith = 0 then .prepare else .await .ready 0)
  | .prepare =>
    ({ sh with
        bcx := fun _ => 0
        inputQ8 := kn.fromFloat ((List.range n.input.ne0).map e.input) }, .lookupIn)
  | .lookupIn =>
    ({ sh with
        inSlot := sh.inSlot.refresh (if e.inLookup then some (kn.repack n.inWeight) else none)
          n.inProj.data n.inRows n.input.ne0 }, .resetDone)
  | .resetDone => ({ sh with inDone := 0 }, .publishReady)
  | .publishReady => ({ sh with readyStamp := stamp n e }, .inGemv)
  | .inGemv =>
    match sh.inSlot.packed with
    | none => (sh, .unpacked)
    | some p =>
      ({ sh with
          bcx := runGemv kn p sh.inputQ8 (tileStart e n.inRows ith)
            (tileStart e n.inRows (ith + 1)) sh.bcx }, .countIn)
  | .countIn =>
    let done := sh.inDone + 1
    ({ sh with inDone := done }, if done = e.taskCount then .convolve else .await .y 0)
  | .convolve => (convolve kn n e (convInput n e sh) sh, .publishY)
  | .publishY => ({ sh with yStamp := stamp n e }, .chooseOut)
  | .chooseOut =>
    (sh, if n.usesPacked then (if ith = 0 then .lookupOut else .await .out 0) else .rowWise)
  | .lookupOut =>
    ({ sh with
        outSlot := sh.outSlot.refresh (if e.outLookup then some (kn.repack n.outWeight) else none)
          n.outProj.data n.outDim n.outProj.ne0 }, .publishOut)
  | .publishOut => ({ sh with outStamp := stamp n e }, .outGemv)
  | .outGemv =>
    match sh.outSlot.packed with
    | some p =>
      ({ sh with
          dst := runGemv kn p sh.yQ8 (tileStart e n.outDim ith)
            (tileStart e n.outDim (ith + 1)) sh.dst }, .finished)
    -- only one of the operators has a way to go on without a repacked weight
    | none => (sh, match n.op with | .out => .rowWise | .inout => .finished)
  | .rowWise =>
    ({ sh with dst := runRows kn n sh.yQ8 (rowStart n e ith) (rowStart n e (ith + 1)) sh.dst },
      .finished)
  | .await w spinCount =>
    (sh, if sh.stampOf w = stamp n e then w.next
      else if spinLimit < spinCount then .gaveUp w
      else .await w (spinCount + 1))
  | .finished => (sh, .finished)
  | .gaveUp w => (sh, .gaveUp w)
  | .unpacked => (sh, .unpacked)

/-- One execution, as far as the schedule goes. -/
def execute [CommSemiring K] (kn : Kernels K Q W P) (n : Node K W) (e : Exec K) (sh : Shared K Q P)
    (schedule : List Nat) : Pool (Shared K Q P) Pc :=
  (Pool.mk sh fun _ => .entry).run (act kn n e) schedule

/-! ### What an execution is for -/

section Reference

variable [CommSemiring K] (kn : Kernels K Q W P) (n : Node K W) (e : Exec K)

/-- The projection the convolution reads. -/
def refBcx : Nat → K :=
  match n.op with
  | .out => e.input
  | .inout => fun row =>
    if row < n.inRows
    then kn.vecDot n.inWeight row (kn.fromFloat ((List.range n.input.ne0).map e.input)) else 0

/-- The sequences' states and the output after `cb_lfm2_shortconv` on the current token
and a row-wise output projection. -/
def reference (st : ConvStates K) : Option (ConvStates K × (Nat → K)) := do
  let r ← lfm2ShortConvToken n.conv st ⟨e.seqId, refBcx kn n e⟩ (fun _ => 0) 0 n.channels
  pure (r.1, fun row => kn.vecDot n.outWeight row (kn.fromFloat ((List.range n.channels).map r.2)))

/-- The output is the reference and the state has advanced exactly once. -/
def Correct (before after : Shared K Q P) : Prop :=
  ∃ r, reference kn n e before.states = some r ∧ after.states = r.1 ∧ after.faulted = before.faulted ∧
    ∀ row, row < n.outDim → after.dst row = r.2 row

end Reference

/-- User data as `GetLFM2ShortConvUserData` hands them out. -/
structure Shared.Fresh (sh : Shared K Q P) : Prop where
  readyStamp : sh.readyStamp = 0
  yStamp : sh.yStamp = 0
  outStamp : sh.outStamp = 0
  inDone : sh.inDone = 0
  inSlot : sh.inSlot = {}
  outSlot : sh.outSlot = {}

/-- The user data after any executions of the node.  Between executions the sequences'
states and the output buffer may become anything; an execution is over when all its
tasks have returned. -/
inductive Served [CommSemiring K] (kn : Kernels K Q W P) (n : Node K W) : Shared K Q P → Prop
  | fresh {sh : Shared K Q P} (h : sh.Fresh) : Served kn n sh
  | between {sh : Shared K Q P} (h : Served kn n sh) (states : ConvStates K) (dst : Nat → K) :
      Served kn n { sh with states := states, dst := dst }
  | exec {sh : Shared K Q P} (h : Served kn n sh) (e : Exec K) (schedule : List Nat)
      (hret : ∀ t, t < e.taskCount → ((execute kn n e sh schedule).pc t).returned = true) :
      Served kn n (execute kn n e sh schedule).shared

end DenseCore.FusedDecode
