/-
The recurrent convolutions.

`cb_ssm_conv1d` (`llm/ssm/conv.cpp`, with the kernel of `kernels/hwy/hwy_ssm.cc`) and
`cb_lfm2_shortconv` (`llm/ssm/shortconv.cpp`, with `models/lfm2_shortconv_math.cpp`)
are depthwise causal convolutions that keep their history in a vector per sequence:
`kernel - 1` samples per channel, oldest first.  A batch mixes tokens of several
sequences; each token selects its sequence's vector.  The first callback splits the
channels among the tasks of the node, the second does all its work in task 0.

An index outside a state vector is a fault, as is a missing state in the first
callback (it terminates the process).  Arithmetic is exact and the activation is a
parameter.  Weights, input and output rows are functions of their index.
-/
import DenseCore.Lib.Buffer
import DenseCore.Lib.Split

namespace DenseCore.Ssm

open Function (update)

open Lib

variable {K : Type}

/-! ### The kernels -/

/-- `state[base + j] = state[base + j + 1]` for `j < hist - 1`, then
`state[base + hist - 1] = x`. -/
def slide (b : Buffer K) (base hist : Nat) (x : K) : Option (Buffer K) := do
  let b ← (List.range (hist - 1)).foldlM
    (fun b (j : Nat) => b.move ((base : Int) + (j : Int)) ((base : Int) + (j : Int) + 1)) b
  b.store ((base : Int) + (hist : Int) - 1) x

section Kernels

variable [CommSemiring K]

/-- `sum += state[base + k] * weight[k]` for `k < hist`. -/
def dotHistory (b : Buffer K) (base hist : Nat) (w : Nat → K) (acc : K) : Option K :=
  (List.range hist).foldlM
    (fun acc (k : Nat) => do
      let x ← b.load ((base : Int) + (k : Int))
      pure (acc + x * w k)) acc

/-- The unrolled channel of `SSMConv1DDecodeCleanImpl` for four taps. -/
def conv4Channel (input w : Nat → K) (base wBase c ci : Nat) (s : Buffer K × (Nat → K)) :
    Option (Buffer K × (Nat → K)) := do
  let b := s.1
  let cs : Int := base
  let x0 ← b.load cs
  let x1 ← b.load (cs + 1)
  let x2 ← b.load (cs + 2)
  let y := x0 * w wBase + x1 * w (wBase + 1) + x2 * w (wBase + 2) + input ci * w (wBase + 3)
  let b ← b.move cs (cs + 1)
  let b ← b.move (cs + 1) (cs + 2)
  let b ← b.store (cs + 2) (input ci)
  pure (b, update s.2 c y)

/-- `SSMConv1DDecodeCleanImpl` on `channels` channels.  `off` and `first` are the
offsets of the state and output pointers it is given. -/
def ssmConv1dDecode (b : Buffer K) (off : Nat) (input w : Nat → K) (out : Nat → K)
    (first channels kernelSize : Nat) : Option (Buffer K × (Nat → K)) :=
  let hist := kernelSize - 1
  if kernelSize = 4 then
    (List.range channels).foldlM
      (fun s (ci : Nat) => conv4Channel input w (off + ci * 3) (ci * 4) (first + ci) ci s) (b, out)
  else do
    let out ← (List.range channels).foldlM
      (fun out (ci : Nat) => do
        let s ← dotHistory b (off + ci * hist) hist (fun k => w (ci * kernelSize + k)) 0
        pure (update out (first + ci) (s + input ci * w (ci * kernelSize + hist)))) out
    let b ← (List.range channels).foldlM
      (fun b (ci : Nat) => slide b (off + ci * hist) hist (input ci)) b
    pure (b, out)

/-- `LFM2ShortConvStep`. -/
def lfm2ShortConvStep (channels kernel : Nat) (b c x w : Nat → K) (state : Buffer K)
    (y : Nat → K) : Option (Buffer K × (Nat → K)) :=
  if channels = 0 ∨ kernel ≤ 1 then some (state, y)
  else
    let hist := kernel - 1
    (List.range channels).foldlM
      (fun s (ch : Nat) => do
        let bx := b ch * x ch
        let acc ← dotHistory s.1 (ch * hist) hist (fun j => w (ch * kernel + j))
          (bx * w (ch * kernel + hist))
        let state ← slide s.1 (ch * hist) hist bx
        pure (state, update s.2 ch (c ch * acc))) (state, y)

end Kernels

/-! ### States and tokens -/

/-- The vectors a callback can reach: per sequence, the one at its own ordinal where
that exists, and the fallback of the user data. -/
structure ConvStates (K : Type) where
  runtime : Nat → Option (Buffer K)
  fallback : Option (Buffer K)

/-- Which state vector a round works on. -/
inductive Target where
  | runtime (seq : Nat)
  | fallback
deriving DecidableEq

/-- The vector that a target stands for, where there is one. -/
def ConvStates.buffer (st : ConvStates K) : Target → Option (Buffer K)
  | .runtime seq => st.runtime seq
  | .fallback => st.fallback

/-- The states with one vector replaced. -/
def ConvStates.write (st : ConvStates K) (b : Buffer K) : Target → ConvStates K
  | .runtime seq => { st with runtime := update st.runtime seq (some b) }
  | .fallback => { st with fallback := some b }

/-- A column of the input: the token's sequence index and its values. -/
structure Token (K : Type) where
  seqId : Int
  col : Nat → K

/-- The runtime vector at a sequence index. -/
def ConvStates.at (st : ConvStates K) (seqId : Int) : Option (Buffer K) :=
  if 0 ≤ seqId then st.runtime seqId.toNat else none

/-! ### The callbacks -/

/-- `SSMConv1DUserData`, with the activation. -/
structure SsmConv1dUserData (K : Type) where
  weight : Nat → K
  channels : Nat
  kernelSize : Nat
  applySilu : Bool
  silu : K → K
  singleTask : Bool  -- reference or non-finite debugging

/-- `conv_state_elems`. -/
def convStateElems (channels kernel : Nat) : Nat := channels * (kernel - 1)

/-- The state of a token in `cb_ssm_conv1d`; without one the process ends.  The data
pointer of an empty vector is null. -/
def SsmConv1dUserData.resolveState (ud : SsmConv1dUserData K) (st : ConvStates K) (seqId : Int) :
    Option Target :=
  match st.at seqId with
  | some b =>
    if convStateElems ud.channels ud.kernelSize ≤ b.size ∧ 0 < b.size
    then some (.runtime seqId.toNat) else none
  | none => if st.fallback.isSome then some .fallback else none

/-- `out[c] = f(out[c])` for some channels. -/
def mapChannels (f : K → K) (out : Nat → K) (first last : Nat) : Nat → K :=
  fun c => if first ≤ c ∧ c < last then f (out c) else out c

/-- A task's channels in `cb_ssm_conv1d`; `none` where it returns at once. -/
def SsmConv1dUserData.channelRange (ud : SsmConv1dUserData K) (nth ith : Nat) :
    Option (Nat × Nat) :=
  let taskCount := max 1 nth
  if taskCount ≤ ith then none
  else if ud.singleTask && ith != 0 then none
  else
    let count := if ud.singleTask then 1 else taskCount
    let idx := if ud.singleTask then 0 else ith
    let first := Lib.splitStart ud.channels count idx
    let last := Lib.splitStart ud.channels count (idx + 1)
    if last ≤ first then none else some (first, last)

/-- One round of the token loop of `cb_ssm_conv1d`. -/
def ssmConv1dToken [CommSemiring K] (ud : SsmConv1dUserData K) (st : ConvStates K) (tok : Token K)
    (row : Nat → K) (first last : Nat) : Option (ConvStates K × (Nat → K)) := do
  let tgt ← ud.resolveState st tok.seqId
  let b ← st.buffer tgt
  let r ← ssmConv1dDecode b (first * (ud.kernelSize - 1)) (fun ci => tok.col (first + ci))
    (fun x => ud.weight (first * ud.kernelSize + x)) row first (last - first) ud.kernelSize
  let row' := if ud.applySilu then mapChannels ud.silu r.2 first last else r.2
  pure (st.write r.1 tgt, row')

/-- `LFM2ShortConvUserData`, as far as `cb_lfm2_shortconv` reads it. -/
structure Lfm2ShortConvUserData (K : Type) where
  convWeight : Nat → K
  channels : Nat
  kernel : Nat

/-- `LFM2ShortConvResolveState`. -/
def Lfm2ShortConvUserData.resolveState (ud : Lfm2ShortConvUserData K) (st : ConvStates K)
    (seqId : Int) : Option Target :=
  match st.at seqId with
  | some b =>
    if convStateElems ud.channels ud.kernel ≤ b.size then some (.runtime seqId.toNat) else none
  | none => none

/-- `cb_lfm2_shortconv` works in task 0 only, and only for two taps or more. -/
def Lfm2ShortConvUserData.channelRange (ud : Lfm2ShortConvUserData K) (_nth ith : Nat) :
    Option (Nat × Nat) :=
  if ith ≠ 0 then none
  else if ud.channels = 0 ∨ ud.kernel ≤ 1 then none
  else some (0, ud.channels)

/-- One round of the token loop of `cb_lfm2_shortconv`.  The output was zeroed first,
so a token without state leaves zeros. -/
def lfm2ShortConvToken [CommSemiring K] (ud : Lfm2ShortConvUserData K) (st : ConvStates K)
    (tok : Token K) (row : Nat → K) (_first _last : Nat) : Option (ConvStates K × (Nat → K)) :=
  let zeroed := mapChannels (fun _ => 0) row 0 ud.channels
  match ud.resolveState st tok.seqId with
  | none => some (st, zeroed)
  | some tgt => do
      let b ← st.buffer tgt
      let r ← lfm2ShortConvStep ud.channels ud.kernel tok.col (fun i => tok.col (ud.channels + i))
        (fun i => tok.col (2 * ud.channels + i)) ud.convWeight b zeroed
      pure (st.write r.1 tgt, r.2)

/-! ### Batches

Every task of a node runs through the tokens of the batch in order.  A schedule is
the order in which the tasks take their rounds; rounds of different tasks
interleave freely. -/

/-- What a callback does, task by task and token by token. -/
structure Op (K : Type) where
  channels : Nat
  channelRange : Nat → Nat → Option (Nat × Nat)
  token : ConvStates K → Token K → (Nat → K) → Nat → Nat → Option (ConvStates K × (Nat → K))

/-- The convolution as an operator of the graph. -/
def ssmConv1d [CommSemiring K] (ud : SsmConv1dUserData K) : Op K where
  channels := ud.channels
  channelRange := ud.channelRange
  token := ssmConv1dToken ud

/-- The short convolution as an operator of the graph. -/
def lfm2ShortConv [CommSemiring K] (ud : Lfm2ShortConvUserData K) : Op K where
  channels := ud.channels
  channelRange := ud.channelRange
  token := lfm2ShortConvToken ud

/-- One execution of the node. -/
structure Batch (K : Type) where
  nth : Nat
  tokens : List (Token K)
  schedule : List Nat
  dst : Nat → Nat → K  -- what the output tensor holds before

/-- A batch on its way: the states, how far each task is, and the rows written. -/
structure BatchState (K : Type) where
  states : ConvStates K
  done : Nat → Nat
  out : Nat → Nat → K

/-- The next round of task `ith`. -/
def Op.round (op : Op K) (nth : Nat) (tokens : List (Token K)) (s : BatchState K) (ith : Nat) :
    Option (BatchState K) :=
  match op.channelRange nth ith, tokens[s.done ith]? with
  | some (first, last), some tok => do
      let t := s.done ith
      let r ← op.token s.states tok (s.out t) first last
      pure { states := r.1
             done := update s.done ith (t + 1)
             out := update s.out t r.2 }
  | _, _ => some s

/-- A batch: the states it leaves and, token by token, the output row. -/
def Op.runBatch (op : Op K) (st : ConvStates K) (batch : Batch K) :
    Option (ConvStates K × List (Int × List K)) := do
  let s ← batch.schedule.foldlM (op.round batch.nth batch.tokens)
    { states := st, done := fun _ => 0, out := batch.dst }
  pure (s.states, batch.tokens.mapIdx fun t tok =>
    (tok.seqId, (List.range op.channels).map (s.out t)))

/-- Consecutive batches. -/
def Op.runBatches (op : Op K) (st : ConvStates K) :
    List (Batch K) → Option (ConvStates K × List (Int × List K))
  | [] => some (st, [])
  | batch :: rest => do
      let r ← op.runBatch st batch
      let r' ← op.runBatches r.1 rest
      pure (r'.1, r.2 ++ r'.2)

end DenseCore.Ssm
