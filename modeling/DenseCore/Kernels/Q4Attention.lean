/-
Attention over a KV cache quantised to four bits.

A head vector is stored as a row of Q4_0 blocks, each a half-precision scale and
sixteen bytes that pack thirty-two codes.  `WriteKSlot` and `WriteVSlot`
(`runtime/memory/kv_cache_storage.cpp`) fill a slot head by head through ggml's
quantiser, `WriteKSlots` and `WriteVSlots` fill several slots at once; `ReadKSlot`,
`ReadVSlot` and the scalar attention path (`llm/attention/paged_exec.cpp`) read it
back through ggml's `to_float`.  The Highway kernels
(`kernels/hwy/hwy_paged_attention.cc`) unpack the bytes themselves.

The quantiser, `to_float` and the decoding of a half-precision number belong to
ggml or to the hardware, so they are parameters.  Arithmetic is exact, over an
arbitrary ordered field, and the exponential is a parameter of both paths, as are
the scale and soft cap a dot product goes through before it becomes a score.
-/
import Mathlib.Algebra.BigOperators.Group.Finset.Basic
import Mathlib.Algebra.Order.Field.Basic

namespace DenseCore.Q4

open List

/-- `QK4_0`. -/
def blockElems : Nat := 32

/-- `block_q4_0`: the scale's bits and the bytes `qs[0..15]`. -/
structure Block where
  d : UInt16
  qs : Nat → UInt8

/-- `(qs[j] & 0x0F) - 8`. -/
def lowCode (byte : UInt8) : Int := ((byte &&& 0x0F).toNat : Int) - 8

/-- `(qs[j] >> 4) - 8`. -/
def highCode (byte : UInt8) : Int := ((byte >>> 4).toNat : Int) - 8

/-- Element `j` of a block in ggml's order: the low nibble of byte `j`, and from
sixteen on the high nibble of byte `j - 16`. -/
def ggmlCode (blk : Block) (j : Nat) : Int :=
  if j < 16 then lowCode (blk.qs j) else highCode (blk.qs (j - 16))

/-- The scratch buffer the kernels unpack a block into: entry `2j` from the low
nibble of byte `j`, entry `2j + 1` from its high nibble. -/
def scratch (blk : Block) (i : Nat) : Int :=
  if i % 2 = 0 then lowCode (blk.qs (i / 2)) else highCode (blk.qs (i / 2))

variable {K : Type} [Field K] [LinearOrder K]

/-! ### The cache -/

/-- The shape of a Q4_0 cache and of one of its layers.  Rows are stored at the
cache's head dimension, which the quantiser needs to be a multiple of a block. -/
structure SlotShape where
  nHeadKv : Nat
  headDim : Nat
  layerNHeadKv : Nat
  layerHeadDim : Nat
  heads_le : layerNHeadKv ≤ nHeadKv
  dim_le : layerHeadDim ≤ headDim
  whole_blocks : headDim % blockElems = 0

/-- `BLOCK_SIZE`: slots in a KV block. -/
def slotsPerBlock : Nat := 16

/-- Blocks in the row of one head: `ggml_row_size` in blocks. -/
def SlotShape.blocksPerHead (s : SlotShape) : Nat := s.headDim / blockElems

/-- `GetElementsPerSlot(layer)`. -/
def SlotShape.elemsPerSlot (s : SlotShape) : Nat := s.layerHeadDim * s.layerNHeadKv

/-- The memory of one KV block at one layer: slot after slot, head after head. -/
abbrev KvBlock := Nat → Block

/-- The head vector handed to the quantiser: the layer's data, padded with zeros. -/
def paddedHead (s : SlotShape) (data : Nat → K) (h : Nat) : List K :=
  (range s.headDim).map fun i =>
    if h < s.layerNHeadKv ∧ i < s.layerHeadDim then data (h * s.layerHeadDim + i) else 0

/-- Overwrite row `r`, counted over all slots and heads. -/
def writeRow (s : SlotShape) (mem : KvBlock) (r : Nat) (row : Nat → Block) : KvBlock :=
  fun b =>
    if r * s.blocksPerHead ≤ b ∧ b < r * s.blocksPerHead + s.blocksPerHead
    then row (b - r * s.blocksPerHead) else mem b

/-- `WriteKSlot` (`WriteVSlot` is the same with the value shape). -/
def writeSlot (quantize : List K → Nat → Block) (s : SlotShape) (mem : KvBlock) (slot : Nat)
    (data : Nat → K) : KvBlock :=
  if slotsPerBlock ≤ slot then mem
  else (range s.nHeadKv).foldl
    (fun mem h => writeRow s mem (slot * s.nHeadKv + h) (quantize (paddedHead s data h))) mem

/-- `PackLayerSlotsToStorageLayout`: element `x` of the padded copy. -/
def packLayerSlots (s : SlotShape) (data : Nat → K) (x : Nat) : K :=
  let slot := x / (s.headDim * s.nHeadKv)
  let h := x % (s.headDim * s.nHeadKv) / s.headDim
  let i := x % (s.headDim * s.nHeadKv) % s.headDim
  if h < s.layerNHeadKv ∧ i < s.layerHeadDim
  then data (slot * s.elemsPerSlot + h * s.layerHeadDim + i) else 0

/-- `WriteKSlots` (`WriteVSlots`); `bulk` is `UseKVBulkSlotPath()`. -/
def writeSlots (quantize : List K → Nat → Block) (s : SlotShape) (bulk : Bool) (mem : KvBlock)
    (startSlot numSlots : Nat) (data : Nat → K) : KvBlock :=
  if numSlots = 0 ∨ slotsPerBlock < startSlot + numSlots then mem
  else if !bulk then
    (range numSlots).foldl
      (fun mem i => writeSlot quantize s mem (startSlot + i) fun x => data (i * s.elemsPerSlot + x))
      mem
  else
    -- A layer of the cache's own shape is quantised in place, any other one repacked.
    let packed :=
      if s.layerNHeadKv ≠ s.nHeadKv ∨ s.layerHeadDim ≠ s.headDim then packLayerSlots s data
      else data
    (range (numSlots * s.nHeadKv)).foldl
      (fun mem r => writeRow s mem (startSlot * s.nHeadKv + r)
        (quantize ((range s.headDim).map fun i => packed (r * s.headDim + i)))) mem

/-- The row of a head inside a slot: `base + h * head_stride`. -/
def headRow (s : SlotShape) (mem : KvBlock) (slot h : Nat) : Nat → Block :=
  fun b => mem ((slot * s.nHeadKv + h) * s.blocksPerHead + b)

/-- `ReadKSlot` (`ReadVSlot`): element `i` of the output. -/
def readSlot (toFloat : (Nat → Block) → Nat → K) (s : SlotShape) (mem : KvBlock) (slot i : Nat) :
    K :=
  toFloat (headRow s mem slot (i / s.layerHeadDim)) (i % s.layerHeadDim)

/-- A call of one of the writers. -/
inductive KvWrite (K : Type) where
  | one (slot : Nat) (data : Nat → K)
  | many (bulk : Bool) (startSlot numSlots : Nat) (data : Nat → K)

/-- A row is written to its slot. -/
def KvWrite.apply (quantize : List K → Nat → Block) (s : SlotShape) (mem : KvBlock) :
    KvWrite K → KvBlock
  | .one slot data => writeSlot quantize s mem slot data
  | .many bulk startSlot numSlots data => writeSlots quantize s bulk mem startSlot numSlots data

/-- The head vector a call has for head `h` of a slot, if it writes that slot. -/
def KvWrite.headVector (s : SlotShape) (slot h : Nat) : KvWrite K → Option (List K)
  | .one slot' data =>
    if slot = slot' ∧ slot < slotsPerBlock ∧ h < s.nHeadKv then some (paddedHead s data h) else none
  | .many _ startSlot numSlots data =>
    if startSlot + numSlots ≤ slotsPerBlock ∧ startSlot ≤ slot ∧ slot < startSlot + numSlots ∧
        h < s.nHeadKv
    then some (paddedHead s (fun x => data ((slot - startSlot) * s.elemsPerSlot + x)) h) else none

/-! ### The Highway kernels -/

/-- The vector loop of `DotProductQ4_0` over one block, the lanes reduced at its
end, and the scalar loop over what is left of the block. -/
def dotBlock (lanes : Nat) (q : Nat → K) (v : Nat → K) : K :=
  (∑ l ∈ Finset.range lanes, ∑ it ∈ Finset.range (blockElems / lanes),
      q (it * lanes + l) * v (it * lanes + l)) +
    ∑ i ∈ Finset.range (blockElems - blockElems / lanes * lanes),
      q (blockElems / lanes * lanes + i) * v (blockElems / lanes * lanes + i)

/-- The dot product of the vector kernel, in its order. -/
def dotProductQ4_0 (fp16 : UInt16 → K) (lanes : Nat) (q : Nat → K) (row : Nat → Block)
    (headDim : Nat) : K :=
  let nb := headDim / blockElems
  (∑ b ∈ Finset.range nb,
      dotBlock lanes (fun i => q (b * blockElems + i)) (fun i => (scratch (row b) i : K)) *
        fp16 (row b).d) +
    ∑ i ∈ Finset.range (headDim - nb * blockElems),
      q (nb * blockElems + i) * ((scratch (row nb) i : K) * fp16 (row nb).d)

/-- `accum[from + i] += scratch[i] * scale` for `n` consecutive elements. -/
def addRange (accum : Nat → K) (start n : Nat) (f : Nat → K) : Nat → K :=
  fun x => if start ≤ x ∧ x < start + n then accum x + f (x - start) else accum x

/-- One block of `AccumulateQ4_0`: whole vectors, then single elements. -/
def accumulateBlock (lanes : Nat) (accum : Nat → K) (offset : Nat) (v : Nat → K) : Nat → K :=
  let vectors := blockElems / lanes
  let accum₁ := (range vectors).foldl
    (fun a it => addRange a (offset + it * lanes) lanes fun l => v (it * lanes + l)) accum
  (range (blockElems - vectors * lanes)).foldl
    (fun a i => addRange a (offset + vectors * lanes + i) 1 fun _ => v (vectors * lanes + i)) accum₁

/-- The weighted sum of the vector kernel, in its order. -/
def accumulateQ4_0 (fp16 : UInt16 → K) (lanes : Nat) (accum : Nat → K) (row : Nat → Block)
    (weight : K) (headDim : Nat) : Nat → K :=
  let nb := headDim / blockElems
  let accum₁ := (range nb).foldl
    (fun a b => accumulateBlock lanes a (b * blockElems) fun i =>
      (scratch (row b) i : K) * (fp16 (row b).d * weight)) accum
  (range (headDim - nb * blockElems)).foldl
    (fun a i => addRange a (nb * blockElems + i) 1 fun _ =>
      (scratch (row nb) i : K) * (fp16 (row nb).d * weight)) accum₁

/-! ### One head of attention -/

/-- A cached token as one query head sees it. -/
structure Token where
  visible : Bool
  kRow : Nat → Block
  vRow : Nat → Block

/-- What the two attention paths share: the decoding of a scale, the exponential,
and the map from a dot product to a score (scale and soft cap). -/
structure Numerics (K : Type) where
  fp16 : UInt16 → K
  exp : K → K
  score : K → K

/-- The running state of the kernel's softmax. -/
structure HeadState (K : Type) where
  mPrev : K
  dPrev : K
  out : Nat → K

/-- The greatest score of a block, from the kernel's start value on. -/
def blockMax (negBig : K) (scores : List (Option K)) : K :=
  scores.foldl (fun m s => match s with | some x => if m < x then x else m | none => m) negBig

/-- The weight of a score; a masked one (`-INFINITY`) weighs nothing. -/
def weightOf (exp : K → K) (ref : K) : Option K → K
  | some x => exp (x - ref)
  | none => 0

/-- One logical block of the kernel's loop. -/
def hwyBlockStep (num : Numerics K) (lanes : Nat) (negBig : K) (headDim vHeadDim : Nat)
    (q : Nat → K) (st : HeadState K) (tokens : List Token) : HeadState K :=
  let scores := tokens.map fun t =>
    if t.visible then some (num.score (dotProductQ4_0 num.fp16 lanes q t.kRow headDim)) else none
  let mNew := max st.mPrev (blockMax negBig scores)
  let alpha := num.exp (st.mPrev - mNew)
  let rescaled := fun i => if i < vHeadDim then st.out i * alpha else st.out i
  let weights := scores.map (weightOf num.exp mNew)
  { mPrev := mNew
    dPrev := st.dPrev * alpha + weights.sum
    out := (tokens.zip weights).foldl
      (fun o tw => accumulateQ4_0 num.fp16 lanes o tw.1.vRow tw.2 vHeadDim) rescaled }

/-- The kernel's state after all logical blocks of the context. -/
def hwyFinal (num : Numerics K) (lanes : Nat) (negBig : K) (headDim vHeadDim : Nat)
    (q : Nat → K) (blocks : List (List Token)) : HeadState K :=
  blocks.foldl (hwyBlockStep num lanes negBig headDim vHeadDim q)
    { mPrev := negBig, dPrev := 0, out := fun _ => 0 }

/-- One head of `PagedAttention_Hwy`; `negBig` is `-1e30` and `eps` is `1e-6`. -/
def hwyHead (num : Numerics K) (lanes : Nat) (negBig eps : K) (headDim vHeadDim : Nat)
    (q : Nat → K) (blocks : List (List Token)) (i : Nat) : K :=
  let st := hwyFinal num lanes negBig headDim vHeadDim q blocks
  if 0 < st.dPrev then st.out i * (1 / (st.dPrev + eps)) else 0

/-- One head of `ComputePagedAttentionScalarHeads`. -/
def scalarHead (num : Numerics K) (toFloat : (Nat → Block) → Nat → K) (headDim : Nat)
    (q : Nat → K) (tokens : List Token) (i : Nat) : K :=
  let visible := tokens.filter (·.visible)
  let scoreOf := fun t : Token =>
    num.score (∑ d ∈ Finset.range headDim, q d * toFloat t.kRow d)
  match visible.map scoreOf with
  | [] => 0
  | s :: rest =>
    let maxScore := rest.foldl max s
    let weighted := visible.filter fun t => 0 < num.exp (scoreOf t - maxScore)
    let denom := (weighted.map fun t => num.exp (scoreOf t - maxScore)).sum
    let out := (weighted.map fun t => num.exp (scoreOf t - maxScore) * toFloat t.vRow i).sum
    if 0 < denom then out * (1 / denom) else 0

end DenseCore.Q4
