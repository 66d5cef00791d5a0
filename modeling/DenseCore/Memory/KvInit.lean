/-
Setting up the paged KV cache (`InitPagedKVCache`, `runtime/memory/kv_cache.cpp`).

The storage gets the shape of the largest layer, a type that its head dimensions allow, and
arenas for keys, values and, in GLM models, for the keys of the indexer.  An arena is made
of blocks without gaps; its allocator rounds a block up to 64 bytes for its own use only.
Dimensions are numbers that an `int` holds.  Output, NUMA and huge pages are left out: what
they come to is whether there is memory for an arena.
-/
import DenseCore.Memory.KvStorage

namespace DenseCore

open List

/-! ### The cache -/

/-- The `PagedKVCache` with the keys of the indexer. -/
structure IndexedKVCache extends PagedKVCache where
  indexHeadDim : Nat
  hasIndexCache : Bool
  indexBytesPerSlot : Nat
  indexBytesPerBlock : Nat
  indexLayerStrideBytes : Nat
  indexAllocator : Bool

/-- What the arenas hold. -/
inductive Part where
  | k
  | v
  | index
deriving DecidableEq

namespace IndexedKVCache

variable (c : IndexedKVCache)

def getIndexBytesPerSlot : Nat :=
  if c.indexBytesPerSlot ≠ 0 then c.indexBytesPerSlot
  else if c.hasIndexCache = false ∨ c.indexHeadDim = 0 then 0
  else 2 * c.indexHeadDim      -- `sizeof(ggml_fp16_t)`

def getIndexBytesPerBlock : Nat :=
  if c.indexBytesPerBlock ≠ 0 then c.indexBytesPerBlock else c.getIndexBytesPerSlot * kvBlockSize

def getIndexBlockPtr (block layer : Int) : Option Nat :=
  if c.hasIndexCache = false ∨ c.indexAllocator = false then none
  else if block < 0 ∨ c.maxBlocks ≤ block ∨ layer < 0 ∨ c.nLayer ≤ layer then none
  else
    let stride := if c.indexLayerStrideBytes ≠ 0 then c.indexLayerStrideBytes
      else c.getIndexBytesPerBlock * c.maxBlocks
    some (stride * layer.toNat + c.getIndexBytesPerBlock * block.toNat)

/-- `GetBytesPerBlock`, `GetVBytesPerBlock` and `GetIndexBytesPerBlock`. -/
def partBytes : Part → Nat
  | .k => c.getBytesPerBlock .k
  | .v => c.getBytesPerBlock .v
  | .index => c.getIndexBytesPerBlock

/-- `GetKBlockPtr`, `GetVBlockPtr` and `GetIndexBlockPtr`. -/
def partPtr (block layer : Int) : Part → Option Nat
  | .k => c.blockPtr .k block layer
  | .v => c.blockPtr .v block layer
  | .index => c.getIndexBlockPtr block layer

def getIndexSlotPtr (block layer slot : Int) : Option Nat :=
  match c.getIndexBlockPtr block layer with
  | none => none
  | some ptr =>
    if slot < 0 ∨ kvBlockSize ≤ slot then none
    else some (ptr + slot.toNat * c.getIndexBytesPerSlot)

/-- `GetBytesPerSlot`, `GetVBytesPerSlot` and `GetIndexBytesPerSlot`. -/
def partSlotBytes : Part → Nat
  | .k => c.getBytesPerSlot .k
  | .v => c.getBytesPerSlot .v
  | .index => c.getIndexBytesPerSlot

/-- `GetKSlotPtr`, `GetVSlotPtr` and `GetIndexSlotPtr`, from the base of the arena. -/
def partSlotPtr (block layer slot : Int) : Part → Option Nat
  | .k => c.slotPtr .k block layer slot
  | .v => c.slotPtr .v block layer slot
  | .index => c.getIndexSlotPtr block layer slot

end IndexedKVCache

/-! ### The shape -/

/-- What is read of a `TransformerModel`. -/
structure KvModel where
  bert : Bool                        -- `arch == ModelArch::BERT`
  nEmbdHeadK : Nat
  nEmbdHeadV : Nat
  nHeadKv : Nat
  nLayer : Nat
  isGlmDsa : Bool
  glmIndexHeadDim : Nat
  isGemma4 : Bool
  gemma4LayerNHeadKv : List Nat
  gemma4LayerIsSliding : List Nat
  gemma4KeyLengthFull : Nat
  gemma4ValueLengthFull : Nat
  gemma4KeyLengthSwa : Nat
  gemma4ValueLengthSwa : Nat

/-- Head dimensions and head counts, of the storage and of each layer. -/
structure KvShape where
  headDim : Nat
  vHeadDim : Nat
  nHeadKv : Nat
  nLayer : Nat
  layerNHeadKv : List Nat
  layerHeadDims : List Nat
  layerVHeadDims : List Nat

namespace KvModel

variable (model : KvModel)

/-- An embedding-only encoder gets the smallest cache there is. -/
def baseShape : KvShape :=
  let headDim := if model.bert then 1 else model.nEmbdHeadK
  let vHeadDim := if model.bert then 1
    else if 0 < model.nEmbdHeadV then model.nEmbdHeadV else model.nEmbdHeadK
  let nHeadKv := if model.bert then 1 else model.nHeadKv
  let nLayer := if model.bert then 1 else model.nLayer
  { headDim, vHeadDim, nHeadKv, nLayer
    layerNHeadKv := replicate nLayer (max 1 nHeadKv)
    layerHeadDims := replicate nLayer headDim
    layerVHeadDims := replicate nLayer vHeadDim }

/-- The head counts of Gemma 4's layers. -/
def gemma4Heads (s : KvShape) : KvShape :=
  if model.gemma4LayerNHeadKv = [] then s
  else
    let counts := (range s.nLayer).map fun layer =>
      if 0 < model.gemma4LayerNHeadKv.getD layer 0 then model.gemma4LayerNHeadKv.getD layer 0
      else max 1 s.nHeadKv
    { s with layerNHeadKv := counts, nHeadKv := counts.foldl max (max 1 s.nHeadKv) }

/-- Their head dimensions; the storage takes the largest ones. -/
def gemma4Dims (s : KvShape) : KvShape :=
  let fullK := if 0 < model.gemma4KeyLengthFull then model.gemma4KeyLengthFull else s.headDim
  let fullV := if 0 < model.gemma4ValueLengthFull then model.gemma4ValueLengthFull else s.vHeadDim
  let swaK := if 0 < model.gemma4KeyLengthSwa then model.gemma4KeyLengthSwa else fullK
  let swaV := if 0 < model.gemma4ValueLengthSwa then model.gemma4ValueLengthSwa else fullV
  let isSliding (layer : Nat) : Bool := model.gemma4LayerIsSliding.getD layer 0 != 0
  let dims := (range s.nLayer).map fun layer =>
    let total := if isSliding layer then swaK else fullK
    if 0 < total then max 1 total else s.headDim
  let vDims := (range s.nLayer).map fun layer =>
    let total := if isSliding layer then swaV else fullV
    if 0 < total then max 1 total else s.vHeadDim
  { s with
    layerHeadDims := dims
    layerVHeadDims := vDims
    headDim := dims.foldl max 0
    vHeadDim := vDims.foldl max 0 }

/-- The shape of the cache that a model asks for. -/
def shape : KvShape :=
  if model.isGemma4 then model.gemma4Dims (model.gemma4Heads model.baseShape)
  else model.baseShape

def indexHeadDim : Nat :=
  if model.bert = false ∧ model.isGlmDsa then model.glmIndexHeadDim else 0

end KvModel

/-! ### `InitPagedKVCache` -/

/-- The type of the storage; `none` is a type that is not supported. -/
def storageType (s : KvShape) (type : Option CacheType) : CacheType :=
  let type := type.getD .f16
  if type.isQuantized ∧ (s.headDim % 32 ≠ 0 ∨ s.vHeadDim % 32 ≠ 0) then .f16 else type

/-- The constructor of `KVBlockAllocator` and its `IsValid`. -/
def allocatorValid (memory : Nat → Bool) (numBlocks blockStride : Nat) : Bool :=
  numBlocks ≠ 0 && blockStride ≠ 0 && memory (numBlocks * ((blockStride + 63) / 64 * 64))

/-- `AlignUp`, for a power of two. -/
def alignUp (size alignment : Nat) : Nat := (size + alignment - 1) / alignment * alignment

/-- `arena_size_`, which huge pages round up to 2 MiB. -/
def arenaSize (hugePages : Bool) (numBlocks blockStride : Nat) : Nat :=
  let size := numBlocks * alignUp blockStride 64
  if hugePages then alignUp size 2097152 else size

/-- The cache before its sizes are stored. -/
def emptyCache (model : KvModel) (type : Option CacheType) (maxBlocks : Nat) : IndexedKVCache :=
  let s := model.shape
  { headDim := s.headDim
    vHeadDim := s.vHeadDim
    nHeadKv := s.nHeadKv
    nLayer := s.nLayer
    maxBlocks
    layerNHeadKv := s.layerNHeadKv
    layerHeadDims := s.layerHeadDims
    layerVHeadDims := s.layerVHeadDims
    bytesPerSlot := fun _ => 0
    bytesPerBlock := fun _ => 0
    layerStrideBytes := fun _ => 0
    cacheType := storageType s type
    useBlockAllocator := false
    indexHeadDim := model.indexHeadDim
    hasIndexCache := model.isGlmDsa && 0 < model.indexHeadDim
    indexBytesPerSlot := 0
    indexBytesPerBlock := 0
    indexLayerStrideBytes := 0
    indexAllocator := false }

/-- The sizes and strides, stored. -/
def IndexedKVCache.initSizes (c : IndexedKVCache) : IndexedKVCache :=
  { c with
    toPagedKVCache := c.toPagedKVCache.initStrides
    indexBytesPerSlot := c.getIndexBytesPerSlot
    indexBytesPerBlock := c.getIndexBytesPerSlot * kvBlockSize
    indexLayerStrideBytes := c.getIndexBytesPerSlot * kvBlockSize * c.maxBlocks }

/-- `InitPagedKVCache`, `none` where it throws. -/
def initPagedKVCache (memory : Nat → Bool) (model : KvModel) (maxNumSeqs maxSeqLen : Int)
    (type : Option CacheType) : Option IndexedKVCache :=
  if maxNumSeqs ≤ 0 ∨ maxSeqLen ≤ 0 then none
  else
    let maxBlocks := (maxNumSeqs * maxSeqLen + kvBlockSize - 1) / kvBlockSize
    if 2147483647 < maxBlocks then none
    else
      let c := (emptyCache model type maxBlocks.toNat).initSizes
      let n := c.maxBlocks * c.nLayer
      if allocatorValid memory n (c.bytesPerBlock .k) = false ∨
          allocatorValid memory n (c.bytesPerBlock .v) = false ∨
          (c.hasIndexCache ∧ allocatorValid memory n c.indexBytesPerBlock = false) then none
      else some { c with useBlockAllocator := true, indexAllocator := c.hasIndexCache }

end DenseCore
