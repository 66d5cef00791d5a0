/-
The storage of the paged KV cache (`runtime/memory/kv_cache_storage.cpp`).

An arena holds the keys, or the values, of all blocks: for each layer and block sixteen
slots, each with the rows of all heads.  The storage has room for the largest layer; a layer
with fewer heads, or shorter ones, is padded with zeros.  Floats are stored as they are, as
F16, or in rows that ggml quantises.

Slots are written and read one at a time, or several at once by the bulk routines, which
compute their own strides.  Conversions are parameters: bytes of an element for F32 and F16,
rows for the quantised types.  Statistics of the calls are left out.
-/
import DenseCore.Lib.Strided

namespace DenseCore

open Lib List

/-! ### Conversions -/

/-- The types that cached rows are stored in. -/
inductive CacheType where
  | f32
  | f16
  | q8_0
  | q4_0
deriving DecidableEq

/-- `ggml_row_size`. -/
def CacheType.rowSize : CacheType → Nat → Nat
  | .f32, n => n * 4
  | .f16, n => n * 2
  | .q8_0, n => n / 32 * 34
  | .q4_0, n => n / 32 * 18

/-- The rows are stored in blocks with a scale. -/
def CacheType.isQuantized : CacheType → Bool
  | .q8_0 | .q4_0 => true
  | _ => false

/-- How an element lies in memory: in `width` cells. -/
structure Store (F α : Type) where
  width : Nat
  put : F → Nat → α
  zero : Nat → α
  get : List α → F

/-- Floats, and what ggml makes of them. -/
structure Codec (F : Type) where
  zero : F
  f32Bytes : F → Nat → UInt8
  f32Of : List UInt8 → F
  f16Bytes : F → Nat → UInt8
  f16Of : List UInt8 → F
  quantizeRow : CacheType → List F → Nat → UInt8
  /-- `to_float` of the type's traits -/
  toFloatRow : CacheType → List UInt8 → Nat → F

variable {F α : Type}

namespace Codec

def f32 (cd : Codec F) : Store F UInt8 := ⟨4, cd.f32Bytes, cd.f32Bytes cd.zero, cd.f32Of⟩

/-- Its zero is `ggml_fp16_t(0)`, whatever `0.0f` is converted to. -/
def f16 (cd : Codec F) : Store F UInt8 := ⟨2, cd.f16Bytes, fun _ => 0, cd.f16Of⟩

/-- A scratch buffer of floats. -/
def floats (cd : Codec F) : Store F F :=
  ⟨1, fun x _ => x, fun _ => cd.zero, fun xs => xs.headD cd.zero⟩

end Codec

namespace Store

/-- `std::fill` with zeros. -/
def fill (st : Store F α) (m : Nat → α) (ptr n : Nat) : Nat → α :=
  writeCells m ptr (n * st.width) fun b => st.zero (b % st.width)

/-- `ConvertF32ToF16`, `CopyF32` or `memcpy` into the memory. -/
def copyIn (st : Store F α) (m : Nat → α) (ptr : Nat) (src : Nat → F) (n : Nat) : Nat → α :=
  writeCells m ptr (n * st.width) fun b => st.put (src (b / st.width)) (b % st.width)

/-- `ConvertF16ToF32`, `CopyF32` or `memcpy` out of it. -/
def copyOut (st : Store F α) (out : Nat → F) (dst : Nat) (m : Nat → α) (ptr n : Nat) : Nat → F :=
  writeCells out dst n fun j => st.get (readCells m (ptr + j * st.width) st.width)

end Store

/-- A pointer moved on. -/
def advance (src : Nat → F) (offset : Nat) : Nat → F := fun j => src (offset + j)

/-- `ggml_quantize_chunk`. -/
def Codec.quantizeChunk (cd : Codec F) (t : CacheType) (m : Nat → UInt8) (dst : Nat) (src : Nat → F)
    (rows perRow : Nat) : Nat → UInt8 :=
  (range rows).foldl
    (fun m r => writeCells m (dst + r * t.rowSize perRow) (t.rowSize perRow)
      (cd.quantizeRow t (readCells src (r * perRow) perRow))) m

/-! ### Packing -/

/-- The shape of the storage and that of a layer. -/
structure Geometry where
  storageHeadDim : Nat
  storageHeads : Nat
  layerHeadDim : Nat
  layerHeads : Nat

/-- The elements of a slot as it is stored. -/
def Geometry.storageElems (g : Geometry) : Nat := g.storageHeadDim * g.storageHeads

/-- The elements of a slot of one layer. -/
def Geometry.layerElems (g : Geometry) : Nat := g.layerHeadDim * g.layerHeads

/-- `PackLayerSlotsToStorageLayout`, and `WriteLayerSlotsToF16Storage` for the F16 store. -/
def Store.packLayerSlots (st : Store F α) (m : Nat → α) (dst : Nat) (src : Nat → F)
    (numSlots : Nat) (g : Geometry) : Nat → α :=
  (range numSlots).foldl
    (fun m s => (range g.layerHeads).foldl
      (fun m h => st.copyIn m (dst + (s * g.storageElems + h * g.storageHeadDim) * st.width)
        (advance src (s * g.layerElems + h * g.layerHeadDim)) g.layerHeadDim) m)
    (st.fill m dst (g.storageElems * numSlots))

/-- `UnpackStorageSlotsToLayerLayout`, and `ReadLayerSlotsFromF16Storage` for the F16 store. -/
def Store.unpackStorageSlots (st : Store F α) (out : Nat → F) (m : Nat → α) (src : Nat)
    (numSlots : Nat) (g : Geometry) : Nat → F :=
  (range numSlots).foldl
    (fun out s => (range g.layerHeads).foldl
      (fun out h => st.copyOut out (s * g.layerElems + h * g.layerHeadDim) m
        (src + (s * g.storageElems + h * g.storageHeadDim) * st.width) g.layerHeadDim) out)
    out

/-! ### The cache -/

/-- `BLOCK_SIZE`. -/
def kvBlockSize : Nat := 16

/-- Keys or values. -/
inductive Side where
  | k
  | v

/-- The fields that the addresses depend on. -/
structure PagedKVCache where
  headDim : Nat
  vHeadDim : Nat
  nHeadKv : Nat
  nLayer : Nat
  maxBlocks : Nat
  layerNHeadKv : List Nat
  layerHeadDims : List Nat
  layerVHeadDims : List Nat
  bytesPerSlot : Side → Nat      -- `k_bytes_per_slot` and `v_bytes_per_slot`
  bytesPerBlock : Side → Nat
  layerStrideBytes : Side → Nat
  cacheType : CacheType
  useBlockAllocator : Bool

namespace PagedKVCache

/-- The value for a layer, if there is one, or that of the storage. -/
def forLayer (values : List Nat) (layer : Int) (storage : Nat) : Nat :=
  if 0 ≤ layer ∧ layer < values.length ∧ 0 < values.getD layer.toNat 0 then
    values.getD layer.toNat 0
  else storage

variable (c : PagedKVCache) (cd : Codec F)

/-- `GetHeadCountForLayer`. -/
def headCountForLayer (layer : Int) : Nat :=
  forLayer c.layerNHeadKv layer c.nHeadKv

/-- `head_dim` and `v_head_dim`. -/
def storageHeadDim : Side → Nat
  | .k => c.headDim
  | .v => c.vHeadDim

/-- `GetHeadDimForLayer` and `GetVHeadDimForLayer`. -/
def headDimForLayer (layer : Int) : Side → Nat
  | .k => forLayer c.layerHeadDims layer c.headDim
  | .v => forLayer c.layerVHeadDims layer c.vHeadDim

/-- The geometry of a layer's keys or values. -/
def geometry (side : Side) (layer : Int) : Geometry :=
  ⟨c.storageHeadDim side, c.nHeadKv, c.headDimForLayer layer side, c.headCountForLayer layer⟩

/-- The size of a slot, computed. -/
def slotSize (side : Side) : Nat :=
  if c.storageHeadDim side * c.nHeadKv = 0 then 0
  else if c.cacheType.isQuantized then c.cacheType.rowSize (c.storageHeadDim side) * c.nHeadKv
  else c.cacheType.rowSize (c.storageHeadDim side * c.nHeadKv)

/-- `GetBytesPerSlot` and `GetVBytesPerSlot`. -/
def getBytesPerSlot (side : Side) : Nat :=
  if c.bytesPerSlot side ≠ 0 then c.bytesPerSlot side else c.slotSize side

/-- `GetBytesPerBlock` and `GetVBytesPerBlock`. -/
def getBytesPerBlock (side : Side) : Nat :=
  if c.bytesPerBlock side ≠ 0 then c.bytesPerBlock side else c.getBytesPerSlot side * kvBlockSize

/-- `GetKBlockPtr` and `GetVBlockPtr`, from the base of the arena. -/
def blockPtr (side : Side) (block layer : Int) : Option Nat :=
  if block < 0 ∨ c.maxBlocks ≤ block ∨ layer < 0 ∨ c.nLayer ≤ layer then none
  else if c.useBlockAllocator then
    let stride := if c.layerStrideBytes side ≠ 0 then c.layerStrideBytes side
      else c.getBytesPerBlock side * c.maxBlocks
    some (stride * layer.toNat + c.getBytesPerBlock side * block.toNat)
  else none

/-- `GetKSlotPtr` and `GetVSlotPtr`. -/
def slotPtr (side : Side) (block layer slot : Int) : Option Nat :=
  match c.blockPtr side block layer with
  | none => none
  | some ptr =>
    if slot < 0 ∨ kvBlockSize ≤ slot then none
    else some (ptr + slot.toNat * c.getBytesPerSlot side)

/-- The sizes and strides that `InitPagedKVCache` stores. -/
def initStrides : PagedKVCache :=
  { c with
    bytesPerSlot := fun side => c.slotSize side
    bytesPerBlock := fun side => c.slotSize side * kvBlockSize
    layerStrideBytes := fun side => c.slotSize side * kvBlockSize * c.maxBlocks }

/-! ### One slot -/

/-- The heads of a slot, each filled with zeros and then copied. -/
def writeHeads (st : Store F α) (m : Nat → α) (dst : Nat) (data : Nat → F) (g : Geometry) :
    Nat → α :=
  (range g.storageHeads).foldl
    (fun m h =>
      let m := st.fill m (dst + h * g.storageHeadDim * st.width) g.storageHeadDim
      if h < g.layerHeads then
        st.copyIn m (dst + h * g.storageHeadDim * st.width) (advance data (h * g.layerHeadDim))
          g.layerHeadDim
      else m) m

/-- The heads of a slot, each padded in the scratch buffer and then quantised. -/
def quantizeHeads (t : CacheType) (m : Nat → UInt8) (dst : Nat) (data : Nat → F)
    (g : Geometry) : Nat → UInt8 :=
  (range g.storageHeads).foldl
    (fun m h =>
      let padded : Nat → F := fun _ => cd.zero
      let padded := if h < g.layerHeads then
          cd.floats.copyIn padded 0 (advance data (h * g.layerHeadDim)) g.layerHeadDim
        else padded
      cd.quantizeChunk t m (dst + h * t.rowSize g.storageHeadDim) padded 1 g.storageHeadDim) m

/-- `WriteKSlot` and `WriteVSlot`. -/
def writeSlot (c : PagedKVCache) (side : Side) (arena : Nat → UInt8)
    (block layer slot : Int) (data : Nat → F) : Nat → UInt8 :=
  match c.slotPtr side block layer slot with
  | none => arena
  | some ptr =>
    let g := c.geometry side layer
    match c.cacheType with
    | .f16 => writeHeads cd.f16 arena ptr data g
    | .f32 => writeHeads cd.f32 arena ptr data g
    | t => quantizeHeads cd t arena ptr data g

/-- The heads of a slot, copied out. -/
def readHeads (st : Store F α) (out : Nat → F) (dst : Nat) (m : Nat → α) (src : Nat)
    (g : Geometry) : Nat → F :=
  (range g.layerHeads).foldl
    (fun out h => st.copyOut out (dst + h * g.layerHeadDim) m
      (src + h * g.storageHeadDim * st.width) g.layerHeadDim) out

/-- A row, read into the scratch buffer. -/
def dequantizeRow (t : CacheType) (scratch : Nat → F) (dst : Nat) (m : Nat → UInt8)
    (src n : Nat) : Nat → F :=
  writeCells scratch dst n (cd.toFloatRow t (readCells m src (t.rowSize n)))

/-- The heads of a slot, read out of their blocks. -/
def dequantizeHeads (t : CacheType) (scratch out : Nat → F) (dst : Nat)
    (m : Nat → UInt8) (src : Nat) (g : Geometry) : Nat → F :=
  (range g.layerHeads).foldl (fun out h => cd.floats.copyOut out (dst + h * g.layerHeadDim)
      (dequantizeRow cd t scratch 0 m (src + h * t.rowSize g.storageHeadDim) g.storageHeadDim) 0
      g.layerHeadDim) out

/-- `ReadKSlot` and `ReadVSlot`, into `out` from `dst` on. -/
def readSlot (c : PagedKVCache) (side : Side) (scratch : Nat → F)
    (arena : Nat → UInt8) (block layer slot : Int) (out : Nat → F) (dst : Nat) : Nat → F :=
  match c.slotPtr side block layer slot with
  | none => out
  | some ptr =>
    let g := c.geometry side layer
    match c.cacheType with
    | .f16 => readHeads cd.f16 out dst arena ptr g
    | .f32 => readHeads cd.f32 out dst arena ptr g
    | t => dequantizeHeads cd t scratch out dst arena ptr g

/-! ### Several slots -/

/-- Slot by slot: the calls of `WriteKSlot` or `WriteVSlot` for a range. -/
def writeEach (c : PagedKVCache) (side : Side) (arena : Nat → UInt8)
    (block layer startSlot numSlots : Int) (data : Nat → F) : Nat → UInt8 :=
  (range numSlots.toNat).foldl
    (fun arena (i : Nat) => writeSlot cd c side arena block layer (startSlot + i)
      (advance data (i * (c.geometry side layer).layerElems))) arena

/-- The slots of a range, read one by one. -/
def readEach (c : PagedKVCache) (side : Side) (scratch : Nat → F)
    (arena : Nat → UInt8) (block layer startSlot numSlots : Int) (out : Nat → F) : Nat → F :=
  (range numSlots.toNat).foldl
    (fun out (i : Nat) => readSlot cd c side scratch arena block layer (startSlot + i) out
      (i * (c.geometry side layer).layerElems)) out

/-- A range that the bulk routines return from at once. -/
def BadRange (startSlot numSlots : Int) : Prop :=
  numSlots ≤ 0 ∨ startSlot < 0 ∨ kvBlockSize < startSlot + numSlots

instance (startSlot numSlots : Int) : Decidable (BadRange startSlot numSlots) :=
  inferInstanceAs (Decidable (_ ∨ _ ∨ _))

/-- Storage and layer of the same shape: elements are copied in one go. -/
def copySlots (st : Store F α) (m : Nat → α) (dst : Nat) (data : Nat → F) (numSlots : Nat)
    (g : Geometry) : Nat → α :=
  let total := g.layerElems * numSlots
  let m := st.copyIn m dst data total
  let storageTotal := g.storageElems * numSlots
  if total < storageTotal then st.fill m (dst + total * st.width) (storageTotal - total) else m

/-- The slots of a range, quantized row by row; a row that is stored longer is padded. -/
def quantizeSlots (t : CacheType) (scratch : Nat → F) (m : Nat → UInt8) (dst : Nat)
    (data : Nat → F) (numSlots : Nat) (g : Geometry) : Nat → UInt8 :=
  let totalRows := numSlots * g.storageHeads
  if g.layerHeadDim = g.storageHeadDim then
    cd.quantizeChunk t m dst data totalRows g.storageHeadDim
  else
    let padded := cd.floats.fill scratch 0 (g.storageElems * numSlots)
    let padded := (range totalRows).foldl
      (fun padded row => cd.floats.copyIn padded (row * g.storageHeadDim)
        (advance data (row * g.layerHeadDim)) g.layerHeadDim) padded
    cd.quantizeChunk t m dst padded totalRows g.storageHeadDim

/-- `WriteKSlots` and `WriteVSlots`; `bulk` is `UseKVBulkSlotPath`. -/
def writeSlots (c : PagedKVCache) (side : Side) (bulk : Bool) (scratch : Nat → F)
    (arena : Nat → UInt8) (block layer startSlot numSlots : Int) (data : Nat → F) : Nat → UInt8 :=
  if BadRange startSlot numSlots then arena
  else
    let g := c.geometry side layer
    let n := numSlots.toNat
    if g.layerHeads ≠ g.storageHeads ∨ g.layerHeadDim ≠ g.storageHeadDim then
      if bulk = false then writeEach cd c side arena block layer startSlot numSlots data
      else
        match c.slotPtr side block layer startSlot with
        | none => arena
        | some ptr =>
          match c.cacheType with
          | .f16 => cd.f16.packLayerSlots arena ptr data n g
          | .f32 => cd.f32.packLayerSlots arena ptr data n g
          | t =>
            let padded := cd.floats.packLayerSlots scratch 0 data n g
            cd.quantizeChunk t arena ptr padded (n * g.storageHeads) g.storageHeadDim
    else if bulk = false then writeEach cd c side arena block layer startSlot numSlots data
    else
      match c.slotPtr side block layer startSlot with
      | none => arena
      | some ptr =>
        match c.cacheType with
        | .f16 => copySlots cd.f16 arena ptr data n g
        | .f32 => copySlots cd.f32 arena ptr data n g
        | t => quantizeSlots cd t scratch arena ptr data n g

/-- `ReadKSlots` and `ReadVSlots`. -/
def readSlots (c : PagedKVCache) (side : Side) (bulk : Bool) (scratch : Nat → F)
    (arena : Nat → UInt8) (block layer startSlot numSlots : Int) (out : Nat → F) : Nat → F :=
  if BadRange startSlot numSlots then out
  else
    let g := c.geometry side layer
    let n := numSlots.toNat
    if g.layerHeads ≠ g.storageHeads ∨ g.layerHeadDim ≠ g.storageHeadDim then
      if bulk = false then readEach cd c side scratch arena block layer startSlot numSlots out
      else
        match c.slotPtr side block layer startSlot with
        | none => out
        | some ptr =>
          match c.cacheType with
          | .f16 => cd.f16.unpackStorageSlots out arena ptr n g
          | .f32 => cd.f32.unpackStorageSlots out arena ptr n g
          | t =>
            let padded := (range (n * g.storageHeads)).foldl
              (fun padded row => dequantizeRow cd t padded (row * g.storageHeadDim) arena
                (ptr + row * t.rowSize g.storageHeadDim) g.storageHeadDim) scratch
            cd.floats.unpackStorageSlots out padded 0 n g
    else if bulk = false then readEach cd c side scratch arena block layer startSlot numSlots out
    else
      match c.slotPtr side block layer startSlot with
      | none => out
      | some ptr =>
        match c.cacheType with
        | .f16 => cd.f16.copyOut out 0 arena ptr (g.layerElems * n)
        | .f32 => cd.f32.copyOut out 0 arena ptr (g.layerElems * n)
        | t =>
          (range (n * g.storageHeads)).foldl
            (fun out row => cd.floats.copyOut out (row * g.layerHeadDim)
              (dequantizeRow cd t scratch 0 arena (ptr + row * t.rowSize g.storageHeadDim)
                g.storageHeadDim) 0 g.layerHeadDim) out

/-! ### The calls -/

section Calls

variable (cd : Codec F) (c : PagedKVCache) (bulk : Bool) (scratch : Nat → F) (arena : Nat → UInt8)
  (block layer startSlot numSlots slot : Int) (data out : Nat → F) (dst : Nat)

def writeKSlot : Nat → UInt8 := writeSlot cd c .k arena block layer slot data

def writeVSlot : Nat → UInt8 := writeSlot cd c .v arena block layer slot data

def readKSlot : Nat → F := readSlot cd c .k scratch arena block layer slot out dst

def readVSlot : Nat → F := readSlot cd c .v scratch arena block layer slot out dst

def writeKSlots : Nat → UInt8 :=
  writeSlots cd c .k bulk scratch arena block layer startSlot numSlots data

def writeVSlots : Nat → UInt8 :=
  writeSlots cd c .v bulk scratch arena block layer startSlot numSlots data

def readKSlots : Nat → F :=
  readSlots cd c .k bulk scratch arena block layer startSlot numSlots out

def readVSlots : Nat → F :=
  readSlots cd c .v bulk scratch arena block layer startSlot numSlots out

end Calls

end PagedKVCache

end DenseCore
