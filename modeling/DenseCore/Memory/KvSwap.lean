/-
Swapping blocks to host memory and back (`CopyBlocksToHost` and `RestoreBlocksFromHost`,
`runtime/memory/kv_cache_storage.cpp`).

The keys and the values of the blocks go to two buffers, block by block and layer by layer;
the keys of the indexer go behind the others in the buffer for keys.  Both routines compute
the places in the buffers anew.
-/
import DenseCore.Memory.KvInit

namespace DenseCore

open Lib

/-- The contents of the arenas. -/
abbrev Arenas := Part → Nat → UInt8

/-- A `std::vector<uint8_t>`. -/
structure HostBuffer where
  size : Nat
  data : Nat → UInt8

/-- `assign(n, 0)`. -/
def HostBuffer.zeros (n : Nat) : HostBuffer := ⟨n, fun _ => 0⟩

/-- `memcpy` of `n` bytes into the buffer. -/
def HostBuffer.fill (b : HostBuffer) (offset : Nat) (m : Nat → UInt8) (ptr n : Nat) : HostBuffer :=
  { b with data := writeCells b.data offset n fun i => m (ptr + i) }

/-- `memcpy` of `n` bytes into an arena. -/
def Arenas.fill (a : Arenas) (part : Part) (ptr : Nat) (b : HostBuffer) (offset n : Nat) : Arenas :=
  fun p => if p = part then writeCells (a p) ptr n fun i => b.data (offset + i) else a p

namespace IndexedKVCache

variable (c : IndexedKVCache)

/-- `total_k_bytes` and `total_v_bytes`. -/
def totalBytes (blocks : Nat) (part : Part) : Nat :=
  blocks * c.nLayer * c.partBytes part

def totalIndexBytes (blocks : Nat) : Nat :=
  if c.hasIndexCache then c.totalBytes blocks .index else 0

/-- `k_out` and `v_out`, after the copies of one block in one layer. -/
def copyLayer (a : Arenas) (blocks i : Nat) (block : Int)
    (out : HostBuffer × HostBuffer) (layer : Nat) : HostBuffer × HostBuffer :=
  let row := i * c.nLayer + layer
  let (kOut, vOut) := out
  let kOut := match c.partPtr block layer .k with
    | some ptr => kOut.fill (row * c.partBytes .k) (a .k) ptr (c.partBytes .k)
    | none => kOut
  let vOut := match c.partPtr block layer .v with
    | some ptr => vOut.fill (row * c.partBytes .v) (a .v) ptr (c.partBytes .v)
    | none => vOut
  let kOut := match c.partPtr block layer .index with
    | some ptr =>
      if 0 < c.totalIndexBytes blocks then
        kOut.fill (c.totalBytes blocks .k + row * c.partBytes .index) (a .index) ptr
          (c.partBytes .index)
      else kOut
    | none => kOut
  (kOut, vOut)

/-- `CopyBlocksToHost` -/
def copyBlocksToHost (a : Arenas) (blockIds : List Int) : HostBuffer × HostBuffer :=
  let blocks := blockIds.length
  (List.range blocks).foldl
    (fun out i =>
      let block := blockIds.getD i 0
      if block < 0 then out
      else (List.range c.nLayer).foldl (c.copyLayer a blocks i block) out)
    (HostBuffer.zeros (c.totalBytes blocks .k + c.totalIndexBytes blocks),
      HostBuffer.zeros (c.totalBytes blocks .v))

/-- The arenas, after the copies of one block in one layer. -/
def restoreLayer (kIn vIn : HostBuffer) (blocks i : Nat) (block : Int)
    (a : Arenas) (layer : Nat) : Arenas :=
  let row := i * c.nLayer + layer
  let a := match c.partPtr block layer .k with
    | some ptr => a.fill .k ptr kIn (row * c.partBytes .k) (c.partBytes .k)
    | none => a
  let a := match c.partPtr block layer .v with
    | some ptr => a.fill .v ptr vIn (row * c.partBytes .v) (c.partBytes .v)
    | none => a
  match c.partPtr block layer .index with
  | some ptr =>
    if 0 < c.totalIndexBytes blocks ∧
        c.totalBytes blocks .k + c.totalIndexBytes blocks ≤ kIn.size then
      a.fill .index ptr kIn (c.totalBytes blocks .k + row * c.partBytes .index)
        (c.partBytes .index)
    else a
  | none => a

/-- `RestoreBlocksFromHost` -/
def restoreBlocksFromHost (a : Arenas) (blockIds : List Int) (kIn vIn : HostBuffer) : Arenas :=
  let blocks := blockIds.length
  if kIn.size < c.totalBytes blocks .k ∨ vIn.size < c.totalBytes blocks .v then a
  else
    (List.range blocks).foldl
      (fun a i =>
        let block := blockIds.getD i 0
        if block < 0 then a
        else (List.range c.nLayer).foldl (c.restoreLayer kIn vIn blocks i block) a) a

end IndexedKVCache

end DenseCore
