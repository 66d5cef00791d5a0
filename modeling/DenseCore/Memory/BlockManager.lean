/-
The paged KV cache hands out its memory in blocks of sixteen token slots, and
`BlockManager` is the ledger of those blocks: who holds one, which are free, and
which are kept only because their contents may serve as a cached prefix of a
later prompt.

This file is the ledger as `runtime/memory/kv_cache_block_manager.cpp` computes
it.  A method that mutates the manager becomes a function that returns the new
manager, beside the method's own result when it has one; a result of `-1` is
`none`.  The vectors `free_blocks` are lists whose head is the vector's back, so
`push_back` is `cons` and `back`/`pop_back` take the head.  The three hash maps
are association lists without duplicate keys, and the order in which the C++
iterates over `prefix_cache` is a parameter of the one operation that iterates.

Locks leave no trace in a sequential run but one: a `try_to_lock` may fail at
any time, so which of them succeed is part of an allocation's choices, together
with the shard where its search starts.
-/
import Mathlib.Algebra.Order.Ring.Int
import Mathlib.Data.List.AList

namespace DenseCore

/-- `BLOCK_SIZE`: token slots in one physical block. -/
def blockSlots : Nat := 16

/-- `BlockManager::NUM_SHARDS`. -/
def numShards : Nat := 16

/-- `PhysicalBlock` -/
structure PhysicalBlock where
  refCount : Int := 0
  numFilledSlots : Int := 0
  contentHash : UInt64 := 0
  cacheResident : Bool := false
  deriving DecidableEq, Repr

/-- The manager, over an arbitrary type `σ` of recurrent-state snapshots. -/
structure BlockManager (σ : Type) where
  numBlocks : Nat
  blockSize : Int
  blocks : Int → PhysicalBlock
  shards : Nat → List Int
  prefixCache : AList (fun _ : UInt64 => Int)
  blockTokens : AList (fun _ : Int => List Int32)
  blockHybridSsmSnapshots : AList (fun _ : Int => List σ)

/-- An order in which a hash map's entries may be visited. -/
structure IterationOrder where
  arrange : List (Sigma fun _ : UInt64 => Int) → List (Sigma fun _ : UInt64 => Int)
  perm : ∀ l, (arrange l).Perm l

/-- The order the association list itself has. -/
def IterationOrder.asStored : IterationOrder where
  arrange := id
  perm := fun _ => List.Perm.refl _

/-- What an allocation may find or draw: the shard its search starts from, which
`try_to_lock`s succeed, and the iteration order of `prefix_cache`. -/
structure AllocChoice where
  startShard : Nat := 0
  ownsLock : Nat → Bool := fun _ => true
  order : IterationOrder := IterationOrder.asStored

namespace BlockManager

variable {σ : Type}

variable (m : BlockManager σ)

/-- The bounds check that opens almost every method. -/
def InRange (b : Int) : Prop := 0 ≤ b ∧ b < m.numBlocks

instance (m : BlockManager σ) (b : Int) : Decidable (m.InRange b) :=
  inferInstanceAs (Decidable (_ ∧ _))

/-- `block_id % NUM_SHARDS`. -/
def shardOf (b : Int) : Nat := (b % numShards).toNat

/-- Rewrite the record of one block. -/
@[simps -fullyApplied]
def modifyBlock (b : Int) (f : PhysicalBlock → PhysicalBlock) : BlockManager σ :=
  { m with blocks := Function.update m.blocks b (f (m.blocks b)) }

/-- `shards[b % NUM_SHARDS]->free_blocks.push_back(b)`. -/
@[simps -fullyApplied]
def pushFree (b : Int) : BlockManager σ :=
  { m with shards := Function.update m.shards (shardOf b) (b :: m.shards (shardOf b)) }

/-- Erase what the manager remembers about the contents of a block. -/
@[simps -fullyApplied]
def eraseContents (b : Int) : BlockManager σ :=
  { m with
    blockTokens := m.blockTokens.erase b
    blockHybridSsmSnapshots := m.blockHybridSsmSnapshots.erase b }

/-- `if (it != prefix_cache.end() && it->second == block_id) prefix_cache.erase(it)`. -/
def eraseIndexIfOwned (h : UInt64) (b : Int) : BlockManager σ :=
  if m.prefixCache.lookup h = some b then
    { m with prefixCache := m.prefixCache.erase h }
  else m

/-- The record of a block that is handed out. -/
def resetAllocatedBlock (b : Int) : BlockManager σ :=
  m.modifyBlock b fun _ =>
    { refCount := 1, numFilledSlots := 0, contentHash := 0, cacheResident := false }

/-- The prefix cache gives a block up. -/
def releasePrefixResidencyLocked (b : Int) (preserveBlockForReassignment : Bool) : BlockManager σ :=
  if ¬ m.InRange b then m
  else if (m.blocks b).cacheResident = false then m
  else
    let m₁ :=
      if (m.blocks b).contentHash ≠ 0 then m.eraseIndexIfOwned (m.blocks b).contentHash b
      else m
    let m₂ := (m₁.modifyBlock b fun k =>
      { k with contentHash := 0, cacheResident := false }).eraseContents b
    if preserveBlockForReassignment = false ∧ (m₂.blocks b).refCount = 0 then
      (m₂.modifyBlock b fun k => { k with numFilledSlots := 0 }).pushFree b
    else m₂

/-- The test an entry of `prefix_cache` has to pass to be evicted: its block is
resident under the entry's hash and nobody holds it. -/
def evictable (e : Sigma fun _ : UInt64 => Int) : Bool :=
  decide (m.InRange e.2) && (m.blocks e.2).cacheResident &&
    decide ((m.blocks e.2).refCount = 0) && decide ((m.blocks e.2).contentHash = e.1)

/-- The eviction itself: the entry goes, and the block is handed to the caller. -/
def evictBlock (h : UInt64) (b : Int) : BlockManager σ :=
  let m₁ := (m.modifyBlock b fun k =>
    { k with contentHash := 0, cacheResident := false, numFilledSlots := 0 }).eraseContents b
  let m₂ := { m₁ with prefixCache := m₁.prefixCache.erase h }
  m₂.resetAllocatedBlock b

/-- The first idle block of the index is evicted, if there is one. -/
def tryEvictIdlePrefixBlockForAllocation (order : IterationOrder) : Option Int × BlockManager σ :=
  match (order.arrange m.prefixCache.entries).find? m.evictable with
  | none => (none, m)
  | some e => (some e.2, m.evictBlock e.1 e.2)

/-- The constructor: every block is free, in the shard its id selects. -/
def init (numBlocks : Nat) (blockSize : Int) : BlockManager σ :=
  (List.range numBlocks).foldl (fun m (i : Nat) => m.pushFree (i : Int))
    { numBlocks := numBlocks
      blockSize := blockSize
      blocks := fun _ => {}
      shards := fun _ => []
      prefixCache := ∅
      blockTokens := ∅
      blockHybridSsmSnapshots := ∅ }

/-! ### Allocation -/

/-- Take the back of a shard's free list and reset the block. -/
def popFree (s : Nat) : Option (Int × BlockManager σ) :=
  match m.shards s with
  | [] => none
  | b :: rest =>
    some (b, ({ m with shards := Function.update m.shards s rest }).resetAllocatedBlock b)

/-- Pop blocks from one shard until `n` are taken or the shard is empty. -/
def popUpTo (s : Nat) : Nat → BlockManager σ → List Int × BlockManager σ
  | 0, m => ([], m)
  | n + 1, m =>
    match m.popFree s with
    | none => ([], m)
    | some (b, m₁) => (b :: (popUpTo s n m₁).1, (popUpTo s n m₁).2)

/-- The second loop of `Allocate`: drain shard after shard. -/
def drainShards : List Nat → Nat → BlockManager σ → List Int × BlockManager σ
  | [], _, m => ([], m)
  | s :: ss, n, m =>
    let taken := popUpTo s n m
    let more := drainShards ss (n - taken.1.length) taken.2
    (taken.1 ++ more.1, more.2)

/-- The third loop of `Allocate`: evict idle prefix blocks one at a time. -/
def evictUpTo (order : IterationOrder) : Nat → BlockManager σ → List Int × BlockManager σ
  | 0, m => ([], m)
  | n + 1, m =>
    match m.tryEvictIdlePrefixBlockForAllocation order with
    | (none, m₁) => ([], m₁)
    | (some b, m₁) => (b :: (evictUpTo order n m₁).1, (evictUpTo order n m₁).2)

/-- The shards in the order the search visits them. -/
def shardOrder (startShard : Nat) : List Nat :=
  (List.range numShards).map fun i => (startShard + i) % numShards

/-- One reference to a block less. -/
def freeSingle (b : Int) : BlockManager σ :=
  if ¬ m.InRange b then m
  else if (m.blocks b).refCount ≤ 0 then m
  else
    let m₁ := m.modifyBlock b fun k => { k with refCount := k.refCount - 1 }
    if (m₁.blocks b).refCount > 0 ∨ (m₁.blocks b).cacheResident = true then m₁
    else (m₁.modifyBlock b fun k => { k with numFilledSlots := 0, contentHash := 0 }).pushFree b

/-- `Free` -/
def free (blockIds : List Int) : BlockManager σ :=
  blockIds.foldl freeSingle m

/-- One block: of a shard whose lock is free, of any shard, or an idle one. -/
def allocateSingle (c : AllocChoice) : Option Int × BlockManager σ :=
  match (shardOrder c.startShard).findSome? fun s =>
      if c.ownsLock s then m.popFree s else none with
  | some (b, m₁) => (some b, m₁)
  | none =>
    match (List.range numShards).findSome? m.popFree with
    | some (b, m₁) => (some b, m₁)
    | none => m.tryEvictIdlePrefixBlockForAllocation c.order

/-- The bulk path of `Allocate`, for `n ≥ 2`: one shard that holds all `n` blocks,
else whatever the shards hold and then evictions, all of it given back when the
total falls short. -/
def allocateBulk (n : Nat) (c : AllocChoice) : List Int × BlockManager σ :=
  match (shardOrder c.startShard).find? fun s =>
      c.ownsLock s && decide (n ≤ (m.shards s).length) with
  | some s => popUpTo s n m
  | none =>
    let drained := drainShards (shardOrder c.startShard) n m
    let evicted := evictUpTo c.order (n - drained.1.length) drained.2
    let allocated := drained.1 ++ evicted.1
    if allocated.length < n then ([], evicted.2.free allocated)
    else (allocated, evicted.2)

/-- `Allocate`; the empty list when the blocks do not suffice. -/
def allocate (n : Int) (c : AllocChoice) : List Int × BlockManager σ :=
  if n ≤ 0 then ([], m)
  else if n = 1 then
    match m.allocateSingle c with
    | (some b, m₁) => ([b], m₁)
    | (none, m₁) => ([], m₁)
  else m.allocateBulk n.toNat c

/-- `GetFreeBlockCount`. -/
def getFreeBlockCount : Nat :=
  ((List.range numShards).map fun s => (m.shards s).length).sum

/-! ### Sharing -/

/-- One more reference to a block. -/
def fork (b : Int) : Option Int × BlockManager σ :=
  if ¬ m.InRange b then (none, m)
  else if (m.blocks b).refCount ≤ 0 then (none, m)
  else (some b, m.modifyBlock b fun k => { k with refCount := k.refCount + 1 })

/-- `CopyOnWrite`, with the pair its `copy_callback` is called on when it is. -/
def copyOnWrite (b : Int) (c : AllocChoice) : (Option Int × Option (Int × Int)) × BlockManager σ :=
  if ¬ m.InRange b then ((none, none), m)
  else if (m.blocks b).refCount ≤ 1 then ((some b, none), m)
  else
    match m.allocateSingle c with
    | (none, m₁) => ((none, none), m₁)
    | (some b', m₁) =>
      let m₂ := m₁.modifyBlock b fun k => { k with refCount := k.refCount - 1 }
      let m₃ := m₂.modifyBlock b' fun k =>
        { k with numFilledSlots := (m₂.blocks b).numFilledSlots }
      ((some b', some (b, b')), m₃)

/-- More than one holder. -/
def isShared (b : Int) : Bool :=
  decide (m.InRange b) && decide (1 < (m.blocks b).refCount)

def getRefCount (b : Int) : Int :=
  if m.InRange b then (m.blocks b).refCount else 0

def setFilledSlots (b numSlots : Int) : BlockManager σ :=
  if ¬ m.InRange b then m
  else m.modifyBlock b fun k => { k with numFilledSlots := max 0 (min numSlots m.blockSize) }

def getFilledSlots (b : Int) : Int :=
  if m.InRange b then (m.blocks b).numFilledSlots else 0

/-! ### The prefix cache

A token pointer is an optional list, `none` being the null pointer, and a length
argument says how much of it may be read.  The salt of the hash is drawn once
per process, so it is a parameter.
-/

/-- The hash of the first tokens, salted. -/
def computeTokenHash (salt : UInt64) (tokens : List Int32) (nTokens : Int) : UInt64 :=
  (tokens.take nTokens.toNat).foldl
    (fun hash t => (hash ^^^ t.toInt64.toUInt64) * 1099511628211)
    (14695981039346656037 ^^^ salt)

/-- The last step of both lookups: refuse a dead block, else take a reference. -/
def acquireCached (b : Int) : Option Int × BlockManager σ :=
  if (m.blocks b).refCount < 0 ∨
      ((m.blocks b).cacheResident = false ∧ (m.blocks b).refCount = 0) then (none, m)
  else (some b, m.modifyBlock b fun k => { k with refCount := k.refCount + 1 })

/-- The block under a hash, with one more reference to it. -/
def findCachedBlock (hash : UInt64) : Option Int × BlockManager σ :=
  if hash = 0 then (none, m)
  else
    match m.prefixCache.lookup hash with
    | none => (none, m)
    | some b => m.acquireCached b

/-- The block under a hash, if its tokens are the ones asked for. -/
def findCachedBlockWithVerification (hash : UInt64)
    (tokens : Option (List Int32)) (nTokens : Int) : Option Int × BlockManager σ :=
  match tokens with
  | none => (none, m)
  | some ts =>
    if hash = 0 ∨ nTokens ≤ 0 then (none, m)
    else
      match m.prefixCache.lookup hash with
      | none => (none, m)
      | some b =>
        match m.blockTokens.lookup b with
        | none => (none, m)
        | some stored =>
          if (stored.length : Int) ≠ nTokens then (none, m)
          else if stored ≠ ts.take nTokens.toNat then (none, m)
          else m.acquireCached b

/-- The recurrent states stored with a block. -/
def loadHybridSSMSnapshotForBlock (b : Int) : Option (List σ) :=
  if m.InRange b then m.blockHybridSsmSnapshots.lookup b else none

/-- A snapshot that exists and that the validator, when there is one, accepts. -/
def hasUsableSnapshot (b : Int) (validator : Option (List σ → Bool)) : Bool :=
  match m.loadHybridSSMSnapshotForBlock b with
  | none => false
  | some snapshot =>
    match validator with
    | none => true
    | some accepts => accepts snapshot

/-- The blocks acquired so far and how many of them end at a usable snapshot. -/
structure PrefixScan where
  acquired : List Int
  terminalSnapshotBlockCount : Int

/-- The loop of `FindLongestCachedPrefixWithVerification`, from block `k` on. -/
def scanCachedPrefix (salt : UInt64) (tokens : List Int32) (requireSnapshot : Bool)
    (validator : Option (List σ → Bool)) :
    Nat → Nat → PrefixScan → BlockManager σ → PrefixScan × BlockManager σ
  | 0, _, scan, m => (scan, m)
  | left + 1, k, scan, m =>
    let offset := k * blockSlots
    let hash := computeTokenHash salt tokens (offset + blockSlots : Nat)
    match m.findCachedBlockWithVerification hash (some (tokens.drop offset)) blockSlots with
    | (none, m₁) => (scan, m₁)
    | (some b, m₁) =>
      let acquired := scan.acquired ++ [b]
      let terminal :=
        if requireSnapshot && m₁.hasUsableSnapshot b validator then (acquired.length : Int)
        else scan.terminalSnapshotBlockCount
      scanCachedPrefix salt tokens requireSnapshot validator left (k + 1)
        ⟨acquired, terminal⟩ m₁

/-- The blocks of a cached prefix, and how long it is. -/
structure PrefixCacheMatch where
  cachedTokens : Int := 0
  cachedBlockIds : List Int := []
  deriving DecidableEq, Repr

/-- Keep the blocks up to the last usable snapshot and give back the rest. -/
def dropBeyondSnapshot (requireSnapshot : Bool) (scan : PrefixScan) (m : BlockManager σ) :
    List Int × BlockManager σ :=
  if requireSnapshot = false then (scan.acquired, m)
  else if scan.terminalSnapshotBlockCount ≤ 0 then ([], m.free scan.acquired)
  else if scan.terminalSnapshotBlockCount < scan.acquired.length then
    (scan.acquired.take scan.terminalSnapshotBlockCount.toNat,
      m.free (scan.acquired.drop scan.terminalSnapshotBlockCount.toNat))
  else (scan.acquired, m)

/-- The longest prefix of whole blocks that the cache holds. -/
def findLongestCachedPrefixWithVerification (salt : UInt64)
    (tokens : Option (List Int32)) (nTokens : Int) (requireSnapshot : Bool)
    (validator : Option (List σ → Bool)) : PrefixCacheMatch × BlockManager σ :=
  match tokens with
  | none => ({}, m)
  | some ts =>
    if nTokens ≤ blockSlots then ({}, m)
    else
      let maxReusableTokens := (nTokens - 1) / blockSlots * blockSlots
      if maxReusableTokens ≤ 0 then ({}, m)
      else
        let scanned := scanCachedPrefix salt ts requireSnapshot validator
          (maxReusableTokens / blockSlots).toNat 0 ⟨[], if requireSnapshot then 0 else -1⟩ m
        let kept := dropBeyondSnapshot requireSnapshot scanned.1 scanned.2
        ({ cachedTokens := kept.1.length * blockSlots, cachedBlockIds := kept.1 }, kept.2)

/-- A hash that another block holds is taken from it first. -/
def releaseExisting (b : Int) (hash : UInt64) : BlockManager σ :=
  match m.prefixCache.lookup hash with
  | none => m
  | some e => if e ≠ b then m.releasePrefixResidencyLocked e false else m

/-- A block that is registered under another hash gives that hash up. -/
def forgetOldHash (b : Int) (hash : UInt64) : BlockManager σ :=
  if (m.blocks b).cacheResident = true ∧ (m.blocks b).contentHash ≠ 0 ∧
      (m.blocks b).contentHash ≠ hash then
    m.eraseIndexIfOwned (m.blocks b).contentHash b
  else m

/-- Enter a block into the index under a hash. -/
@[simps -fullyApplied]
def enterIndex (b : Int) (hash : UInt64) : BlockManager σ :=
  let m₁ := m.modifyBlock b fun k => { k with contentHash := hash, cacheResident := true }
  { m₁ with prefixCache := m₁.prefixCache.insert hash b }

/-- Neither held nor resident: the registration is refused. -/
def refusesRegistration (b : Int) : Bool :=
  decide ((m.blocks b).refCount ≤ 0) && !(m.blocks b).cacheResident

/-- A block is entered under a hash. -/
def registerPrefixBlock (b : Int) (hash : UInt64) : BlockManager σ :=
  if ¬ m.InRange b ∨ hash = 0 then m
  else
    let m₁ := m.releaseExisting b hash
    if m₁.refusesRegistration b then m₁
    else
      let m₂ :=
        if (m₁.blocks b).cacheResident = true ∧ (m₁.blocks b).contentHash ≠ 0 ∧
            (m₁.blocks b).contentHash ≠ hash then
          (m₁.eraseIndexIfOwned (m₁.blocks b).contentHash b).eraseContents b
        else m₁
      m₂.enterIndex b hash

/-- Store or erase the local tokens and the snapshot of a registered block. -/
@[simps -fullyApplied]
def storeContents (b : Int) (tokens : Option (List Int32)) (nTokens : Int)
    (snapshot : Option (List σ)) : BlockManager σ :=
  { m with
    blockTokens :=
      match tokens with
      | some ts =>
        if 0 < nTokens then m.blockTokens.insert b (ts.take nTokens.toNat)
        else m.blockTokens.erase b
      | none => m.blockTokens.erase b
    blockHybridSsmSnapshots :=
      match snapshot with
      | some (s :: ss) => m.blockHybridSsmSnapshots.insert b (s :: ss)
      | _ => m.blockHybridSsmSnapshots.erase b }

/-- A block is entered under a hash with its contents. -/
def registerPrefixBlockWithTokens (b : Int) (hash : UInt64)
    (tokens : Option (List Int32)) (nTokens : Int) (snapshot : Option (List σ)) :
    BlockManager σ :=
  if ¬ m.InRange b ∨ hash = 0 then m
  else
    let m₁ := m.releaseExisting b hash
    if m₁.refusesRegistration b then m₁
    else ((m₁.forgetOldHash b hash).enterIndex b hash).storeContents b tokens nTokens snapshot

/-- A block leaves the index. -/
def unregisterPrefixBlock (b : Int) : BlockManager σ :=
  if ¬ m.InRange b then m else m.releasePrefixResidencyLocked b false

/-! ### Runs -/

/-- One call of the manager's interface, with everything it may depend on. -/
inductive Op (σ : Type) where
  | allocate (n : Int) (c : AllocChoice)
  | allocateSingle (c : AllocChoice)
  | free (blockIds : List Int)
  | freeSingle (b : Int)
  | fork (b : Int)
  | copyOnWrite (b : Int) (c : AllocChoice)
  | setFilledSlots (b numSlots : Int)
  | findCachedBlock (hash : UInt64)
  | findCachedBlockWithVerification (hash : UInt64) (tokens : Option (List Int32)) (nTokens : Int)
  | findLongestCachedPrefixWithVerification (tokens : Option (List Int32)) (nTokens : Int)
      (requireSnapshot : Bool) (validator : Option (List σ → Bool))
  | registerPrefixBlock (b : Int) (hash : UInt64)
  | registerPrefixBlockWithTokens (b : Int) (hash : UInt64) (tokens : Option (List Int32))
      (nTokens : Int) (snapshot : Option (List σ))
  | unregisterPrefixBlock (b : Int)

/-- The manager after one call. -/
def apply (salt : UInt64) (m : BlockManager σ) : Op σ → BlockManager σ
  | .allocate n c => (m.allocate n c).2
  | .allocateSingle c => (m.allocateSingle c).2
  | .free ids => m.free ids
  | .freeSingle b => m.freeSingle b
  | .fork b => (m.fork b).2
  | .copyOnWrite b c => (m.copyOnWrite b c).2
  | .setFilledSlots b n => m.setFilledSlots b n
  | .findCachedBlock h => (m.findCachedBlock h).2
  | .findCachedBlockWithVerification h ts n => (m.findCachedBlockWithVerification h ts n).2
  | .findLongestCachedPrefixWithVerification ts n req v =>
    (m.findLongestCachedPrefixWithVerification salt ts n req v).2
  | .registerPrefixBlock b h => m.registerPrefixBlock b h
  | .registerPrefixBlockWithTokens b h ts n s => m.registerPrefixBlockWithTokens b h ts n s
  | .unregisterPrefixBlock b => m.unregisterPrefixBlock b

/-- The manager after a sequence of calls. -/
def run (salt : UInt64) (m : BlockManager σ) (ops : List (Op σ)) : BlockManager σ :=
  ops.foldl (apply salt) m

end BlockManager

end DenseCore
