/-
The moves the block manager is made of, and the invariant they keep.

Thirteen operations change the ledger, but between them they only ever make nine
moves: take a block off a free list, evict an idle cached one, drop or add a
reference, give a block back, note how many slots are filled, drop a block from
the prefix index, and enter it there with or without its tokens.  `Move` lists
them with the guards under which the code makes them.

`WellFormed` is the state of the ledger as it should be.  Its first half says that
free, held and idle-but-cached blocks partition the pool and that a free block is
on exactly one list, the one its id selects.  Its second half says that the
prefix index and the fields of the blocks tell the same story.  The halves lean
on each other: a block popped from a free list leaves the index alone only
because a free block is never cached.
-/
import DenseCore.Memory.BlockManager
import DenseCore.Lib.Reach

namespace DenseCore.BlockManager

open Function (update update_of_ne update_self)

variable {σ : Type}

/-! ### The invariant -/

/-- Nobody holds the block and the prefix cache does not keep it. -/
def IsFree (m : BlockManager σ) (b : Int) : Prop :=
  m.InRange b ∧ (m.blocks b).refCount = 0 ∧ (m.blocks b).cacheResident = false

/-- The free lists hold the free blocks, each once, in its own shard. -/
structure Partition (m : BlockManager σ) : Prop where
  mem_iff : ∀ s b, b ∈ m.shards s ↔ s = shardOf b ∧ m.IsFree b
  nodup : ∀ s, (m.shards s).Nodup
  refNonneg : ∀ b, 0 ≤ (m.blocks b).refCount

/-- The index maps a hash to the one resident block that carries it. -/
structure PrefixIndex (m : BlockManager σ) : Prop where
  lookup_iff : ∀ h b, m.prefixCache.lookup h = some b ↔
    (m.blocks b).cacheResident = true ∧ (m.blocks b).contentHash = h ∧ h ≠ 0
  hash_iff : ∀ b, (m.blocks b).contentHash ≠ 0 ↔ (m.blocks b).cacheResident = true
  residentInRange : ∀ b, (m.blocks b).cacheResident = true → m.InRange b
  tokensResident : ∀ b, b ∈ m.blockTokens → (m.blocks b).cacheResident = true
  snapshotsResident : ∀ b, b ∈ m.blockHybridSsmSnapshots → (m.blocks b).cacheResident = true

/-- The invariant of the block manager. -/
structure WellFormed (m : BlockManager σ) : Prop where
  partition : Partition m
  index : PrefixIndex m

/-! ### The moves -/

/-- The body of a bare registration, once the hash is free and the block accepted. -/
def indexBare (m : BlockManager σ) (b : Int) (h : UInt64) : BlockManager σ :=
  (if (m.blocks b).cacheResident = true ∧ (m.blocks b).contentHash ≠ 0 ∧
      (m.blocks b).contentHash ≠ h then
    (m.eraseIndexIfOwned (m.blocks b).contentHash b).eraseContents b
  else m).enterIndex b h

/-- The guard both registrations share: the hash is free or already this block's,
and the block is held or resident. -/
structure MayIndex (m : BlockManager σ) (b : Int) (h : UInt64) : Prop where
  inRange : m.InRange b
  hashNe : h ≠ 0
  owner : ∀ b', m.prefixCache.lookup h = some b' → b' = b
  live : 0 < (m.blocks b).refCount ∨ (m.blocks b).cacheResident = true

/-- The moves that enter nothing into the index. -/
inductive QuietMove : BlockManager σ → BlockManager σ → Prop where
  | takeFree {m : BlockManager σ} {s : Nat} {b : Int} {rest : List Int}
      (h : m.shards s = b :: rest) :
      QuietMove m (({ m with shards := update m.shards s rest }).resetAllocatedBlock b)
  | evict {m : BlockManager σ} {h : UInt64} {b : Int}
      (hlook : m.prefixCache.lookup h = some b) (href : (m.blocks b).refCount = 0) :
      QuietMove m (m.evictBlock h b)
  | dropRef {m : BlockManager σ} {b : Int} (hpos : 0 < (m.blocks b).refCount)
      (hkeep : 1 < (m.blocks b).refCount ∨ (m.blocks b).cacheResident = true) :
      QuietMove m (m.modifyBlock b fun k => { k with refCount := k.refCount - 1 })
  | giveBack {m : BlockManager σ} {b : Int} (hin : m.InRange b)
      (href : (m.blocks b).refCount = 1) (hres : (m.blocks b).cacheResident = false) :
      QuietMove m (((m.modifyBlock b fun k => { k with refCount := k.refCount - 1 }).modifyBlock b
        fun k => { k with numFilledSlots := 0, contentHash := 0 }).pushFree b)
  | addRef {m : BlockManager σ} {b : Int}
      (hlive : 0 < (m.blocks b).refCount ∨ (m.blocks b).cacheResident = true) :
      QuietMove m (m.modifyBlock b fun k => { k with refCount := k.refCount + 1 })
  | fill {m : BlockManager σ} {b : Int} {n : Int} :
      QuietMove m (m.modifyBlock b fun k => { k with numFilledSlots := n })
  | release {m : BlockManager σ} {b : Int} (hin : m.InRange b)
      (hres : (m.blocks b).cacheResident = true) :
      QuietMove m (m.releasePrefixResidencyLocked b false)

/-- A move, those that enter something into the index included. -/
inductive Move : BlockManager σ → BlockManager σ → Prop where
  | quiet {m m' : BlockManager σ} (h : QuietMove m m') : Move m m'
  | bare {m : BlockManager σ} {b : Int} {h : UInt64} (hmay : m.MayIndex b h) :
      Move m (m.indexBare b h)
  | withTokens {m : BlockManager σ} {b : Int} {h : UInt64} {ts : Option (List Int32)} {n : Int}
      {snap : Option (List σ)} (hmay : m.MayIndex b h) :
      Move m (((m.forgetOldHash b h).enterIndex b h).storeContents b ts n snap)

/-! ### What the updates leave alone -/

theorem modifyBlock_field {β : Type} (g : PhysicalBlock → β) (m : BlockManager σ) (b b' : Int)
    {f : PhysicalBlock → PhysicalBlock} (hf : g (f (m.blocks b)) = g (m.blocks b)) :
    g ((m.modifyBlock b f).blocks b') = g (m.blocks b') := by
  by_cases heq : b' = b
  · subst heq; simpa using hf
  · simp [heq]

section Frames

variable (m : BlockManager σ) (h : UInt64) (b : Int)

@[simp] theorem eraseIndexIfOwned_numBlocks :
    (m.eraseIndexIfOwned h b).numBlocks = m.numBlocks := by
  unfold eraseIndexIfOwned; split <;> rfl

@[simp] theorem eraseIndexIfOwned_blocks : (m.eraseIndexIfOwned h b).blocks = m.blocks := by
  unfold eraseIndexIfOwned; split <;> rfl

@[simp] theorem eraseIndexIfOwned_shards : (m.eraseIndexIfOwned h b).shards = m.shards := by
  unfold eraseIndexIfOwned; split <;> rfl

@[simp] theorem eraseIndexIfOwned_blockTokens :
    (m.eraseIndexIfOwned h b).blockTokens = m.blockTokens := by
  unfold eraseIndexIfOwned; split <;> rfl

@[simp] theorem eraseIndexIfOwned_blockHybridSsmSnapshots :
    (m.eraseIndexIfOwned h b).blockHybridSsmSnapshots = m.blockHybridSsmSnapshots := by
  unfold eraseIndexIfOwned; split <;> rfl

theorem eraseIndexIfOwned_lookup (h' : UInt64) : (m.eraseIndexIfOwned h b).prefixCache.lookup h' =
      if h' = h ∧ m.prefixCache.lookup h = some b then none else m.prefixCache.lookup h' := by
  unfold eraseIndexIfOwned
  by_cases hown : m.prefixCache.lookup h = some b
  · by_cases heq : h' = h
    · subst heq; simp [hown]
    · simp [hown, heq, AList.lookup_erase_ne heq]
  · simp [hown]

@[simp] theorem forgetOldHash_numBlocks : (m.forgetOldHash b h).numBlocks = m.numBlocks := by
  unfold forgetOldHash; split <;> simp

@[simp] theorem forgetOldHash_blocks : (m.forgetOldHash b h).blocks = m.blocks := by
  unfold forgetOldHash; split <;> simp

@[simp] theorem forgetOldHash_shards : (m.forgetOldHash b h).shards = m.shards := by
  unfold forgetOldHash; split <;> simp

@[simp] theorem forgetOldHash_blockTokens : (m.forgetOldHash b h).blockTokens = m.blockTokens := by
  unfold forgetOldHash; split <;> simp

@[simp] theorem forgetOldHash_blockHybridSsmSnapshots :
    (m.forgetOldHash b h).blockHybridSsmSnapshots = m.blockHybridSsmSnapshots := by
  unfold forgetOldHash; split <;> simp

end Frames

/-! ### The free lists under a move

Three shapes cover every move: the lists stay and the block that changes keeps
its status, a block leaves the head of a list, a block is pushed on its list.
-/

variable {b : Int} {k : PhysicalBlock} {h : UInt64}

theorem Partition.of_modify {m m' : BlockManager σ} (hm : Partition m)
    (hn : m'.numBlocks = m.numBlocks) (hs : m'.shards = m.shards)
    (hb : m'.blocks = update m.blocks b k) (hk : 0 ≤ k.refCount)
    (hstatus : k.refCount = 0 ∧ k.cacheResident = false ↔
      (m.blocks b).refCount = 0 ∧ (m.blocks b).cacheResident = false) : Partition m' := by
  have hfree : ∀ b', m'.IsFree b' ↔ m.IsFree b' := by
    intro b'
    unfold IsFree InRange
    rw [hn, hb]
    by_cases heq : b' = b
    · subst heq
      simp only [update_self]
      rw [hstatus]
    · simp only [update_of_ne heq]
  refine ⟨?_, ?_, ?_⟩
  · intro s b'
    rw [hs, hfree b']
    exact hm.mem_iff s b'
  · intro s
    rw [hs]
    exact hm.nodup s
  intro b'
  rw [hb]
  by_cases heq : b' = b
  · subst heq; simpa using hk
  · simpa [update_of_ne heq] using hm.refNonneg b'

/-- A free block is taken off the head of its shard. -/
theorem Partition.of_pop {m m' : BlockManager σ} (hm : Partition m) {s : Nat}
    {rest : List Int} (hhead : m.shards s = b :: rest)
    (hn : m'.numBlocks = m.numBlocks) (hs : m'.shards = update m.shards s rest)
    (hb : m'.blocks = update m.blocks b k) (hk : 0 < k.refCount) : Partition m' := by
  have hown : s = shardOf b ∧ m.IsFree b := (hm.mem_iff s b).mp (by simp [hhead])
  have hnodup : b ∉ rest ∧ rest.Nodup := by
    have := hm.nodup s
    rw [hhead] at this
    exact List.nodup_cons.mp this
  have hbusy : ¬ m'.IsFree b := by
    unfold IsFree
    rw [hb]
    simp only [update_self]
    omega
  have hfree : ∀ b', b' ≠ b → (m'.IsFree b' ↔ m.IsFree b') := by
    intro b' hne
    unfold IsFree InRange
    rw [hn, hb]
    simp only [update_of_ne hne]
  refine ⟨?_, ?_, ?_⟩
  · intro s' b'
    rw [hs]
    by_cases heq : b' = b
    · -- The popped block is busy now, and it was on no list but the one it left.
      subst heq
      refine iff_of_false ?_ (fun hc => hbusy hc.2)
      by_cases hss : s' = s
      · subst hss; simpa using hnodup.1
      rw [update_of_ne hss]
      intro hmem
      exact hss (((hm.mem_iff s' b').mp hmem).1.trans hown.1.symm)
    rw [hfree b' heq, ← hm.mem_iff s' b']
    by_cases hss : s' = s
    · subst hss; simp [hhead, heq]
    · rw [update_of_ne hss]
  · intro s'
    rw [hs]
    by_cases hss : s' = s
    · subst hss; simpa using hnodup.2
    · simpa [update_of_ne hss] using hm.nodup s'
  · intro b'
    rw [hb]
    by_cases heq : b' = b
    · subst heq; simpa using Int.le_of_lt hk
    · simpa [update_of_ne heq] using hm.refNonneg b'

/-- A block is put back on its shard. -/
theorem Partition.of_push {m m' : BlockManager σ} (hm : Partition m) (hin : m.InRange b)
    (hbusy : ¬ m.IsFree b)
    (hn : m'.numBlocks = m.numBlocks)
    (hs : m'.shards = update m.shards (shardOf b) (b :: m.shards (shardOf b)))
    (hb : m'.blocks = update m.blocks b k) (hk : k.refCount = 0)
    (hres : k.cacheResident = false) : Partition m' := by
  have hnew : m'.IsFree b := by
    unfold IsFree InRange
    rw [hn, hb]
    simp only [update_self]
    exact ⟨hin, hk, hres⟩
  have hfree : ∀ b', b' ≠ b → (m'.IsFree b' ↔ m.IsFree b') := by
    intro b' hne
    unfold IsFree InRange
    rw [hn, hb]
    simp only [update_of_ne hne]
  refine ⟨?_, ?_, ?_⟩
  · intro s b'
    rw [hs]
    by_cases heq : b' = b
    · subst heq
      by_cases hss : s = shardOf b'
      · subst hss; simpa using hnew
      rw [update_of_ne hss]
      refine iff_of_false ?_ (fun hc => hss hc.1)
      intro hmem
      exact hbusy ((hm.mem_iff s b').mp hmem).2
    rw [hfree b' heq, ← hm.mem_iff s b']
    by_cases hss : s = shardOf b
    · subst hss; simp [heq]
    · rw [update_of_ne hss]
  · intro s
    rw [hs]
    by_cases hss : s = shardOf b
    · subst hss
      simp only [update_self, List.nodup_cons]
      exact ⟨fun hmem => hbusy ((hm.mem_iff _ b).mp hmem).2, hm.nodup _⟩
    · simpa [update_of_ne hss] using hm.nodup s
  · intro b'
    rw [hb]
    by_cases heq : b' = b
    · subst heq; simp [hk]
    · simpa [update_of_ne heq] using hm.refNonneg b'

/-! ### The index under a move

Again three shapes: nothing the index speaks about changes, a resident block is
dropped, a block is entered.
-/

theorem PrefixIndex.of_same {m m' : BlockManager σ} (hm : PrefixIndex m)
    (hn : m'.numBlocks = m.numBlocks) (hc : m'.prefixCache = m.prefixCache)
    (ht : m'.blockTokens = m.blockTokens)
    (hp : m'.blockHybridSsmSnapshots = m.blockHybridSsmSnapshots)
    (hres : ∀ b, (m'.blocks b).cacheResident = (m.blocks b).cacheResident)
    (hhash : ∀ b, (m'.blocks b).contentHash = (m.blocks b).contentHash) : PrefixIndex m' := by
  refine ⟨?_, ?_, ?_, ?_, ?_⟩
  · intro h b
    rw [hc, hres, hhash]
    exact hm.lookup_iff h b
  · intro b
    rw [hres, hhash]
    exact hm.hash_iff b
  · intro b hb
    rw [hres] at hb
    unfold InRange
    rw [hn]
    exact hm.residentInRange b hb
  · intro b hb
    rw [ht] at hb
    rw [hres]
    exact hm.tokensResident b hb
  intro b hb
  rw [hp] at hb
  rw [hres]
  exact hm.snapshotsResident b hb

/-- A resident block leaves the index. -/
theorem PrefixIndex.of_drop {m m' : BlockManager σ} (hm : PrefixIndex m)
    (hn : m'.numBlocks = m.numBlocks)
    (hres : (m.blocks b).cacheResident = true)
    (hb : m'.blocks = update m.blocks b k) (hkres : k.cacheResident = false)
    (hkhash : k.contentHash = 0) (hc : ∀ h, m'.prefixCache.lookup h =
      if h = (m.blocks b).contentHash then none else m.prefixCache.lookup h)
    (ht : m'.blockTokens = m.blockTokens.erase b)
    (hp : m'.blockHybridSsmSnapshots = m.blockHybridSsmSnapshots.erase b) : PrefixIndex m' := by
  refine ⟨?_, ?_, ?_, ?_, ?_⟩
  · intro h b'
    rw [hc, hb]
    by_cases heq : b' = b
    · -- The dropped block: its hash is gone, and no other hash led to it.
      subst heq
      simp only [update_self, hkres]
      refine iff_of_false ?_ (by simp)
      split
      · simp
      rename_i hne
      intro hlook
      exact hne ((hm.lookup_iff h b').mp hlook).2.1.symm
    rw [update_of_ne heq]
    split
    · rename_i hh
      refine iff_of_false (by simp) ?_
      rintro ⟨hres', hhash', hne⟩
      have h1 := (hm.lookup_iff h b').mpr ⟨hres', hhash', hne⟩
      have h2 := (hm.lookup_iff h b).mpr ⟨hres, hh.symm, hne⟩
      rw [h1] at h2
      exact heq (Option.some.inj h2)
    · exact hm.lookup_iff h b'
  · intro b'
    rw [hb]
    by_cases heq : b' = b
    · subst heq; simp [hkres, hkhash]
    rw [update_of_ne heq]
    exact hm.hash_iff b'
  · intro b' hb'
    unfold InRange
    rw [hn]
    rw [hb] at hb'
    by_cases heq : b' = b
    · subst heq; simp [hkres] at hb'
    rw [update_of_ne heq] at hb'
    exact hm.residentInRange b' hb'
  · intro b' hb'
    rw [ht, AList.mem_erase] at hb'
    rw [hb, update_of_ne hb'.1]
    exact hm.tokensResident b' hb'.2
  · intro b' hb'
    rw [hp, AList.mem_erase] at hb'
    rw [hb, update_of_ne hb'.1]
    exact hm.snapshotsResident b' hb'.2

/-- A block enters the index under one hash. -/
theorem PrefixIndex.of_enter {m m' : BlockManager σ} (hm : PrefixIndex m) (hmay : m.MayIndex b h)
    (hn : m'.numBlocks = m.numBlocks)
    (hb : m'.blocks = update m.blocks b k) (hkres : k.cacheResident = true)
    (hkhash : k.contentHash = h) (hc : ∀ h', m'.prefixCache.lookup h' =
      if h' = h then some b
      else if (m.blocks b).cacheResident = true ∧ h' = (m.blocks b).contentHash then none
      else m.prefixCache.lookup h') (ht : ∀ b', b' ∈ m'.blockTokens → b' = b ∨ b' ∈ m.blockTokens)
    (hp : ∀ b', b' ∈ m'.blockHybridSsmSnapshots → b' = b ∨ b' ∈ m.blockHybridSsmSnapshots) :
    PrefixIndex m' := by
  refine ⟨?_, ?_, ?_, ?_, ?_⟩
  · intro h' b'
    rw [hc, hb]
    by_cases heq : b' = b
    · subst heq
      simp only [update_self, hkres, hkhash, true_and]
      by_cases hh : h' = h
      · subst hh; simp [hmay.hashNe]
      rw [if_neg hh]
      refine iff_of_false ?_ (fun hc' => hh hc'.1.symm)
      split
      · simp
      rename_i hold
      intro hlook
      obtain ⟨hres', hhash', _⟩ := (hm.lookup_iff h' b').mp hlook
      exact hold ⟨hres', hhash'.symm⟩
    rw [update_of_ne heq]
    by_cases hh : h' = h
    · -- The hash is this block's now, so no other block may carry it.
      subst hh
      rw [if_pos rfl]
      refine iff_of_false (fun hc' => heq (Option.some.inj hc').symm) ?_
      intro hcarry
      exact heq (hmay.owner b' ((hm.lookup_iff h' b').mpr hcarry))
    rw [if_neg hh]
    split
    · rename_i hold
      refine iff_of_false (by simp) ?_
      rintro ⟨hres', hhash', hne⟩
      have h1 := (hm.lookup_iff h' b').mpr ⟨hres', hhash', hne⟩
      have h2 := (hm.lookup_iff h' b).mpr ⟨hold.1, hold.2.symm, hne⟩
      rw [h1] at h2
      exact heq (Option.some.inj h2)
    · exact hm.lookup_iff h' b'
  · intro b'
    rw [hb]
    by_cases heq : b' = b
    · subst heq; simp [hkres, hkhash, hmay.hashNe]
    rw [update_of_ne heq]
    exact hm.hash_iff b'
  · intro b' hb'
    unfold InRange
    rw [hn]
    rw [hb] at hb'
    by_cases heq : b' = b
    · subst heq; exact hmay.inRange
    rw [update_of_ne heq] at hb'
    exact hm.residentInRange b' hb'
  · intro b' hb'
    rw [hb]
    by_cases heq : b' = b
    · subst heq; simp [hkres]
    rw [update_of_ne heq]
    exact hm.tokensResident b' ((ht b' hb').resolve_left heq)
  · intro b' hb'
    rw [hb]
    by_cases heq : b' = b
    · subst heq; simp [hkres]
    rw [update_of_ne heq]
    exact hm.snapshotsResident b' ((hp b' hb').resolve_left heq)

/-! ### What the composite moves come to

Evictions and registrations change several fields at once. What they come to for one block,
and that the others keep theirs, is stated before the invariant is checked.
-/

theorem evictBlock_blocks (m : BlockManager σ) (h : UInt64) (b : Int) : (m.evictBlock h b).blocks =
      update m.blocks b
        { refCount := 1, numFilledSlots := 0, contentHash := 0, cacheResident := false } := by
  funext b'
  by_cases heq : b' = b
  · subst heq; simp [evictBlock, resetAllocatedBlock]
  · simp [evictBlock, resetAllocatedBlock, heq]

/-- Dropping a resident block from the index, field by field. -/
structure Released (m m' : BlockManager σ) (b : Int) : Prop where
  numBlocks : m'.numBlocks = m.numBlocks
  tokens : m'.blockTokens = m.blockTokens.erase b
  snapshots : m'.blockHybridSsmSnapshots = m.blockHybridSsmSnapshots.erase b
  cache : m'.prefixCache = if (m.blocks b).contentHash ≠ 0
    then (m.eraseIndexIfOwned (m.blocks b).contentHash b).prefixCache else m.prefixCache
  blocks : m'.blocks = update m.blocks b
    { refCount := (m.blocks b).refCount
      numFilledSlots :=
        if (m.blocks b).refCount = 0 then 0 else (m.blocks b).numFilledSlots
      contentHash := 0
      cacheResident := false }
  shards : m'.shards = if (m.blocks b).refCount = 0
    then update m.shards (shardOf b) (b :: m.shards (shardOf b)) else m.shards

theorem releasePrefixResidencyLocked_released (m : BlockManager σ)
    (hin : m.InRange b) (hres : (m.blocks b).cacheResident = true) :
    Released m (m.releasePrefixResidencyLocked b false) b := by
  unfold releasePrefixResidencyLocked
  rw [if_neg (not_not.mpr hin), if_neg (by simp [hres])]
  -- The conditional erase touches the index only; everything else is as in `m`.
  generalize hm₀ : (if (m.blocks b).contentHash ≠ 0
    then m.eraseIndexIfOwned (m.blocks b).contentHash b else m) = m₀
  have hcache : m₀.prefixCache = if (m.blocks b).contentHash ≠ 0
      then (m.eraseIndexIfOwned (m.blocks b).contentHash b).prefixCache else m.prefixCache := by
    rw [← hm₀]; split <;> rfl
  have hblocks : m₀.blocks = m.blocks := by rw [← hm₀]; split <;> simp
  have hshards : m₀.shards = m.shards := by rw [← hm₀]; split <;> simp
  have hnum : m₀.numBlocks = m.numBlocks := by rw [← hm₀]; split <;> simp
  have htokens : m₀.blockTokens = m.blockTokens := by rw [← hm₀]; split <;> simp
  have hsnaps : m₀.blockHybridSsmSnapshots = m.blockHybridSsmSnapshots := by
    rw [← hm₀]; split <;> simp
  by_cases href : (m.blocks b).refCount = 0
  · rw [if_pos (by simp [hblocks, href])]
    refine ⟨hnum, by simp [htokens], by simp [hsnaps], hcache, ?_, ?_⟩
    · funext b'
      by_cases heq : b' = b
      · subst heq; simp [hblocks, href]
      · simp [hblocks, heq]
    funext s
    simp [hshards, href]
  rw [if_neg (by simp [hblocks, href])]
  refine ⟨hnum, by simp [htokens], by simp [hsnaps], hcache, ?_, ?_⟩
  · funext b'
    by_cases heq : b' = b
    · subst heq; simp [hblocks, href]
    · simp [hblocks, heq]
  funext s
  simp [hshards, href]

theorem Released.lookup {m m' : BlockManager σ} (hr : Released m m' b)
    (hm : PrefixIndex m) (hres : (m.blocks b).cacheResident = true) (h : UInt64) :
    m'.prefixCache.lookup h =
      if h = (m.blocks b).contentHash then none else m.prefixCache.lookup h := by
  have hne : (m.blocks b).contentHash ≠ 0 := (hm.hash_iff b).mpr hres
  have hown : m.prefixCache.lookup (m.blocks b).contentHash = some b :=
    (hm.lookup_iff _ b).mpr ⟨hres, rfl, hne⟩
  rw [hr.cache, if_pos hne, eraseIndexIfOwned_lookup]
  simp [hown]

theorem eraseIndexIfOwned_old {m : BlockManager σ} (hm : PrefixIndex m)
    (hold : (m.blocks b).cacheResident = true ∧ (m.blocks b).contentHash ≠ 0 ∧
      (m.blocks b).contentHash ≠ h) (h' : UInt64) :
    ((m.eraseIndexIfOwned (m.blocks b).contentHash b).prefixCache.insert h b).lookup h' =
      if h' = h then some b
      else if (m.blocks b).cacheResident = true ∧ h' = (m.blocks b).contentHash then none
      else m.prefixCache.lookup h' := by
  have hown : m.prefixCache.lookup (m.blocks b).contentHash = some b :=
    (hm.lookup_iff _ b).mpr ⟨hold.1, rfl, hold.2.1⟩
  by_cases hh : h' = h
  · subst hh; simp
  rw [AList.lookup_insert_ne hh, eraseIndexIfOwned_lookup, if_neg hh]
  simp [hown, hold.1]

theorem insert_fresh {m : BlockManager σ} (hm : PrefixIndex m)
    (hold : ¬ ((m.blocks b).cacheResident = true ∧ (m.blocks b).contentHash ≠ 0 ∧
      (m.blocks b).contentHash ≠ h)) (h' : UInt64) :
    (m.prefixCache.insert h b).lookup h' =
      if h' = h then some b
      else if (m.blocks b).cacheResident = true ∧ h' = (m.blocks b).contentHash then none
      else m.prefixCache.lookup h' := by
  by_cases hh : h' = h
  · subst hh; simp
  rw [AList.lookup_insert_ne hh, if_neg hh]
  split
  · rename_i hc
    have hne := (hm.hash_iff b).mpr hc.1
    refine absurd ⟨hc.1, hne, ?_⟩ hold
    intro heq
    exact hh (hc.2.trans heq)
  · rfl

theorem indexBare_lookup {m : BlockManager σ} (hm : PrefixIndex m) (b : Int) (h h' : UInt64) :
    (m.indexBare b h).prefixCache.lookup h' =
      if h' = h then some b
      else if (m.blocks b).cacheResident = true ∧ h' = (m.blocks b).contentHash then none
      else m.prefixCache.lookup h' := by
  unfold indexBare
  rw [enterIndex_prefixCache, modifyBlock_prefixCache]
  split
  · rename_i hold
    rw [eraseContents_prefixCache]
    exact eraseIndexIfOwned_old hm hold h'
  rename_i hold
  exact insert_fresh hm hold h'

theorem forgetOldHash_enter_lookup {m : BlockManager σ} (hm : PrefixIndex m) (b : Int)
    (h h' : UInt64) :
    ((m.forgetOldHash b h).enterIndex b h).prefixCache.lookup h' =
      if h' = h then some b
      else if (m.blocks b).cacheResident = true ∧ h' = (m.blocks b).contentHash then none
      else m.prefixCache.lookup h' := by
  rw [enterIndex_prefixCache, modifyBlock_prefixCache]
  unfold forgetOldHash
  split
  · rename_i hold
    exact eraseIndexIfOwned_old hm hold h'
  rename_i hold
  exact insert_fresh hm hold h'

theorem indexBare_blocks (m : BlockManager σ) (b : Int) (h : UInt64) : (m.indexBare b h).blocks =
      update m.blocks b { m.blocks b with contentHash := h, cacheResident := true } := by
  unfold indexBare
  funext b'
  rw [enterIndex_blocks, modifyBlock_blocks]
  split <;> simp

/-- A table after the entry of one block has been written or dropped. -/
def EntrySet {β : Type} (b : Int) (l l' : AList fun _ : Int => β) : Prop :=
  l' = l.erase b ∨ ∃ v, l' = l.insert b v

theorem EntrySet.mem {β : Type} {b b' : Int} {l l' : AList fun _ : Int => β}
    (h : EntrySet b l l') (hmem : b' ∈ l') : b' = b ∨ b' ∈ l := by
  rcases h with rfl | ⟨v, rfl⟩
  · exact Or.inr (AList.mem_erase.mp hmem).2
  · exact (AList.mem_insert _).mp hmem

theorem storeContents_entries (m : BlockManager σ) (b : Int) (ts : Option (List Int32))
    (n : Int) (snap : Option (List σ)) :
    EntrySet b m.blockTokens (m.storeContents b ts n snap).blockTokens ∧
      EntrySet b m.blockHybridSsmSnapshots
        (m.storeContents b ts n snap).blockHybridSsmSnapshots := by
  rw [storeContents_blockTokens, storeContents_blockHybridSsmSnapshots]
  constructor
  · split
    · split
      · exact Or.inr ⟨_, rfl⟩
      · exact Or.inl rfl
    · exact Or.inl rfl
  split
  · exact Or.inr ⟨_, rfl⟩
  · exact Or.inl rfl

theorem indexBare_frame (m : BlockManager σ) (b : Int) (h : UInt64) :
    (m.indexBare b h).numBlocks = m.numBlocks ∧ (m.indexBare b h).shards = m.shards := by
  unfold indexBare
  constructor
  · rw [enterIndex_numBlocks, modifyBlock_numBlocks]
    split <;> simp
  funext s
  rw [enterIndex_shards, modifyBlock_shards]
  split <;> simp

theorem indexBare_contents (m : BlockManager σ) (b : Int) (h : UInt64) (b' : Int) :
    (b' ∈ (m.indexBare b h).blockTokens → b' ∈ m.blockTokens) ∧
      (b' ∈ (m.indexBare b h).blockHybridSsmSnapshots → b' ∈ m.blockHybridSsmSnapshots) := by
  unfold indexBare
  constructor
  · rw [enterIndex_blockTokens, modifyBlock_blockTokens]
    split
    · intro hb; exact (AList.mem_erase.mp (by simpa using hb)).2
    · exact id
  rw [enterIndex_blockHybridSsmSnapshots, modifyBlock_blockHybridSsmSnapshots]
  split
  · intro hb; exact (AList.mem_erase.mp (by simpa using hb)).2
  · exact id

/-! ### Every move keeps the ledger well formed -/

/-- A quiet move keeps the partition. -/
theorem QuietMove.partition {m m' : BlockManager σ} (h : QuietMove m m') (hm : WellFormed m) :
    Partition m' := by
  cases h with
  | takeFree hhead =>
    exact hm.partition.of_pop hhead rfl rfl rfl Int.zero_lt_one
  | evict hlook href =>
    rename_i h b
    have hres := ((hm.index.lookup_iff h b).mp hlook).1
    refine hm.partition.of_modify rfl rfl (evictBlock_blocks m h b) (by decide) ?_
    simp [hres]
  | dropRef hpos hkeep =>
    rename_i b
    refine hm.partition.of_modify rfl rfl rfl (by simp only; omega) ?_
    constructor
    · rintro ⟨hr, hf⟩
      rcases hkeep with hlt | hres
      · simp only at hr; omega
      · rw [hres] at hf; cases hf
    rintro ⟨hr, -⟩
    omega
  | giveBack hin href hres =>
    rename_i b
    have hbusy : ¬ m.IsFree b := fun hf => by rw [hf.2.1] at href; cases href
    refine hm.partition.of_push (k := { m.blocks b with
      refCount := (m.blocks b).refCount - 1, numFilledSlots := 0, contentHash := 0 })
      hin hbusy rfl rfl ?_ (by simp [href]) hres
    funext b'
    by_cases heq : b' = b
    · subst heq; simp
    · simp [heq]
  | addRef hlive =>
    rename_i b
    have hnn := hm.partition.refNonneg b
    refine hm.partition.of_modify rfl rfl rfl (by simp only; omega) ?_
    constructor
    · rintro ⟨hr, -⟩
      simp only at hr; omega
    rintro ⟨hr, hf⟩
    rcases hlive with hlt | hres
    · omega
    · rw [hres] at hf; cases hf
  | fill =>
    rename_i b n
    exact hm.partition.of_modify rfl rfl rfl (hm.partition.refNonneg b) Iff.rfl
  | release hin hres =>
    rename_i b
    have hr := releasePrefixResidencyLocked_released m hin hres
    by_cases href : (m.blocks b).refCount = 0
    · refine hm.partition.of_push hin ?_ hr.numBlocks ?_ hr.blocks href rfl
      · intro hf
        rw [hf.2.2] at hres; cases hres
      · rw [hr.shards, if_pos href]
    refine hm.partition.of_modify hr.numBlocks ?_ hr.blocks (hm.partition.refNonneg b) ?_
    · rw [hr.shards, if_neg href]
    · simp [href]

/-- A quiet move keeps the prefix index. -/
theorem QuietMove.index {m m' : BlockManager σ} (h : QuietMove m m') (hm : WellFormed m) :
    PrefixIndex m' := by
  cases h with
  | takeFree hhead =>
    rename_i s b rest
    -- A block on a free list is not resident, so the index never mentions it.
    have hfree := ((hm.partition.mem_iff s b).mp (by simp [hhead])).2
    have hzero : (m.blocks b).contentHash = 0 := by
      by_contra hne
      have := (hm.index.hash_iff b).mp hne
      rw [hfree.2.2] at this
      cases this
    refine hm.index.of_same rfl rfl rfl rfl ?_ ?_
    · intro b'
      by_cases heq : b' = b
      · subst heq; simp [resetAllocatedBlock, hfree.2.2]
      · simp [resetAllocatedBlock, heq]
    intro b'
    by_cases heq : b' = b
    · subst heq; simp [resetAllocatedBlock, hzero]
    · simp [resetAllocatedBlock, heq]
  | evict hlook href =>
    rename_i h b
    obtain ⟨hres, hhash, _⟩ := (hm.index.lookup_iff h b).mp hlook
    refine hm.index.of_drop rfl hres (evictBlock_blocks m h b) rfl rfl ?_ rfl rfl
    intro h'
    rw [hhash]
    show (m.prefixCache.erase h).lookup h' = _
    by_cases heq : h' = h
    · subst heq; simp
    · simp [heq, AList.lookup_erase_ne heq]
  | dropRef hpos hkeep | addRef hlive | fill =>
    exact hm.index.of_same rfl rfl rfl rfl
      (fun b' => modifyBlock_field (·.cacheResident) m _ b' rfl)
      (fun b' => modifyBlock_field (·.contentHash) m _ b' rfl)
  | giveBack hin href hres =>
    rename_i b
    have hzero : (m.blocks b).contentHash = 0 := by
      by_contra hne
      have := (hm.index.hash_iff b).mp hne
      rw [hres] at this
      cases this
    refine hm.index.of_same rfl rfl rfl rfl ?_ ?_
    · intro b'
      by_cases heq : b' = b
      · subst heq; simp
      · simp [heq]
    intro b'
    by_cases heq : b' = b
    · subst heq; simp [hzero]
    · simp [heq]
  | release hin hres =>
    rename_i b
    have hr := releasePrefixResidencyLocked_released m hin hres
    exact hm.index.of_drop hr.numBlocks hres hr.blocks rfl rfl (hr.lookup hm.index hres)
      hr.tokens hr.snapshots

theorem Move.partition {m m' : BlockManager σ} (h : Move m m') (hm : WellFormed m) :
    Partition m' := by
  cases h with
  | quiet hq => exact hq.partition hm
  | bare hmay =>
    rename_i b h
    refine hm.partition.of_modify (indexBare_frame m b h).1 (indexBare_frame m b h).2
      (indexBare_blocks m b h) (hm.partition.refNonneg b) ?_
    simp only [Bool.true_eq_false, and_false, false_iff, not_and, Bool.not_eq_false]
    intro hr
    exact hmay.live.resolve_left (by omega)
  | withTokens hmay =>
    rename_i b h ts n snap
    refine hm.partition.of_modify (b := b)
      (k := { m.blocks b with contentHash := h, cacheResident := true })
      (by simp) (by simp) (by simp) (hm.partition.refNonneg b) ?_
    simp only [Bool.true_eq_false, and_false, false_iff, not_and, Bool.not_eq_false]
    intro hr
    exact hmay.live.resolve_left (by omega)

theorem Move.index {m m' : BlockManager σ} (h : Move m m') (hm : WellFormed m) :
    PrefixIndex m' := by
  cases h with
  | quiet hq => exact hq.index hm
  | bare hmay =>
    rename_i b h
    exact hm.index.of_enter hmay (indexBare_frame m b h).1 (indexBare_blocks m b h) rfl rfl
      (indexBare_lookup hm.index b h)
      (fun b' hb' => Or.inr ((indexBare_contents m b h b').1 hb'))
      (fun b' hb' => Or.inr ((indexBare_contents m b h b').2 hb'))
  | withTokens hmay =>
    rename_i b h ts n snap
    refine hm.index.of_enter hmay (by simp)
      (k := { m.blocks b with contentHash := h, cacheResident := true })
      (by simp) rfl rfl (forgetOldHash_enter_lookup hm.index b h) ?_ ?_
    · intro b' hb'
      simpa using (storeContents_entries _ _ _ _ _).1.mem hb'
    intro b' hb'
    simpa using (storeContents_entries _ _ _ _ _).2.mem hb'

theorem Move.wellFormed {m m' : BlockManager σ} (h : Move m m') (hm : WellFormed m) :
    WellFormed m' :=
  ⟨h.partition hm, h.index hm⟩

end DenseCore.BlockManager
