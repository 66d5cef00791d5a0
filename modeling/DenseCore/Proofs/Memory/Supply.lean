/-
How many blocks an allocation yields.

`Allocate` is all or nothing, and the free lists alone decide it as long as they
hold enough: whatever shard the search starts from and whichever locks it misses,
a request for no more than `GetFreeBlockCount` blocks is met from the free lists,
and the count drops by what was taken.  Eviction begins only beyond that, and on a
well-formed ledger it goes on to the last idle block: a request is met exactly when
the free and the idle blocks together are enough.
-/
import DenseCore.Proofs.Memory.Operations

namespace DenseCore.BlockManager

open List hiding le_antisymm not_lt

open Function (update update_of_ne update_self)

variable {σ : Type}

/-! ### The free count -/

variable {s s' : Nat} {b n : Int} {c : AllocChoice}

theorem getFreeBlockCount_update (m m' : BlockManager σ) (hs : s < numShards)
    (l : List Int) (hm' : m'.shards = update m.shards s l) :
    m'.getFreeBlockCount + (m.shards s).length = m.getFreeBlockCount + l.length := by
  unfold getFreeBlockCount
  rw [hm']
  -- The sum over the shards is split at the one that changes.
  suffices h : ∀ ss : List Nat, ss.Nodup → s ∈ ss →
      ((ss.map fun i => (update m.shards s l i).length).sum + (m.shards s).length =
        (ss.map fun i => (m.shards i).length).sum + l.length) from
    h _ nodup_range (mem_range.mpr hs)
  intro ss
  induction ss with
  | nil => intro _ hmem; simp at hmem
  | cons i rest ih =>
    intro hnodup hmem
    rw [nodup_cons] at hnodup
    rcases mem_cons.mp hmem with rfl | hrest
    · have hsame : (rest.map fun i => (update m.shards s l i).length) =
          rest.map fun i => (m.shards i).length := by
        refine map_congr_left fun j hj => ?_
        have hne : j ≠ s := by
          intro heq
          exact hnodup.1 (heq ▸ hj)
        rw [update_of_ne hne]
      rw [map_cons, map_cons, sum_cons, sum_cons, hsame, update_self]
      omega
    have hne : i ≠ s := by
      intro heq
      exact hnodup.1 (heq ▸ hrest)
    have htail := ih hnodup.2 hrest
    rw [map_cons, map_cons, sum_cons, sum_cons, update_of_ne hne]
    omega

theorem getFreeBlockCount_eq_zero {m : BlockManager σ} (h : ∀ s < numShards, m.shards s = []) :
    m.getFreeBlockCount = 0 := by
  unfold getFreeBlockCount
  rw [List.sum_eq_zero_iff_forall_eq_nat]
  intro x hx
  obtain ⟨s, hs, rfl⟩ := List.mem_map.mp hx
  rw [h s (List.mem_range.mp hs)]
  rfl

theorem popFree_free {m m' : BlockManager σ} (hs : s < numShards)
    (h : m.popFree s = some (b, m')) : m'.getFreeBlockCount + 1 = m.getFreeBlockCount := by
  unfold popFree at h
  split at h
  · exact absurd h (by simp)
  rename_i b' rest hshard
  obtain ⟨-, rfl⟩ : b' = b ∧ _ = m' := by simpa using h
  have hcount := m.getFreeBlockCount_update
    (({ m with shards := update m.shards s rest }).resetAllocatedBlock b') hs rest rfl
  rw [hshard, length_cons] at hcount
  omega

theorem popFree_eq_none {m : BlockManager σ} (h : m.popFree s = none) : m.shards s = [] := by
  unfold popFree at h
  split at h
  · assumption
  · exact absurd h (by simp)

/-! ### Popping and draining -/

theorem popUpTo_supply (hs : s < numShards) : ∀ (n : Nat) (m : BlockManager σ),
    (popUpTo s n m).1.length ≤ n ∧
      (popUpTo s n m).2.getFreeBlockCount + (popUpTo s n m).1.length = m.getFreeBlockCount := by
  intro n
  induction n with
  | zero => intro m; exact ⟨le_rfl, Nat.add_zero _⟩
  | succ n ih =>
    intro m
    unfold popUpTo
    split
    · exact ⟨Nat.zero_le _, Nat.add_zero _⟩
    rename_i b m₁ hpop
    have hone := popFree_free hs hpop
    obtain ⟨hlen, hfree⟩ := ih m₁
    simp only [length_cons]
    exact ⟨by omega, by omega⟩

theorem popUpTo_short (s : Nat) : ∀ (n : Nat) (m : BlockManager σ),
    (popUpTo s n m).1.length < n → (popUpTo s n m).2.shards s = [] := by
  intro n
  induction n with
  | zero => intro m h; exact absurd h (Nat.not_lt_zero _)
  | succ n ih =>
    intro m
    unfold popUpTo
    split
    · intro _
      exact popFree_eq_none ‹_›
    rename_i b m₁ hpop
    intro h
    simp only [length_cons] at h
    exact ih m₁ (by omega)

theorem popUpTo_length_of_le (s : Nat) : ∀ (n : Nat) (m : BlockManager σ),
    n ≤ (m.shards s).length → (popUpTo s n m).1.length = n := by
  intro n
  induction n with
  | zero => intro m _; rfl
  | succ n ih =>
    intro m h
    unfold popUpTo popFree
    cases hshard : m.shards s with
    | nil => rw [hshard] at h; simp at h
    | cons b rest =>
      simp only [length_cons]
      rw [ih _ ?_]
      rw [hshard, length_cons] at h
      simp only [resetAllocatedBlock, modifyBlock_shards, update_self]
      omega

theorem popUpTo_shards_ne (hne : s' ≠ s) : ∀ (n : Nat) (m : BlockManager σ),
    (popUpTo s n m).2.shards s' = m.shards s' := by
  intro n
  induction n with
  | zero => intro m; rfl
  | succ n ih =>
    intro m
    unfold popUpTo
    split
    · rfl
    rename_i b m₁ hpop
    unfold popFree at hpop
    split at hpop
    · exact absurd hpop (by simp)
    obtain ⟨-, rfl⟩ : _ = b ∧ _ = m₁ := by simpa using hpop
    show (popUpTo s n _).2.shards s' = _
    rw [ih]
    simp only [resetAllocatedBlock, modifyBlock_shards, update_of_ne hne]

theorem popUpTo_empty (n : Nat) (m : BlockManager σ) (h : m.shards s' = []) :
    (popUpTo s n m).2.shards s' = [] := by
  by_cases hne : s' = s
  · subst hne
    cases n with
    | zero => exact h
    | succ n =>
      unfold popUpTo popFree
      simp only [h]
  · rw [popUpTo_shards_ne hne, h]

theorem drainShards_empty (ss : List Nat) : ∀ (n : Nat) (m : BlockManager σ),
    m.shards s' = [] → (drainShards ss n m).2.shards s' = [] := by
  induction ss with
  | nil => intro n m h; exact h
  | cons s ss ih =>
    intro n m h
    exact ih _ _ (popUpTo_empty n m h)

theorem drainShards_supply (ss : List Nat) (hss : ∀ s ∈ ss, s < numShards) :
    ∀ (n : Nat) (m : BlockManager σ), (drainShards ss n m).1.length ≤ n ∧
      (drainShards ss n m).2.getFreeBlockCount + (drainShards ss n m).1.length =
        m.getFreeBlockCount ∧
      ((drainShards ss n m).1.length < n → ∀ s ∈ ss, (drainShards ss n m).2.shards s = []) := by
  induction ss with
  | nil => intro n m; exact ⟨Nat.zero_le _, Nat.add_zero _, by simp⟩
  | cons s ss ih =>
    intro n m
    obtain ⟨hpop, hpopFree⟩ := popUpTo_supply (hss s (by simp)) n m
    obtain ⟨hlen, hfree, hempty⟩ := ih (fun s' hs' => hss s' (by simp [hs']))
      (n - (popUpTo s n m).1.length) (popUpTo s n m).2
    unfold drainShards
    simp only [length_append]
    refine ⟨by omega, by omega, ?_⟩
    intro hshort s' hs'
    rcases mem_cons.mp hs' with rfl | hrest
    · exact drainShards_empty ss _ _ (popUpTo_short s' n m (by omega))
    · exact hempty (by omega) s' hrest

theorem mem_shardOrder {start : Nat} : s ∈ shardOrder start ↔ s < numShards := by
  unfold shardOrder numShards
  simp only [mem_map, mem_range]
  refine ⟨?_, ?_⟩
  · rintro ⟨i, -, rfl⟩
    omega
  intro hs
  exact ⟨(s + 16 - start % 16) % 16, by omega, by omega⟩

variable (m : BlockManager σ) (order : IterationOrder)

theorem evictUpTo_length : ∀ (n : Nat) (m : BlockManager σ),
    (evictUpTo order n m).1.length ≤ n := by
  intro n
  induction n with
  | zero => intro m; exact le_rfl
  | succ n ih =>
    intro m
    unfold evictUpTo
    split
    · exact Nat.zero_le _
    rename_i b m₁ _
    simp only [length_cons]
    have := ih m₁
    omega

/-! ### Allocation -/

/-- **An allocation returns all that was asked for or nothing.** -/
theorem allocate_all_or_nothing (n : Int) (c : AllocChoice) :
    (m.allocate n c).1 = [] ∨ ((m.allocate n c).1.length : Int) = n := by
  unfold allocate
  split
  · exact Or.inl rfl
  split
  · split
    · right
      rename_i hone _ _ _ _
      simp [hone]
    · exact Or.inl rfl
  unfold allocateBulk
  split
  · rename_i s hfind
    have hle : n.toNat ≤ (m.shards s).length := by
      have := find?_some hfind
      simp only [Bool.and_eq_true, decide_eq_true_eq] at this
      exact this.2
    right
    rw [popUpTo_length_of_le s _ m hle]
    omega
  dsimp only
  split
  · exact Or.inl rfl
  rename_i hlong
  right
  obtain ⟨hdrain, -, -⟩ := drainShards_supply (shardOrder c.startShard)
    (fun s hs => mem_shardOrder.mp hs) n.toNat m
  have hevict := evictUpTo_length c.order
    (n.toNat - (drainShards (shardOrder c.startShard) n.toNat m).1.length)
    (drainShards (shardOrder c.startShard) n.toNat m).2
  simp only [length_append] at hlong ⊢
  omega

theorem allocateSingle_of_free (c : AllocChoice) (hfree : 0 < m.getFreeBlockCount) :
    ∃ b m₁, m.allocateSingle c = (some b, m₁) ∧ m₁.getFreeBlockCount + 1 = m.getFreeBlockCount := by
  unfold allocateSingle
  split
  · rename_i b m₁ hfind
    obtain ⟨s, hs, hpop⟩ := exists_of_findSome?_eq_some hfind
    split at hpop
    · exact ⟨b, m₁, rfl, popFree_free (mem_shardOrder.mp hs) hpop⟩
    · exact absurd hpop (by simp)
  split
  · rename_i b m₁ hfind
    obtain ⟨s, hs, hpop⟩ := exists_of_findSome?_eq_some hfind
    exact ⟨b, m₁, rfl, popFree_free (mem_range.mp hs) hpop⟩
  rename_i hnone
  rw [findSome?_eq_none_iff] at hnone
  have hzero : m.getFreeBlockCount = 0 := getFreeBlockCount_eq_zero fun s hs =>
    popFree_eq_none (hnone s (mem_range.mpr hs))
  omega

/-- **The free lists meet every request they are large enough for.** -/
theorem allocate_of_free (c : AllocChoice) (hpos : 0 < n) (hfree : n ≤ m.getFreeBlockCount) :
    ((m.allocate n c).1.length : Int) = n ∧
      ((m.allocate n c).2.getFreeBlockCount : Int) + n = m.getFreeBlockCount := by
  unfold allocate
  rw [if_neg (by omega)]
  split
  · rename_i hone
    obtain ⟨b, m₁, heq, hcount⟩ := allocateSingle_of_free m c (by omega)
    rw [heq, hone]
    exact ⟨rfl, by push_cast; omega⟩
  unfold allocateBulk
  split
  · rename_i s hfind
    have hfound := find?_some hfind
    simp only [Bool.and_eq_true, decide_eq_true_eq] at hfound
    have hs : s < numShards := mem_shardOrder.mp (mem_of_find?_eq_some hfind)
    obtain ⟨-, hcount⟩ := popUpTo_supply hs n.toNat m
    have hlen := popUpTo_length_of_le s _ m hfound.2
    exact ⟨by omega, by omega⟩
  obtain ⟨hle, hcount, hempty⟩ := drainShards_supply (shardOrder c.startShard)
    (fun s hs => mem_shardOrder.mp hs) n.toNat m
  have hlen : (drainShards (shardOrder c.startShard) n.toNat m).1.length = n.toNat := by
    refine le_antisymm hle (not_lt.mp fun hshort => ?_)
    have hzero : (drainShards (shardOrder c.startShard) n.toNat m).2.getFreeBlockCount = 0 :=
      getFreeBlockCount_eq_zero fun s hs => hempty hshort s (mem_shardOrder.mpr hs)
    omega
  dsimp only
  rw [hlen, Nat.sub_self]
  simp only [evictUpTo, append_nil, hlen, Nat.lt_irrefl, if_false]
  exact ⟨by omega, by omega⟩

/-! ### Idle blocks

A block that only the prefix cache keeps is the manager's second reserve.  Each
block an allocation takes comes from one of the two, so together they measure what
it can still take.
-/

/-- Nobody holds the block, and the prefix cache keeps it. -/
def IsIdle (b : Int) : Prop :=
  m.InRange b ∧ (m.blocks b).refCount = 0 ∧ (m.blocks b).cacheResident = true

instance (m : BlockManager σ) (b : Int) : Decidable (m.IsIdle b) :=
  inferInstanceAs (Decidable (_ ∧ _ ∧ _))

/-- How many blocks the prefix cache alone keeps. -/
def idleBlockCount : Nat :=
  (range m.numBlocks).countP fun i : Nat => decide (m.IsIdle i)

theorem idleBlockCount_congr {m m' : BlockManager σ} (hn : m'.numBlocks = m.numBlocks)
    (hidle : ∀ b, m'.IsIdle b ↔ m.IsIdle b) : m'.idleBlockCount = m.idleBlockCount := by
  unfold idleBlockCount
  rw [hn]
  refine countP_congr ?_
  intro i _
  simp [hidle]

theorem idleBlockCount_drop {m m' : BlockManager σ} (hn : m'.numBlocks = m.numBlocks)
    (hb : m.IsIdle b) (hidle : ∀ b', m'.IsIdle b' ↔ m.IsIdle b' ∧ b' ≠ b) :
    m'.idleBlockCount + 1 = m.idleBlockCount := by
  obtain ⟨i, rfl⟩ := Int.eq_ofNat_of_zero_le hb.1.1
  have hi : i ∈ range m.numBlocks := by
    have hlt := hb.1.2
    rw [mem_range]
    omega
  unfold idleBlockCount
  rw [hn]
  -- The block is split off the range; nowhere else do the two counts differ.
  have hsplit := perm_cons_erase hi
  have hout : i ∉ (range m.numBlocks).erase i :=
    nodup_range.not_mem_erase
  rw [hsplit.countP_eq, hsplit.countP_eq, countP_cons_of_neg (by simp [hidle]),
    countP_cons_of_pos (by simpa using hb)]
  congr 1
  refine countP_congr ?_
  intro j hj
  have hne : (j : Int) ≠ i := by
    intro heq
    exact hout (Int.ofNat_inj.mp heq ▸ hj)
  simp [hidle, hne]

theorem idleBlockCount_eq_zero {m : BlockManager σ} (h : ∀ b, ¬ m.IsIdle b) :
    m.idleBlockCount = 0 := by
  unfold idleBlockCount
  rw [countP_eq_zero]
  intro i _
  simpa using h i

/-- **What is taken comes from the free lists or from the idle blocks.** -/
theorem Takes.supply {m m' : BlockManager σ} {bs : List Int} (h : Takes m bs m')
    (hm : WellFormed m) :
    m'.getFreeBlockCount + m'.idleBlockCount + bs.length =
      m.getFreeBlockCount + m.idleBlockCount := by
  induction h with
  | nil => rw [length_nil, Nat.add_zero]
  | @pop m₀ m₁ s b rest bs hhead _ ih =>
    obtain ⟨hs, hfree⟩ := (hm.partition.mem_iff s b).mp (by simp [hhead])
    have hrest := ih ((Move.quiet (.takeFree hhead)).wellFormed hm)
    have hlt : s < numShards := by
      rw [hs]
      unfold shardOf numShards
      omega
    have hcount := m₀.getFreeBlockCount_update
      (({ m₀ with shards := update m₀.shards s rest }).resetAllocatedBlock b) hlt rest rfl
    have hidle : (({ m₀ with shards := update m₀.shards s rest }).resetAllocatedBlock
        b).idleBlockCount = m₀.idleBlockCount := by
      refine idleBlockCount_congr rfl ?_
      intro b'
      unfold IsIdle InRange resetAllocatedBlock
      by_cases heq : b' = b
      · subst heq
        simp [hfree.2.2]
      · simp [heq]
    rw [hhead, length_cons] at hcount
    rw [length_cons]
    omega
  | @evict m₀ m₁ h b bs hlook href _ ih =>
    have hres := ((hm.index.lookup_iff h b).mp hlook).1
    have hrest := ih ((Move.quiet (.evict hlook href)).wellFormed hm)
    have hfree : (m₀.evictBlock h b).getFreeBlockCount = m₀.getFreeBlockCount := rfl
    have hidle : (m₀.evictBlock h b).idleBlockCount + 1 = m₀.idleBlockCount := by
      refine idleBlockCount_drop rfl ⟨hm.index.residentInRange b hres, href, hres⟩ ?_
      intro b'
      unfold IsIdle InRange
      rw [evictBlock_blocks, show (m₀.evictBlock h b).numBlocks = m₀.numBlocks from rfl]
      by_cases heq : b' = b
      · subst heq
        simp
      · simp [heq]
    rw [length_cons]
    omega

theorem tryEvict_exhausted {m m' : BlockManager σ} {order : IterationOrder} (hm : WellFormed m)
    (h : m.tryEvictIdlePrefixBlockForAllocation order = (none, m')) : m'.idleBlockCount = 0 := by
  rw [tryEvict_none h]
  refine idleBlockCount_eq_zero ?_
  rintro b ⟨hin, href, hres⟩
  have hlook : m.prefixCache.lookup (m.blocks b).contentHash = some b :=
    (hm.index.lookup_iff _ b).mpr ⟨hres, rfl, (hm.index.hash_iff b).mpr hres⟩
  have hmem : (⟨(m.blocks b).contentHash, b⟩ : Sigma fun _ : UInt64 => Int) ∈
      order.arrange m.prefixCache.entries :=
    (order.perm _).mem_iff.mpr (AList.mem_lookup_iff.mp hlook)
  unfold tryEvictIdlePrefixBlockForAllocation at h
  split at h
  · rename_i hnone
    rw [find?_eq_none] at hnone
    exact hnone _ hmem (by simp [evictable, hin, href, hres])
  · exact absurd h (by simp)

theorem evictUpTo_short : ∀ (n : Nat) (m : BlockManager σ), WellFormed m →
    (evictUpTo order n m).1.length < n → (evictUpTo order n m).2.idleBlockCount = 0 := by
  intro n
  induction n with
  | zero => intro m _ h; exact absurd h (Nat.not_lt_zero _)
  | succ n ih =>
    intro m hm
    unfold evictUpTo
    split
    · intro _
      exact tryEvict_exhausted hm ‹_›
    rename_i b m₁ hsome
    intro h
    simp only [length_cons] at h
    exact ih m₁ ((tryEvict_takes hsome).quiet.wellFormed hm) (by omega)

theorem evictUpTo_shards : ∀ (n : Nat) (m : BlockManager σ),
    (evictUpTo order n m).2.shards = m.shards := by
  intro n
  induction n with
  | zero => intro m; rfl
  | succ n ih =>
    intro m
    unfold evictUpTo
    split
    · rename_i m₁ hnone
      rw [tryEvict_none hnone]
    rename_i b m₁ hsome
    show (evictUpTo order n m₁).2.shards = m.shards
    rw [ih]
    rcases tryEvict_cases m order with hnone | ⟨h, b', -, -, hfound⟩
    · rw [hnone] at hsome
      exact absurd hsome (by simp)
    rw [hfound] at hsome
    obtain ⟨-, rfl⟩ : b' = b ∧ m.evictBlock h b' = m₁ := by simpa using hsome
    rfl

theorem allocateSingle_none {m m' : BlockManager σ} (hm : WellFormed m)
    (h : m.allocateSingle c = (none, m')) : m.getFreeBlockCount + m.idleBlockCount = 0 := by
  have hfree : m.getFreeBlockCount = 0 := by
    by_contra hpos
    obtain ⟨b, m₁, hsome, -⟩ := allocateSingle_of_free m c (by omega)
    rw [hsome] at h
    exact absurd h (by simp)
  unfold allocateSingle at h
  split at h
  · exact absurd h (by simp)
  split at h
  · exact absurd h (by simp)
  have hidle := tryEvict_exhausted hm h
  rw [tryEvict_none h] at hidle
  omega

theorem allocateBulk_short {m : BlockManager σ} (hm : WellFormed m) {n : Nat}
    {drained evicted : List Int × BlockManager σ}
    (hdrained : drained = drainShards (shardOrder c.startShard) n m)
    (hevicted : evicted = evictUpTo c.order (n - drained.1.length) drained.2)
    (hshort : drained.1.length + evicted.1.length < n) :
    evicted.2.getFreeBlockCount + evicted.2.idleBlockCount = 0 := by
  obtain ⟨-, -, hempty⟩ := drainShards_supply (shardOrder c.startShard)
    (fun s hs => mem_shardOrder.mp hs) n m
  rw [← hdrained] at hempty
  have hwf : WellFormed drained.2 := by
    rw [hdrained]
    exact (drainShards_inOrder _ _ _).takes.quiet.wellFormed hm
  have hidle := evictUpTo_short c.order (n - drained.1.length) drained.2 hwf
  have hshards := evictUpTo_shards c.order (n - drained.1.length) drained.2
  rw [← hevicted] at hidle hshards
  have hfree : evicted.2.getFreeBlockCount = 0 := by
    refine getFreeBlockCount_eq_zero ?_
    intro s hs
    rw [hshards]
    exact hempty (by omega) s (mem_shardOrder.mpr hs)
  rw [hfree, hidle (by omega)]

end DenseCore.BlockManager
