/-
What one call of `Allocate` does to the whole ledger.

The call gathers blocks one at a time: from the free lists as long as one of them
holds a block, and only then from the blocks that the prefix cache alone keeps.  When
it has gathered all it was asked for it returns them; otherwise it frees them again.
`TakesInOrder` is that gathering, and everything below is read off it: the blocks
are distinct, unheld before and fresh after; the request is met exactly when the free
and the idle blocks suffice; and no other reference count changes.

The rollback gives back the references and the free blocks, but an idle block that was
gathered comes back as a free one: the prefix cache has lost it.  So a failed call
leaves the ledger as it was exactly when there was no idle block to lose.
-/
import DenseCore.Proofs.Memory.Supply

namespace DenseCore.BlockManager

open List

variable {σ : Type}

/-! ### Taking in order -/

variable {b : Int} {bs : List Int}

theorem tryEvict_inOrder {m m' : BlockManager σ} {order : IterationOrder}
    (hempty : m.getFreeBlockCount = 0)
    (h : m.tryEvictIdlePrefixBlockForAllocation order = (some b, m')) :
    TakesInOrder m [b] m' ∧ m'.getFreeBlockCount = 0 := by
  rcases tryEvict_cases m order with hnone | ⟨h', b', hlook, href, hsome⟩
  · rw [hnone] at h
    cases h
  rw [hsome] at h
  obtain ⟨rfl, rfl⟩ : b' = b ∧ m.evictBlock h' b' = m' := by simpa using h
  exact ⟨.evict hempty hlook href .nil, hempty⟩

theorem evictUpTo_inOrder (order : IterationOrder) : ∀ (n : Nat) (m : BlockManager σ),
    (0 < n → m.getFreeBlockCount = 0) →
      TakesInOrder m (evictUpTo order n m).1 (evictUpTo order n m).2 := by
  intro n
  induction n with
  | zero => intro m _; exact .nil
  | succ n ih =>
    intro m hempty
    unfold evictUpTo
    split
    · rename_i m₁ hnone
      rw [tryEvict_none hnone]
      exact .nil
    rename_i b m₁ hsome
    obtain ⟨htake, hempty₁⟩ := tryEvict_inOrder (hempty (Nat.succ_pos n)) hsome
    exact htake.append (ih m₁ fun _ => hempty₁)

/-! ### The call as a whole -/

/-- **What a call gathers**: free blocks before cached ones, and either all that it was
asked for, or everything there is, which it then frees again. -/
inductive Gathers (m : BlockManager σ) (n : Int) : List Int × BlockManager σ → Prop where
  | all {bs : List Int} {m₁ : BlockManager σ} (htakes : TakesInOrder m bs m₁)
      (hlen : (bs.length : Int) = n) : Gathers m n (bs, m₁)
  | short {bs : List Int} {m₁ : BlockManager σ} (htakes : TakesInOrder m bs m₁)
      (hlen : (bs.length : Int) < n) (hdry : m₁.getFreeBlockCount + m₁.idleBlockCount = 0) :
      Gathers m n ([], m₁.free bs)

theorem allocateSingle_gathers {m : BlockManager σ} (hm : WellFormed m) (c : AllocChoice) :
    (m.allocateSingle c = (none, m) ∧ m.getFreeBlockCount + m.idleBlockCount = 0) ∨
      ∃ b m₁, m.allocateSingle c = (some b, m₁) ∧ TakesInOrder m [b] m₁ := by
  rcases allocateSingle_cases m c with hnone | ⟨b, m₁, hsome, -⟩
  · exact Or.inl ⟨hnone, allocateSingle_none hm hnone⟩
  refine Or.inr ⟨b, m₁, hsome, ?_⟩
  unfold allocateSingle at hsome
  split at hsome
  · rename_i hfind
    obtain ⟨s, -, hpop⟩ := exists_of_findSome?_eq_some hfind
    cases hsome
    split at hpop
    · exact popFree_inOrder hpop
    · cases hpop
  split at hsome
  · rename_i hfind
    obtain ⟨s, -, hpop⟩ := exists_of_findSome?_eq_some hfind
    cases hsome
    exact popFree_inOrder hpop
  rename_i hnone
  rw [findSome?_eq_none_iff] at hnone
  have hempty : m.getFreeBlockCount = 0 := getFreeBlockCount_eq_zero fun s hs =>
    popFree_eq_none (hnone s (mem_range.mpr hs))
  exact (tryEvict_inOrder hempty hsome).1

theorem allocateBulk_gathers {m : BlockManager σ} (hm : WellFormed m) (n : Nat)
    (c : AllocChoice) : Gathers m n (m.allocateBulk n c) := by
  unfold allocateBulk
  split
  · rename_i s hfind
    have hfound := find?_some hfind
    simp only [Bool.and_eq_true, decide_eq_true_eq] at hfound
    exact .all (popUpTo_inOrder s n m) (by rw [popUpTo_length_of_le s n m hfound.2])
  dsimp only
  obtain ⟨hle, -, hempty⟩ := drainShards_supply (shardOrder c.startShard)
    (fun s hs => mem_shardOrder.mp hs) n m
  have hdrain := drainShards_inOrder (shardOrder c.startShard) n m
  have hlen := evictUpTo_length c.order
    (n - (drainShards (shardOrder c.startShard) n m).1.length)
    (drainShards (shardOrder c.startShard) n m).2
  have hdry := allocateBulk_short hm (n := n) (c := c) rfl rfl
  have hevict := evictUpTo_inOrder c.order
    (n - (drainShards (shardOrder c.startShard) n m).1.length)
    (drainShards (shardOrder c.startShard) n m).2 fun hmissing =>
      getFreeBlockCount_eq_zero fun s hs => hempty (by omega) s (mem_shardOrder.mpr hs)
  have hall := hdrain.append hevict
  split
  · rename_i hshort
    rw [length_append] at hshort
    exact .short hall (by rw [length_append]; omega) (hdry hshort)
  rename_i hlong
  rw [length_append] at hlong
  exact .all hall (by rw [length_append]; omega)

/-- **Every call gathers what it returns.** -/
theorem allocate_gathers {m : BlockManager σ} (hm : WellFormed m) {n : Int} (hn : 0 < n)
    (c : AllocChoice) : Gathers m n (m.allocate n c) := by
  unfold allocate
  rw [if_neg (by omega)]
  split
  · rename_i hone
    rcases allocateSingle_gathers hm c with ⟨hnone, hdry⟩ | ⟨b, m₁, hsome, htake⟩
    · rw [hnone]
      exact .short .nil hn hdry
    rw [hsome]
    exact .all htake (by rw [hone]; rfl)
  have hbulk := allocateBulk_gathers hm n.toNat c
  rwa [Int.toNat_of_nonneg (by omega)] at hbulk

/-! ### The rollback -/

/-- What the prefix cache knows: its index, the contents it remembers, and which block
is resident under which hash. -/
structure SameCache (m m' : BlockManager σ) : Prop where
  prefixCache : m'.prefixCache = m.prefixCache
  blockTokens : m'.blockTokens = m.blockTokens
  blockHybridSsmSnapshots : m'.blockHybridSsmSnapshots = m.blockHybridSsmSnapshots
  cacheResident : ∀ b, (m'.blocks b).cacheResident = (m.blocks b).cacheResident
  contentHash : ∀ b, (m'.blocks b).contentHash = (m.blocks b).contentHash

theorem SameCache.refl (m : BlockManager σ) : SameCache m m :=
  ⟨rfl, rfl, rfl, fun _ => rfl, fun _ => rfl⟩

theorem SameCache.trans {m m₁ m' : BlockManager σ} (h : SameCache m m₁) (h' : SameCache m₁ m') :
    SameCache m m' :=
  ⟨h'.prefixCache.trans h.prefixCache, h'.blockTokens.trans h.blockTokens,
    h'.blockHybridSsmSnapshots.trans h.blockHybridSsmSnapshots,
    fun b => (h'.cacheResident b).trans (h.cacheResident b),
    fun b => (h'.contentHash b).trans (h.contentHash b)⟩

theorem contentHash_of_not_resident {m : BlockManager σ} (hm : WellFormed m)
    (h : (m.blocks b).cacheResident = false) : (m.blocks b).contentHash = 0 := by
  by_contra hne
  rw [(hm.index.hash_iff b).mp hne] at h
  cases h

theorem freeSingle_sameCache {m : BlockManager σ} (hm : WellFormed m) (b : Int) :
    SameCache m (m.freeSingle b) := by
  unfold freeSingle
  split
  · exact .refl m
  split
  · exact .refl m
  dsimp only
  have hdrop : SameCache m (m.modifyBlock b fun k => { k with refCount := k.refCount - 1 }) :=
    ⟨rfl, rfl, rfl, fun b' => modifyBlock_field (·.cacheResident) m b b' rfl,
      fun b' => modifyBlock_field (·.contentHash) m b b' rfl⟩
  split
  · exact hdrop
  rename_i hgone
  rw [not_or, Bool.not_eq_true] at hgone
  have hhash := contentHash_of_not_resident hm ((hdrop.cacheResident b).symm.trans hgone.2)
  refine hdrop.trans ⟨rfl, rfl, rfl, ?_, ?_⟩
  · intro b'
    rw [pushFree_blocks]
    exact modifyBlock_field (·.cacheResident) _ b b' rfl
  intro b'
  rw [pushFree_blocks]
  refine modifyBlock_field (·.contentHash) _ b b' ?_
  exact ((hdrop.contentHash b).trans hhash).symm

theorem free_sameCache (bs : List Int) : ∀ {m : BlockManager σ}, WellFormed m →
    SameCache m (m.free bs) := by
  unfold free
  induction bs with
  | nil => intro m _; exact .refl m
  | cons b rest ih =>
    intro m hm
    exact (freeSingle_sameCache hm b).trans (ih ((freeSingle_quiet m b).wellFormed hm))

theorem freeSingle_refCount {m : BlockManager σ} (hin : m.InRange b)
    (hone : (m.blocks b).refCount = 1) (b' : Int) :
    ((m.freeSingle b).blocks b').refCount =
      if b' = b then 0 else (m.blocks b').refCount := by
  unfold freeSingle
  rw [if_neg (not_not.mpr hin), if_neg (by omega)]
  dsimp only
  by_cases heq : b' = b
  · subst heq
    rw [if_pos rfl]
    split <;> simp [hone]
  rw [if_neg heq]
  split <;> simp [heq]

theorem free_refCount (bs : List Int) : ∀ {m : BlockManager σ}, bs.Nodup →
    (∀ b ∈ bs, m.InRange b) → (∀ b ∈ bs, (m.blocks b).refCount = 1) → ∀ b',
      ((m.free bs).blocks b').refCount = if b' ∈ bs then 0 else (m.blocks b').refCount := by
  induction bs with
  | nil => intro m _ _ _ b'; rfl
  | cons b rest ih =>
    intro m hnodup hin hone b'
    obtain ⟨hnot, hrest⟩ := nodup_cons.mp hnodup
    have hfirst := freeSingle_refCount (hin b mem_cons_self) (hone b mem_cons_self)
    have hnum := (freeSingle_quiet m b).moves.numBlocks
    have htail := ih (m := m.freeSingle b) hrest ?_ ?_ b'
    · show (((m.freeSingle b).free rest).blocks b').refCount = _
      rw [htail, hfirst]
      by_cases heq : b' = b
      · rw [if_pos (mem_cons.mpr (Or.inl heq)), if_pos heq, ite_self]
      rw [if_neg heq]
      simp only [mem_cons, heq, false_or]
    · intro b₀ hb₀
      have hb := hin b₀ (mem_cons_of_mem b hb₀)
      unfold InRange at hb ⊢
      rwa [hnum]
    intro b₀ hb₀
    have hne : b₀ ≠ b := fun heq => hnot (heq ▸ hb₀)
    rw [hfirst, if_neg hne]
    exact hone b₀ (mem_cons_of_mem b hb₀)

theorem Handed.free_refCount {m m₁ : BlockManager σ} (h : Handed m bs m₁)
    (b : Int) : ((m₁.free bs).blocks b).refCount = (m.blocks b).refCount := by
  rw [BlockManager.free_refCount bs h.nodup ?_ ?_ b]
  · split
    · exact (h.unheld b ‹_›).symm
    · rw [h.others b ‹_›]
  · intro b' hb'
    have hin := h.inRange b' hb'
    unfold InRange at hin ⊢
    rwa [h.numBlocks]
  intro b' hb'
  rw [h.fresh b' hb']
  rfl

/-! ### What a call returns -/

/-- What a call that was asked for `n` blocks leaves behind. -/
structure AllocatesExactly (m : BlockManager σ) (n : Int) (r : List Int × BlockManager σ) :
    Prop where
  met : n ≤ m.getFreeBlockCount + m.idleBlockCount → (r.1.length : Int) = n ∧ r.1.Nodup ∧
    ∀ b ∈ r.1, m.InRange b ∧ (m.blocks b).refCount = 0 ∧
      (r.2.blocks b).refCount = 1 ∧ (r.2.blocks b).numFilledSlots = 0 ∧
      (r.2.blocks b).cacheResident = false
  refused : m.getFreeBlockCount + m.idleBlockCount < n → r.1 = []
  others : ∀ b, b ∉ r.1 → (r.2.blocks b).refCount = (m.blocks b).refCount
  inOrder : ∃ bs m₁, TakesInOrder m bs m₁ ∧ (r = (bs, m₁) ∨ r = ([], m₁.free bs))

theorem Gathers.exact {m : BlockManager σ} (hm : WellFormed m) {n : Int}
    {r : List Int × BlockManager σ} (h : Gathers m n r) : AllocatesExactly m n r := by
  cases h with
  | @all bs m₁ htakes hlen =>
    have hhanded := htakes.takes.handed hm
    have hsupply := htakes.takes.supply hm
    refine ⟨fun _ => ⟨hlen, hhanded.nodup, ?_⟩, fun hfew => ?_, ?_, bs, m₁, htakes, Or.inl rfl⟩
    · intro b hb
      rw [hhanded.fresh b hb]
      exact ⟨hhanded.inRange b hb, hhanded.unheld b hb, rfl, rfl, rfl⟩
    · omega
    intro b hb
    rw [hhanded.others b hb]
  | @short bs m₁ htakes hlen hdry =>
    have hhanded := htakes.takes.handed hm
    have hsupply := htakes.takes.supply hm
    refine ⟨fun hmany => ?_, fun _ => rfl, fun b _ => hhanded.free_refCount b,
      bs, m₁, htakes, Or.inr rfl⟩
    omega

/-- **An allocation succeeds exactly when the free and the idle blocks suffice.** -/
theorem allocate_succeeds_iff {m : BlockManager σ} (hm : WellFormed m) {n : Int} (hn : 0 < n)
    (c : AllocChoice) :
    (m.allocate n c).1 ≠ [] ↔ n ≤ m.getFreeBlockCount + m.idleBlockCount := by
  have hexact := (allocate_gathers hm hn c).exact hm
  constructor
  · intro hsome
    by_contra hfew
    exact hsome (hexact.refused (by omega))
  intro hmany
  have hlen := (hexact.met hmany).1
  exact ne_nil_of_length_pos (by omega)

/-- **An allocation is exact.**  In every reachable manager a request for `n` blocks is
met exactly when the free and the idle cached blocks are `n` together; it then returns
`n` distinct blocks that nobody held, each now held once, empty and out of the cache.
Otherwise it returns none.  No other reference count changes, and no cached block is
taken while a free one remains. -/
theorem run_allocate_exact (salt : UInt64) (numBlocks : Nat) (blockSize : Int)
    (ops : List (Op σ)) (n : Int) (hn : 1 ≤ n) (c : AllocChoice) :
    AllocatesExactly (run salt (init numBlocks blockSize) ops) n
      ((run salt (init numBlocks blockSize) ops).allocate n c) := by
  have hwf : WellFormed (run salt (init numBlocks blockSize : BlockManager σ) ops) :=
    run_wellFormed salt numBlocks blockSize ops
  have hpos : 0 < n := Int.lt_of_lt_of_le Int.zero_lt_one hn
  exact (allocate_gathers hwf hpos c).exact hwf

/-- Two blocks from a pool of three, one of which is idle. -/
theorem run_allocate_exact_two : ((run 0 (init 3 16 : BlockManager Unit)
      [.allocateSingle {}, .registerPrefixBlock 0 7, .freeSingle 0]).allocate 2 {}).1.length =
        (2 : Int) :=
  ((run_allocate_exact 0 3 16
    ([.allocateSingle {}, .registerPrefixBlock 0 7, .freeSingle 0] : List (Op Unit)) 2
    (by decide) {}).met (by decide)).1

/-! ### What a failed call leaves behind -/

/-- The cache, the reference counts and the free blocks are what they were. -/
structure SameLedger (m m' : BlockManager σ) : Prop extends SameCache m m' where
  refCount : ∀ b, (m'.blocks b).refCount = (m.blocks b).refCount
  free : ∀ s b, b ∈ m'.shards s ↔ b ∈ m.shards s

theorem SameCache.ledger {m m' : BlockManager σ} (h : SameCache m m') (hm : WellFormed m)
    (hm' : WellFormed m') (hn : m'.numBlocks = m.numBlocks)
    (href : ∀ b, (m'.blocks b).refCount = (m.blocks b).refCount) : SameLedger m m' := by
  refine ⟨h, href, ?_⟩
  intro s b
  rw [hm.partition.mem_iff, hm'.partition.mem_iff]
  unfold IsFree InRange
  rw [hn, href, h.cacheResident]

theorem idleBlockCount_pos {m : BlockManager σ} (h : m.IsIdle b) : 0 < m.idleBlockCount := by
  obtain ⟨i, rfl⟩ := Int.eq_ofNat_of_zero_le h.1.1
  have hlt := h.1.2
  unfold idleBlockCount
  rw [countP_pos_iff]
  exact ⟨i, mem_range.mpr (by omega), by simpa using h⟩

theorem Takes.sameCache {m m' : BlockManager σ} (h : Takes m bs m')
    (hm : WellFormed m) (hidle : m.idleBlockCount = 0) : SameCache m m' := by
  induction h with
  | nil => exact .refl _
  | @pop m₀ m₁ s b rest bs hhead _ ih =>
    have htake := Takes.pop hhead .nil
    obtain ⟨hs, hfree⟩ := (hm.partition.mem_iff s b).mp (by simp [hhead])
    have hlt : s < numShards := by
      rw [hs]
      unfold shardOf numShards
      omega
    have hsupply := htake.supply hm
    have hcount := m₀.getFreeBlockCount_update
      (({ m₀ with shards := Function.update m₀.shards s rest }).resetAllocatedBlock b)
      hlt rest rfl
    rw [hhead, length_cons] at hcount
    rw [length_singleton] at hsupply
    have hkeep : SameCache m₀
        (({ m₀ with shards := Function.update m₀.shards s rest }).resetAllocatedBlock b) := by
      refine ⟨rfl, rfl, rfl, ?_, ?_⟩
      · exact fun b' => modifyBlock_field (·.cacheResident) _ b b' hfree.2.2.symm
      exact fun b' => modifyBlock_field (·.contentHash) _ b b'
        (contentHash_of_not_resident hm hfree.2.2).symm
    exact hkeep.trans (ih (htake.quiet.wellFormed hm) (by omega))
  | @evict m₀ m₁ h b bs hlook href _ _ =>
    have hres := ((hm.index.lookup_iff h b).mp hlook).1
    have hpos := idleBlockCount_pos ⟨hm.index.residentInRange b hres, href, hres⟩
    omega

theorem Takes.idle_lost {m m₁ : BlockManager σ} (h : Takes m bs m₁)
    (hm : WellFormed m) (hdry : m₁.idleBlockCount = 0) (hb : m.IsIdle b) :
    ((m₁.free bs).blocks b).cacheResident = false := by
  have hhanded := h.handed hm
  rw [(free_sameCache bs (h.quiet.wellFormed hm)).cacheResident]
  by_cases hmem : b ∈ bs
  · rw [hhanded.fresh b hmem]
    rfl
  have hstill : m₁.IsIdle b := by
    unfold IsIdle InRange at hb ⊢
    rwa [hhanded.others b hmem, hhanded.numBlocks]
  have hpos := idleBlockCount_pos hstill
  omega

theorem exists_idle {m : BlockManager σ} (h : m.idleBlockCount ≠ 0) : ∃ b, m.IsIdle b := by
  by_contra hnone
  exact h (idleBlockCount_eq_zero fun b hb => hnone ⟨b, hb⟩)

/-- **A failed allocation leaves the ledger as it was exactly when there is no idle
block.**  In every reachable manager, for every request: if the call returns nothing,
the cache, the reference counts and the free blocks are unchanged precisely when the
request is for no block at all, or can be met, or nothing is idle. -/
theorem run_failed_allocate_harmless_iff (salt : UInt64) (numBlocks : Nat) (blockSize : Int)
    (ops : List (Op σ)) (n : Int) (c : AllocChoice) :
    let m := run salt (init numBlocks blockSize : BlockManager σ) ops
    ((m.allocate n c).1 = [] → SameLedger m (m.allocate n c).2) ↔
      n ≤ 0 ∨ n ≤ m.getFreeBlockCount + m.idleBlockCount ∨ m.idleBlockCount = 0 := by
  intro m
  have hwf : WellFormed m := run_wellFormed salt numBlocks blockSize ops
  by_cases hn : n ≤ 0
  · refine iff_of_true (fun _ => ?_) (Or.inl hn)
    unfold allocate
    rw [if_pos hn]
    exact ⟨.refl m, fun _ => rfl, fun _ _ => Iff.rfl⟩
  have hmet := allocate_succeeds_iff hwf (Int.not_le.mp hn) c
  have hgathers := allocate_gathers hwf (Int.not_le.mp hn) c
  generalize m.allocate n c = r at hmet hgathers
  cases hgathers with
  | @all bs m₁ htakes hlen =>
    have hne : bs ≠ [] := by
      rintro rfl
      rw [length_nil] at hlen
      omega
    exact iff_of_true (fun hnil => absurd hnil hne) (Or.inr (Or.inl (hmet.mp hne)))
  | @short bs m₁ htakes hlen hdry =>
    have hfew : ¬ n ≤ m.getFreeBlockCount + m.idleBlockCount := fun hmany =>
      hmet.mpr hmany rfl
    have hwf₁ := htakes.takes.quiet.wellFormed hwf
    constructor
    · intro hsame
      refine Or.inr (Or.inr ?_)
      by_contra hidle
      obtain ⟨b, hb⟩ := exists_idle hidle
      have hlost := htakes.takes.idle_lost hwf (by omega) hb
      have hkept := (hsame rfl).cacheResident b
      rw [hlost, hb.2.2] at hkept
      cases hkept
    intro hcond _
    have hidle : m.idleBlockCount = 0 := by omega
    have hcache := htakes.takes.sameCache hwf hidle
    refine (hcache.trans (free_sameCache bs hwf₁)).ledger hwf
      ((free_quiet bs m₁).wellFormed hwf₁) ?_ (htakes.takes.handed hwf).free_refCount
    exact (free_quiet bs m₁).moves.numBlocks.trans (htakes.takes.handed hwf).numBlocks

/-- One idle block and a request for two: the call returns nothing, and the prefix that
the block was kept for is no longer found. -/
theorem failed_allocate_evicts :
    let m := run 0 (init 1 16 : BlockManager Unit)
      [.allocateSingle {}, .registerPrefixBlock 0 7, .freeSingle 0]
    (m.allocate 2 {}).1 = [] ∧ ¬ SameLedger m (m.allocate 2 {}).2 ∧
      m.prefixCache.lookup 7 = some 0 ∧ (m.allocate 2 {}).2.prefixCache.lookup 7 = none := by
  refine ⟨by decide, fun h => ?_, by decide, by decide⟩
  have hres := h.cacheResident 0
  exact absurd hres (by decide)

end DenseCore.BlockManager
