/-
Every operation of the block manager is a chain of moves.

The loops of the allocation paths are the bulk of it.  `Takes` records what they
do with the blocks they hand out: each comes off the head of a free list or is an
idle cached block evicted on the spot, and from either it is clear that nobody
held the block before and that its holder is the only one now.  The remaining
operations make at most a handful of moves each.

With that, `WellFormed` holds after every run from the constructor.
-/
import DenseCore.Proofs.Memory.Ledger

namespace DenseCore.BlockManager

open List
open Function (update update_of_ne update_self)

variable {σ : Type}

/-- A chain of moves that enter nothing into the index. -/
def QuietMoves (m m' : BlockManager σ) : Prop := Relation.ReflTransGen QuietMove m m'

/-- A chain of moves. -/
def Moves (m m' : BlockManager σ) : Prop := Relation.ReflTransGen Move m m'

theorem QuietMoves.refl (m : BlockManager σ) : QuietMoves m m := Relation.ReflTransGen.refl

theorem QuietMoves.single {m m' : BlockManager σ} (h : QuietMove m m') : QuietMoves m m' :=
  Relation.ReflTransGen.single h

theorem QuietMoves.trans {m m₁ m₂ : BlockManager σ} (h : QuietMoves m m₁)
    (h' : QuietMoves m₁ m₂) : QuietMoves m m₂ :=
  Relation.ReflTransGen.trans h h'

theorem QuietMoves.moves {m m' : BlockManager σ} (h : QuietMoves m m') : Moves m m' := by
  induction h with
  | refl => exact Relation.ReflTransGen.refl
  | tail _ hstep ih => exact Relation.ReflTransGen.tail ih (.quiet hstep)

theorem Moves.wellFormed {m m' : BlockManager σ} (h : Moves m m') (hm : WellFormed m) :
    WellFormed m' := by
  unfold Moves at h
  exact Lib.inv_of_moves (fun _ _ hwf hmove => hmove.wellFormed hwf) h hm

theorem QuietMoves.wellFormed {m m' : BlockManager σ} (h : QuietMoves m m')
    (hm : WellFormed m) : WellFormed m' :=
  h.moves.wellFormed hm

/-! ### Taking blocks

A block that is handed out comes off the head of a free list, or out of the prefix cache.
Where the order of the two matters, `TakesInOrder` says which came first.
-/

/-- The record of a block that has just been handed out. -/
def freshBlock : PhysicalBlock :=
  { refCount := 1, numFilledSlots := 0, contentHash := 0, cacheResident := false }

/-- The manager hands out the blocks of a list, one after the other. -/
inductive Takes : BlockManager σ → List Int → BlockManager σ → Prop where
  | nil {m : BlockManager σ} : Takes m [] m
  | pop {m m' : BlockManager σ} {s : Nat} {b : Int} {rest bs : List Int}
      (hhead : m.shards s = b :: rest)
      (hrest : Takes (({ m with shards := update m.shards s rest }).resetAllocatedBlock b) bs m') :
      Takes m (b :: bs) m'
  | evict {m m' : BlockManager σ} {h : UInt64} {b : Int} {bs : List Int}
      (hlook : m.prefixCache.lookup h = some b) (href : (m.blocks b).refCount = 0)
      (hrest : Takes (m.evictBlock h b) bs m') : Takes m (b :: bs) m'

variable {bs : List Int} {b : Int} {order : IterationOrder}

theorem Takes.append {m m₁ m₂ : BlockManager σ} {cs : List Int} (h : Takes m bs m₁)
    (h' : Takes m₁ cs m₂) : Takes m (bs ++ cs) m₂ := by
  induction h with
  | nil => exact h'
  | pop hhead _ ih => exact .pop hhead (ih h')
  | evict hlook href _ ih => exact .evict hlook href (ih h')

theorem Takes.quiet {m m' : BlockManager σ} (h : Takes m bs m') : QuietMoves m m' := by
  induction h with
  | nil => exact QuietMoves.refl _
  | pop hhead _ ih => exact (QuietMoves.single (.takeFree hhead)).trans ih
  | evict hlook href _ ih => exact (QuietMoves.single (.evict hlook href)).trans ih

/-- Blocks are taken one after the other, and a cached one only from a manager that
has no free block left. -/
inductive TakesInOrder : BlockManager σ → List Int → BlockManager σ → Prop where
  | nil {m : BlockManager σ} : TakesInOrder m [] m
  | pop {m m' : BlockManager σ} {s : Nat} {b : Int} {rest bs : List Int}
      (hhead : m.shards s = b :: rest)
      (hrest : TakesInOrder
        (({ m with shards := update m.shards s rest }).resetAllocatedBlock b) bs m') :
      TakesInOrder m (b :: bs) m'
  | evict {m m' : BlockManager σ} {h : UInt64} {b : Int} {bs : List Int}
      (hempty : m.getFreeBlockCount = 0) (hlook : m.prefixCache.lookup h = some b)
      (href : (m.blocks b).refCount = 0) (hrest : TakesInOrder (m.evictBlock h b) bs m') :
      TakesInOrder m (b :: bs) m'

namespace TakesInOrder

variable {m m₁ m' : BlockManager σ} {bs cs : List Int}

theorem takes (h : TakesInOrder m bs m') : Takes m bs m' := by
  induction h with
  | nil => exact .nil
  | pop hhead _ ih => exact .pop hhead ih
  | evict _ hlook href _ ih => exact .evict hlook href ih

theorem append (h : TakesInOrder m bs m₁) (h' : TakesInOrder m₁ cs m') :
    TakesInOrder m (bs ++ cs) m' := by
  induction h with
  | nil => exact h'
  | pop hhead _ ih => exact .pop hhead (ih h')
  | evict hempty hlook href _ ih => exact .evict hempty hlook href (ih h')

end TakesInOrder

/-- What a chain of takes does to the records of the blocks. -/
structure Handed (m : BlockManager σ) (bs : List Int) (m' : BlockManager σ) : Prop where
  nodup : bs.Nodup
  inRange : ∀ b ∈ bs, m.InRange b
  unheld : ∀ b ∈ bs, (m.blocks b).refCount = 0
  fresh : ∀ b ∈ bs, m'.blocks b = freshBlock
  others : ∀ b, b ∉ bs → m'.blocks b = m.blocks b
  numBlocks : m'.numBlocks = m.numBlocks

theorem Handed.cons {m m₁ m' : BlockManager σ}
    (h : Handed m₁ bs m') (hin : m.InRange b) (href : (m.blocks b).refCount = 0)
    (hb : m₁.blocks = update m.blocks b freshBlock)
    (hn : m₁.numBlocks = m.numBlocks) : Handed m (b :: bs) m' := by
  -- The block just taken has a holder, so the takes that follow cannot repeat it.
  have hnot : b ∉ bs := by
    intro hmem
    have := h.unheld b hmem
    rw [hb, update_self] at this
    cases this
  refine ⟨nodup_cons.mpr ⟨hnot, h.nodup⟩, ?_, ?_, ?_, ?_, h.numBlocks.trans hn⟩
  · intro b' hb'
    rcases mem_cons.mp hb' with rfl | hb'
    · exact hin
    have := h.inRange b' hb'
    unfold InRange at this ⊢
    rwa [hn] at this
  · intro b' hb'
    rcases mem_cons.mp hb' with rfl | hmem
    · exact href
    have hne : b' ≠ b := by rintro rfl; exact hnot hmem
    have := h.unheld b' hmem
    rwa [hb, update_of_ne hne] at this
  · intro b' hb'
    rcases mem_cons.mp hb' with rfl | hb'
    · rw [h.others _ hnot, hb, update_self]
    · exact h.fresh b' hb'
  intro b' hb'
  rw [mem_cons, not_or] at hb'
  rw [h.others b' hb'.2, hb, update_of_ne hb'.1]

/-- **Blocks handed out were nobody's and are the caller's alone.** -/
theorem Takes.handed {m m' : BlockManager σ} (h : Takes m bs m')
    (hm : WellFormed m) : Handed m bs m' := by
  induction h with
  | nil => exact ⟨nodup_nil, by simp, by simp, by simp, fun _ _ => rfl, rfl⟩
  | @pop m₀ m₁ s b rest bs hhead _ ih =>
    have hfree := ((hm.partition.mem_iff s b).mp (by simp [hhead])).2
    have hm' := (Move.quiet (.takeFree hhead)).wellFormed hm
    exact (ih hm').cons hfree.1 hfree.2.1 rfl rfl
  | @evict m₀ m₁ h b bs hlook href _ ih =>
    have hres := ((hm.index.lookup_iff h b).mp hlook).1
    have hm' := (Move.quiet (.evict hlook href)).wellFormed hm
    exact (ih hm').cons (hm.index.residentInRange b hres) href (evictBlock_blocks m₀ h b) rfl

theorem popFree_inOrder {m m' : BlockManager σ} {s : Nat}
    (h : m.popFree s = some (b, m')) : TakesInOrder m [b] m' := by
  unfold popFree at h
  split at h
  · cases h
  rename_i b' rest hhead
  obtain ⟨rfl, rfl⟩ : b' = b ∧ _ = m' := by simpa using h
  exact .pop hhead .nil

theorem popUpTo_inOrder (s : Nat) : ∀ (n : Nat) (m : BlockManager σ),
    TakesInOrder m (popUpTo s n m).1 (popUpTo s n m).2 := by
  intro n
  induction n with
  | zero => intro m; exact .nil
  | succ n ih =>
    intro m
    unfold popUpTo
    split
    · exact .nil
    rename_i b m₁ hpop
    exact (popFree_inOrder hpop).append (ih m₁)

theorem drainShards_inOrder (ss : List Nat) : ∀ (n : Nat) (m : BlockManager σ),
    TakesInOrder m (drainShards ss n m).1 (drainShards ss n m).2 := by
  induction ss with
  | nil => intro n m; exact .nil
  | cons s ss ih =>
    intro n m
    exact (popUpTo_inOrder s n m).append (ih _ _)

theorem tryEvict_cases (m : BlockManager σ) (order : IterationOrder) :
    m.tryEvictIdlePrefixBlockForAllocation order = (none, m) ∨
      ∃ h b, m.prefixCache.lookup h = some b ∧ (m.blocks b).refCount = 0 ∧
        m.tryEvictIdlePrefixBlockForAllocation order = (some b, m.evictBlock h b) := by
  unfold tryEvictIdlePrefixBlockForAllocation
  split
  · exact Or.inl rfl
  rename_i e hfind
  refine Or.inr ⟨e.1, e.2, ?_, ?_, rfl⟩
  · have hmem := (order.perm m.prefixCache.entries).mem_iff.mp (mem_of_find?_eq_some hfind)
    exact AList.mem_lookup_iff.mpr hmem
  have hev := find?_some hfind
  simp only [evictable, Bool.and_eq_true, decide_eq_true_eq] at hev
  exact hev.1.2

theorem tryEvict_takes {m m' : BlockManager σ}
    (h : m.tryEvictIdlePrefixBlockForAllocation order = (some b, m')) : Takes m [b] m' := by
  rcases tryEvict_cases m order with hnone | ⟨h', b', hlook, href, hsome⟩
  · rw [hnone] at h; cases h
  rw [hsome] at h
  simp only [Prod.mk.injEq, Option.some.injEq] at h
  obtain ⟨rfl, rfl⟩ := h
  exact .evict hlook href .nil

theorem tryEvict_none {m m' : BlockManager σ}
    (h : m.tryEvictIdlePrefixBlockForAllocation order = (none, m')) : m' = m := by
  rcases tryEvict_cases m order with hnone | ⟨h', b', _, _, hsome⟩
  · rw [hnone] at h
    exact (Prod.mk.inj h).2.symm
  · rw [hsome] at h; cases h

theorem evictUpTo_takes (order : IterationOrder) : ∀ (n : Nat) (m : BlockManager σ),
    Takes m (evictUpTo order n m).1 (evictUpTo order n m).2 := by
  intro n
  induction n with
  | zero => intro m; exact .nil
  | succ n ih =>
    intro m
    unfold evictUpTo
    split
    · rename_i m₁ hnone
      rw [tryEvict_none hnone]
      exact .nil
    rename_i b m₁ hsome
    exact (tryEvict_takes hsome).append (ih m₁)

theorem allocateSingle_cases (m : BlockManager σ) (c : AllocChoice) :
    m.allocateSingle c = (none, m) ∨
      ∃ b m', m.allocateSingle c = (some b, m') ∧ Takes m [b] m' := by
  unfold allocateSingle
  split
  · rename_i b m₁ hfirst
    obtain ⟨s, _, hs⟩ := exists_of_findSome?_eq_some hfirst
    split at hs
    · exact Or.inr ⟨b, m₁, rfl, (popFree_inOrder hs).takes⟩
    · cases hs
  split
  · rename_i b m₁ hsecond
    obtain ⟨s, _, hs⟩ := exists_of_findSome?_eq_some hsecond
    exact Or.inr ⟨b, m₁, rfl, (popFree_inOrder hs).takes⟩
  rcases tryEvict_cases m c.order with hnone | ⟨h, b, hlook, href, hsome⟩
  · exact Or.inl hnone
  · exact Or.inr ⟨b, _, hsome, .evict hlook href .nil⟩

/-! ### The operations as chains of moves -/

theorem freeSingle_quiet (m : BlockManager σ) (b : Int) : QuietMoves m (m.freeSingle b) := by
  unfold freeSingle
  split
  · exact QuietMoves.refl m
  rename_i hin
  split
  · exact QuietMoves.refl m
  rename_i hpos
  have hin' := not_not.mp hin
  have hpos' : 0 < (m.blocks b).refCount := by omega
  simp only [modifyBlock_blocks, update_self]
  split
  · rename_i hkeep
    refine QuietMoves.single (.dropRef hpos' ?_)
    rcases hkeep with hgt | hres
    · exact Or.inl (by omega)
    · exact Or.inr hres
  rename_i hgo
  simp only [not_or, Bool.not_eq_true] at hgo
  exact QuietMoves.single (.giveBack hin' (by omega) hgo.2)

theorem free_quiet (ids : List Int) : ∀ m : BlockManager σ, QuietMoves m (m.free ids) := by
  unfold free
  induction ids with
  | nil => intro m; exact QuietMoves.refl m
  | cons b rest ih => intro m; exact (freeSingle_quiet m b).trans (ih _)

section

variable (m : BlockManager σ)

include m

theorem allocateSingle_quiet (c : AllocChoice) :
    QuietMoves m (m.allocateSingle c).2 := by
  rcases allocateSingle_cases m c with hnone | ⟨b, m', hsome, htakes⟩
  · rw [hnone]; exact QuietMoves.refl m
  · rw [hsome]; exact htakes.quiet

theorem allocateBulk_quiet (n : Nat) (c : AllocChoice) :
    QuietMoves m (m.allocateBulk n c).2 := by
  unfold allocateBulk
  split
  · exact (popUpTo_inOrder _ n m).takes.quiet
  have hdrain := (drainShards_inOrder (shardOrder c.startShard) n m).takes
  have hevict := evictUpTo_takes c.order
    (n - (drainShards (shardOrder c.startShard) n m).1.length)
    (drainShards (shardOrder c.startShard) n m).2
  dsimp only
  split
  · exact (hdrain.append hevict).quiet.trans (free_quiet _ _)
  · exact (hdrain.append hevict).quiet

theorem allocate_quiet (n : Int) (c : AllocChoice) :
    QuietMoves m (m.allocate n c).2 := by
  unfold allocate
  split
  · exact QuietMoves.refl m
  split
  · have hsingle := allocateSingle_quiet m c
    split
    · rename_i b m₁ hsome
      rwa [hsome] at hsingle
    rename_i m₁ hnone
    rwa [hnone] at hsingle
  · exact allocateBulk_quiet m n.toNat c

theorem fork_quiet (b : Int) : QuietMoves m (m.fork b).2 := by
  unfold fork
  split
  · exact QuietMoves.refl m
  split
  · exact QuietMoves.refl m
  · exact QuietMoves.single (.addRef (Or.inl (by omega)))

theorem copyOnWrite_quiet (b : Int) (c : AllocChoice)
    (hm : WellFormed m) : QuietMoves m (m.copyOnWrite b c).2 := by
  unfold copyOnWrite
  split
  · exact QuietMoves.refl m
  split
  · exact QuietMoves.refl m
  rename_i hshared
  rcases allocateSingle_cases m c with hnone | ⟨b', m₁, hsome, htakes⟩
  · rw [hnone]; exact QuietMoves.refl m
  rw [hsome]
  -- The source block is held twice, so it is not the one handed out.
  have hh := htakes.handed hm
  have hne : b ∉ [b'] := by
    intro hmem
    have := hh.unheld b hmem
    omega
  have hsame := hh.others b hne
  refine htakes.quiet.trans ((QuietMoves.single (.dropRef (b := b) ?_ (Or.inl ?_))).trans
    (QuietMoves.single .fill))
  · rw [hsame]; omega
  · rw [hsame]; omega

theorem setFilledSlots_quiet (b n : Int) :
    QuietMoves m (m.setFilledSlots b n) := by
  unfold setFilledSlots
  split
  · exact QuietMoves.refl m
  · exact QuietMoves.single .fill

theorem acquireCached_quiet (b : Int) (hm : WellFormed m) :
    QuietMoves m (m.acquireCached b).2 := by
  unfold acquireCached
  split
  · exact QuietMoves.refl m
  rename_i hlive
  simp only [not_or, not_and, Int.not_lt] at hlive
  refine QuietMoves.single (.addRef ?_)
  by_cases hpos : 0 < (m.blocks b).refCount
  · exact Or.inl hpos
  right
  have hnn := hm.partition.refNonneg b
  by_contra hres
  exact hlive.2 (by simpa using hres) (by omega)

theorem findCachedBlock_quiet (h : UInt64) (hm : WellFormed m) :
    QuietMoves m (m.findCachedBlock h).2 := by
  unfold findCachedBlock
  split
  · exact QuietMoves.refl m
  split
  · exact QuietMoves.refl m
  · exact acquireCached_quiet m _ hm

theorem findCachedBlockWithVerification_cases (h : UInt64)
    (ts : Option (List Int32)) (n : Int) :
    m.findCachedBlockWithVerification h ts n = (none, m) ∨
      ∃ l b, ts = some l ∧ h ≠ 0 ∧ 0 < n ∧ m.prefixCache.lookup h = some b ∧
        m.blockTokens.lookup b = some (l.take n.toNat) ∧ (l.take n.toNat).length = n ∧
        m.findCachedBlockWithVerification h ts n = m.acquireCached b := by
  unfold findCachedBlockWithVerification
  split
  · exact Or.inl rfl
  rename_i l
  split
  · exact Or.inl rfl
  rename_i hargs
  rw [not_or] at hargs
  split
  · exact Or.inl rfl
  rename_i b hlook
  split
  · exact Or.inl rfl
  rename_i stored htok
  split
  · exact Or.inl rfl
  rename_i hlen
  split
  · exact Or.inl rfl
  rename_i heq
  have hstored : stored = l.take n.toNat := not_not.mp heq
  subst hstored
  exact Or.inr ⟨l, b, rfl, hargs.1, by omega, hlook, htok, not_not.mp hlen, rfl⟩

theorem findCachedBlockWithVerification_quiet (h : UInt64)
    (ts : Option (List Int32)) (n : Int) (hm : WellFormed m) :
    QuietMoves m (m.findCachedBlockWithVerification h ts n).2 := by
  rcases findCachedBlockWithVerification_cases m h ts n with hnone | ⟨l, b, _, _, _, _, _, _, heq⟩
  · rw [hnone]; exact QuietMoves.refl m
  · rw [heq]; exact acquireCached_quiet m b hm

end

theorem scanCachedPrefix_quiet (salt : UInt64) (ts : List Int32) (req : Bool)
    (v : Option (List σ → Bool)) : ∀ (left k : Nat) (scan : PrefixScan) (m : BlockManager σ),
    WellFormed m → QuietMoves m (scanCachedPrefix salt ts req v left k scan m).2 := by
  intro left
  induction left with
  | zero => intro k scan m _; exact QuietMoves.refl m
  | succ left ih =>
    intro k scan m hm
    have hfind := findCachedBlockWithVerification_quiet m
      (computeTokenHash salt ts (k * blockSlots + blockSlots : Nat))
      (some (ts.drop (k * blockSlots))) blockSlots hm
    unfold scanCachedPrefix
    dsimp only
    split
    · rename_i m₁ hnone
      rwa [hnone] at hfind
    rename_i b m₁ hsome
    rw [hsome] at hfind
    exact hfind.trans (ih _ _ _ (hfind.wellFormed hm))

theorem dropBeyondSnapshot_quiet (req : Bool) (scan : PrefixScan) (m : BlockManager σ) :
    QuietMoves m (dropBeyondSnapshot req scan m).2 := by
  unfold dropBeyondSnapshot
  split
  · exact QuietMoves.refl m
  split
  · exact free_quiet _ m
  split
  · exact free_quiet _ m
  · exact QuietMoves.refl m

theorem findLongest_quiet (m : BlockManager σ) (salt : UInt64) (ts : Option (List Int32))
    (n : Int) (req : Bool) (v : Option (List σ → Bool)) (hm : WellFormed m) :
    QuietMoves m (m.findLongestCachedPrefixWithVerification salt ts n req v).2 := by
  unfold findLongestCachedPrefixWithVerification
  split
  · exact QuietMoves.refl m
  split
  · exact QuietMoves.refl m
  dsimp only
  split
  · exact QuietMoves.refl m
  exact (scanCachedPrefix_quiet salt _ req v _ 0 _ m hm).trans
    (dropBeyondSnapshot_quiet req _ _)

theorem releasePrefixResidencyLocked_quiet (m : BlockManager σ) (b : Int) :
    QuietMoves m (m.releasePrefixResidencyLocked b false) := by
  by_cases hin : m.InRange b
  · by_cases hres : (m.blocks b).cacheResident = true
    · exact QuietMoves.single (.release hin hres)
    have : m.releasePrefixResidencyLocked b false = m := by
      unfold releasePrefixResidencyLocked
      rw [if_neg (not_not.mpr hin), if_pos (by simpa using hres)]
    rw [this]; exact QuietMoves.refl m
  have : m.releasePrefixResidencyLocked b false = m := by
    unfold releasePrefixResidencyLocked
    rw [if_pos hin]
  rw [this]; exact QuietMoves.refl m

theorem releaseExisting_spec (m : BlockManager σ) (b : Int) (h : UInt64) (hm : WellFormed m) :
    QuietMoves m (m.releaseExisting b h) ∧
      (∀ b', (m.releaseExisting b h).prefixCache.lookup h = some b' → b' = b) ∧
      (m.releaseExisting b h).blocks b = m.blocks b ∧
      (m.releaseExisting b h).numBlocks = m.numBlocks := by
  unfold releaseExisting
  split
  · rename_i hlook
    refine ⟨QuietMoves.refl m, ?_, rfl, rfl⟩
    intro b' hb'
    rw [hlook] at hb'; cases hb'
  rename_i e hlook
  split
  · rename_i hne
    obtain ⟨hres, hhash, _⟩ := (hm.index.lookup_iff h e).mp hlook
    have hr := releasePrefixResidencyLocked_released m (hm.index.residentInRange e hres) hres
    refine ⟨releasePrefixResidencyLocked_quiet m e, ?_, ?_, hr.numBlocks⟩
    · intro b' hb'
      rw [hr.lookup hm.index hres, if_pos hhash.symm] at hb'
      cases hb'
    · rw [hr.blocks, update_of_ne (Ne.symm hne)]
  rename_i heq
  refine ⟨QuietMoves.refl m, ?_, rfl, rfl⟩
  intro b' hb'
  rw [hlook] at hb'
  exact (Option.some.inj hb').symm.trans (not_not.mp heq)

theorem mayIndex_of_accepted {m : BlockManager σ} {h : UInt64} (hm : WellFormed m)
    (hargs : ¬ (¬ m.InRange b ∨ h = 0))
    (haccept : ¬ (m.releaseExisting b h).refusesRegistration b = true) :
    (m.releaseExisting b h).MayIndex b h := by
  rw [not_or, not_not] at hargs
  obtain ⟨_, howner, _, hnum⟩ := releaseExisting_spec m b h hm
  refine ⟨?_, hargs.2, howner, ?_⟩
  · unfold InRange
    rw [hnum]
    exact hargs.1
  simp only [refusesRegistration, Bool.and_eq_true, decide_eq_true_eq, Bool.not_eq_true',
    not_and, Bool.not_eq_false] at haccept
  by_cases hpos : 0 < ((m.releaseExisting b h).blocks b).refCount
  · exact Or.inl hpos
  · exact Or.inr (haccept (by omega))

theorem registerPrefixBlock_moves (m : BlockManager σ) (b : Int) (h : UInt64)
    (hm : WellFormed m) : Moves m (m.registerPrefixBlock b h) := by
  unfold registerPrefixBlock
  split
  · exact Relation.ReflTransGen.refl
  rename_i hargs
  have hrel := (releaseExisting_spec m b h hm).1
  dsimp only
  split
  · exact hrel.moves
  rename_i haccept
  exact hrel.moves.tail (.bare (mayIndex_of_accepted hm hargs haccept))

theorem registerPrefixBlockWithTokens_moves (m : BlockManager σ) (b : Int) (h : UInt64)
    (ts : Option (List Int32)) (n : Int) (snap : Option (List σ)) (hm : WellFormed m) :
    Moves m (m.registerPrefixBlockWithTokens b h ts n snap) := by
  unfold registerPrefixBlockWithTokens
  split
  · exact Relation.ReflTransGen.refl
  rename_i hargs
  have hrel := (releaseExisting_spec m b h hm).1
  dsimp only
  split
  · exact hrel.moves
  rename_i haccept
  exact hrel.moves.tail (.withTokens (mayIndex_of_accepted hm hargs haccept))

theorem unregisterPrefixBlock_quiet (m : BlockManager σ) (b : Int) :
    QuietMoves m (m.unregisterPrefixBlock b) := by
  unfold unregisterPrefixBlock
  split
  · exact QuietMoves.refl m
  · exact releasePrefixResidencyLocked_quiet m b

/-- The two operations that may enter a block into the index. -/
def Op.Registering : Op σ → Prop
  | .registerPrefixBlock _ _ => True
  | .registerPrefixBlockWithTokens _ _ _ _ _ => True
  | _ => False

theorem apply_quiet (salt : UInt64) (m : BlockManager σ) (op : Op σ) (hm : WellFormed m)
    (hop : ¬ op.Registering) : QuietMoves m (apply salt m op) := by
  cases op with
  | allocate n c => exact allocate_quiet m n c
  | allocateSingle c => exact allocateSingle_quiet m c
  | free ids => exact free_quiet ids m
  | freeSingle b => exact freeSingle_quiet m b
  | fork b => exact fork_quiet m b
  | copyOnWrite b c => exact copyOnWrite_quiet m b c hm
  | setFilledSlots b n => exact setFilledSlots_quiet m b n
  | findCachedBlock h => exact findCachedBlock_quiet m h hm
  | findCachedBlockWithVerification h ts n =>
    exact findCachedBlockWithVerification_quiet m h ts n hm
  | findLongestCachedPrefixWithVerification ts n req v =>
    exact findLongest_quiet m salt ts n req v hm
  | registerPrefixBlock b h => exact absurd trivial hop
  | registerPrefixBlockWithTokens b h ts n snap => exact absurd trivial hop
  | unregisterPrefixBlock b => exact unregisterPrefixBlock_quiet m b

/-- **Every operation is a chain of moves from a well-formed ledger.** -/
theorem apply_moves (salt : UInt64) (m : BlockManager σ) (op : Op σ) (hm : WellFormed m) :
    Moves m (apply salt m op) := by
  by_cases hop : op.Registering
  · cases op with
    | registerPrefixBlock b h => exact registerPrefixBlock_moves m b h hm
    | registerPrefixBlockWithTokens b h ts n snap =>
      exact registerPrefixBlockWithTokens_moves m b h ts n snap hm
    | _ => exact absurd hop id
  · exact (apply_quiet salt m op hm hop).moves

/-! ### The constructor -/

/-- The manager after the constructor has pushed the first `k` blocks. -/
private structure Filling (n : Nat) (k : Nat) (m : BlockManager σ) : Prop where
  numBlocks : m.numBlocks = n
  blocks : m.blocks = fun _ => {}
  cache : m.prefixCache = ∅
  tokens : m.blockTokens = ∅
  snapshots : m.blockHybridSsmSnapshots = ∅
  mem_iff : ∀ s b, b ∈ m.shards s ↔ s = shardOf b ∧ 0 ≤ b ∧ b < (k : Int)
  nodup : ∀ s, (m.shards s).Nodup

private theorem filling_push {n k : Nat} {m : BlockManager σ} (h : Filling n k m) :
    Filling n (k + 1) (m.pushFree k) := by
  refine ⟨h.numBlocks, h.blocks, h.cache, h.tokens, h.snapshots, ?_, ?_⟩
  · intro s b
    rw [pushFree_shards]
    by_cases hss : s = shardOf k
    · subst hss
      rw [update_self, mem_cons, h.mem_iff]
      constructor
      · rintro (rfl | ⟨hs, h0, hlt⟩)
        · exact ⟨rfl, by omega, by omega⟩
        · exact ⟨hs, h0, by omega⟩
      rintro ⟨hs, h0, hlt⟩
      by_cases hb : b = k
      · exact Or.inl hb
      · exact Or.inr ⟨hs, h0, by omega⟩
    rw [update_of_ne hss, h.mem_iff]
    constructor
    · rintro ⟨hs, h0, hlt⟩
      exact ⟨hs, h0, by omega⟩
    rintro ⟨hs, h0, hlt⟩
    have hb : b ≠ k := by rintro rfl; exact hss hs
    exact ⟨hs, h0, by omega⟩
  · intro s
    rw [pushFree_shards]
    by_cases hss : s = shardOf k
    · subst hss
      rw [update_self, nodup_cons]
      refine ⟨?_, h.nodup _⟩
      intro hmem
      have := ((h.mem_iff _ _).mp hmem).2.2
      omega
    rw [update_of_ne hss]
    exact h.nodup s

private theorem filling_range (n : Nat) {m : BlockManager σ} (hm : Filling n 0 m) (k : Nat) :
    Filling n k ((range k).foldl (fun m (i : Nat) => m.pushFree (i : Int)) m) := by
  induction k with
  | zero => exact hm
  | succ k ih =>
    rw [range_succ, foldl_append]
    exact filling_push ih

private theorem filling_init (n : Nat) (blockSize : Int) :
    Filling n n (init n blockSize : BlockManager σ) := by
  refine filling_range n ⟨rfl, rfl, rfl, rfl, rfl, ?_, ?_⟩ n
  · intro s b
    simp only [not_mem_nil, false_iff, not_and]
    omega
  · intro s; exact nodup_nil

theorem init_numBlocks (n : Nat) (blockSize : Int) :
    (init n blockSize : BlockManager σ).numBlocks = n :=
  (filling_init n blockSize).numBlocks

theorem init_blocks (n : Nat) (blockSize : Int) :
    (init n blockSize : BlockManager σ).blocks = fun _ => {} :=
  (filling_init n blockSize).blocks

theorem init_wellFormed (n : Nat) (blockSize : Int) :
    WellFormed (init n blockSize : BlockManager σ) := by
  have h : Filling n n (init n blockSize : BlockManager σ) := filling_init n blockSize
  refine ⟨⟨?_, h.nodup, ?_⟩, ⟨?_, ?_, ?_, ?_, ?_⟩⟩
  · intro s b
    rw [h.mem_iff]
    unfold IsFree InRange
    simp [h.blocks, h.numBlocks]
  · intro b; simp [h.blocks]
  · intro h' b; simp [h.blocks, h.cache]
  · intro b; simp [h.blocks]
  · intro b hb; simp [h.blocks] at hb
  · intro b hb; simp [h.tokens] at hb
  · intro b hb; simp [h.snapshots] at hb

theorem Move.numBlocks {m m' : BlockManager σ} (h : Move m m') : m'.numBlocks = m.numBlocks := by
  cases h with
  | quiet hq =>
    cases hq with
    | release hin hres => exact (releasePrefixResidencyLocked_released m hin hres).numBlocks
    | _ => rfl
  | bare hmay => exact (indexBare_frame m _ _).1
  | withTokens hmay => simp

theorem Moves.numBlocks {m m' : BlockManager σ} (h : Moves m m') : m'.numBlocks = m.numBlocks := by
  induction h with
  | refl => rfl
  | tail _ hstep ih => exact hstep.numBlocks.trans ih

/-- **Every run from the constructor leaves the ledger well formed.** -/
theorem run_wellFormed (salt : UInt64) (n : Nat) (blockSize : Int) (ops : List (Op σ)) :
    WellFormed (run salt (init n blockSize) ops) :=
  Lib.inv_of_run (fun _ _ hwf hmove => hmove.wellFormed hwf)
    (fun m op hm => apply_moves salt m op hm) ops _ (init_wellFormed n blockSize)

theorem run_numBlocks (salt : UInt64) (n : Nat) (blockSize : Int) (ops : List (Op σ)) :
    (run salt (init n blockSize : BlockManager σ) ops).numBlocks = n := by
  have hmoves : Moves (init n blockSize : BlockManager σ) (run salt (init n blockSize) ops) :=
    Lib.moves_of_run (fun _ _ hwf hmove => hmove.wellFormed hwf)
      (fun m op hm => apply_moves salt m op hm) ops _ (init_wellFormed n blockSize)
  rw [hmoves.numBlocks]
  exact init_numBlocks n blockSize

/-! ### What the invariant says of the lists and of the index -/

/-- **Free, held and idle cached blocks partition the pool.**  After any run a
block is on the free list of its own shard, once, exactly when nobody holds it
and the prefix cache does not keep it; it is never on another list; and no
reference count is negative. -/
theorem run_free_lists_exact (salt : UInt64) (numBlocks : Nat) (blockSize : Int)
    (ops : List (Op σ)) (b : Int) (h0 : 0 ≤ b) (hb : b < numBlocks) :
    let m := run salt (init numBlocks blockSize : BlockManager σ) ops
    ((m.shards (shardOf b)).count b = 1 ↔
        (m.blocks b).refCount = 0 ∧ (m.blocks b).cacheResident = false) ∧
      (∀ s, s ≠ shardOf b → b ∉ m.shards s) ∧
      (¬ ((m.blocks b).refCount = 0 ∧ (m.blocks b).cacheResident = false) → ∀ s, b ∉ m.shards s) ∧
      0 ≤ (m.blocks b).refCount := by
  intro m
  have hwf : WellFormed m := run_wellFormed salt numBlocks blockSize ops
  have hin : m.InRange b := by
    have hn : m.numBlocks = numBlocks := run_numBlocks salt numBlocks blockSize ops
    unfold InRange
    rw [hn]
    exact ⟨h0, hb⟩
  have hmem : b ∈ m.shards (shardOf b) ↔
      (m.blocks b).refCount = 0 ∧ (m.blocks b).cacheResident = false := by
    rw [hwf.partition.mem_iff]
    unfold IsFree
    constructor
    · intro h; exact h.2.2
    · intro h; exact ⟨rfl, hin, h⟩
  refine ⟨?_, ?_, ?_, hwf.partition.refNonneg b⟩
  · rw [← hmem]
    constructor
    · intro hcount
      exact count_pos_iff.mp (by omega)
    intro h
    exact count_eq_one_of_mem (hwf.partition.nodup _) h
  · intro s hs h
    exact hs ((hwf.partition.mem_iff s b).mp h).1
  intro hbusy s h
  exact hbusy ((hwf.partition.mem_iff s b).mp h).2.2

/-- The statement at a pool of one block that has been taken and registered. -/
theorem run_free_lists_exact_one_block :
    let m := run 0 (init 1 16 : BlockManager Unit)
      [.allocateSingle {}, .registerPrefixBlock 0 7, .freeSingle 0]
    (m.shards (shardOf 0)).count 0 ≠ 1 ∧ 0 ≤ (m.blocks 0).refCount := by
  have h := run_free_lists_exact 0 1 16
    ([.allocateSingle {}, .registerPrefixBlock 0 7, .freeSingle 0] : List (Op Unit)) 0
    (by decide) (by decide)
  exact ⟨by decide, h.2.2.2⟩

/-- **The index and the blocks tell one story.**  After any run a hash leads to a
block exactly when that block is resident under it; so the map is injective and
no two blocks share a hash, a block has a hash exactly when it is resident, and
contents are remembered of resident blocks only. -/
theorem run_prefix_index_coherent (salt : UInt64) (numBlocks : Nat) (blockSize : Int)
    (ops : List (Op σ)) :
    let m := run salt (init numBlocks blockSize : BlockManager σ) ops
    (∀ h b, m.prefixCache.lookup h = some b ↔
        (m.blocks b).cacheResident = true ∧ (m.blocks b).contentHash = h ∧ h ≠ 0) ∧
      (∀ h h' b, m.prefixCache.lookup h = some b → m.prefixCache.lookup h' = some b → h = h') ∧
      (∀ b b', (m.blocks b).contentHash = (m.blocks b').contentHash →
        (m.blocks b).contentHash ≠ 0 → b = b') ∧
      (∀ b, (m.blocks b).contentHash ≠ 0 ↔ (m.blocks b).cacheResident = true) ∧
      (∀ b, b ∈ m.blockTokens → (m.blocks b).cacheResident = true) ∧
      (∀ b, b ∈ m.blockHybridSsmSnapshots → (m.blocks b).cacheResident = true) := by
  intro m
  have hwf : WellFormed m := run_wellFormed salt numBlocks blockSize ops
  have hidx := hwf.index
  refine ⟨hidx.lookup_iff, ?_, ?_, hidx.hash_iff, hidx.tokensResident, hidx.snapshotsResident⟩
  · intro h h' b hb hb'
    rw [← ((hidx.lookup_iff h b).mp hb).2.1, ((hidx.lookup_iff h' b).mp hb').2.1]
  intro b b' heq hne
  have hb := (hidx.lookup_iff _ b).mpr ⟨(hidx.hash_iff b).mp hne, rfl, hne⟩
  have hne' : (m.blocks b').contentHash ≠ 0 := heq ▸ hne
  have hb' := (hidx.lookup_iff _ b').mpr ⟨(hidx.hash_iff b').mp hne', rfl, hne'⟩
  rw [heq, hb'] at hb
  exact (Option.some.inj hb).symm

end DenseCore.BlockManager
