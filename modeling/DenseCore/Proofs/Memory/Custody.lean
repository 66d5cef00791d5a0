/-
References behind the blocks somebody holds.

A caller of the manager that keeps block ids in tables of its own relies on two
things: as long as an id stands in a table, the manager does not hand the block to
anybody else, and once it stands in no table any more, the manager gets it back.
`Custody m held` says both at once: the references of a block are exactly its
occurrences in `held`.  Each operation the callers use moves ids in or out of
`held`: allocation and prefix lookup add what they return, freeing takes away what
it is given, copy-on-write exchanges one id for another, and registration leaves
`held` as it is.
-/
import DenseCore.Proofs.Memory.Operations

namespace DenseCore.BlockManager

open List

variable {σ : Type}

/-- The references of every block are its occurrences among `held`. -/
structure Custody (m : BlockManager σ) (held : List Int) : Prop where
  wellFormed : WellFormed m
  inRange : ∀ b ∈ held, m.InRange b
  exact : ∀ b, (m.blocks b).refCount = held.count b

namespace Custody

variable {m m' : BlockManager σ} {held held' : List Int}

theorem perm (h : Custody m held) (hp : held'.Perm held) : Custody m held' :=
  ⟨h.wellFormed, fun b hb => h.inRange b (hp.mem_iff.mp hb),
    fun b => by rw [hp.count_eq b]; exact h.exact b⟩

variable {b : Int} {bs : List Int}

theorem pos (h : Custody m held) (hb : b ∈ held) : 0 < (m.blocks b).refCount := by
  have hcount : 0 < held.count b := count_pos_iff.mpr hb
  have := h.exact b
  omega

theorem of_refs (h : Custody m held) (hmoves : Moves m m') (hin : ∀ b ∈ held', m.InRange b)
    (href : ∀ b, (m.blocks b).refCount + (held'.count b : Int) =
      (m'.blocks b).refCount + (held.count b : Int)) : Custody m' held' := by
  refine ⟨hmoves.wellFormed h.wellFormed, ?_, ?_⟩
  · intro b hb
    have := hin b hb
    unfold InRange at this ⊢
    rwa [hmoves.numBlocks]
  intro b
  have := h.exact b
  have := href b
  omega

/-! ### Handing out -/

theorem takes (h : Custody m held) (ht : Takes m bs m') : Custody m' (bs ++ held) := by
  have hh := ht.handed h.wellFormed
  refine h.of_refs ht.quiet.moves ?_ ?_
  · intro b hb
    rcases mem_append.mp hb with hnew | hold
    · exact hh.inRange b hnew
    · exact h.inRange b hold
  intro b
  rw [count_append]
  by_cases hb : b ∈ bs
  · rw [hh.fresh b hb, hh.unheld b hb, count_eq_one_of_mem hh.nodup hb]
    simp only [freshBlock]
    omega
  rw [hh.others b hb, count_eq_zero_of_not_mem hb]
  omega

theorem takes_disjoint (h : Custody m held) (ht : Takes m bs m') : ∀ b ∈ bs, b ∉ held := by
  intro b hb hheld
  have hzero := (ht.handed h.wellFormed).unheld b hb
  have hpos := h.pos hheld
  omega

/-! ### Giving back -/

theorem freeSingle_ref {m : BlockManager σ} (hin : m.InRange b)
    (hpos : 0 < (m.blocks b).refCount) (b' : Int) :
    ((m.freeSingle b).blocks b').refCount = (m.blocks b').refCount - if b' = b then 1 else 0 := by
  unfold BlockManager.freeSingle
  rw [if_neg (not_not.mpr hin), if_neg (by omega)]
  dsimp only
  by_cases hb : b' = b
  · subst hb
    split <;> simp
  · split <;> simp [hb]

theorem freeSingle (h : Custody m held) (hb : b ∈ held) :
    Custody (m.freeSingle b) (held.erase b) := by
  refine h.of_refs (freeSingle_quiet m b).moves ?_ ?_
  · intro b' hb'
    exact h.inRange b' (mem_of_mem_erase hb')
  intro b'
  rw [freeSingle_ref (h.inRange b hb) (h.pos hb)]
  by_cases heq : b' = b
  · subst heq
    have hcount : 0 < held.count b' := count_pos_iff.mpr hb
    rw [if_pos rfl, count_erase_self]
    omega
  rw [if_neg heq, count_erase_of_ne heq]
  omega

theorem free (ids : List Int) : ∀ {m : BlockManager σ} {held : List Int},
    Custody m (ids ++ held) → Custody (m.free ids) held := by
  unfold BlockManager.free
  induction ids with
  | nil => intro m held h; exact h
  | cons b rest ih =>
    intro m held h
    have hstep := h.freeSingle (b := b) (by simp)
    rw [cons_append, erase_cons_head] at hstep
    exact ih hstep

/-! ### Allocation -/

theorem allocateBulk (h : Custody m held) (n : Nat) (c : AllocChoice) :
    Custody (m.allocateBulk n c).2 ((m.allocateBulk n c).1 ++ held) ∧
      ∀ b ∈ (m.allocateBulk n c).1, b ∉ held := by
  unfold BlockManager.allocateBulk
  split
  · have ht := (popUpTo_inOrder ‹Nat› n m).takes
    exact ⟨h.takes ht, h.takes_disjoint ht⟩
  have ht := (drainShards_inOrder (shardOrder c.startShard) n m).takes.append
    (evictUpTo_takes c.order (n - (drainShards (shardOrder c.startShard) n m).1.length)
      (drainShards (shardOrder c.startShard) n m).2)
  dsimp only
  split
  · exact ⟨Custody.free _ (h.takes ht), by simp⟩
  · exact ⟨h.takes ht, h.takes_disjoint ht⟩

theorem allocateSingle (h : Custody m held) (c : AllocChoice) :
    Custody (m.allocateSingle c).2 ((m.allocateSingle c).1.toList ++ held) ∧
      ∀ b ∈ (m.allocateSingle c).1, b ∉ held := by
  rcases allocateSingle_cases m c with hnone | ⟨b, m₁, hsome, ht⟩
  · rw [hnone]
    exact ⟨h, by simp⟩
  rw [hsome]
  refine ⟨h.takes ht, ?_⟩
  intro b' hb'
  obtain rfl : b = b' := by simpa using hb'
  exact h.takes_disjoint ht b (by simp)

/-- **What `Allocate` returns joins the custody, and nobody held it before.** -/
theorem allocate (h : Custody m held) (n : Int) (c : AllocChoice) :
    Custody (m.allocate n c).2 ((m.allocate n c).1 ++ held) ∧
      ∀ b ∈ (m.allocate n c).1, b ∉ held := by
  unfold BlockManager.allocate
  split
  · exact ⟨h, by simp⟩
  split
  · obtain ⟨hcust, hnew⟩ := h.allocateSingle c
    split
    · rename_i b m₁ hsome
      rw [hsome] at hcust hnew
      exact ⟨hcust, by simpa using hnew⟩
    rename_i m₁ hnone
    rw [hnone] at hcust
    exact ⟨hcust, by simp⟩
  · exact h.allocateBulk n.toNat c

/-! ### Sharing -/

theorem fork (h : Custody m held) (hb : b ∈ held) : Custody (m.fork b).2 (b :: held) := by
  have hpos := h.pos hb
  have hin := h.inRange b hb
  have hmoves := (fork_quiet m b).moves
  unfold BlockManager.fork at hmoves ⊢
  rw [if_neg (not_not.mpr hin), if_neg (by omega)] at hmoves ⊢
  refine h.of_refs hmoves ?_ ?_
  · intro b' hb'
    rcases mem_cons.mp hb' with rfl | hold
    · exact hin
    · exact h.inRange b' hold
  intro b'
  by_cases heq : b' = b
  · subst heq
    simp
    omega
  · simp [heq, Ne.symm heq]

/-! ### Copy-on-write -/

theorem dropRef (h : Custody m (b :: held))
    (hkeep : 1 < (m.blocks b).refCount ∨ (m.blocks b).cacheResident = true) :
    Custody (m.modifyBlock b fun k => { k with refCount := k.refCount - 1 }) held := by
  have hpos : 0 < (m.blocks b).refCount := h.pos (by simp)
  refine h.of_refs (QuietMoves.single (.dropRef hpos hkeep)).moves ?_ ?_
  · intro b' hb'
    exact h.inRange b' (by simp [hb'])
  intro b'
  by_cases heq : b' = b
  · subst heq
    simp
  · simp [heq, Ne.symm heq]

theorem fill (h : Custody m held) (b n : Int) :
    Custody (m.modifyBlock b fun k => { k with numFilledSlots := n }) held := by
  refine h.of_refs (QuietMoves.single .fill).moves h.inRange ?_
  intro b'
  rw [modifyBlock_field PhysicalBlock.refCount _ b b' rfl]

/-- **Copy-on-write exchanges the id it was given for the id it returns.** -/
theorem copyOnWrite (h : Custody m (b :: held)) (c : AllocChoice) :
    Custody (m.copyOnWrite b c).2 (((m.copyOnWrite b c).1.1).getD b :: held) := by
  unfold BlockManager.copyOnWrite
  split
  · exact h
  split
  · exact h
  rename_i hin hshared
  obtain ⟨hcust, hnew⟩ := h.allocateSingle c
  rcases hres : m.allocateSingle c with ⟨_ | b', m₁⟩
  · rw [hres] at hcust
    exact hcust
  rw [hres] at hcust hnew
  have hne : b' ≠ b := by
    have := hnew b' (by simp)
    exact fun heq => this (by simp [heq])
  have hsource : 1 < (m₁.blocks b).refCount := by
    have hexact : (m₁.blocks b).refCount = ((b' :: b :: held).count b : Nat) := hcust.exact b
    have hbefore := h.exact b
    rw [count_cons_of_ne hne] at hexact
    omega
  have hswap : Custody m₁ (b :: b' :: held) := hcust.perm (Perm.swap _ _ _)
  exact (hswap.dropRef (Or.inl hsource)).fill b' _

/-! ### The prefix cache -/

theorem acquireCached (h : Custody m held) (hin : m.InRange b) :
    Custody (m.acquireCached b).2 ((m.acquireCached b).1.toList ++ held) := by
  have hmoves := (acquireCached_quiet m b h.wellFormed).moves
  unfold BlockManager.acquireCached at hmoves ⊢
  split
  · exact h
  rename_i hlive
  rw [if_neg hlive] at hmoves
  refine h.of_refs hmoves ?_ ?_
  · intro b' hb'
    rcases mem_append.mp hb' with hnew | hold
    · obtain rfl : b' = b := by simpa using hnew
      exact hin
    · exact h.inRange b' hold
  intro b'
  simp only [Option.toList_some, cons_append, nil_append, count_cons, beq_iff_eq]
  by_cases heq : b' = b
  · subst heq
    simp
    omega
  · simp [heq, Ne.symm heq]

theorem findCachedBlockWithVerification (h : Custody m held) (hash : UInt64)
    (ts : Option (List Int32)) (n : Int) :
    Custody (m.findCachedBlockWithVerification hash ts n).2
      ((m.findCachedBlockWithVerification hash ts n).1.toList ++ held) := by
  rcases findCachedBlockWithVerification_cases m hash ts n with
    hnone | ⟨l, b, _, _, _, hlook, _, _, heq⟩
  · rw [hnone]; exact h
  obtain ⟨hres, -, -⟩ := (h.wellFormed.index.lookup_iff hash b).mp hlook
  rw [heq]
  exact h.acquireCached (h.wellFormed.index.residentInRange b hres)

theorem scanCachedPrefix (salt : UInt64) (ts : List Int32) (req : Bool)
    (v : Option (List σ → Bool)) (held : List Int) :
    ∀ (left k : Nat) (scan : PrefixScan) (m : BlockManager σ), Custody m (scan.acquired ++ held) →
      Custody (scanCachedPrefix salt ts req v left k scan m).2
        ((scanCachedPrefix salt ts req v left k scan m).1.acquired ++ held) := by
  intro left
  induction left with
  | zero => intro k scan m h; exact h
  | succ left ih =>
    intro k scan m h
    have hfind := h.findCachedBlockWithVerification
      (computeTokenHash salt ts (k * blockSlots + blockSlots : Nat))
      (some (ts.drop (k * blockSlots))) blockSlots
    unfold BlockManager.scanCachedPrefix
    dsimp only
    split
    · rename_i m₁ hnone
      rwa [hnone] at hfind
    rename_i b m₁ hsome
    rw [hsome] at hfind
    refine ih _ _ _ (hfind.perm ?_)
    simp only [Option.toList_some, append_assoc, singleton_append]
    exact perm_middle

theorem dropBeyondSnapshot (req : Bool) (scan : PrefixScan)
    (h : Custody m (scan.acquired ++ held)) :
    Custody (dropBeyondSnapshot req scan m).2 ((dropBeyondSnapshot req scan m).1 ++ held) := by
  unfold BlockManager.dropBeyondSnapshot
  split
  · exact h
  split
  · exact Custody.free _ h
  split
  · refine Custody.free _ (h.perm ?_)
    rw [← append_assoc]
    exact Perm.append_right held
      (perm_append_comm.trans (by rw [take_append_drop]))
  · exact h

/-- **The blocks of a cached prefix join the custody of whoever looked it up.** -/
theorem findLongest (h : Custody m held) (salt : UInt64) (ts : Option (List Int32)) (n : Int)
    (req : Bool) (v : Option (List σ → Bool)) :
    Custody (m.findLongestCachedPrefixWithVerification salt ts n req v).2
      ((m.findLongestCachedPrefixWithVerification salt ts n req v).1.cachedBlockIds ++ held) := by
  unfold findLongestCachedPrefixWithVerification
  split
  · exact h
  split
  · exact h
  dsimp only
  split
  · exact h
  · exact dropBeyondSnapshot req _ (scanCachedPrefix salt _ req v held _ 0 _ m h)

theorem releaseExisting_ref (m : BlockManager σ) (b : Int) (hash : UInt64) (hm : WellFormed m)
    (b' : Int) : ((m.releaseExisting b hash).blocks b').refCount = (m.blocks b').refCount := by
  unfold releaseExisting
  split
  · rfl
  rename_i e hlook
  split
  · obtain ⟨hres, -, -⟩ := (hm.index.lookup_iff hash e).mp hlook
    have hr := releasePrefixResidencyLocked_released m (hm.index.residentInRange e hres) hres
    rw [hr.blocks]
    by_cases heq : b' = e
    · subst heq; simp
    · rw [Function.update_of_ne heq]
  · rfl

theorem register_ref (m : BlockManager σ) (b : Int) (hash : UInt64) (ts : Option (List Int32))
    (n : Int) (snap : Option (List σ)) (hm : WellFormed m) (b' : Int) :
    ((m.registerPrefixBlockWithTokens b hash ts n snap).blocks b').refCount =
      (m.blocks b').refCount := by
  have hrel := releaseExisting_ref m b hash hm b'
  unfold registerPrefixBlockWithTokens
  split
  · rfl
  dsimp only
  split
  · exact hrel
  rw [storeContents_blocks, enterIndex_blocks, modifyBlock_field PhysicalBlock.refCount _ b b' rfl,
    forgetOldHash_blocks, hrel]

/-- **Registering a block changes no reference.** -/
theorem register (h : Custody m held) (b : Int) (hash : UInt64) (ts : Option (List Int32)) (n : Int)
    (snap : Option (List σ)) :
    Custody (m.registerPrefixBlockWithTokens b hash ts n snap) held := by
  refine h.of_refs (registerPrefixBlockWithTokens_moves m b hash ts n snap h.wellFormed)
    h.inRange ?_
  intro b'
  rw [register_ref m b hash ts n snap h.wellFormed]

theorem init (n : Nat) (blockSize : Int) : Custody (init n blockSize : BlockManager σ) [] :=
  ⟨init_wellFormed n blockSize, by simp, fun b => by simp [init_blocks]⟩

end Custody

/-! ### Blocks nobody will give back

A caller that forgets a block it holds leaves a reference behind.  `CustodyUpTo ok`
allows for such blocks, and `ok` is a condition under which there are none: what
follows for every caller is read with `ok` false, and what follows for a caller
that forgets nothing with `ok` true.
-/

/-- The blocks held and some lost ones are in custody, and `ok` rules out the lost ones. -/
def CustodyUpTo (ok : Prop) (m : BlockManager σ) (held : List Int) : Prop :=
  ∃ lost, Custody m (held ++ lost) ∧ (ok → lost = [])

namespace CustodyUpTo

variable {ok : Prop} {m m' : BlockManager σ} {held held' bs : List Int}

theorem perm (h : CustodyUpTo ok m held) (hp : held'.Perm held) : CustodyUpTo ok m held' := by
  obtain ⟨lost, hcust, hok⟩ := h
  exact ⟨lost, hcust.perm (hp.append_right lost), hok⟩

/-- Blocks that leave every table are lost. -/
theorem lose (h : CustodyUpTo ok m (bs ++ held)) (hok : ok → bs = []) : CustodyUpTo ok m held := by
  obtain ⟨lost, hcust, hlost⟩ := h
  refine ⟨bs ++ lost, hcust.perm ?_, ?_⟩
  · rw [append_assoc]
    exact perm_append_comm_assoc _ _ _
  intro hyes
  rw [hok hyes, hlost hyes]
  rfl

/-- An operation that trades `bs` for `bs'` whatever else is held. -/
theorem trade (bs bs' : List Int) (h : CustodyUpTo ok m (bs ++ held))
    (hop : ∀ rest, Custody m (bs ++ rest) → Custody m' (bs' ++ rest)) :
    CustodyUpTo ok m' (bs' ++ held) := by
  obtain ⟨lost, hcust, hok⟩ := h
  rw [append_assoc] at hcust
  refine ⟨lost, ?_, hok⟩
  rw [append_assoc]
  exact hop _ hcust

theorem free (h : CustodyUpTo ok m (bs ++ held)) : CustodyUpTo ok (m.free bs) held :=
  h.trade bs [] fun _ hc => Custody.free bs hc

theorem allocate (h : CustodyUpTo ok m held) (n : Int) (c : AllocChoice) :
    CustodyUpTo ok (m.allocate n c).2 ((m.allocate n c).1 ++ held) ∧
      ∀ b ∈ (m.allocate n c).1, b ∉ held := by
  refine ⟨h.trade [] _ fun _ hc => (hc.allocate n c).1, ?_⟩
  obtain ⟨lost, hcust, -⟩ := h
  intro b hb hheld
  exact (hcust.allocate n c).2 b hb (mem_append_left _ hheld)

end CustodyUpTo

end DenseCore.BlockManager
