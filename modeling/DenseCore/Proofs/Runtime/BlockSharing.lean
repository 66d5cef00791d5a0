/-
The block that a caller may write.

`EnsureBlockWritable` copies a shared block and enters the copy into the sequence's
table.  The copy was nobody's before, so the entry is then the only one that leads to it;
a block that was not shared is returned as it is.  That leaves the shared block of which
no copy can be made: the call answers with the shared block itself, where it should
refuse.  So the answer is safe exactly when the block is held once, or shared while the
manager still has a free or an idle block to copy it to.
-/
import DenseCore.Runtime.BlockSharing
import DenseCore.Proofs.Memory.Allocation
import DenseCore.Proofs.Runtime.Admission

namespace DenseCore

open List

open BlockManager

namespace BlockManager

variable {σ : Type}

/-! ### Forks and copies -/

theorem forkAll_quiet (ids : List Int) : ∀ m : BlockManager σ, QuietMoves m (m.forkAll ids).2 := by
  induction ids with
  | nil => exact fun m => .refl m
  | cons b rest ih => exact fun m => (fork_quiet m b).trans (ih _)

theorem isShared_iff (m : BlockManager σ) (b : Int) :
    m.isShared b = true ↔ 1 < m.getRefCount b := by
  unfold isShared getRefCount
  by_cases hin : m.InRange b
  · simp [hin]
  · simp [hin]

/-- What a copy of a shared block is: a block nobody held, held once from now on. -/
structure CopiedTo (m : BlockManager σ) (b' : Int) (m' : BlockManager σ) : Prop where
  supply : 0 < m.getFreeBlockCount + m.idleBlockCount
  unheld : m.getRefCount b' = 0
  held : m'.getRefCount b' = 1

theorem copyOnWrite_shared {m : BlockManager σ} (hm : WellFormed m) {b : Int}
    (hshared : m.isShared b = true) (c : AllocChoice) :
    (m.copyOnWrite b c = ((none, none), m) ∧ m.getFreeBlockCount + m.idleBlockCount = 0) ∨
      ∃ b' m', m.copyOnWrite b c = ((some b', some (b, b')), m') ∧ b' ≠ b ∧ CopiedTo m b' m' := by
  have href := (isShared_iff m b).mp hshared
  have hin : m.InRange b := by
    by_contra hout
    unfold getRefCount at href
    rw [if_neg hout] at href
    omega
  rw [getRefCount, if_pos hin] at href
  unfold copyOnWrite
  rw [if_neg (not_not.mpr hin), if_neg (by omega)]
  rcases allocateSingle_gathers hm c with ⟨hnone, hdry⟩ | ⟨b', m₁, hsome, htake⟩
  · rw [hnone]
    exact Or.inl ⟨rfl, hdry⟩
  rw [hsome]
  have hhanded := htake.takes.handed hm
  have hsupply := htake.takes.supply hm
  have hin' := hhanded.inRange b' mem_cons_self
  have hunheld := hhanded.unheld b' mem_cons_self
  have hfresh := hhanded.fresh b' mem_cons_self
  have hne : b' ≠ b := by
    rintro rfl
    omega
  have hin₁ : m₁.InRange b' := by
    unfold InRange at hin' ⊢
    rwa [hhanded.numBlocks]
  rw [length_singleton] at hsupply
  refine Or.inr ⟨b', _, rfl, hne, by omega, ?_, ?_⟩
  · rw [getRefCount, if_pos hin', hunheld]
  refine (if_pos hin₁).trans ?_
  simp [hne, hfresh, freshBlock]

end BlockManager

namespace Scheduler

variable {σ : Type} {s : Scheduler σ}

/-! ### The table -/

variable {seqId blockIndex b : Int}

theorem tableEntry_cases (h : s.tableEntry seqId blockIndex = some b) :
    ∃ blocks, s.seqBlockIds seqId = some blocks ∧ 0 ≤ blockIndex ∧
      blocks[blockIndex.toNat]? = some b := by
  unfold tableEntry at h
  split at h
  · cases h
  rename_i blocks hblocks
  split at h
  · cases h
  · exact ⟨blocks, hblocks, by omega, h⟩

theorem setTableEntry_tableEntry {old : Int}
    (h : s.tableEntry seqId blockIndex = some old) (b seqId' blockIndex' : Int) :
    (s.setTableEntry seqId blockIndex b).tableEntry seqId' blockIndex' =
      if seqId' = seqId ∧ blockIndex' = blockIndex then some b
      else s.tableEntry seqId' blockIndex' := by
  obtain ⟨blocks, hblocks, hnonneg, hget⟩ := tableEntry_cases h
  obtain ⟨hlt, -⟩ := List.getElem?_eq_some_iff.mp hget
  unfold setTableEntry tableEntry
  dsimp only
  by_cases hseq : seqId' = seqId
  · subst hseq
    rw [Function.update_self, hblocks]
    dsimp only [Option.map_some]
    rw [length_set]
    by_cases hindex : blockIndex' = blockIndex
    · subst hindex
      rw [if_neg (by omega), if_pos ⟨rfl, rfl⟩, getElem?_set_self hlt]
    have hother : ¬ (seqId' = seqId' ∧ blockIndex' = blockIndex) := fun heq => hindex heq.2
    rw [if_neg hother]
    by_cases hout : blockIndex' < 0 ∨ (blocks.length : Int) ≤ blockIndex'
    · rw [if_pos hout, if_pos hout]
    · rw [if_neg hout, if_neg hout, getElem?_set_ne (by omega)]
  · rw [Function.update_of_ne hseq, if_neg (fun heq => hseq heq.1)]

/-- Each table entry is covered by a reference: a block is in no more places than it has
references. -/
def TablesHeld (s : Scheduler σ) : Prop :=
  ∀ (b : Int) (places : List (Int × Int)), places.Nodup →
    (∀ p ∈ places, s.tableEntry p.1 p.2 = some b) →
      (places.length : Int) ≤ s.blockManager.getRefCount b

theorem TablesHeld.empty (h : s.TablesHeld) (href : s.blockManager.getRefCount b = 0)
    (seqId blockIndex : Int) : s.tableEntry seqId blockIndex ≠ some b := by
  intro hentry
  have hone := h b [(seqId, blockIndex)] (nodup_singleton _) (by simpa using hentry)
  rw [href, length_singleton] at hone
  omega

theorem TablesHeld.alone (h : s.TablesHeld) (href : s.blockManager.getRefCount b = 1)
    {seqId' blockIndex' : Int} (hentry : s.tableEntry seqId blockIndex = some b)
    (hentry' : s.tableEntry seqId' blockIndex' = some b) :
    seqId' = seqId ∧ blockIndex' = blockIndex := by
  by_contra hne
  have hnodup : [(seqId, blockIndex), (seqId', blockIndex')].Nodup := by
    rw [nodup_cons]
    refine ⟨?_, nodup_singleton _⟩
    rw [mem_singleton, Prod.mk.injEq]
    rintro ⟨rfl, rfl⟩
    exact hne ⟨rfl, rfl⟩
  have htwo := h b _ hnodup (by simpa using ⟨hentry, hentry'⟩)
  rw [href] at htwo
  simp at htwo

/-! ### The call -/

/-- An exclusive block can be provided: the entry's block is held once, or it is shared
and there is a block left for a copy. -/
def CanProvide (s : Scheduler σ) (b : Int) : Prop :=
  s.blockManager.getRefCount b = 1 ∨ 1 < s.blockManager.getRefCount b ∧
      0 < s.blockManager.getFreeBlockCount + s.blockManager.idleBlockCount

/-- The block that is returned is held once, by the entry it was asked for; and no other
place of a table leads to it, as long as the table entries were covered by references. -/
structure Exclusive (s s' : Scheduler σ) (seqId blockIndex b : Int) : Prop where
  refCount : s'.blockManager.getRefCount b = 1
  entry : s'.tableEntry seqId blockIndex = some b
  alone : s.TablesHeld → ∀ seqId' blockIndex', s'.tableEntry seqId' blockIndex' = some b →
    seqId' = seqId ∧ blockIndex' = blockIndex

/-- What the call promises. -/
structure SafeToWrite (s : Scheduler σ) (seqId blockIndex : Int)
    (r : Option Int × Scheduler σ) : Prop where
  returned : ∀ b, r.1 = some b → Exclusive s r.2 seqId blockIndex b
  refused : (∀ b, s.tableEntry seqId blockIndex = some b → ¬ s.CanProvide b) → r = (none, s)

theorem ensureBlockWritable_safe (hm : WellFormed s.blockManager)
    (hentry : s.tableEntry seqId blockIndex = some b) (hcan : s.CanProvide b) (c : AllocChoice) :
    SafeToWrite s seqId blockIndex (s.ensureBlockWritable seqId blockIndex c) := by
  refine ⟨?_, fun hnot => absurd hcan (hnot b hentry)⟩
  intro r hr
  unfold ensureBlockWritable at hr ⊢
  rw [hentry] at hr ⊢
  dsimp only at hr ⊢
  by_cases hshared : s.blockManager.isShared b = true
  · rw [if_pos hshared] at hr ⊢
    rcases copyOnWrite_shared hm hshared c with ⟨-, hdry⟩ | ⟨b', m', hcopy, hne, hcopied⟩
    · have hmany := (isShared_iff _ b).mp hshared
      rcases hcan with hone | ⟨-, hsupply⟩
      · omega
      · omega
    rw [hcopy] at hr ⊢
    dsimp only at hr ⊢
    rw [if_pos hne] at hr ⊢
    obtain rfl := Option.some.inj hr
    have hentries := setTableEntry_tableEntry (s := { s with blockManager := m' }) hentry b'
    refine ⟨hcopied.held, ?_, ?_⟩
    · rw [hentries, if_pos ⟨rfl, rfl⟩]
    intro hheld seqId' blockIndex' hentry'
    rw [hentries] at hentry'
    split at hentry'
    · assumption
    · exact absurd hentry' (hheld.empty hcopied.unheld seqId' blockIndex')
  · rw [if_neg hshared] at hr ⊢
    cases hr
    have hone : s.blockManager.getRefCount b = 1 := by
      rcases hcan with hone | ⟨hmany, -⟩
      · exact hone
      · exact absurd ((isShared_iff _ b).mpr hmany) hshared
    exact ⟨hone, hentry, fun hheld _ _ hentry' => hheld.alone hone hentry hentry'⟩

theorem ensureBlockWritable_unprovided (hm : WellFormed s.blockManager)
    (hentry : s.tableEntry seqId blockIndex = some b) (hcan : ¬ s.CanProvide b)
    (c : AllocChoice) : s.ensureBlockWritable seqId blockIndex c = (some b, s) := by
  unfold ensureBlockWritable
  rw [hentry]
  dsimp only
  by_cases hshared : s.blockManager.isShared b = true
  · rw [if_pos hshared]
    rcases copyOnWrite_shared hm hshared c with ⟨hcopy, -⟩ | ⟨b', m', -, -, hcopied⟩
    · rw [hcopy]
    · exact absurd (Or.inr ⟨(isShared_iff _ b).mp hshared, hcopied.supply⟩) hcan
  · rw [if_neg hshared]

theorem ensureBlockWritable_safe_iff (hm : WellFormed s.blockManager) (seqId blockIndex : Int)
    (c : AllocChoice) :
    SafeToWrite s seqId blockIndex (s.ensureBlockWritable seqId blockIndex c) ↔
      ∀ b, s.tableEntry seqId blockIndex = some b → s.CanProvide b := by
  constructor
  · intro hsafe b hentry
    by_contra hcan
    have hrefused := hsafe.refused fun b' hentry' => by
      rw [hentry] at hentry'
      rwa [← Option.some.inj hentry']
    rw [ensureBlockWritable_unprovided hm hentry hcan c] at hrefused
    cases hrefused
  intro hcan
  cases hentry : s.tableEntry seqId blockIndex with
  | none =>
    have hnone : s.ensureBlockWritable seqId blockIndex c = (none, s) := by
      unfold ensureBlockWritable
      rw [hentry]
    rw [hnone]
    exact ⟨nofun, fun _ => rfl⟩
  | some b => exact ensureBlockWritable_safe hm hentry (hcan b hentry) c

theorem ensureBlockWritable_wellFormed (hm : WellFormed s.blockManager) (seqId blockIndex : Int)
    (c : AllocChoice) : WellFormed (s.ensureBlockWritable seqId blockIndex c).2.blockManager := by
  unfold ensureBlockWritable
  split
  · exact hm
  rename_i b hentry
  have hcopy := (copyOnWrite_quiet s.blockManager b c hm).wellFormed hm
  split
  · dsimp only
    split
    · exact hcopy
    split
    · exact hcopy
    · exact hcopy
  · exact hm

end Scheduler

namespace Client

open Scheduler

variable {σ : Type}

theorem sharingStep_wellFormed {c : Client σ} (h : WellFormed c.sch.blockManager) (salt : UInt64)
    (call : SharingCall σ) : WellFormed (c.sharingStep salt call).sch.blockManager := by
  cases call with
  | client call => exact step_wellFormed h salt call
  | forkSequence parentSeqId => exact (forkAll_quiet _ _).wellFormed h
  | ensureBlockWritable seqId blockIndex choice =>
    exact ensureBlockWritable_wellFormed h seqId blockIndex choice

theorem sharingRun_wellFormed (salt : UInt64) (calls : List (SharingCall σ)) : ∀ c : Client σ,
    WellFormed c.sch.blockManager → WellFormed (c.sharingRun salt calls).sch.blockManager := by
  induction calls with
  | nil => intro c h; exact h
  | cons call rest ih => exact fun c h => ih _ (sharingStep_wellFormed h salt call)

/-- **The block that may be written is exclusive exactly when one can be provided.**  In
every reachable state of the scheduler and the manager, for every sequence and index: the
call returns only a block that is held once, by the entry asked for, and otherwise
refuses, precisely when the entry's block is held once, or is shared while a free or an
idle block is left. -/
theorem ensureBlockWritable_exclusive_iff (salt : UInt64) (numBlocks : Nat) (blockSize : Int)
    (config : SchedulerConfig) (calls : List (SharingCall σ)) (seqId blockIndex : Int)
    (choice : AllocChoice) :
    let s := ((init (BlockManager.init numBlocks blockSize) config).sharingRun salt calls).sch
    SafeToWrite s seqId blockIndex (s.ensureBlockWritable seqId blockIndex choice) ↔
      ∀ b, s.tableEntry seqId blockIndex = some b → s.CanProvide b :=
  ensureBlockWritable_safe_iff
    (sharingRun_wellFormed salt calls _ (init_wellFormed numBlocks blockSize)) seqId blockIndex
    choice

/-- A pool of one block, taken by a prompt and shared with a forked sequence: the call
returns the block that both hold. -/
theorem shared_block_returned :
    let c : Client Unit := (init (BlockManager.init 1 16) {}).sharingRun 0
      [.client (.addRequest { promptLen := 16 }), .client (.schedule {}), .forkSequence 1]
    let r := c.sch.ensureBlockWritable 1 0 {}
    ¬ SafeToWrite c.sch 1 0 r ∧ r.1 = some 0 ∧ r.2.blockManager.getRefCount 0 = 2 ∧
      r.2.tableEntry 1 0 = some 0 ∧ r.2.tableEntry 2 0 = some 0 := by
  refine ⟨fun h => ?_, by decide +kernel, by decide +kernel, by decide +kernel, by decide +kernel⟩
  have hone := (h.returned 0 (by decide +kernel)).refCount
  exact absurd hone (by decide +kernel)

end Client

end DenseCore
