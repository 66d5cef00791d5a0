/-
What one pass over the waiting queue keeps, and what it says of a sequence that it
schedules for the first time.

A group that no output has listed yet is *fresh*: its table in the scheduler is
empty or is its cached prefix, and its context is exactly that prefix.  A group
that has been listed is *started*: its cached prefix has been handed over.  While
the pass runs, the blocks in play lie in four places (allocations and hits of the
output, groups still holding their cached prefix, the tables of the worker), and
the invariant keeps all of them in custody.  That is why the blocks a first chunk
is given cannot be blocks of its own cached prefix.

One branch loses blocks: a group that is cancelled while it still holds a cached
prefix takes those references with it.  `ok` rules that out.

Each group meets one of five outcomes, and the invariant is proved once for each.
-/
import DenseCore.Runtime.Schedule
import DenseCore.Proofs.Memory.Custody
import DenseCore.Proofs.Memory.Supply

namespace DenseCore

open List hiding not_le not_lt
open Function (update update_of_ne update_self)

open BlockManager

/-! ### Where blocks are on their way -/

namespace SchedulerOutput

/-- The blocks the allocations of an output give to one sequence. -/
def allocatedTo (o : SchedulerOutput) (seqId : Int) : List Int :=
  (o.newBlockAllocations.filter fun a => a.1 = seqId).flatMap (·.2)

/-- The blocks the prefix hits of an output give to one sequence. -/
def cachedFor (o : SchedulerOutput) (seqId : Int) : List Int :=
  (o.prefixCacheHits.filter fun h => h.seqId = seqId).flatMap (·.cachedBlockIds)

/-- Every block an output carries to the worker. -/
def carried (o : SchedulerOutput) : List Int :=
  o.newBlockAllocations.flatMap (·.2) ++ o.prefixCacheHits.flatMap (·.cachedBlockIds)

end SchedulerOutput

/-- The cached blocks the groups of a queue still hold. -/
def sharedOf (gs : List SequenceGroup) : List Int := gs.flatMap (·.sharedBlockIds)

@[simp] theorem sharedOf_cons (g : SequenceGroup) (gs : List SequenceGroup) :
    sharedOf (g :: gs) = g.sharedBlockIds ++ sharedOf gs := flatMap_cons

@[simp] theorem sharedOf_append (gs gs' : List SequenceGroup) :
    sharedOf (gs ++ gs') = sharedOf gs ++ sharedOf gs' := flatMap_append

theorem sharedOf_perm {gs gs' : List SequenceGroup} (h : gs.Perm gs') :
    (sharedOf gs).Perm (sharedOf gs') := h.flatMap_right _

namespace Scheduler

variable {σ : Type}

/-! ### The invariant of a pass -/

/-- Ids the scheduler knows are below the next one it gives out. -/
structure Bounded (s : Scheduler σ) : Prop where
  running : ∀ id ∈ s.runningSeqs, id < s.nextSeqId
  swapped : ∀ id ∈ s.swappedSeqs, id < s.nextSeqId
  blocks : ∀ id, s.nextSeqId ≤ id → s.seqBlockIds id = none

/-- A waiting group no output has listed. -/
structure Fresh (s : Scheduler σ) (o : SchedulerOutput) (g : SequenceGroup) : Prop where
  context : s.getSequenceContextLen g.sequenceId = blockSlots * g.sharedBlockIds.length
  prefixLen : g.sharedPrefixLen = blockSlots * g.sharedBlockIds.length
  remaining : 0 < g.numTokensToProcess
  recorded : (s.seqBlockIds g.sequenceId).getD [] = [] ∨
    (s.seqBlockIds g.sequenceId).getD [] = g.sharedBlockIds
  notRunning : g.sequenceId ∉ s.runningSeqs
  notSwapped : g.sequenceId ∉ s.swappedSeqs
  notDecoded : g.sequenceId ∉ o.decodeSeqIds
  noAllocation : o.allocatedTo g.sequenceId = []
  noHit : o.cachedFor g.sequenceId = []

/-- The prompt is not one the pass cancels for being too long. -/
def FitsBudget (s : Scheduler σ) (g : SequenceGroup) : Prop :=
  s.canChunk g.sequenceId = false → g.numTokensToProcess ≤ s.config.maxNumBatchedTokens

/-- A waiting group some output has listed. -/
structure Started (s : Scheduler σ) (g : SequenceGroup) : Prop where
  noShared : g.sharedBlockIds = []
  fits : FitsBudget s g

/-- What an output says of a sequence it schedules for its first prefill, `queue`
being the queue the call began with: the scheduler has the cached blocks before
the new ones, the output carries both, and no block is both. -/
def FirstPrefill (queue : List SequenceGroup) (s : Scheduler σ) (o : SchedulerOutput)
    (seqId : Int) : Prop :=
  ∃ g ∈ queue, g.sequenceId = seqId ∧
    s.seqBlockIds seqId = some (g.sharedBlockIds ++ o.allocatedTo seqId) ∧
    o.cachedFor seqId = g.sharedBlockIds ∧
    (g.sharedBlockIds ≠ [] →
      o.allocatedTo seqId ≠ [] ∧ ∀ b ∈ o.allocatedTo seqId, b ∉ g.sharedBlockIds)

/-- The records of the sequences: `seen` are the ids earlier outputs listed,
`queue` is the queue at the start of the call and `gs` are the groups waiting now. -/
structure PassShape (seen : Int → Prop) (queue : List SequenceGroup) (s : Scheduler σ)
    (gs : List SequenceGroup) (o : SchedulerOutput) : Prop where
  nodup : (gs.map (·.sequenceId)).Nodup
  bounded : Bounded s
  groups : ∀ g ∈ gs, g.sequenceId < s.nextSeqId
  prefills : ∀ id ∈ o.prefillSeqIds, id < s.nextSeqId
  decodes : ∀ id ∈ o.decodeSeqIds, id < s.nextSeqId
  fresh : ∀ g ∈ gs, ¬ seen g.sequenceId → g.sequenceId ∉ o.prefillSeqIds → Fresh s o g ∧ g ∈ queue
  started : ∀ g ∈ gs, seen g.sequenceId ∨ g.sequenceId ∈ o.prefillSeqIds → Started s g
  first : ∀ id ∈ o.prefillSeqIds, ¬ seen id → FirstPrefill queue s o id
  freed : o.freedBlocks = []

/-- The invariant of the pass, `held` being the blocks in the worker's tables. -/
structure PassInv (ok : Prop) (seen : Int → Prop) (held : List Int) (queue : List SequenceGroup)
    (s : Scheduler σ) (gs : List SequenceGroup) (o : SchedulerOutput) : Prop
    extends PassShape seen queue s gs o where
  custody : CustodyUpTo ok s.blockManager (o.carried ++ (sharedOf gs ++ held))
  keeps : ok → ∀ g ∈ gs, g.sharedBlockIds ≠ [] → FitsBudget s g

variable {ok : Prop} {seen : Int → Prop} {held : List Int} {queue : List SequenceGroup}
  {s s' : Scheduler σ} {gs gs' rest : List SequenceGroup} {o : SchedulerOutput} {g : SequenceGroup}

theorem PassInv.perm (h : PassInv ok seen held queue s gs o) (hp : gs'.Perm gs) :
    PassInv ok seen held queue s gs' o where
  custody := h.custody.perm (((sharedOf_perm hp).append_right held).append_left _)
  keeps := fun hok g hg => h.keeps hok g (hp.mem_iff.mp hg)
  nodup := ((hp.map _).nodup_iff).mpr h.nodup
  bounded := h.bounded
  groups := fun g hg => h.groups g (hp.mem_iff.mp hg)
  prefills := h.prefills
  decodes := h.decodes
  fresh := fun g hg => h.fresh g (hp.mem_iff.mp hg)
  started := fun g hg => h.started g (hp.mem_iff.mp hg)
  first := h.first
  freed := h.freed

/-- What the records are read from. -/
theorem PassShape.of_same (h : PassShape seen queue s gs o)
    (hc : s'.config = s.config) (hn : s'.nextSeqId = s.nextSeqId)
    (hr : s'.runningSeqs = s.runningSeqs) (hsw : s'.swappedSeqs = s.swappedSeqs)
    (hctx : s'.seqContextLen = s.seqContextLen) (hb : s'.seqBlockIds = s.seqBlockIds)
    (ha : s'.seqAllowChunkedPrefill = s.seqAllowChunkedPrefill) :
    PassShape seen queue s' gs o := by
  obtain ⟨bm, cfg, wq, run, swp, st, nx, gen, ctx, pri, arr, pl, al, cd, blk, ex, le, lu⟩ := s
  obtain ⟨bm', cfg', wq', run', swp', st', nx', gen', ctx', pri', arr', pl', al', cd', blk', ex',
    le', lu'⟩ := s'
  dsimp only at hc hn hr hsw hctx hb ha
  subst hc hn hr hsw hctx hb ha
  exact
    { h with
      bounded := ⟨h.bounded.running, h.bounded.swapped, h.bounded.blocks⟩
      fresh := fun g hg hs ho => by
        obtain ⟨hf, hq⟩ := h.fresh g hg hs ho
        exact ⟨⟨hf.context, hf.prefixLen, hf.remaining, hf.recorded, hf.notRunning, hf.notSwapped,
          hf.notDecoded, hf.noAllocation, hf.noHit⟩, hq⟩
      started := fun g hg hs =>
        ⟨(h.started g hg hs).noShared, (h.started g hg hs).fits⟩ }

theorem PassInv.of_same (h : PassInv ok seen held queue s gs o)
    (hm : s'.blockManager = s.blockManager) (hc : s'.config = s.config)
    (hn : s'.nextSeqId = s.nextSeqId) (hr : s'.runningSeqs = s.runningSeqs)
    (hsw : s'.swappedSeqs = s.swappedSeqs) (hctx : s'.seqContextLen = s.seqContextLen)
    (hb : s'.seqBlockIds = s.seqBlockIds)
    (ha : s'.seqAllowChunkedPrefill = s.seqAllowChunkedPrefill) :
    PassInv ok seen held queue s' gs o where
  toPassShape := h.toPassShape.of_same hc hn hr hsw hctx hb ha
  custody := by rw [hm]; exact h.custody
  keeps := by
    intro hok g hg hshared
    unfold FitsBudget canChunk
    rw [hc, ha]
    exact h.keeps hok g hg hshared

theorem PassInv.of_output {o' : SchedulerOutput} (h : PassInv ok seen held queue s gs o)
    (hp : o'.prefillSeqIds = o.prefillSeqIds) (hd : ∀ id ∈ o'.decodeSeqIds, id ∈ o.decodeSeqIds ∨
      id ∈ s.runningSeqs)
    (ha : o'.newBlockAllocations = o.newBlockAllocations)
    (hh : o'.prefixCacheHits = o.prefixCacheHits) (hf : o'.freedBlocks = o.freedBlocks) :
    PassInv ok seen held queue s gs o' := by
  have hcarried : o'.carried = o.carried := by unfold SchedulerOutput.carried; rw [ha, hh]
  have halloc : ∀ id, o'.allocatedTo id = o.allocatedTo id := by
    intro id; unfold SchedulerOutput.allocatedTo; rw [ha]
  have hcached : ∀ id, o'.cachedFor id = o.cachedFor id := by
    intro id; unfold SchedulerOutput.cachedFor; rw [hh]
  refine ⟨⟨h.nodup, h.bounded, h.groups, by rw [hp]; exact h.prefills,
    ?_, ?_, by rw [hp]; exact h.started, ?_, hf.trans h.freed⟩,
    by rw [hcarried]; exact h.custody, h.keeps⟩
  · intro id hid
    rcases hd id hid with hold | hrun
    · exact h.decodes id hold
    · exact h.bounded.running id hrun
  · intro g hg hs ho
    rw [hp] at ho
    obtain ⟨hfr, hq⟩ := h.fresh g hg hs ho
    refine ⟨{ hfr with
      notDecoded := ?_
      noAllocation := (halloc _).trans hfr.noAllocation
      noHit := (hcached _).trans hfr.noHit }, hq⟩
    intro hmem
    rcases hd _ hmem with hold | hrun
    · exact hfr.notDecoded hold
    · exact hfr.notRunning hrun
  intro id hid hs
  rw [hp] at hid
  obtain ⟨g, hq, heq, hrest⟩ := h.first id hid hs
  exact ⟨g, hq, heq, by rw [halloc, hcached]; exact hrest⟩

/-! ### Changes that concern one sequence

A branch of the loop touches the records of the group at hand and no others.  So
the group is taken out of the invariant, the scheduler and the output change where
only that group looked, and the group is put back in its new state.
-/

/-- `s'` differs from `s` at most in what it records of `id`. -/
structure Off (s s' : Scheduler σ) (id : Int) : Prop where
  config : s'.config = s.config
  nextSeqId : s'.nextSeqId = s.nextSeqId
  running : ∀ x ∈ s'.runningSeqs, x ∈ s.runningSeqs ∨ x = id
  swapped : ∀ x ∈ s'.swappedSeqs, x ∈ s.swappedSeqs ∨ x = id
  context : ∀ x, x ≠ id → s'.seqContextLen x = s.seqContextLen x
  blocks : ∀ x, x ≠ id → s'.seqBlockIds x = s.seqBlockIds x
  allow : ∀ x, x ≠ id → s'.seqAllowChunkedPrefill x = s.seqAllowChunkedPrefill x

variable {id tokens : Int} {l new : List Int}

theorem Fresh.off (h : Fresh s o g) (hoff : Off s s' id) (hne : g.sequenceId ≠ id) :
    Fresh s' o g where
  context := by
    rw [← h.context]
    unfold getSequenceContextLen
    rw [hoff.context _ hne]
  prefixLen := h.prefixLen
  remaining := h.remaining
  recorded := by rw [hoff.blocks _ hne]; exact h.recorded
  notRunning := by
    intro hmem
    rcases hoff.running _ hmem with hold | heq
    · exact h.notRunning hold
    · exact hne heq
  notSwapped := by
    intro hmem
    rcases hoff.swapped _ hmem with hold | heq
    · exact h.notSwapped hold
    · exact hne heq
  notDecoded := h.notDecoded
  noAllocation := h.noAllocation
  noHit := h.noHit

theorem FitsBudget.off (h : FitsBudget s g) (hoff : Off s s' id)
    (hne : g.sequenceId ≠ id) : FitsBudget s' g := by
  unfold FitsBudget canChunk
  rw [hoff.config, hoff.allow _ hne]
  exact h

theorem Bounded.off (h : Bounded s) (hoff : Off s s' id) (hid : id < s.nextSeqId) : Bounded s' := by
  refine ⟨?_, ?_, ?_⟩
  · intro x hx
    rw [hoff.nextSeqId]
    rcases hoff.running x hx with hold | rfl
    · exact h.running x hold
    · exact hid
  · intro x hx
    rw [hoff.nextSeqId]
    rcases hoff.swapped x hx with hold | rfl
    · exact h.swapped x hold
    · exact hid
  intro x hx
  rw [hoff.nextSeqId] at hx
  rw [hoff.blocks x (by omega)]
  exact h.blocks x hx

theorem PassShape.ne_head (h : PassShape seen queue s (g :: gs) o) :
    ∀ g' ∈ gs, g'.sequenceId ≠ g.sequenceId := by
  intro g' hg' heq
  have hnodup := h.nodup
  rw [map_cons, nodup_cons] at hnodup
  exact hnodup.1 (heq ▸ mem_map_of_mem hg')

theorem PassShape.dropHead (h : PassShape seen queue s (g :: gs) o)
    (hoff : Off s s' g.sequenceId) (hnew : g.sequenceId ∉ o.prefillSeqIds) :
    PassShape seen queue s' gs o := by
  have hid : g.sequenceId < s.nextSeqId := h.groups g (by simp)
  have hnodup := h.nodup
  rw [map_cons, nodup_cons] at hnodup
  refine ⟨hnodup.2, h.bounded.off hoff hid, ?_, ?_, ?_, ?_, ?_, ?_, h.freed⟩
  · intro g' hg'
    rw [hoff.nextSeqId]
    exact h.groups g' (mem_cons_of_mem _ hg')
  · rw [hoff.nextSeqId]; exact h.prefills
  · rw [hoff.nextSeqId]; exact h.decodes
  · intro g' hg' hs ho
    obtain ⟨hf, hq⟩ := h.fresh g' (mem_cons_of_mem _ hg') hs ho
    exact ⟨hf.off hoff (h.ne_head g' hg'), hq⟩
  · intro g' hg' hs
    have hst := h.started g' (mem_cons_of_mem _ hg') hs
    exact ⟨hst.noShared, hst.fits.off hoff (h.ne_head g' hg')⟩
  intro id hid' hs
  obtain ⟨g', hq, heq, hblocks, hrest⟩ := h.first id hid' hs
  have hne : id ≠ g.sequenceId := by rintro rfl; exact hnew hid'
  exact ⟨g', hq, heq, by rw [hoff.blocks id hne]; exact hblocks, hrest⟩

theorem PassInv.keeps_off (h : PassInv ok seen held queue s (g :: gs) o)
    (hoff : Off s s' g.sequenceId) :
    ok → ∀ g' ∈ gs, g'.sharedBlockIds ≠ [] → FitsBudget s' g' := by
  intro hok g' hg' hshared
  exact (h.keeps hok g' (mem_cons_of_mem _ hg') hshared).off hoff (h.ne_head g' hg')

theorem PassShape.consGroup (h : PassShape seen queue s gs o)
    (hne : ∀ g' ∈ gs, g'.sequenceId ≠ g.sequenceId) (hid : g.sequenceId < s.nextSeqId)
    (hfresh : ¬ seen g.sequenceId → g.sequenceId ∉ o.prefillSeqIds → Fresh s o g ∧ g ∈ queue)
    (hstarted : seen g.sequenceId ∨ g.sequenceId ∈ o.prefillSeqIds → Started s g) :
    PassShape seen queue s (g :: gs) o := by
  refine ⟨?_, h.bounded, ?_, h.prefills, h.decodes, ?_, ?_, h.first, h.freed⟩
  · rw [map_cons, nodup_cons]
    refine ⟨?_, h.nodup⟩
    intro hmem
    obtain ⟨g', hg', heq⟩ := mem_map.mp hmem
    exact hne g' hg' heq
  · intro g' hg'
    rcases mem_cons.mp hg' with rfl | hold
    · exact hid
    · exact h.groups g' hold
  · intro g' hg'
    rcases mem_cons.mp hg' with rfl | hold
    · exact hfresh
    · exact h.fresh g' hold
  intro g' hg'
  rcases mem_cons.mp hg' with rfl | hold
  · exact hstarted
  · exact h.started g' hold

/-- `o'` is `o` with the entries of one more scheduled prefill. -/
structure Lists (o o' : SchedulerOutput) (id : Int) : Prop where
  prefills : o'.prefillSeqIds = o.prefillSeqIds ++ [id]
  decodes : o'.decodeSeqIds = o.decodeSeqIds
  freed : o'.freedBlocks = o.freedBlocks
  allocated : ∀ x, x ≠ id → o'.allocatedTo x = o.allocatedTo x
  cached : ∀ x, x ≠ id → o'.cachedFor x = o.cachedFor x

/-- The output lists one more sequence, whose group is not among `gs`. -/
theorem PassShape.list {o' : SchedulerOutput} (h : PassShape seen queue s gs o)
    (hl : Lists o o' id) (hne : ∀ g' ∈ gs, g'.sequenceId ≠ id) (hid : id < s.nextSeqId)
    (hnew : id ∉ o.prefillSeqIds) (hfirst : ¬ seen id → FirstPrefill queue s o' id) :
    PassShape seen queue s gs o' := by
  have hmem : ∀ x, x ∈ o'.prefillSeqIds ↔ x ∈ o.prefillSeqIds ∨ x = id := by
    intro x
    rw [hl.prefills]
    simp
  refine ⟨h.nodup, h.bounded, h.groups, ?_, ?_, ?_, ?_, ?_, hl.freed.trans h.freed⟩
  · intro x hx
    rcases (hmem x).mp hx with hold | rfl
    · exact h.prefills x hold
    · exact hid
  · rw [hl.decodes]; exact h.decodes
  · intro g' hg' hs ho
    obtain ⟨hf, hq⟩ := h.fresh g' hg' hs fun hold => ho ((hmem _).mpr (Or.inl hold))
    refine ⟨{ hf with
      notDecoded := by rw [hl.decodes]; exact hf.notDecoded
      noAllocation := by rw [hl.allocated _ (hne g' hg')]; exact hf.noAllocation
      noHit := by rw [hl.cached _ (hne g' hg')]; exact hf.noHit }, hq⟩
  · intro g' hg' hs
    refine h.started g' hg' (hs.imp_right ?_)
    intro hx
    exact ((hmem _).mp hx).resolve_right (hne g' hg')
  intro x hx hs
  rcases (hmem x).mp hx with hold | rfl
  · obtain ⟨g', hq, heq, hblocks, hcached, hdisj⟩ := h.first x hold hs
    have hxne : x ≠ id := by rintro rfl; exact hnew hold
    refine ⟨g', hq, heq, ?_, ?_, ?_⟩
    · rw [hl.allocated x hxne]; exact hblocks
    · rw [hl.cached x hxne]; exact hcached
    · rw [hl.allocated x hxne]; exact hdisj
  · exact hfirst hs

/-! ### The five outcomes of a group

A round of the loop ends in one of five ways. Every later statement about the loop splits by
these and never looks at the code of a round again.
-/

namespace WaitingPass

variable (p : WaitingPass σ) (r : SchedulerEmptyReason) (u : SchedulerUnschedulableReason)
  (g : SequenceGroup)

@[simp] theorem block_sch : (p.block r g).sch = p.sch := by unfold block; split <;> rfl

@[simp] theorem block_output : (p.block r g).output = p.output := by unfold block; split <;> rfl

@[simp] theorem block_stillWaiting : (p.block r g).stillWaiting = p.stillWaiting ++ [g] := by
  unfold block; split <;> rfl

@[simp] theorem reject_sch : (p.reject u g).sch = p.sch := by unfold reject; split <;> rfl

@[simp] theorem reject_output : (p.reject u g).output = p.output := by unfold reject; split <;> rfl

@[simp] theorem reject_stillWaiting : (p.reject u g).stillWaiting = p.stillWaiting := by
  unfold reject; split <;> rfl

end WaitingPass

/-- The pass after the table of a group has been recorded, with some manager. -/
def WaitingPass.withManager (p : WaitingPass σ) (g : SequenceGroup) (m : BlockManager σ) :
    WaitingPass σ :=
  { p.recordBlocks g with sch := { (p.recordBlocks g).sch with blockManager := m } }

/-- The chunk a group is given: part of what it has left or all of it, within the
budget and the slots. -/
structure Chunk (p : WaitingPass σ) (g : SequenceGroup) (tokens : Int) : Prop where
  pos : 0 < tokens
  le_remaining : tokens ≤ g.numTokensToProcess
  whole : p.sch.canChunk g.sequenceId = false → tokens = g.numTokensToProcess
  le_budget : tokens ≤ p.tokensBudget
  le_prefill : p.sch.canChunk g.sequenceId = true → tokens ≤ p.sch.config.maxPrefillTokens
  slot : p.output.scheduledSeqCount < asSize p.sch.config.maxNumSeqs
  prefillSlot : p.output.prefillSeqIds.length < asSize (max 1 p.sch.config.maxPrefillSeqs)
  fits : FitsBudget p.sch g

/-- The blocks a chunk is given, and the manager that is left. -/
inductive Granted (p : WaitingPass σ) (g : SequenceGroup) (tokens : Int) :
    List Int → BlockManager σ → Prop where
  | covered (h : p.blocksToAllocate g tokens ≤ 0) : Granted p g tokens [] p.sch.blockManager
  | allocated (c : AllocChoice) (hpos : 0 < p.blocksToAllocate g tokens)
      (hfree : p.blocksToAllocate g tokens ≤ p.sch.blockManager.getFreeBlockCount) :
      Granted p g tokens (p.sch.blockManager.allocate (p.blocksToAllocate g tokens) c).1
        (p.sch.blockManager.allocate (p.blocksToAllocate g tokens) c).2

/-- The ends of `admitGroup`: an allocation that the free lists cover does not fail. -/
inductive Admitted (p : WaitingPass σ) (g : SequenceGroup) (tokens : Int) :
    WaitingPass σ → Prop where
  | exceeds :
      Admitted p g tokens (((p.recordBlocks g).reject .requiredBlocksExceedCapacity g).keep g)
  | blocked : Admitted p g tokens ((p.recordBlocks g).block .noFreeBlocks g)
  | scheduled (new : List Int) (m : BlockManager σ) (hgrant : Granted p g tokens new m) :
      Admitted p g tokens ((p.withManager g m).schedulePrefill g (p.seqBlocks g) new tokens)

theorem admitGroup_admitted (choose : Int → AllocChoice) (p : WaitingPass σ) (g : SequenceGroup)
    (tokens : Int) : Admitted p g tokens (p.admitGroup choose g tokens) := by
  unfold WaitingPass.admitGroup
  dsimp only
  split
  · exact .exceeds
  split
  · rename_i hpos
    split
    · exact .blocked
    rename_i hfree
    obtain ⟨hlen, -⟩ := p.sch.blockManager.allocate_of_free (choose g.sequenceId) hpos
      (not_lt.mp hfree)
    rw [if_neg (not_not.mpr hlen)]
    exact .scheduled _ _ (.allocated _ hpos (not_lt.mp hfree))
  rename_i hpos
  exact .scheduled [] _ (.covered (not_lt.mp hpos))

namespace WaitingPass

/-- The whole prompt would have to go at once and is more than a batch takes. -/
structure TooLong (p : WaitingPass σ) (g : SequenceGroup) : Prop where
  slot : p.output.scheduledSeqCount < asSize p.sch.config.maxNumSeqs
  prefillSlot : p.output.prefillSeqIds.length < asSize (max 1 p.sch.config.maxPrefillSeqs)
  remaining : 0 < g.numTokensToProcess
  whole : p.sch.canChunk g.sequenceId = false
  long : p.sch.config.maxNumBatchedTokens < g.numTokensToProcess

/-- The group gets as far as being given a chunk, and only its blocks are left to find. -/
structure HasChunk (p : WaitingPass σ) (queueLen : Nat) (g : SequenceGroup) : Prop where
  slot : p.output.scheduledSeqCount < asSize p.sch.config.maxNumSeqs
  prefillSlot : p.output.prefillSeqIds.length < asSize (max 1 p.sch.config.maxPrefillSeqs)
  remaining : 0 < g.numTokensToProcess
  fits : ¬ (p.sch.canChunk g.sequenceId = false ∧
    g.numTokensToProcess > p.sch.config.maxNumBatchedTokens)
  whole : ¬ (p.sch.canChunk g.sequenceId = false ∧
    g.numTokensToProcess > p.prefillBudget queueLen g)
  chunk : 0 < p.tokensNeeded queueLen g
  bucket : ¬ (p.sch.config.enforceHomogeneousBatchNPast = true ∧ 0 ≤ p.targetContextLen ∧
    p.sch.getSequenceContextLen g.sequenceId ≠ p.targetContextLen)
  experts : ¬ (p.sch.config.enableMoeClustering = true ∧ g.predictedExperts ≠ [] ∧
    shouldDeferForMoEBudget g.requestId g.predictedExperts p.activeExperts p.sch.config ∧
    p.output.prefillSeqIds ≠ [])

variable {p : WaitingPass σ} {queueLen : Nat} {choose : Int → AllocChoice}

theorem considerGroup_of_tooLong (h : p.TooLong g) : p.considerGroup queueLen choose g =
    { p.reject .promptExceedsBatchBudget g with
      sch := (p.sch.setStatus g.sequenceId .cancelled).cleanupSequenceState g.sequenceId
        false true } := by
  unfold considerGroup
  dsimp only
  rw [if_neg (not_le.mpr h.slot), if_neg (not_le.mpr h.prefillSlot),
    if_neg (not_le.mpr h.remaining), if_pos ⟨h.whole, h.long⟩]

theorem considerGroup_of_hasChunk (h : p.HasChunk queueLen g) :
    p.considerGroup queueLen choose g = p.admitGroup choose g (p.tokensNeeded queueLen g) := by
  unfold considerGroup
  dsimp only
  rw [if_neg (not_le.mpr h.slot), if_neg (not_le.mpr h.prefillSlot),
    if_neg (not_le.mpr h.remaining), if_neg h.fits, if_neg h.whole, if_neg (not_le.mpr h.chunk),
    if_neg h.bucket, if_neg h.experts]

end WaitingPass

/-- The ends of the loop body: a check before the one on memory fails, or all of them
are passed. -/
inductive Considered (queueLen : Nat) (choose : Int → AllocChoice) (p : WaitingPass σ)
    (g : SequenceGroup) : WaitingPass σ → Prop where
  | blocked (r : SchedulerEmptyReason) (hr : r ≠ .noFreeBlocks) :
      Considered queueLen choose p g (p.block r g)
  | ran (hdone : g.numTokensToProcess ≤ 0) :
      Considered queueLen choose p g { p with sch := p.sch.markRunning g.sequenceId }
  | dropped (hlong : p.TooLong g) :
      Considered queueLen choose p g { p.reject .promptExceedsBatchBudget g with
        sch := (p.sch.setStatus g.sequenceId .cancelled).cleanupSequenceState g.sequenceId
          false true }
  | admitted (hchunk : p.HasChunk queueLen g) :
      Considered queueLen choose p g (p.admitGroup choose g (p.tokensNeeded queueLen g))

theorem considerGroup_considered (queueLen : Nat) (choose : Int → AllocChoice)
    (p : WaitingPass σ) (g : SequenceGroup) :
    Considered queueLen choose p g (p.considerGroup queueLen choose g) := by
  unfold WaitingPass.considerGroup
  dsimp only
  split
  · exact .blocked _ nofun
  rename_i hslot
  split
  · exact .blocked _ nofun
  rename_i hprefill
  split
  · exact .ran ‹_›
  rename_i hremaining
  split
  · rename_i hlong
    exact .dropped ⟨not_le.mp hslot, not_le.mp hprefill, not_le.mp hremaining, hlong.1, hlong.2⟩
  rename_i hfits
  split
  · exact .blocked _ nofun
  rename_i hwhole
  split
  · exact .blocked _ nofun
  rename_i hchunk
  split
  · exact .blocked _ nofun
  rename_i hbucket
  split
  · exact .blocked _ nofun
  rename_i hexperts
  exact .admitted ⟨not_le.mp hslot, not_le.mp hprefill, not_le.mp hremaining,
    hfits, hwhole, not_le.mp hchunk, hbucket, hexperts⟩

/-- What the loop body can do with a group. -/
inductive Outcome (p : WaitingPass σ) (g : SequenceGroup) (p' : WaitingPass σ) : Prop where
  | kept (hs : p'.sch = p.sch) (ho : p'.output = p.output)
      (hw : p'.stillWaiting = p.stillWaiting ++ [g])
  | recorded (hfits : FitsBudget p.sch g) (hs : p'.sch = (p.recordBlocks g).sch)
      (ho : p'.output = p.output) (hw : p'.stillWaiting = p.stillWaiting ++ [g])
  | ran (hdone : g.numTokensToProcess ≤ 0) (hs : p'.sch = p.sch.markRunning g.sequenceId)
      (ho : p'.output = p.output) (hw : p'.stillWaiting = p.stillWaiting)
  | dropped (hchunk : p.sch.canChunk g.sequenceId = false)
      (hlong : g.numTokensToProcess > p.sch.config.maxNumBatchedTokens)
      (hs : p'.sch = (p.sch.setStatus g.sequenceId .cancelled).cleanupSequenceState g.sequenceId
        false true)
      (ho : p'.output = p.output) (hw : p'.stillWaiting = p.stillWaiting)
  | scheduled (tokens : Int) (new : List Int) (m : BlockManager σ) (hchunk : Chunk p g tokens)
      (hgrant : Granted p g tokens new m)
      (hp : p' = (p.withManager g m).schedulePrefill g (p.seqBlocks g) new tokens)

theorem blocked_kept (p : WaitingPass σ) (r : SchedulerEmptyReason) (g : SequenceGroup) :
    Outcome p g (p.block r g) :=
  .kept (by simp) (by simp) (by simp)

theorem admitGroup_outcome (choose : Int → AllocChoice) (p : WaitingPass σ) (g : SequenceGroup)
    (hchunk : Chunk p g tokens) :
    Outcome p g (p.admitGroup choose g tokens) := by
  have hadmitted := admitGroup_admitted choose p g tokens
  generalize p.admitGroup choose g tokens = p' at hadmitted ⊢
  cases hadmitted with
  | exceeds =>
    exact .recorded hchunk.fits (by simp [WaitingPass.keep]) (by simp [WaitingPass.keep]; rfl)
      (by simp [WaitingPass.keep]; rfl)
  | blocked => exact .recorded hchunk.fits (by simp) (by simp; rfl) (by simp; rfl)
  | scheduled new m hgrant => exact .scheduled tokens new m hchunk hgrant rfl

theorem prefillBudget_le (p : WaitingPass σ) (queueLen : Nat) (g : SequenceGroup) :
    p.prefillBudget queueLen g ≤ p.tokensBudget := by
  unfold WaitingPass.prefillBudget
  dsimp only
  split_ifs <;> omega

theorem tokensNeeded_le (p : WaitingPass σ) (queueLen : Nat) (g : SequenceGroup) :
    p.tokensNeeded queueLen g ≤ g.numTokensToProcess ∧ (p.sch.canChunk g.sequenceId = false →
        p.tokensNeeded queueLen g = g.numTokensToProcess) ∧
      (p.sch.canChunk g.sequenceId = true →
        p.tokensNeeded queueLen g ≤ p.prefillBudget queueLen g) := by
  unfold WaitingPass.tokensNeeded
  dsimp only
  split
  · rename_i hcan
    refine ⟨?_, fun h => absurd hcan (by simp [h]), fun _ => ?_⟩
    · split
      · unfold blockSlots; omega
      · omega
    split
    · unfold blockSlots; omega
    · omega
  rename_i hcan
  exact ⟨le_rfl, fun _ => rfl, fun h => absurd h hcan⟩

theorem WaitingPass.HasChunk.given {p : WaitingPass σ} {queueLen : Nat} (h : p.HasChunk queueLen g) :
    Chunk p g (p.tokensNeeded queueLen g) := by
  obtain ⟨hle, hall, hcap⟩ := tokensNeeded_le p queueLen g
  have hbudget := prefillBudget_le p queueLen g
  refine ⟨h.chunk, hle, hall, ?_, fun hcan => (hcap hcan).trans ?_, h.slot, h.prefillSlot,
    fun hcan => not_lt.mp fun hlong => h.fits ⟨hcan, hlong⟩⟩
  · cases hcan : p.sch.canChunk g.sequenceId with
    | true => exact (hcap hcan).trans hbudget
    | false =>
      rw [hall hcan]
      have : g.numTokensToProcess ≤ p.prefillBudget queueLen g :=
        not_lt.mp fun hlong => h.whole ⟨hcan, hlong⟩
      omega
  · unfold WaitingPass.prefillBudget
    simp only [hcan, if_true]
    split_ifs <;> omega

/-- **The loop body has no other outcome.** -/
theorem considerGroup_outcome (queueLen : Nat) (choose : Int → AllocChoice) (p : WaitingPass σ)
    (g : SequenceGroup) : Outcome p g (p.considerGroup queueLen choose g) := by
  have hconsidered := considerGroup_considered queueLen choose p g
  generalize p.considerGroup queueLen choose g = p' at hconsidered ⊢
  cases hconsidered with
  | blocked r _ => exact blocked_kept p r g
  | ran hdone => exact .ran hdone rfl rfl rfl
  | dropped h => exact .dropped h.whole h.long rfl (by simp) (by simp)
  | admitted h => exact admitGroup_outcome choose p g h.given

/-! ### The invariant under each outcome -/

theorem withManager_off (p : WaitingPass σ) (g : SequenceGroup) (m : BlockManager σ) :
    Off p.sch (p.withManager g m).sch g.sequenceId where
  config := rfl
  nextSeqId := rfl
  running := fun _ hx => Or.inl hx
  swapped := fun _ hx => Or.inl hx
  context := fun _ _ => rfl
  blocks := fun _ hne => update_of_ne hne _ _
  allow := fun _ _ => rfl

theorem markRunning_off (s : Scheduler σ) (id : Int) : Off s (s.markRunning id) id where
  config := rfl
  nextSeqId := rfl
  running := fun _ hx => (mem_insert_iff.mp hx).symm
  swapped := fun _ hx => Or.inl hx
  context := fun _ _ => rfl
  blocks := fun _ _ => rfl
  allow := fun _ _ => rfl

theorem cleanupSequenceState_off (s : Scheduler σ) (id : Int) (erase free : Bool) :
    Off s (s.cleanupSequenceState id erase free) id where
  config := rfl
  nextSeqId := rfl
  running := fun _ hx => Or.inl (mem_filter.mp hx).1
  swapped := fun _ hx => Or.inl (mem_filter.mp hx).1
  context := fun _ hne => update_of_ne hne _ _
  blocks := fun _ hne => update_of_ne hne _ _
  allow := fun _ hne => update_of_ne hne _ _

theorem Fresh.seqBlocks {p : WaitingPass σ} (hf : Fresh p.sch o g) :
    p.seqBlocks g = g.sharedBlockIds := by
  unfold WaitingPass.seqBlocks
  dsimp only
  split
  · rfl
  rename_i hcond
  rcases hf.recorded with hnil | hshared
  · rw [hnil]
    by_contra hne
    exact hcond ⟨hnil, Ne.symm hne⟩
  · exact hshared

variable {p p' : WaitingPass σ}

section

variable (h : PassInv ok seen held queue p.sch (g :: gs) p.output)

include h

theorem PassInv.record
    (hnew : g.sequenceId ∉ p.output.prefillSeqIds) :
    PassInv ok seen held queue (p.recordBlocks g).sch (g :: gs) p.output := by
  have hdrop := h.toPassShape.dropHead (withManager_off p g p.sch.blockManager) hnew
  refine ⟨hdrop.consGroup h.ne_head (h.groups g (by simp)) ?_ ?_, h.custody, h.keeps⟩
  · intro hs ho
    obtain ⟨hf, hq⟩ := h.fresh g (by simp) hs ho
    refine ⟨⟨hf.context, hf.prefixLen, hf.remaining, ?_, hf.notRunning, hf.notSwapped,
      hf.notDecoded, hf.noAllocation, hf.noHit⟩, hq⟩
    right
    show (update p.sch.seqBlockIds g.sequenceId _ g.sequenceId).getD [] = _
    rw [update_self, Option.getD_some, hf.seqBlocks]
  intro hs
  have hst := h.started g (by simp) hs
  exact ⟨hst.noShared, hst.fits⟩

theorem PassInv.ran
    (hnew : g.sequenceId ∉ p.output.prefillSeqIds) (hdone : g.numTokensToProcess ≤ 0) :
    PassInv ok seen held queue (p.sch.markRunning g.sequenceId) gs p.output := by
  have hoff := markRunning_off p.sch g.sequenceId
  refine ⟨h.toPassShape.dropHead hoff hnew, ?_, h.keeps_off hoff⟩
  have hseen : seen g.sequenceId := by
    by_contra hs
    have := (h.fresh g (by simp) hs hnew).1.remaining
    omega
  have hcust := h.custody
  rw [sharedOf_cons, (h.started g (by simp) (Or.inl hseen)).noShared] at hcust
  exact hcust

theorem PassInv.drop
    (hnew : g.sequenceId ∉ p.output.prefillSeqIds)
    (hchunk : p.sch.canChunk g.sequenceId = false)
    (hlong : g.numTokensToProcess > p.sch.config.maxNumBatchedTokens) :
    PassInv ok seen held queue ((p.sch.setStatus g.sequenceId .cancelled).cleanupSequenceState
      g.sequenceId false true) gs p.output := by
  have hunfit : ¬ FitsBudget p.sch g := by
    intro hfits
    have := hfits hchunk
    omega
  have hunseen : ¬ seen g.sequenceId :=
    fun hs => hunfit (h.started g (by simp) (Or.inl hs)).fits
  have hf := (h.fresh g (by simp) hunseen hnew).1
  have hstatus : PassInv ok seen held queue (p.sch.setStatus g.sequenceId .cancelled) (g :: gs)
      p.output := h.of_same rfl rfl rfl rfl rfl rfl rfl rfl
  have hoff := cleanupSequenceState_off (p.sch.setStatus g.sequenceId .cancelled) g.sequenceId
    false true
  refine ⟨hstatus.toPassShape.dropHead hoff hnew, ?_, hstatus.keeps_off hoff⟩
  have hcust : CustodyUpTo ok p.sch.blockManager
      (g.sharedBlockIds ++ (p.output.carried ++ (sharedOf gs ++ held))) := by
    refine h.custody.perm ?_
    rw [sharedOf_cons, append_assoc]
    exact perm_append_comm_assoc _ _ _
  show CustodyUpTo ok (p.sch.blockManager.free ((p.sch.seqBlockIds g.sequenceId).getD [])) _
  rcases hf.recorded with hnil | hshared
  · rw [hnil]
    refine hcust.lose fun hok => ?_
    exact not_not.mp fun hne => hunfit (h.keeps hok g (by simp) hne)
  rw [hshared]
  exact hcust.free

end

/-! ### A scheduled group -/

theorem Granted.custody {m : BlockManager σ}
    (hg : Granted p g tokens new m) (h : CustodyUpTo ok p.sch.blockManager l) :
    CustodyUpTo ok m (new ++ l) ∧ ∀ b ∈ new, b ∉ l := by
  cases hg with
  | covered _ => exact ⟨h, by simp⟩
  | allocated c _ _ => exact h.allocate _ c

theorem Granted.ne_nil {m : BlockManager σ}
    (hg : Granted p g tokens new m) (hf : Fresh p.sch o g) (htok : 0 < tokens) : new ≠ [] := by
  have hneed : 0 < p.blocksToAllocate g tokens := by
    unfold WaitingPass.blocksToAllocate blocksNeeded
    rw [hf.context, hf.seqBlocks, Int.tdiv_eq_ediv_of_nonneg (by unfold blockSlots; omega)]
    unfold blockSlots
    omega
  cases hg with
  | covered h => omega
  | allocated c hpos hfree =>
    intro hnil
    obtain ⟨hlen, -⟩ := p.sch.blockManager.allocate_of_free c hpos hfree
    rw [hnil] at hlen
    simp only [length_nil, Int.ofNat_zero] at hlen
    omega

section Schedule

variable (p : WaitingPass σ) (g : SequenceGroup) (bs new : List Int) (tokens : Int)

theorem schedulePrefill_off : Off p.sch (p.schedulePrefill g bs new tokens).sch g.sequenceId where
  config := rfl
  nextSeqId := rfl
  running := fun _ hx => Or.inl hx
  swapped := fun _ hx => Or.inl hx
  context := fun _ _ => rfl
  blocks := fun _ hne => update_of_ne hne _ _
  allow := fun _ _ => rfl

theorem schedulePrefill_lists :
    Lists p.output (p.schedulePrefill g bs new tokens).output g.sequenceId where
  prefills := rfl
  decodes := rfl
  freed := rfl
  allocated := by
    intro x hne
    unfold SchedulerOutput.allocatedTo WaitingPass.schedulePrefill
    dsimp only
    split
    · rfl
    rw [filter_append, filter_cons_of_neg (by simpa using Ne.symm hne), filter_nil, append_nil]
  cached := by
    intro x hne
    unfold SchedulerOutput.cachedFor WaitingPass.schedulePrefill
    dsimp only
    split
    · rw [filter_append, filter_cons_of_neg (by simpa using Ne.symm hne), filter_nil, append_nil]
    · rfl

theorem schedulePrefill_allocatedTo :
    (p.schedulePrefill g bs new tokens).output.allocatedTo g.sequenceId =
      p.output.allocatedTo g.sequenceId ++ new := by
  unfold SchedulerOutput.allocatedTo WaitingPass.schedulePrefill
  dsimp only
  split
  · rename_i hnil
    rw [hnil, append_nil]
  · simp

theorem schedulePrefill_cachedFor :
    (p.schedulePrefill g bs new tokens).output.cachedFor g.sequenceId =
      p.output.cachedFor g.sequenceId ++ if g.HasHit then g.sharedBlockIds else [] := by
  unfold SchedulerOutput.cachedFor WaitingPass.schedulePrefill
  dsimp only
  split <;> simp

/-- The group as it goes back to the queue. -/
def handedOver (g : SequenceGroup) : SequenceGroup :=
  if g.HasHit then { g with sharedPrefixLen := 0, sharedBlockIds := [] } else g

@[simp] theorem handedOver_sequenceId : (handedOver g).sequenceId = g.sequenceId := by
  unfold handedOver; split <;> rfl

@[simp] theorem handedOver_numTokensToProcess :
    (handedOver g).numTokensToProcess = g.numTokensToProcess := by
  unfold handedOver; split <;> rfl

theorem schedulePrefill_carried (l : List Int) :
    ((p.schedulePrefill g bs new tokens).output.carried ++ (sharedOf [handedOver g] ++ l)).Perm
      (new ++ (p.output.carried ++ (g.sharedBlockIds ++ l))) := by
  rw [perm_iff_count]
  intro b
  have hallocs : ((p.schedulePrefill g bs new tokens).output.newBlockAllocations.flatMap
      (·.2)).count b = (p.output.newBlockAllocations.flatMap (·.2)).count b + new.count b := by
    unfold WaitingPass.schedulePrefill
    dsimp only
    split
    · rename_i hnil
      simp [hnil]
    · simp [flatMap_append]
  have hhits : ((p.schedulePrefill g bs new tokens).output.prefixCacheHits.flatMap
      (·.cachedBlockIds)).count b + (sharedOf [handedOver g]).count b =
        (p.output.prefixCacheHits.flatMap (·.cachedBlockIds)).count b +
          g.sharedBlockIds.count b := by
    unfold WaitingPass.schedulePrefill handedOver sharedOf
    dsimp only
    split <;> simp [flatMap_append]
  unfold SchedulerOutput.carried
  simp only [count_append]
  omega

end Schedule

theorem Fresh.hasHit (hf : Fresh s o g) : g.HasHit ↔ g.sharedBlockIds ≠ [] := by
  unfold SequenceGroup.HasHit
  refine ⟨fun h => h.2, fun h => ⟨?_, h⟩⟩
  have hlen : 0 < g.sharedBlockIds.length := length_pos_iff.mpr h
  rw [hf.prefixLen]
  unfold blockSlots
  omega

theorem Fresh.firstPrefill {m : BlockManager σ}
    (hf : Fresh p.sch p.output g) (hq : g ∈ queue) (hgrant : Granted p g tokens new m)
    (htok : 0 < tokens) (hcust : CustodyUpTo ok p.sch.blockManager l)
    (hl : ∀ b ∈ g.sharedBlockIds, b ∈ l) :
    let p' := (p.withManager g m).schedulePrefill g (p.seqBlocks g) new tokens
    FirstPrefill queue p'.sch p'.output g.sequenceId := by
  have hnew : ((p.withManager g m).schedulePrefill g (p.seqBlocks g) new tokens).output.allocatedTo
      g.sequenceId = new := by
    rw [schedulePrefill_allocatedTo]
    show p.output.allocatedTo g.sequenceId ++ new = new
    rw [hf.noAllocation, nil_append]
  have hold : ((p.withManager g m).schedulePrefill g (p.seqBlocks g) new tokens).output.cachedFor
      g.sequenceId = g.sharedBlockIds := by
    rw [schedulePrefill_cachedFor]
    show p.output.cachedFor g.sequenceId ++ _ = g.sharedBlockIds
    rw [hf.noHit, nil_append]
    split
    · rfl
    rename_i hmiss
    exact (not_not.mp fun hne => hmiss (hf.hasHit.mpr hne)).symm
  refine ⟨g, hq, rfl, ?_, hold, ?_⟩
  · rw [hnew]
    show update (p.withManager g m).sch.seqBlockIds g.sequenceId
      (some (p.seqBlocks g ++ new)) g.sequenceId = some (g.sharedBlockIds ++ new)
    rw [update_self, hf.seqBlocks]
  intro _
  rw [hnew]
  refine ⟨hgrant.ne_nil hf htok, ?_⟩
  intro b hb hshared
  exact (hgrant.custody hcust).2 b hb (hl b hshared)

theorem Off.trans {s₁ s₂ s₃ : Scheduler σ} (h₁ : Off s₁ s₂ id) (h₂ : Off s₂ s₃ id) :
    Off s₁ s₃ id where
  config := h₂.config.trans h₁.config
  nextSeqId := h₂.nextSeqId.trans h₁.nextSeqId
  running := fun x hx => (h₂.running x hx).elim (h₁.running x) Or.inr
  swapped := fun x hx => (h₂.swapped x hx).elim (h₁.swapped x) Or.inr
  context := fun x hne => (h₂.context x hne).trans (h₁.context x hne)
  blocks := fun x hne => (h₂.blocks x hne).trans (h₁.blocks x hne)
  allow := fun x hne => (h₂.allow x hne).trans (h₁.allow x hne)

theorem PassInv.schedule {m : BlockManager σ}
    (h : PassInv ok seen held queue p.sch (g :: gs) p.output)
    (hnew : g.sequenceId ∉ p.output.prefillSeqIds) (htok : 0 < tokens)
    (hfits : FitsBudget p.sch g) (hgrant : Granted p g tokens new m) :
    let p' := (p.withManager g m).schedulePrefill g (p.seqBlocks g) new tokens
    PassInv ok seen held queue p'.sch (handedOver g :: gs) p'.output := by
  intro p'
  have hid : g.sequenceId < p.sch.nextSeqId := h.groups g (by simp)
  have hoff : Off p.sch p'.sch g.sequenceId :=
    (withManager_off p g m).trans
      (schedulePrefill_off (p.withManager g m) g (p.seqBlocks g) new tokens)
  have hlisted : PassShape seen queue p'.sch gs p'.output := by
    refine (h.toPassShape.dropHead hoff hnew).list
      (schedulePrefill_lists (p.withManager g m) g (p.seqBlocks g) new tokens) h.ne_head hid hnew ?_
    intro hs
    obtain ⟨hf, hq⟩ := h.fresh g (by simp) hs hnew
    exact hf.firstPrefill hq hgrant htok h.custody (by simp +contextual)
  have hshared : (handedOver g).sharedBlockIds = [] := by
    unfold handedOver
    split
    · rfl
    rename_i hmiss
    by_cases hs : seen g.sequenceId
    · exact (h.started g (by simp) (Or.inl hs)).noShared
    · exact not_not.mp fun hne => hmiss ((h.fresh g (by simp) hs hnew).1.hasHit.mpr hne)
  refine ⟨hlisted.consGroup (by simpa using h.ne_head)
    (by rw [handedOver_sequenceId]; exact hid) ?_ ?_, ?_, ?_⟩
  · intro _ hmem
    exact absurd (by simp [p', WaitingPass.schedulePrefill]) hmem
  · intro _
    refine ⟨hshared, ?_⟩
    unfold FitsBudget
    rw [handedOver_sequenceId, handedOver_numTokensToProcess]
    exact hfits
  · have hperm : (p'.output.carried ++ (sharedOf [handedOver g] ++ (sharedOf gs ++ held))).Perm
        (new ++ (p.output.carried ++ (g.sharedBlockIds ++ (sharedOf gs ++ held)))) :=
      schedulePrefill_carried (p.withManager g m) g (p.seqBlocks g) new tokens _
    exact (hgrant.custody h.custody).1.perm (by simpa [sharedOf] using hperm)
  intro hok g' hg' hne
  rcases mem_cons.mp hg' with rfl | hold
  · exact absurd hshared hne
  · exact h.keeps_off hoff hok g' hold hne

/-! ### The loop

A round hands its group on or puts it back, so a property of the scheduler and all waiting
groups together survives the loop if it survives a round.
-/

/-- **One group**: whatever its outcome, the invariant holds with what goes back to
the queue, and no other sequence is listed. -/
theorem Outcome.inv (hout : Outcome p g p')
    (h : PassInv ok seen held queue p.sch (g :: gs) p.output)
    (hnew : g.sequenceId ∉ p.output.prefillSeqIds) :
    ∃ back, p'.stillWaiting = p.stillWaiting ++ back ∧
      PassInv ok seen held queue p'.sch (back ++ gs) p'.output ∧
      ∀ x ∈ p'.output.prefillSeqIds, x ∈ p.output.prefillSeqIds ∨ x = g.sequenceId := by
  cases hout with
  | kept hs ho hw =>
    refine ⟨[g], hw, ?_, ?_⟩
    · rw [hs, ho]; exact h
    · rw [ho]; exact fun x hx => Or.inl hx
  | recorded _ hs ho hw =>
    refine ⟨[g], hw, ?_, ?_⟩
    · rw [hs, ho]; exact h.record hnew
    · rw [ho]; exact fun x hx => Or.inl hx
  | ran hdone hs ho hw =>
    refine ⟨[], by rw [hw, append_nil], ?_, ?_⟩
    · rw [hs, ho]; exact h.ran hnew hdone
    · rw [ho]; exact fun x hx => Or.inl hx
  | dropped hchunk hlong hs ho hw =>
    refine ⟨[], by rw [hw, append_nil], ?_, ?_⟩
    · rw [hs, ho]; exact h.drop hnew hchunk hlong
    · rw [ho]; exact fun x hx => Or.inl hx
  | scheduled tokens new m hchunk hgrant hp =>
    subst hp
    refine ⟨[handedOver g], rfl, h.schedule hnew hchunk.pos hchunk.fits hgrant, ?_⟩
    intro x hx
    exact (mem_append.mp hx).imp_right fun hx => by simpa using hx

theorem waiting_perm (rest waiting back : List SequenceGroup) :
    (rest ++ (waiting ++ back)).Perm (back ++ (rest ++ waiting)) := by
  rw [← append_assoc]
  exact perm_append_comm

/-- **The loop rule**, for what does not depend on the order of the groups: a property of
the groups to come and those put back holds at the end if each turn keeps it. -/
theorem considerGroups_rule {P : WaitingPass σ → List SequenceGroup → Prop} (queueLen : Nat)
    (choose : Int → AllocChoice) (hperm : ∀ p gs gs', gs'.Perm gs → P p gs → P p gs')
    (hstep : ∀ p g gs, P p (g :: gs) →
      let p' := p.considerGroup queueLen choose g
      ∃ back, p'.stillWaiting = p.stillWaiting ++ back ∧ P p' (back ++ gs))
    (rest : List SequenceGroup) : ∀ p : WaitingPass σ, P p (rest ++ p.stillWaiting) →
      let p' := rest.foldl (WaitingPass.considerGroup queueLen choose) p
      P p' p'.stillWaiting := by
  induction rest with
  | nil => exact fun p h => h
  | cons g rest ih =>
    intro p h
    obtain ⟨back, hback, hnext⟩ := hstep p g _ h
    rw [foldl_cons]
    refine ih _ ?_
    rw [hback]
    exact hperm _ _ _ (waiting_perm rest p.stillWaiting back) hnext

/-- A field that `schedulePrefill` leaves alone is as it was before the loop. -/
theorem considerGroups_output {β : Type} (f : SchedulerOutput → β)
    (hf : ∀ (p : WaitingPass σ) g bs new tokens,
      f (p.schedulePrefill g bs new tokens).output = f p.output)
    (queueLen : Nat) (choose : Int → AllocChoice) (rest : List SequenceGroup) :
    ∀ p : WaitingPass σ,
      f (rest.foldl (WaitingPass.considerGroup queueLen choose) p).output = f p.output := by
  induction rest with
  | nil => exact fun p => rfl
  | cons g rest ih =>
    intro p
    rw [foldl_cons, ih]
    cases considerGroup_outcome queueLen choose p g with
    | kept _ ho _ => rw [ho]
    | recorded _ _ ho _ => rw [ho]
    | ran _ _ ho _ => rw [ho]
    | dropped _ _ _ ho _ => rw [ho]
    | scheduled tokens new m _ _ hp =>
      rw [hp]
      exact hf (p.withManager g m) g (p.seqBlocks g) new tokens

/-- **The whole loop**, from any point of it: the groups still to come have not been
listed by this pass. -/
theorem considerGroups_inv (queueLen : Nat) (choose : Int → AllocChoice)
    (rest : List SequenceGroup) :
    ∀ p : WaitingPass σ, PassInv ok seen held queue p.sch (rest ++ p.stillWaiting) p.output →
      (∀ g ∈ rest, g.sequenceId ∉ p.output.prefillSeqIds) →
      let p' := rest.foldl (WaitingPass.considerGroup queueLen choose) p
      PassInv ok seen held queue p'.sch p'.stillWaiting p'.output := by
  induction rest with
  | nil => intro p h _; exact h
  | cons g rest ih =>
    intro p h hnew
    obtain ⟨back, hback, hinv, hlisted⟩ :=
      (considerGroup_outcome queueLen choose p g).inv h (hnew g (by simp))
    rw [foldl_cons]
    refine ih _ ?_ ?_
    · rw [hback]
      exact hinv.perm (waiting_perm rest p.stillWaiting back)
    intro g' hg' hmem
    have hne : g'.sequenceId ≠ g.sequenceId :=
      h.ne_head g' (mem_append_left _ hg')
    rcases hlisted _ hmem with hold | heq
    · exact hnew g' (mem_cons_of_mem _ hg') hold
    · exact hne heq

theorem sort_perm {α : Type} (a : Arrangement) (lt : α → α → Bool) (l : List α) :
    (a.sort lt l).Perm l :=
  (perm_insertionSort _ _).trans (a.perm l)

theorem pickClustered_mem (active : List Int) (first : SequenceGroup) (rest : List SequenceGroup) :
    pickClustered active first (first :: rest) ∈ first :: rest := by
  unfold pickClustered
  -- The fold returns the value it started from or an element it has seen.
  suffices h : ∀ (l : List SequenceGroup) (best : SequenceGroup × ExpertFit),
      (l.foldl (fun (best : SequenceGroup × ExpertFit) group =>
        if (group.fit active).betterThan active best.2 then (group, group.fit active)
        else best) best).1 ∈ best.1 :: l by
    rcases mem_cons.mp (h (first :: rest) _) with heq | hmem
    · rw [heq]; exact mem_cons_self
    · exact hmem
  intro l
  induction l with
  | nil => intro best; simp
  | cons g l ih =>
    intro best
    rw [foldl_cons]
    split
    · exact mem_cons_of_mem _ (ih _)
    rcases mem_cons.mp (ih best) with heq | hmem
    · rw [heq]; simp
    · exact mem_cons_of_mem _ (mem_cons_of_mem _ hmem)

theorem clusterPending_perm : ∀ (n : Nat) (active : List Int) (pending : List SequenceGroup),
    (clusterPending n active pending).Perm pending := by
  intro n
  induction n with
  | zero => intro active pending; exact Perm.refl _
  | succ n ih =>
    intro active pending
    cases pending with
    | nil => exact Perm.refl _
    | cons first rest =>
      unfold clusterPending
      have hmem := pickClustered_mem active first rest
      exact ((ih _ _).cons _).trans (perm_cons_erase hmem).symm

theorem sortedQueue_perm (s : Scheduler σ) (a : Arrangement) :
    (s.sortedQueue a).Perm s.waitingQueue := by
  unfold sortedQueue
  dsimp only
  split
  · exact (clusterPending_perm _ _ _).trans (sort_perm a _ _)
  · exact sort_perm a _ _

/-- The pass over the waiting groups before the first of them. -/
abbrev passStart (s : Scheduler σ) (o : SchedulerOutput) (cap : Int) : WaitingPass σ :=
  { sch := s
    output := o
    tokensBudget := s.config.maxNumBatchedTokens - o.totalTokens
    prefillTokenCap := cap
    targetContextLen := o.batchContextLen }

/-- **The pass over the waiting queue keeps the invariant**, as long as the output
has listed no prefill before it. -/
theorem scheduleWaiting_inv (h : PassInv ok seen held queue s s.waitingQueue o)
    (hempty : o.prefillSeqIds = []) (choice : ScheduleChoice) (choose : Int → AllocChoice)
    (cap : Int) :
    let r := s.scheduleWaiting choice choose o cap
    PassInv ok seen held queue r.1 r.1.waitingQueue r.2 := by
  have hloop := considerGroups_inv (s.sortedQueue choice.arrangement).length choose
    (s.sortedQueue choice.arrangement) (passStart s o cap)
    (by rw [append_nil]; exact h.perm (sortedQueue_perm s _))
    (by rw [hempty]; simp)
  unfold scheduleWaiting
  dsimp only [passStart] at hloop ⊢
  generalize List.foldl _ _ _ = q at hloop ⊢
  have hqueue : PassInv ok seen held queue { q.sch with waitingQueue := q.stillWaiting }
      q.stillWaiting q.output := hloop.of_same rfl rfl rfl rfl rfl rfl rfl rfl
  split
  · exact hqueue.of_output rfl (fun _ hid => Or.inl hid) rfl rfl rfl
  · exact hqueue

end Scheduler

end DenseCore
