/-
What one call of `Schedule` lists.

The output is filled by up to three passes that share one budget and one set of
slots.  `Tally` are the sums and bounds the output keeps by itself.  `Listing` ties
it to the scheduler: who is decoded runs, who is prefilled waits and has a chunk of
what the queue had left for it, on blocks that reach to the end of the chunk.
-/
import DenseCore.Proofs.Runtime.MachinePasses

namespace DenseCore.Scheduler

open List

variable {σ : Type} {s₀ s s' : Scheduler σ} {gs gs' : List SequenceGroup} {g : SequenceGroup}
  {o o' : SchedulerOutput} {p p' : WaitingPass σ}

/-! ### The two invariants -/

/-- The sums an output keeps, within the limits of the configuration. -/
structure Tally (config : SchedulerConfig) (o : SchedulerOutput) : Prop where
  chunkIds : o.prefillChunkInfo.map (·.seqId) = o.prefillSeqIds
  prefillTokens : o.numPrefillTokens = (o.prefillChunkInfo.map (·.chunkTokens)).sum
  decodeTokens : o.numDecodeTokens = o.decodeSeqIds.length
  total : o.totalTokens = o.numPrefillTokens + o.numDecodeTokens
  budget : o.totalTokens ≤ max 0 config.maxNumBatchedTokens
  slots : o.scheduledSeqCount ≤ asSize config.maxNumSeqs
  prefillSlots : o.prefillSeqIds.length ≤ asSize (max 1 config.maxPrefillSeqs)

/-- The groups still come from the queue the call began with, `s₀` being the
scheduler at that time, and what a chunk is computed from is unchanged. -/
structure SameQueue (s₀ s : Scheduler σ) (gs : List SequenceGroup) : Prop where
  config : s.config = s₀.config
  origin : ∀ g ∈ gs, ∃ q ∈ s₀.waitingQueue, q.sequenceId = g.sequenceId ∧
    q.numTokensToProcess = g.numTokensToProcess
  context : ∀ g ∈ gs, s.seqContextLen g.sequenceId = s₀.seqContextLen g.sequenceId
  allow : ∀ g ∈ gs, s.seqAllowChunkedPrefill g.sequenceId = s₀.seqAllowChunkedPrefill g.sequenceId

/-- A listed chunk: part of what is left, or all of it, on enough blocks. -/
structure ChunkFits (s₀ s : Scheduler σ) (g : SequenceGroup) (c : PrefillChunkInfo) : Prop where
  pos : 1 ≤ c.chunkTokens
  le_remaining : c.chunkTokens ≤ g.numTokensToProcess
  whole : s₀.canChunk g.sequenceId = false → c.chunkTokens = g.numTokensToProcess
  covered : ∃ blocks, s.seqBlockIds g.sequenceId = some blocks ∧
    s₀.getSequenceContextLen g.sequenceId + c.chunkTokens ≤ blockSlots * blocks.length

/-- What the lists of an output say of the scheduler and of the groups it looked at. -/
structure Listing (s₀ s : Scheduler σ) (gs : List SequenceGroup) (o : SchedulerOutput) : Prop
    extends SameQueue s₀ s gs where
  prefillNodup : o.prefillSeqIds.Nodup
  decodeNodup : o.decodeSeqIds.Nodup
  decodes : ∀ id ∈ o.decodeSeqIds, id ∈ s.runningSeqs
  chunks : ∀ c ∈ o.prefillChunkInfo, ∃ g ∈ gs, g.sequenceId = c.seqId ∧ ChunkFits s₀ s g c

theorem asSize_le {n : Int} (h : 0 ≤ n) : (asSize n : Int) ≤ n := by
  unfold asSize
  omega

theorem Tally.empty (config : SchedulerConfig) : Tally config {} where
  chunkIds := rfl
  prefillTokens := rfl
  decodeTokens := rfl
  total := rfl
  budget := le_max_left _ _
  slots := Nat.zero_le _
  prefillSlots := Nat.zero_le _

/-! ### A group of the queue -/

theorem SameQueue.perm (h : SameQueue s₀ s gs) (hp : gs'.Perm gs) : SameQueue s₀ s gs' where
  config := h.config
  origin := fun g hg => h.origin g (hp.mem_iff.mp hg)
  context := fun g hg => h.context g (hp.mem_iff.mp hg)
  allow := fun g hg => h.allow g (hp.mem_iff.mp hg)

theorem Listing.perm (h : Listing s₀ s gs o) (hp : gs'.Perm gs) : Listing s₀ s gs' o :=
  { h with
    toSameQueue := h.toSameQueue.perm hp
    chunks := fun c hc => by
      obtain ⟨g, hg, hid, hfits⟩ := h.chunks c hc
      exact ⟨g, hp.mem_iff.mpr hg, hid, hfits⟩ }

theorem Listing.dropHead (h : Listing s₀ s (g :: gs) o) (hm : Machine s (g :: gs))
    (ht : Tally s₀.config o) (hoff : Off s s' g.sequenceId)
    (hnew : g.sequenceId ∉ o.prefillSeqIds)
    (hrun : ∀ x, x ≠ g.sequenceId → x ∈ s.runningSeqs → x ∈ s'.runningSeqs) :
    Listing s₀ s' gs o := by
  have hne : ∀ g' ∈ gs, g'.sequenceId ≠ g.sequenceId := by
    intro g' hg' heq
    exact hm.head_notMem (heq ▸ mem_map_of_mem hg')
  refine ⟨⟨hoff.config.trans h.config, ?_, ?_, ?_⟩, h.prefillNodup, h.decodeNodup, ?_, ?_⟩
  · intro g' hg'
    exact h.origin g' (mem_cons_of_mem _ hg')
  · intro g' hg'
    rw [hoff.context _ (hne g' hg')]
    exact h.context g' (mem_cons_of_mem _ hg')
  · intro g' hg'
    rw [hoff.allow _ (hne g' hg')]
    exact h.allow g' (mem_cons_of_mem _ hg')
  · intro id hid
    refine hrun id ?_ (h.decodes id hid)
    rintro rfl
    exact hm.waitingNotRunning _ (by simp) (h.decodes _ hid)
  intro c hc
  obtain ⟨g', hg', hid, hfits⟩ := h.chunks c hc
  have hlisted : c.seqId ∈ o.prefillSeqIds := by
    rw [← ht.chunkIds]
    exact mem_map_of_mem hc
  have hne' : g'.sequenceId ≠ g.sequenceId := by
    intro heq
    exact hnew (heq ▸ hid ▸ hlisted)
  have hmem : g' ∈ gs := by
    rcases mem_cons.mp hg' with rfl | hold
    · exact absurd rfl hne'
    · exact hold
  refine ⟨g', hmem, hid, { hfits with covered := ?_ }⟩
  rw [hoff.blocks _ hne']
  exact hfits.covered

theorem Listing.consGroup {b : SequenceGroup} (h : Listing s₀ s gs o)
    (hq : SameQueue s₀ s' (g :: gs')) (hid : b.sequenceId = g.sequenceId)
    (htok : b.numTokensToProcess = g.numTokensToProcess)
    (hctx : s.seqContextLen g.sequenceId = s'.seqContextLen g.sequenceId)
    (hallow : s.seqAllowChunkedPrefill g.sequenceId = s'.seqAllowChunkedPrefill g.sequenceId) :
    Listing s₀ s (b :: gs) o := by
  have hhead : g ∈ g :: gs' := mem_cons_self
  refine { h with toSameQueue := ⟨h.config, ?_, ?_, ?_⟩, chunks := ?_ }
  · intro g' hg'
    rcases mem_cons.mp hg' with rfl | hold
    · rw [hid, htok]; exact hq.origin g hhead
    · exact h.origin g' hold
  · intro g' hg'
    rcases mem_cons.mp hg' with rfl | hold
    · rw [hid, hctx]; exact hq.context g hhead
    · exact h.context g' hold
  · intro g' hg'
    rcases mem_cons.mp hg' with rfl | hold
    · rw [hid, hallow]; exact hq.allow g hhead
    · exact h.allow g' hold
  intro c hc
  obtain ⟨g', hg', hrest⟩ := h.chunks c hc
  exact ⟨g', mem_cons_of_mem _ hg', hrest⟩

theorem blocksNeeded_covers (n : Int) : n ≤ blockSlots * blocksNeeded n := by
  unfold blocksNeeded blockSlots
  rcases Int.le_total 0 (n + (16 : Nat) - 1) with hpos | hneg
  · rw [Int.tdiv_eq_ediv_of_nonneg hpos]
    omega
  have hflip : (n + (16 : Nat) - 1).tdiv (16 : Nat) = -((-(n + (16 : Nat) - 1)).tdiv (16 : Nat)) := by
    rw [Int.neg_tdiv, Int.neg_neg]
  rw [hflip, Int.tdiv_eq_ediv_of_nonneg (by omega)]
  omega

variable {tokens : Int} {new : List Int} {config : SchedulerConfig}

theorem Granted.covers {m : BlockManager σ} (hg : Granted p g tokens new m) :
    p.sch.getSequenceContextLen g.sequenceId + tokens ≤
      blockSlots * (p.seqBlocks g ++ new).length := by
  have hcover := blocksNeeded_covers (p.sch.getSequenceContextLen g.sequenceId + tokens)
  rw [length_append]
  cases hg with
  | covered h =>
    unfold WaitingPass.blocksToAllocate at h
    unfold blockSlots at *
    simp only [length_nil]
    omega
  | allocated c hpos hfree =>
    obtain ⟨hlen, -⟩ := p.sch.blockManager.allocate_of_free c hpos hfree
    unfold blockSlots at *
    push_cast
    rw [hlen]
    unfold WaitingPass.blocksToAllocate at hpos ⊢
    omega

theorem Listing.schedule {m : BlockManager σ}
    (h : Listing s₀ p.sch (g :: gs) p.output) (hm : Machine p.sch (g :: gs))
    (ht : Tally s₀.config p.output) (hnew : g.sequenceId ∉ p.output.prefillSeqIds)
    (hchunk : Chunk p g tokens) (hgrant : Granted p g tokens new m) :
    let p' := (p.withManager g m).schedulePrefill g (p.seqBlocks g) new tokens
    Listing s₀ p'.sch (handedOver g :: gs) p'.output := by
  intro p'
  have hoff : Off p.sch p'.sch g.sequenceId :=
    (withManager_off p g m).trans
      (schedulePrefill_off (p.withManager g m) g (p.seqBlocks g) new tokens)
  have hrest := (h.dropHead hm ht hoff hnew fun _ _ hx => hx).consGroup h.toSameQueue
    (handedOver_sequenceId g) (handedOver_numTokensToProcess g) rfl rfl
  have hcan : s₀.canChunk g.sequenceId = p.sch.canChunk g.sequenceId := by
    unfold canChunk
    rw [h.config, h.allow g (by simp)]
  have hctx : s₀.getSequenceContextLen g.sequenceId = p.sch.getSequenceContextLen g.sequenceId := by
    unfold getSequenceContextLen
    rw [h.context g (by simp)]
  refine { hrest with prefillNodup := ?_, chunks := ?_ }
  · show (p.output.prefillSeqIds ++ [g.sequenceId]).Nodup
    rw [nodup_append]
    refine ⟨h.prefillNodup, nodup_singleton _, ?_⟩
    intro x hx y hy heq
    obtain rfl : y = g.sequenceId := by simpa using hy
    exact hnew (heq ▸ hx)
  intro c hc
  rcases mem_append.mp hc with hold | hlast
  · exact hrest.chunks c hold
  obtain rfl : c = ⟨g.sequenceId, tokens⟩ := by simpa using hlast
  refine ⟨handedOver g, by simp, handedOver_sequenceId g, ?_⟩
  refine ⟨hchunk.pos, ?_, ?_, ?_⟩
  · rw [handedOver_numTokensToProcess]; exact hchunk.le_remaining
  · rw [handedOver_sequenceId, handedOver_numTokensToProcess, hcan]; exact hchunk.whole
  rw [handedOver_sequenceId, hctx]
  exact ⟨p.seqBlocks g ++ new, Function.update_self _ _ _, hgrant.covers⟩

theorem Tally.schedule {m : BlockManager σ}
    (h : Tally config p.output) (hconfig : p.sch.config = config) (hchunk : Chunk p g tokens)
    (hbudget : p.tokensBudget + p.output.totalTokens = config.maxNumBatchedTokens)
    (bs new : List Int) :
    Tally config ((p.withManager g m).schedulePrefill g bs new tokens).output := by
  have hslot := hchunk.slot
  have hprefill := hchunk.prefillSlot
  have hle := hchunk.le_budget
  rw [hconfig] at hslot hprefill
  refine ⟨?_, ?_, h.decodeTokens, ?_, ?_, ?_, ?_⟩
  · show (p.output.prefillChunkInfo ++ [(⟨g.sequenceId, tokens⟩ : PrefillChunkInfo)]).map
      PrefillChunkInfo.seqId = p.output.prefillSeqIds ++ [g.sequenceId]
    rw [map_append, h.chunkIds]
    rfl
  · show p.output.numPrefillTokens + tokens =
      ((p.output.prefillChunkInfo ++ [(⟨g.sequenceId, tokens⟩ : PrefillChunkInfo)]).map
        PrefillChunkInfo.chunkTokens).sum
    rw [map_append, sum_append, ← h.prefillTokens]
    simp
  · show p.output.totalTokens + tokens =
      p.output.numPrefillTokens + tokens + p.output.numDecodeTokens
    have := h.total
    omega
  · show p.output.totalTokens + tokens ≤ max 0 config.maxNumBatchedTokens
    omega
  · show (p.output.prefillSeqIds ++ [g.sequenceId]).length + p.output.decodeSeqIds.length ≤ _
    unfold SchedulerOutput.scheduledSeqCount at hslot
    rw [length_append, length_singleton]
    omega
  show (p.output.prefillSeqIds ++ [g.sequenceId]).length ≤ _
  rw [length_append, length_singleton]
  omega

/-! ### The budget of the loop -/

namespace WaitingPass

/-- What is left of the budget and what the output has of it. -/
def spendable (p : WaitingPass σ) : Int := p.tokensBudget + p.output.totalTokens

variable (p : WaitingPass σ) (g : SequenceGroup)

@[simp] theorem spendable_block (r : SchedulerEmptyReason) :
    (p.block r g).spendable = p.spendable := by
  unfold block
  split <;> rfl

@[simp] theorem spendable_reject (u : SchedulerUnschedulableReason) :
    (p.reject u g).spendable = p.spendable := by
  unfold reject
  split <;> rfl

@[simp] theorem spendable_schedulePrefill (bs new : List Int) (tokens : Int) :
    (p.schedulePrefill g bs new tokens).spendable = p.spendable := by
  show p.tokensBudget - tokens + (p.output.totalTokens + tokens) = p.spendable
  unfold spendable
  omega

theorem admitGroup_spendable (choose : Int → AllocChoice) (tokens : Int) :
    (p.admitGroup choose g tokens).spendable = p.spendable := by
  have hadmitted := admitGroup_admitted choose p g tokens
  generalize p.admitGroup choose g tokens = p' at hadmitted ⊢
  cases hadmitted with
  | exceeds => exact spendable_reject _ g _
  | blocked => exact spendable_block (p.recordBlocks g) g _
  | scheduled new m _ => exact spendable_schedulePrefill (p.withManager g m) g _ new tokens

/-- The budget falls by what the output gains. -/
theorem considerGroup_spendable (queueLen : Nat) (choose : Int → AllocChoice) :
    (p.considerGroup queueLen choose g).spendable = p.spendable := by
  have hconsidered := considerGroup_considered queueLen choose p g
  generalize p.considerGroup queueLen choose g = p' at hconsidered ⊢
  cases hconsidered with
  | blocked r _ => exact spendable_block p g r
  | ran => rfl
  | dropped => exact spendable_reject p g _
  | admitted => exact admitGroup_spendable p g choose _

end WaitingPass

/-! ### The loop -/

/-- What the loop has listed so far, with the budget that is left of it. -/
structure PassListing (s₀ : Scheduler σ) (p : WaitingPass σ) (gs : List SequenceGroup) : Prop where
  machine : Machine p.sch gs
  listing : Listing s₀ p.sch gs p.output
  tally : Tally s₀.config p.output
  budget : p.spendable = s₀.config.maxNumBatchedTokens

/-- **One group**: the listing holds with what goes back to the queue, and no other
sequence is listed. -/
theorem Outcome.listing (hout : Outcome p g p') (h : PassListing s₀ p (g :: gs))
    (hnew : g.sequenceId ∉ p.output.prefillSeqIds) :
    ∃ back, p'.stillWaiting = p.stillWaiting ++ back ∧ Machine p'.sch (back ++ gs) ∧
      Listing s₀ p'.sch (back ++ gs) p'.output ∧ Tally s₀.config p'.output ∧
      ∀ x ∈ p'.output.prefillSeqIds, x ∈ p.output.prefillSeqIds ∨ x = g.sequenceId := by
  obtain ⟨back, hback, hmoved, -⟩ := hout.moved h.machine
  refine ⟨back, hback, h.machine.move hmoved, ?_⟩
  cases hout with
  | kept hs ho hw =>
    obtain rfl : back = [g] := append_cancel_left (hback.symm.trans hw)
    rw [hs, ho]
    exact ⟨h.listing, h.tally, fun x hx => Or.inl hx⟩
  | recorded _ hs ho hw =>
    obtain rfl : back = [g] := append_cancel_left (hback.symm.trans hw)
    rw [hs, ho]
    refine ⟨?_, h.tally, fun x hx => Or.inl hx⟩
    exact (h.listing.dropHead h.machine h.tally (withManager_off p g p.sch.blockManager) hnew
      fun _ _ hx => hx).consGroup h.listing.toSameQueue rfl rfl rfl rfl
  | ran hdone hs ho hw =>
    obtain rfl : back = [] := by simpa using hback.symm.trans hw
    rw [hs, ho]
    refine ⟨?_, h.tally, fun x hx => Or.inl hx⟩
    exact h.listing.dropHead h.machine h.tally (markRunning_off _ _) hnew
      fun x _ hx => mem_insert_of_mem hx
  | dropped hchunk hlong hs ho hw =>
    obtain rfl : back = [] := by simpa using hback.symm.trans hw
    rw [hs, ho]
    refine ⟨?_, h.tally, fun x hx => Or.inl hx⟩
    have hstatus : Off p.sch (p.sch.setStatus g.sequenceId .cancelled) g.sequenceId :=
      ⟨rfl, rfl, fun _ hx => Or.inl hx, fun _ hx => Or.inl hx, fun _ _ => rfl, fun _ _ => rfl,
        fun _ _ => rfl⟩
    refine h.listing.dropHead h.machine h.tally
      (hstatus.trans (cleanupSequenceState_off _ _ _ _)) hnew ?_
    intro x hne hx
    exact mem_filter.mpr ⟨hx, by simpa using hne⟩
  | scheduled tokens new m hchunk hgrant hp =>
    subst hp
    obtain rfl : back = [handedOver g] := append_cancel_left hback.symm
    refine ⟨h.listing.schedule h.machine h.tally hnew hchunk hgrant,
      h.tally.schedule h.listing.config hchunk h.budget _ _, ?_⟩
    intro x hx
    exact (mem_append.mp hx).imp_right fun hx => by simpa using hx

theorem PassListing.turn (h : PassListing s₀ p (g :: rest ++ p.stillWaiting))
    (hnew : ∀ g' ∈ g :: rest, g'.sequenceId ∉ p.output.prefillSeqIds) (queueLen : Nat)
    (choose : Int → AllocChoice) :
    let p' := p.considerGroup queueLen choose g
    PassListing s₀ p' (rest ++ p'.stillWaiting) ∧
      ∀ g' ∈ rest, g'.sequenceId ∉ p'.output.prefillSeqIds := by
  obtain ⟨back, hback, hmachine, hlisting, htally, hlisted⟩ :=
    (considerGroup_outcome queueLen choose p g).listing h (hnew g (by simp))
  have hperm := waiting_perm rest p.stillWaiting back
  refine ⟨⟨?_, ?_, htally, ?_⟩, ?_⟩
  · rw [hback]; exact hmachine.perm hperm
  · rw [hback]; exact hlisting.perm hperm
  · rw [WaitingPass.considerGroup_spendable]; exact h.budget
  intro g' hg' hmem
  rcases hlisted _ hmem with hold | heq
  · exact hnew g' (mem_cons_of_mem _ hg') hold
  · exact h.machine.head_notMem (heq ▸ mem_map_of_mem (mem_append_left _ hg'))

theorem considerGroups_listing (queueLen : Nat) (choose : Int → AllocChoice)
    (rest : List SequenceGroup) :
    ∀ p : WaitingPass σ, PassListing s₀ p (rest ++ p.stillWaiting) →
      (∀ g ∈ rest, g.sequenceId ∉ p.output.prefillSeqIds) →
      let p' := rest.foldl (WaitingPass.considerGroup queueLen choose) p
      PassListing s₀ p' p'.stillWaiting := by
  induction rest with
  | nil => intro p h _; exact h
  | cons g rest ih =>
    intro p h hnew
    obtain ⟨hnext, hunlisted⟩ := h.turn hnew queueLen choose
    exact ih _ hnext hunlisted

/-! ### The passes -/

/-- What holds between two passes. -/
structure Listed (s₀ s : Scheduler σ) (o : SchedulerOutput) : Prop where
  machine : Machine s s.waitingQueue
  listing : Listing s₀ s s.waitingQueue o
  tally : Tally s₀.config o

theorem scheduleWaiting_listed (h : Listed s₀ s o) (hempty : o.prefillSeqIds = [])
    (choice : ScheduleChoice) (choose : Int → AllocChoice) (cap : Int) :
    Listed s₀ (s.scheduleWaiting choice choose o cap).1
      (s.scheduleWaiting choice choose o cap).2 := by
  have hperm := sortedQueue_perm s choice.arrangement
  have hstart : PassListing s₀ (passStart s o cap) (s.sortedQueue choice.arrangement ++ []) := by
    rw [append_nil]
    refine ⟨h.machine.perm hperm, h.listing.perm hperm, h.tally, ?_⟩
    show s.config.maxNumBatchedTokens - o.totalTokens + o.totalTokens = _
    rw [h.listing.config]
    omega
  have hloop := considerGroups_listing (s.sortedQueue choice.arrangement).length choose _ _ hstart
    (by rw [hempty]; simp)
  unfold scheduleWaiting
  dsimp only [passStart] at hloop ⊢
  generalize List.foldl _ _ _ = q at hloop ⊢
  obtain ⟨hmachine, hlisting, htally, -⟩ := hloop
  have hmachine' : Machine { q.sch with waitingQueue := q.stillWaiting } q.stillWaiting := by
    refine hmachine.of_same ?_ rfl rfl rfl
    exact fun _ => ⟨rfl, rfl, rfl, rfl⟩
  have hchunks : ∀ c ∈ q.output.prefillChunkInfo, ∃ g ∈ q.stillWaiting, g.sequenceId = c.seqId ∧
      ChunkFits s₀ { q.sch with waitingQueue := q.stillWaiting } g c := by
    intro c hc
    obtain ⟨g, hg, hid, hfits⟩ := hlisting.chunks c hc
    exact ⟨g, hg, hid, { hfits with }⟩
  split
  · exact ⟨hmachine', { hlisting with chunks := hchunks }, { htally with }⟩
  · exact ⟨hmachine', { hlisting with chunks := hchunks }, htally⟩

theorem Tally.chunks_nil (h : Tally config o)
    (hempty : o.prefillSeqIds = []) : o.prefillChunkInfo = [] := by
  have hids := h.chunkIds
  rw [hempty] at hids
  exact map_eq_nil_iff.mp hids

theorem Listing.unlisted (h : SameQueue s₀ s gs) (hempty : Unlisted o)
    (hchunks : o.prefillChunkInfo = []) : Listing s₀ s gs o where
  toSameQueue := h
  prefillNodup := by rw [hempty.1]; exact nodup_nil
  decodeNodup := by rw [hempty.2]; exact nodup_nil
  decodes := by rw [hempty.2]; simp
  chunks := by rw [hchunks]; simp

theorem SameQueue.of_same (h : SameQueue s₀ s gs) (hc : s'.config = s.config)
    (hctx : s'.seqContextLen = s.seqContextLen)
    (ha : s'.seqAllowChunkedPrefill = s.seqAllowChunkedPrefill) : SameQueue s₀ s' gs where
  config := hc.trans h.config
  origin := h.origin
  context := by rw [hctx]; exact h.context
  allow := by rw [ha]; exact h.allow

theorem preemptSequences_listed (h : Listed s₀ s o) (hempty : Unlisted o)
    (choice : ScheduleChoice) :
    Listed s₀ (s.preemptSequences choice o).1 (s.preemptSequences choice o).2 := by
  have hkept : Kept (fun _ => False) s := ⟨h.machine, fun _ hx => hx.elim⟩
  have hmachine := (preemptSequences_kept hkept choice (o := o)).1
  obtain ⟨running, swapped, status, blocks, ids, heq⟩ := preemptSequences_spec s choice o
  rw [heq] at hmachine ⊢
  refine ⟨hmachine, ?_, { h.tally with }⟩
  exact .unlisted (h.listing.toSameQueue.of_same rfl rfl rfl) hempty (h.tally.chunks_nil hempty.1)

theorem scheduleSwapped_listed (h : Listed s₀ s o) (hempty : Unlisted o) (choice : ScheduleChoice) :
    Listed s₀ (s.scheduleSwapped choice o).1 (s.scheduleSwapped choice o).2 := by
  have hkept : Kept (fun _ => False) s := ⟨h.machine, fun _ hx => hx.elim⟩
  have hmachine := (scheduleSwapped_kept hkept choice (o := o)).1
  obtain ⟨m, running, swapped, status, blocks, ids, allocations, heq⟩ :=
    scheduleSwapped_spec s choice o
  rw [heq] at hmachine ⊢
  refine ⟨hmachine, ?_, { h.tally with }⟩
  exact .unlisted (h.listing.toSameQueue.of_same rfl rfl rfl) hempty (h.tally.chunks_nil hempty.1)

theorem scheduleRunning_listed (h : Listed s₀ s o) (hempty : Unlisted o)
    (choice : ScheduleChoice) : Listed s₀ s (s.scheduleRunning choice o) := by
  obtain ⟨ids, context, reason, hout, hsub, hbound⟩ := scheduleRunning_spec s choice o
  rw [hout]
  refine ⟨h.machine, ?_, ?_⟩
  · refine { h.listing with decodeNodup := ?_, decodes := ?_ }
    · show (o.decodeSeqIds ++ ids).Nodup
      rw [hempty.2, nil_append]
      obtain ⟨l, hperm, hsublist⟩ := hsub
      exact hperm.nodup_iff.mp (h.machine.runningNodup.sublist hsublist)
    intro id hid
    rcases mem_append.mp hid with hold | hnew
    · exact h.listing.decodes id hold
    · exact hsub.subset hnew
  rw [h.listing.config] at hbound
  refine { h.tally with decodeTokens := ?_, total := ?_, budget := ?_, slots := ?_ }
  · show o.numDecodeTokens + ids.length = ((o.decodeSeqIds ++ ids).length : Int)
    rw [h.tally.decodeTokens, length_append]
    push_cast
    rfl
  · show o.totalTokens + ids.length = o.numPrefillTokens + (o.numDecodeTokens + ids.length)
    have := h.tally.total
    omega
  · show o.totalTokens + ids.length ≤ max 0 s₀.config.maxNumBatchedTokens
    by_cases hnil : ids = []
    · subst hnil
      simpa using h.tally.budget
    obtain ⟨hle, -⟩ := hbound hnil
    omega
  show o.prefillSeqIds.length + (o.decodeSeqIds ++ ids).length ≤ _
  rw [length_append]
  by_cases hnil : ids = []
  · subst hnil
    exact h.tally.slots
  obtain ⟨-, hle⟩ := hbound hnil
  unfold SchedulerOutput.scheduledSeqCount at hle
  omega

/-- **One call**: what it lists, and the sums and bounds of the list. -/
theorem schedule_listed (h : Machine s s.waitingQueue) (choice : ScheduleChoice) :
    Listed s (s.schedule choice).1 (s.schedule choice).2 := by
  have hP : Phases choice fun (s' : Scheduler σ) o => Listed s s' o :=
    { notes := by
        intro s' o e u n h
        refine ⟨h.machine.of_same ?_ rfl rfl rfl, ?_, h.tally⟩
        · exact fun _ => ⟨rfl, rfl, rfl, rfl⟩
        refine { h.listing with chunks := ?_ }
        intro c hc
        obtain ⟨g, hg, hid, hfits⟩ := h.listing.chunks c hc
        exact ⟨g, hg, hid, { hfits with }⟩
      bucket := fun _ _ _ h => ⟨h.machine, { h.listing with }, { h.tally with }⟩
      preempt := fun _ h => preemptSequences_listed h ⟨rfl, rfl⟩ choice
      swapIn := fun _ _ h hempty => scheduleSwapped_listed h hempty choice
      decode := fun _ _ h hempty => scheduleRunning_listed h hempty choice
      prefill := fun _ _ choose cap h hempty => scheduleWaiting_listed h hempty choice choose cap }
  refine hP.schedule ⟨h, ?_, Tally.empty _⟩
  refine .unlisted ⟨rfl, ?_, fun _ _ => rfl, fun _ _ => rfl⟩ ⟨rfl, rfl⟩ rfl
  exact fun g hg => ⟨g, hg, rfl, rfl⟩

end DenseCore.Scheduler
