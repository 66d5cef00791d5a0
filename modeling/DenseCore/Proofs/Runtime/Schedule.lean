/-
What one call of `Schedule` keeps.

Preemption and swap-in touch sequences that run or are swapped out, and the decode
pass only reads; a fresh group is none of these, so the invariant of the waiting
pass survives them.  A call may walk the queue twice, but the second walk happens
only when the first has scheduled nothing, which is what the pass asks for.
-/
import DenseCore.Proofs.Runtime.WaitingPass

namespace DenseCore

open List hiding not_le

open BlockManager

namespace Scheduler

variable {σ : Type} {ok : Prop} {seen : Int → Prop} {held : List Int} {queue : List SequenceGroup}
  {s s' : Scheduler σ} {gs : List SequenceGroup} {o : SchedulerOutput}

/-- An id that belongs to no fresh group. -/
def NotFresh (seen : Int → Prop) (gs : List SequenceGroup) (o : SchedulerOutput) (id : Int) : Prop :=
  ∀ g ∈ gs, ¬ seen g.sequenceId → g.sequenceId ∉ o.prefillSeqIds → g.sequenceId ≠ id

variable {id : Int} {now : Nat}

theorem PassInv.notFresh_of_running (h : PassInv ok seen held queue s gs o)
    (hid : id ∈ s.runningSeqs) : NotFresh seen gs o id := by
  intro g hg hs ho heq
  exact (h.fresh g hg hs ho).1.notRunning (heq ▸ hid)

theorem PassInv.notFresh_of_swapped (h : PassInv ok seen held queue s gs o)
    (hid : id ∈ s.swappedSeqs) : NotFresh seen gs o id := by
  intro g hg hs ho heq
  exact (h.fresh g hg hs ho).1.notSwapped (heq ▸ hid)

theorem PassInv.touch {o' : SchedulerOutput} (h : PassInv ok seen held queue s gs o)
    (hempty : o.prefillSeqIds = []) (hoff : Off s s' id)
    (hallow : s'.seqAllowChunkedPrefill = s.seqAllowChunkedPrefill)
    (hid : id < s.nextSeqId) (hnot : NotFresh seen gs o id)
    (hp : o'.prefillSeqIds = o.prefillSeqIds) (hd : o'.decodeSeqIds = o.decodeSeqIds)
    (hf : o'.freedBlocks = o.freedBlocks) (hh : o'.prefixCacheHits = o.prefixCacheHits)
    (ha : ∀ x, x ≠ id → o'.allocatedTo x = o.allocatedTo x)
    (hcust : CustodyUpTo ok s'.blockManager (o'.carried ++ (sharedOf gs ++ held))) :
    PassInv ok seen held queue s' gs o' := by
  have hcached : ∀ x, o'.cachedFor x = o.cachedFor x := by
    intro x; unfold SchedulerOutput.cachedFor; rw [hh]
  refine ⟨⟨h.nodup, h.bounded.off hoff hid, ?_, ?_, ?_, ?_, ?_, ?_, hf.trans h.freed⟩, hcust, ?_⟩
  · rw [hoff.nextSeqId]; exact h.groups
  · rw [hp, hoff.nextSeqId]; exact h.prefills
  · rw [hd, hoff.nextSeqId]; exact h.decodes
  · intro g hg hs ho
    rw [hp] at ho
    have hne := hnot g hg hs ho
    obtain ⟨hfr, hq⟩ := h.fresh g hg hs ho
    exact ⟨{ hfr.off hoff hne with
      notDecoded := by rw [hd]; exact hfr.notDecoded
      noAllocation := by rw [ha _ hne]; exact hfr.noAllocation
      noHit := (hcached _).trans hfr.noHit }, hq⟩
  · intro g hg hs
    rw [hp] at hs
    have hst := h.started g hg hs
    refine ⟨hst.noShared, ?_⟩
    unfold FitsBudget canChunk
    rw [hallow, hoff.config]
    exact hst.fits
  · intro x hx
    rw [hp, hempty] at hx
    cases hx
  intro hok g hg hshared
  unfold FitsBudget canChunk
  rw [hallow, hoff.config]
  exact h.keeps hok g hg hshared

/-! ### Preemption -/

theorem considerVictim_mem (s : Scheduler σ) (now : Nat) (l : List Int) : ∀ best : PreemptionVictim,
      (l.foldl (s.considerVictim now) best).victim = best.victim ∨
        (l.foldl (s.considerVictim now) best).victim ∈ l := by
  induction l with
  | nil => intro best; exact Or.inl rfl
  | cons id rest ih =>
    intro best
    rw [foldl_cons]
    rcases ih (s.considerVictim now best id) with heq | hmem
    · have hone : (s.considerVictim now best id).victim = best.victim ∨
          (s.considerVictim now best id).victim = id := by
        unfold considerVictim
        dsimp only
        split_ifs <;> simp
      rcases hone with hkeep | hnew
      · exact Or.inl (heq.trans hkeep)
      · exact Or.inr (by rw [heq, hnew]; simp)
    · exact Or.inr (mem_cons_of_mem _ hmem)

theorem selectPreemptionVictim_mem (s : Scheduler σ) (choice : ScheduleChoice)
    (h : ¬ s.selectPreemptionVictim choice < 0) :
    s.selectPreemptionVictim choice ∈ s.runningSeqs := by
  rcases considerVictim_mem s choice.now (choice.arrangement.arrange s.runningSeqs) {} with
    heq | hmem
  · refine absurd ?_ h
    unfold selectPreemptionVictim
    rw [heq]
    decide
  · exact (choice.arrangement.perm _).mem_iff.mp hmem

theorem preemptSequences_inv (h : PassInv ok seen held queue s s.waitingQueue o)
    (hempty : o.prefillSeqIds = []) (choice : ScheduleChoice) :
    let r := s.preemptSequences choice o
    PassInv ok seen held queue r.1 r.1.waitingQueue r.2 ∧ r.2.prefillSeqIds = [] := by
  unfold preemptSequences
  dsimp only
  split
  · exact ⟨h, hempty⟩
  split
  · exact ⟨h, hempty⟩
  rename_i hvictim
  have hrun := selectPreemptionVictim_mem s choice hvictim
  refine ⟨?_, hempty⟩
  refine h.touch hempty ⟨rfl, rfl, ?_, ?_, fun _ _ => rfl,
    fun _ hne => Function.update_of_ne hne _ _, fun _ _ => rfl⟩ rfl (h.bounded.running _ hrun)
    (h.notFresh_of_running hrun) rfl rfl rfl rfl (fun _ _ => rfl) h.custody
  · intro x hx
    exact Or.inl (mem_filter.mp hx).1
  intro x hx
  exact (mem_insert_iff.mp hx).symm

/-! ### Swap-in -/

theorem setManager_inv (h : PassInv ok seen held queue s gs o) {m : BlockManager σ}
    (hcust : CustodyUpTo ok m (o.carried ++ (sharedOf gs ++ held))) :
    PassInv ok seen held queue { s with blockManager := m } gs o :=
  ⟨h.toPassShape.of_same rfl rfl rfl rfl rfl rfl rfl, hcust, h.keeps⟩

theorem takeIn_inv {p : SwapInPass σ} {new : List Int} {m : BlockManager σ}
    (h : PassInv ok seen held queue p.sch gs p.output)
    (hempty : p.output.prefillSeqIds = []) (hid : id < p.sch.nextSeqId)
    (hnot : NotFresh seen gs p.output id)
    (hcust : CustodyUpTo ok m (new ++ (p.output.carried ++ (sharedOf gs ++ held)))) :
    let p' := { p with sch := { p.sch with blockManager := m } }.takeIn id new
    PassInv ok seen held queue p'.sch gs p'.output := by
  refine h.touch hempty ⟨rfl, rfl, ?_, ?_, fun _ _ => rfl,
    fun _ hne => Function.update_of_ne hne _ _, fun _ _ => rfl⟩ rfl hid hnot rfl rfl rfl rfl
    ?_ (hcust.perm ?_)
  · intro x hx
    exact (mem_insert_iff.mp hx).symm
  · intro x hx
    exact Or.inl (mem_filter.mp hx).1
  · intro x hne
    unfold SchedulerOutput.allocatedTo SwapInPass.takeIn
    rw [filter_append, filter_cons_of_neg (by simpa using Ne.symm hne), filter_nil, append_nil]
  rw [perm_iff_count]
  intro b
  simp only [SwapInPass.takeIn, SchedulerOutput.carried, flatMap_append, flatMap_cons,
    flatMap_nil, append_nil, count_append]
  omega

theorem swapInOne_inv (choice : ScheduleChoice) {p : SwapInPass σ}
    (h : PassInv ok seen held queue p.sch gs p.output)
    (hempty : p.output.prefillSeqIds = []) (hid : id < p.sch.nextSeqId)
    (hnot : NotFresh seen gs p.output id) :
    PassInv ok seen held queue (swapInOne choice p id).sch gs (swapInOne choice p id).output ∧
      (swapInOne choice p id).output.prefillSeqIds = [] ∧
      (swapInOne choice p id).sch.nextSeqId = p.sch.nextSeqId ∧
      (swapInOne choice p id).sch.waitingQueue = p.sch.waitingQueue := by
  unfold swapInOne
  split
  · exact ⟨h, hempty, rfl, rfl⟩
  split
  · exact ⟨h, hempty, rfl, rfl⟩
  obtain ⟨hcust, -⟩ := h.custody.allocate (p.sch.swapInBlocks id) (choice.allocSwapped id)
  dsimp only
  split
  · rename_i hnil
    rw [hnil] at hcust
    exact ⟨setManager_inv h hcust, hempty, rfl, rfl⟩
  · exact ⟨takeIn_inv h hempty hid hnot hcust, hempty, rfl, rfl⟩

theorem swapInAll_inv (choice : ScheduleChoice) (l : List Int) : ∀ p : SwapInPass σ,
    PassInv ok seen held queue p.sch gs p.output → p.output.prefillSeqIds = [] →
      (∀ id ∈ l, id < p.sch.nextSeqId ∧
        ∀ o' : SchedulerOutput, o'.prefillSeqIds = [] → NotFresh seen gs o' id) →
      let p' := l.foldl (swapInOne choice) p
      PassInv ok seen held queue p'.sch gs p'.output ∧ p'.output.prefillSeqIds = [] ∧
        p'.sch.waitingQueue = p.sch.waitingQueue := by
  induction l with
  | nil => intro p hp hpe _; exact ⟨hp, hpe, rfl⟩
  | cons id rest ih =>
    intro p hp hpe hids
    obtain ⟨hid, hnot⟩ := hids id (by simp)
    obtain ⟨hp', hpe', hnext, hqueue⟩ := swapInOne_inv choice hp hpe hid (hnot _ hpe)
    rw [foldl_cons, ← hqueue]
    refine ih _ hp' hpe' ?_
    intro id' hid'
    rw [hnext]
    exact hids id' (mem_cons_of_mem _ hid')

theorem scheduleSwapped_inv (h : PassInv ok seen held queue s s.waitingQueue o)
    (hempty : o.prefillSeqIds = []) (choice : ScheduleChoice) :
    let r := s.scheduleSwapped choice o
    PassInv ok seen held queue r.1 r.1.waitingQueue r.2 ∧ r.2.prefillSeqIds = [] := by
  unfold scheduleSwapped
  dsimp only
  split
  · exact ⟨h, hempty⟩
  split
  · exact ⟨h, hempty⟩
  obtain ⟨hinv, hpe, hqueue⟩ := swapInAll_inv choice
    (choice.arrangement.sort (s.runsBefore choice.now) (choice.arrangement.arrange s.swappedSeqs))
    ⟨s, o, s.config.maxNumSeqs - s.runningSeqs.length⟩ h hempty (by
      intro id hid
      have hswap : id ∈ s.swappedSeqs := (choice.arrangement.perm _).mem_iff.mp
        ((sort_perm choice.arrangement _ _).mem_iff.mp hid)
      refine ⟨h.bounded.swapped id hswap, ?_⟩
      intro o' _ g hg hs _
      exact h.notFresh_of_swapped hswap g hg hs (by rw [hempty]; simp))
  refine ⟨?_, hpe⟩
  rw [hqueue]
  exact hinv

/-! ### Decode -/

/-- `o` with the ids of a decode batch behind those it has. -/
def decodedOutput (o : SchedulerOutput) (ids : List Int) (context : Int)
    (reason : SchedulerEmptyReason) : SchedulerOutput :=
  { o with
    decodeSeqIds := o.decodeSeqIds ++ ids
    numDecodeTokens := o.numDecodeTokens + ids.length
    totalTokens := o.totalTokens + ids.length
    batchContextLen := context
    emptyReason := reason }

theorem bestRunning_spec {p : RunningPass} {best : Int × ExpertFit}
    (h : s.bestRunning now p = some best) : best.1 ∈ p.unscheduled ∧
      (s.inContextBucket p best.1 && !s.deferredForExperts p best.1) = true := by
  -- The fold ends without a candidate or with one that passed the test.
  refine foldlRecOn (motive := fun o => ∀ best, o = some best → best.1 ∈ p.unscheduled ∧
      (s.inContextBucket p best.1 && !s.deferredForExperts p best.1) = true)
    p.unscheduled _ (fun _ hb => by cases hb) ?_ best h
  intro start hstart id hid best hb
  split at hb
  · rename_i hpass
    split at hb
    · cases hb
      exact ⟨hid, hpass⟩
    split at hb
    · cases hb
      exact ⟨hid, hpass⟩
    · exact hstart best hb
  · exact hstart best hb

theorem pickRunning_mem {s : Scheduler σ} {p : RunningPass}
    (h : s.pickRunning now p = some id) : id ∈ p.unscheduled := by
  unfold pickRunning at h
  split at h
  · rename_i id' fit hbest
    obtain rfl : id' = id := by simpa using h
    exact (bestRunning_spec hbest).1
  split at h
  · exact mem_of_find?_eq_some h
  · exact absurd h (by simp)

/-- **The rounds of the decode pass** add ids that were still to be scheduled, no
more of them than the budget and the slots allow. -/
theorem runningRounds_spec (s : Scheduler σ) (now : Nat) : ∀ (n : Nat) (p : RunningPass),
    ∃ ids context, (s.runningRounds now n p).output =
        decodedOutput p.output ids context p.output.emptyReason ∧
      ids.Subperm p.unscheduled ∧
      (ids ≠ [] → (ids.length : Int) ≤ p.tokensBudget ∧
        p.output.scheduledSeqCount + ids.length ≤ asSize s.config.maxNumSeqs) := by
  intro n
  induction n with
  | zero =>
    intro p
    exact ⟨[], p.output.batchContextLen, by simp [runningRounds, decodedOutput],
      nil_subperm, by simp⟩
  | succ n ih =>
    intro p
    have hstop : ∃ ids context, p.output = decodedOutput p.output ids context p.output.emptyReason ∧
        ids.Subperm p.unscheduled ∧
        (ids ≠ [] → (ids.length : Int) ≤ p.tokensBudget ∧
          p.output.scheduledSeqCount + ids.length ≤ asSize s.config.maxNumSeqs) :=
      ⟨[], p.output.batchContextLen, by simp [decodedOutput], nil_subperm, by simp⟩
    unfold runningRounds
    split
    · exact hstop
    rename_i id hpick
    split
    · exact hstop
    rename_i hroom
    rw [not_or, not_le, not_le] at hroom
    obtain ⟨ids, context, hout, hsub, hbound⟩ := ih
      { output :=
          { p.output with
            decodeSeqIds := p.output.decodeSeqIds ++ [id]
            numDecodeTokens := p.output.numDecodeTokens + 1
            totalTokens := p.output.totalTokens + 1
            batchContextLen := if p.targetContextLen < 0 then s.getSequenceContextLen id
              else p.targetContextLen }
        tokensBudget := p.tokensBudget - 1
        activeExperts := addExperts p.activeExperts ((s.seqPredictedExperts id).getD [])
        targetContextLen := if p.targetContextLen < 0 then s.getSequenceContextLen id
          else p.targetContextLen
        unscheduled := p.unscheduled.erase id }
    refine ⟨id :: ids, context, ?_, ?_, ?_⟩
    · dsimp only
      rw [hout]
      simp only [decodedOutput, append_assoc, singleton_append, length_cons]
      push_cast
      simp only [Int.add_assoc, Int.add_comm 1]
    · have hperm := perm_cons_erase (pickRunning_mem hpick)
      exact ((subperm_cons id).mpr hsub).trans hperm.symm.subperm
    intro _
    simp only [SchedulerOutput.scheduledSeqCount, length_append, length_cons,
      length_nil] at hbound hroom ⊢
    by_cases hnil : ids = []
    · subst hnil
      simp only [length_nil]
      omega
    obtain ⟨h₁, h₂⟩ := hbound hnil
    omega

theorem noteUndecodable_spec (s : Scheduler σ) (o : SchedulerOutput) :
    ∃ reason, s.noteUndecodable o = { o with emptyReason := reason } := by
  unfold noteUndecodable
  split
  · exact ⟨_, rfl⟩
  · exact ⟨o.emptyReason, rfl⟩

/-- **The decode pass** lists running sequences behind those the output has. -/
theorem scheduleRunning_spec (s : Scheduler σ) (choice : ScheduleChoice) (o : SchedulerOutput) :
    ∃ ids context reason, s.scheduleRunning choice o = decodedOutput o ids context reason ∧
      ids.Subperm s.runningSeqs ∧
      (ids ≠ [] → (ids.length : Int) ≤ s.config.maxNumBatchedTokens - o.totalTokens ∧
        o.scheduledSeqCount + ids.length ≤ asSize s.config.maxNumSeqs) := by
  have hids : (choice.arrangement.sort (s.runsBefore choice.now)
      (choice.arrangement.arrange s.runningSeqs)).Perm s.runningSeqs :=
    (sort_perm _ _ _).trans (choice.arrangement.perm _)
  unfold scheduleRunning
  dsimp only
  split
  · obtain ⟨reason, hnote⟩ := noteUndecodable_spec s o
    exact ⟨[], o.batchContextLen, reason, by rw [hnote]; simp [decodedOutput], nil_subperm, by simp⟩
  obtain ⟨ids, context, hout, hsub, hbound⟩ := runningRounds_spec s choice.now
    (choice.arrangement.sort (s.runsBefore choice.now)
      (choice.arrangement.arrange s.runningSeqs)).length
    ⟨o, s.config.maxNumBatchedTokens - o.totalTokens, [], -1,
      choice.arrangement.sort (s.runsBefore choice.now)
        (choice.arrangement.arrange s.runningSeqs)⟩
  have hsub' : ids.Subperm s.runningSeqs := hsub.trans hids.subperm
  split
  · obtain ⟨reason, hnote⟩ := noteUndecodable_spec s (decodedOutput o ids context o.emptyReason)
    refine ⟨ids, context, reason, ?_, hsub', hbound⟩
    rw [hout, hnote]
    rfl
  · exact ⟨ids, context, o.emptyReason, hout, hsub', hbound⟩

theorem scheduleRunning_inv (h : PassInv ok seen held queue s s.waitingQueue o)
    (choice : ScheduleChoice) :
    PassInv ok seen held queue s s.waitingQueue (s.scheduleRunning choice o) := by
  obtain ⟨ids, context, reason, hout, hsub, -⟩ := scheduleRunning_spec s choice o
  rw [hout]
  refine h.of_output rfl ?_ rfl rfl rfl
  intro id hid
  exact (mem_append.mp hid).imp_right fun hnew => hsub.subset hnew

/-! ### What preemption and swap-in write -/

/-- **What preemption writes**: the two sets, the status and the table of one
sequence, and one list of the output. -/
theorem preemptSequences_spec (s : Scheduler σ) (choice : ScheduleChoice) (o : SchedulerOutput) :
    ∃ running swapped status blocks ids, s.preemptSequences choice o = ({ s with
          runningSeqs := running, swappedSeqs := swapped, seqStatus := status
          seqBlockIds := blocks },
        { o with preemptedSeqIds := ids }) := by
  unfold preemptSequences
  dsimp only
  split
  · exact ⟨_, _, _, _, _, rfl⟩
  split
  · exact ⟨_, _, _, _, _, rfl⟩
  · exact ⟨_, _, _, _, _, rfl⟩

theorem swapInOne_spec (choice : ScheduleChoice) (p : SwapInPass σ) (id : Int) :
    ∃ m running swapped status blocks ids allocations slots, swapInOne choice p id = ⟨{ p.sch with
          blockManager := m, runningSeqs := running, swappedSeqs := swapped, seqStatus := status
          seqBlockIds := blocks },
        { p.output with swapInSeqIds := ids, newBlockAllocations := allocations }, slots⟩ := by
  unfold swapInOne
  split
  · exact ⟨_, _, _, _, _, _, _, _, rfl⟩
  split
  · exact ⟨_, _, _, _, _, _, _, _, rfl⟩
  dsimp only
  split
  · exact ⟨_, _, _, _, _, _, _, _, rfl⟩
  · exact ⟨_, _, _, _, _, _, _, _, rfl⟩

theorem swapInAll_spec (choice : ScheduleChoice) (l : List Int) : ∀ p : SwapInPass σ,
    ∃ m running swapped status blocks ids allocations slots, l.foldl (swapInOne choice) p =
      ⟨{ p.sch with
          blockManager := m, runningSeqs := running, swappedSeqs := swapped, seqStatus := status
          seqBlockIds := blocks },
        { p.output with swapInSeqIds := ids, newBlockAllocations := allocations }, slots⟩ := by
  induction l with
  | nil => intro p; exact ⟨_, _, _, _, _, _, _, _, rfl⟩
  | cons id rest ih =>
    intro p
    obtain ⟨m, r, w, st, b, is, al, n, hone⟩ := swapInOne_spec choice p id
    obtain ⟨m', r', w', st', b', is', al', n', hrest⟩ := ih (swapInOne choice p id)
    refine ⟨m', r', w', st', b', is', al', n', ?_⟩
    rw [foldl_cons, hrest, hone]

/-- **What the swap-in writes.** -/
theorem scheduleSwapped_spec (s : Scheduler σ) (choice : ScheduleChoice) (o : SchedulerOutput) :
    ∃ m running swapped status blocks ids allocations, s.scheduleSwapped choice o = ({ s with
          blockManager := m, runningSeqs := running, swappedSeqs := swapped, seqStatus := status
          seqBlockIds := blocks },
        { o with swapInSeqIds := ids, newBlockAllocations := allocations }) := by
  unfold scheduleSwapped
  dsimp only
  split
  · exact ⟨_, _, _, _, _, _, _, rfl⟩
  split
  · exact ⟨_, _, _, _, _, _, _, rfl⟩
  obtain ⟨m, r, w, st, b, is, al, n, hall⟩ := swapInAll_spec choice
    (choice.arrangement.sort (s.runsBefore choice.now) (choice.arrangement.arrange s.swappedSeqs))
    ⟨s, o, s.config.maxNumSeqs - s.runningSeqs.length⟩
  rw [hall]
  exact ⟨m, r, w, st, b, is, al, rfl⟩

/-! ### One call

Whatever path a call takes, it is made of the same five passes, and the passes
over the queue and the running set find a part of the output still empty.  A
statement about every call is proved by looking at each pass once.
-/

theorem considerGroups_decodes (queueLen : Nat) (choose : Int → AllocChoice)
    (rest : List SequenceGroup) : ∀ p : WaitingPass σ,
      (rest.foldl (WaitingPass.considerGroup queueLen choose) p).output.decodeSeqIds =
        p.output.decodeSeqIds := by
  exact considerGroups_output (·.decodeSeqIds) (fun _ _ _ _ _ => rfl) queueLen choose rest

theorem scheduleWaiting_decodes (s : Scheduler σ) (choice : ScheduleChoice)
    (choose : Int → AllocChoice) (o : SchedulerOutput) (cap : Int) :
    (s.scheduleWaiting choice choose o cap).2.decodeSeqIds = o.decodeSeqIds := by
  unfold scheduleWaiting
  dsimp only
  split
  · exact considerGroups_decodes _ _ _ _
  · exact considerGroups_decodes _ _ _ _

/-- The output lists no sequence yet. -/
def Unlisted (o : SchedulerOutput) : Prop := o.prefillSeqIds = [] ∧ o.decodeSeqIds = []

theorem preemptSequences_unlisted (s : Scheduler σ) (choice : ScheduleChoice)
    (h : Unlisted o) : Unlisted (s.preemptSequences choice o).2 := by
  obtain ⟨running, swapped, status, blocks, ids, heq⟩ := preemptSequences_spec s choice o
  rw [heq]
  exact h

theorem scheduleSwapped_unlisted (s : Scheduler σ) (choice : ScheduleChoice)
    (h : Unlisted o) : Unlisted (s.scheduleSwapped choice o).2 := by
  obtain ⟨m, running, swapped, status, blocks, ids, allocations, heq⟩ :=
    scheduleSwapped_spec s choice o
  rw [heq]
  exact h

/-- What has to be shown of the passes that fill a batch. -/
structure BatchPhases (choice : ScheduleChoice) (P : Scheduler σ → SchedulerOutput → Prop) :
    Prop where
  notes : ∀ s o e u n, P s o →
    P { s with lastEmptyReason := e, lastUnschedulableReason := u, consecutiveDecodeBatches := n } o
  bucket : ∀ s o context, P s o → P s { o with batchContextLen := context }
  decode : ∀ s o, P s o → Unlisted o → P s (s.scheduleRunning choice o)
  prefill : ∀ s o choose cap, P s o → o.prefillSeqIds = [] →
    P (s.scheduleWaiting choice choose o cap).1 (s.scheduleWaiting choice choose o cap).2

/-- What has to be shown of each pass. -/
structure Phases (choice : ScheduleChoice) (P : Scheduler σ → SchedulerOutput → Prop) : Prop
    extends BatchPhases choice P where
  preempt : ∀ s, P s {} → P (s.preemptSequences choice {}).1 (s.preemptSequences choice {}).2
  swapIn : ∀ s o, P s o → Unlisted o → P (s.scheduleSwapped choice o).1 (s.scheduleSwapped choice o).2

section Phases

variable {P : Scheduler σ → SchedulerOutput → Prop} {choice : ScheduleChoice}

section

variable (hP : BatchPhases choice P)

include hP

theorem BatchPhases.noteReasons {e : SchedulerEmptyReason}
    {u : SchedulerUnschedulableReason} (h : P s o) : P (s.noteReasons e u) o :=
  hP.notes s o e u s.consecutiveDecodeBatches h

theorem BatchPhases.countDecodes {n : Int} (h : P s o) :
    P { s with consecutiveDecodeBatches := n } o :=
  hP.notes s o s.lastEmptyReason s.lastUnschedulableReason n h

theorem BatchPhases.decode_prefills (h : P s o) (hempty : Unlisted o) :
    P s (s.scheduleRunning choice o) ∧ (s.scheduleRunning choice o).prefillSeqIds = [] := by
  refine ⟨hP.decode s o h hempty, ?_⟩
  obtain ⟨ids, context, reason, hout, -, -⟩ := scheduleRunning_spec s choice o
  rw [hout]
  exact hempty.1

theorem BatchPhases.finishDecode (h : P s o)
    (hempty : o.prefillSeqIds = []) :
    P (s.finishDecode choice o).1 (s.finishDecode choice o).2 := by
  unfold Scheduler.finishDecode
  dsimp only
  split
  · exact hP.countDecodes (hP.noteReasons h)
  · exact hP.countDecodes (hP.noteReasons (hP.prefill _ _ _ _ (hP.bucket _ _ _ h) hempty))

theorem BatchPhases.decodeFirst (h : P s o) (hempty : Unlisted o) :
    P (s.scheduleDecodeFirst choice o).1 (s.scheduleDecodeFirst choice o).2 := by
  obtain ⟨hdecoded, hsame⟩ := hP.decode_prefills h hempty
  unfold scheduleDecodeFirst
  dsimp only
  split
  · exact hP.finishDecode hdecoded hsame
  have hwaiting := hP.prefill _ _ choice.allocFallback (-1) hdecoded hsame
  split
  · split
    · exact hP.noteReasons (hP.countDecodes hwaiting)
    · exact hP.noteReasons hwaiting
  split
  · exact hP.countDecodes hwaiting
  · exact hwaiting

theorem BatchPhases.isolated (h : P s o) (hempty : Unlisted o) :
    P (s.scheduleIsolated choice o).1 (s.scheduleIsolated choice o).2 := by
  unfold scheduleIsolated
  split
  · have hwaiting := hP.prefill _ _ choice.allocWaiting (-1) h hempty.1
    dsimp only
    split
    · exact hP.countDecodes (hP.noteReasons hwaiting)
    rename_i hnone
    exact hP.decodeFirst hwaiting
      ⟨not_not.mp hnone, (scheduleWaiting_decodes _ _ _ _ _).trans hempty.2⟩
  · exact hP.decodeFirst h hempty

theorem BatchPhases.legacy (h : P s o) (hempty : Unlisted o) :
    P (s.scheduleLegacy choice o).1 (s.scheduleLegacy choice o).2 := by
  obtain ⟨hdecoded, hsame⟩ := hP.decode_prefills h hempty
  unfold scheduleLegacy
  dsimp only
  split
  · exact hP.noteReasons (hP.prefill _ _ _ _ hdecoded hsame)
  · exact hP.noteReasons (hP.prefill _ _ _ _ hdecoded hsame)

end

/-- The state and the output after the preemption. -/
def preempted (s : Scheduler σ) (choice : ScheduleChoice) : Scheduler σ × SchedulerOutput :=
  if s.config.aboveWatermarkHigh s.usedBlocks s.blockManager.numBlocks then
    (s.noteReasons .none .none).preemptSequences choice {}
  else (s.noteReasons .none .none, {})

/-- The state and the output after the swap-in. -/
def swappedIn (s : Scheduler σ) (choice : ScheduleChoice) : Scheduler σ × SchedulerOutput :=
  (s.preempted choice).1.scheduleSwapped choice (s.preempted choice).2

theorem schedule_eq (s : Scheduler σ) (choice : ScheduleChoice) : s.schedule choice =
    if (s.swappedIn choice).1.config.isolatePrefillDecode then
      (s.swappedIn choice).1.scheduleIsolated choice (s.swappedIn choice).2
    else (s.swappedIn choice).1.scheduleLegacy choice (s.swappedIn choice).2 := rfl

theorem Phases.preempted (hP : Phases choice P) (h : P s {}) :
    P (s.preempted choice).1 (s.preempted choice).2 ∧ Unlisted (s.preempted choice).2 := by
  unfold Scheduler.preempted
  split
  · exact ⟨hP.preempt _ (hP.noteReasons h), preemptSequences_unlisted _ _ ⟨rfl, rfl⟩⟩
  · exact ⟨hP.noteReasons h, rfl, rfl⟩

theorem swappedIn_unlisted (s : Scheduler σ) (choice : ScheduleChoice) :
    Unlisted (s.swappedIn choice).2 := by
  refine scheduleSwapped_unlisted _ _ ?_
  unfold Scheduler.preempted
  split
  · exact preemptSequences_unlisted _ _ ⟨rfl, rfl⟩
  · exact ⟨rfl, rfl⟩

theorem BatchPhases.schedule (hP : BatchPhases choice P)
    (h : P (s.swappedIn choice).1 (s.swappedIn choice).2) :
    P (s.schedule choice).1 (s.schedule choice).2 := by
  have hunlisted := swappedIn_unlisted s choice
  rw [schedule_eq]
  split
  · exact hP.isolated h hunlisted
  · exact hP.legacy h hunlisted

/-- **What every pass keeps, a call keeps.** -/
theorem Phases.schedule (hP : Phases choice P) (h : P s {}) :
    P (s.schedule choice).1 (s.schedule choice).2 := by
  obtain ⟨hpre, hempty⟩ := hP.preempted h
  exact hP.toBatchPhases.schedule (hP.swapIn _ _ hpre hempty)

end Phases

/-! ### What a call leaves alone -/

theorem Outcome.frame {p p' : WaitingPass σ} {g : SequenceGroup} (hout : Outcome p g p') :
    p'.sch.nextSeqId = p.sch.nextSeqId ∧ p'.sch.config = p.sch.config := by
  cases hout with
  | kept hs _ _ => rw [hs]; exact ⟨rfl, rfl⟩
  | recorded _ hs _ _ => rw [hs]; exact ⟨rfl, rfl⟩
  | ran _ hs _ _ => rw [hs]; exact ⟨rfl, rfl⟩
  | dropped _ _ hs _ _ => rw [hs]; exact ⟨rfl, rfl⟩
  | scheduled _ _ _ _ _ hp => rw [hp]; exact ⟨rfl, rfl⟩

theorem considerGroups_frame (queueLen : Nat) (choose : Int → AllocChoice)
    (rest : List SequenceGroup) : ∀ p : WaitingPass σ,
      (rest.foldl (WaitingPass.considerGroup queueLen choose) p).sch.nextSeqId = p.sch.nextSeqId ∧
        (rest.foldl (WaitingPass.considerGroup queueLen choose) p).sch.config = p.sch.config := by
  induction rest with
  | nil => intro p; exact ⟨rfl, rfl⟩
  | cons g rest ih =>
    intro p
    obtain ⟨hnext, hconfig⟩ := (considerGroup_outcome queueLen choose p g).frame
    obtain ⟨hnext', hconfig'⟩ := ih (p.considerGroup queueLen choose g)
    exact ⟨hnext'.trans hnext, hconfig'.trans hconfig⟩

theorem preemptSequences_frame (s : Scheduler σ) (choice : ScheduleChoice) (o : SchedulerOutput) :
    (s.preemptSequences choice o).1.nextSeqId = s.nextSeqId ∧
      (s.preemptSequences choice o).1.config = s.config := by
  obtain ⟨running, swapped, status, blocks, ids, heq⟩ := preemptSequences_spec s choice o
  rw [heq]
  exact ⟨rfl, rfl⟩

theorem scheduleSwapped_frame (s : Scheduler σ) (choice : ScheduleChoice) (o : SchedulerOutput) :
    (s.scheduleSwapped choice o).1.nextSeqId = s.nextSeqId ∧
      (s.scheduleSwapped choice o).1.config = s.config := by
  obtain ⟨m, running, swapped, status, blocks, ids, allocations, heq⟩ :=
    scheduleSwapped_spec s choice o
  rw [heq]
  exact ⟨rfl, rfl⟩

theorem scheduleWaiting_frame (s : Scheduler σ) (choice : ScheduleChoice)
    (choose : Int → AllocChoice) (o : SchedulerOutput) (cap : Int) :
    (s.scheduleWaiting choice choose o cap).1.nextSeqId = s.nextSeqId ∧
      (s.scheduleWaiting choice choose o cap).1.config = s.config :=
  considerGroups_frame (s.sortedQueue choice.arrangement).length choose
    (s.sortedQueue choice.arrangement) (passStart s o cap)

theorem schedule_frame (s : Scheduler σ) (choice : ScheduleChoice) :
    (s.schedule choice).1.nextSeqId = s.nextSeqId ∧ (s.schedule choice).1.config = s.config := by
  have hP : Phases choice fun (s' : Scheduler σ) _ =>
      s'.nextSeqId = s.nextSeqId ∧ s'.config = s.config :=
    { notes := fun _ _ _ _ _ h => h
      bucket := fun _ _ _ h => h
      preempt := by
        intro s' h
        obtain ⟨hnext, hconfig⟩ := preemptSequences_frame s' choice {}
        exact ⟨hnext.trans h.1, hconfig.trans h.2⟩
      swapIn := by
        intro s' o h _
        obtain ⟨hnext, hconfig⟩ := scheduleSwapped_frame s' choice o
        exact ⟨hnext.trans h.1, hconfig.trans h.2⟩
      decode := fun _ _ h _ => h
      prefill := by
        intro s' o choose cap h _
        obtain ⟨hnext, hconfig⟩ := scheduleWaiting_frame s' choice choose o cap
        exact ⟨hnext.trans h.1, hconfig.trans h.2⟩ }
  exact hP.schedule ⟨rfl, rfl⟩

/-! ### The invariant -/

/-- **One call of `Schedule` keeps the invariant.** -/
theorem schedule_inv (h : PassInv ok seen held queue s s.waitingQueue {})
    (choice : ScheduleChoice) :
    PassInv ok seen held queue (s.schedule choice).1 (s.schedule choice).1.waitingQueue
      (s.schedule choice).2 := by
  have hP : Phases choice fun (s : Scheduler σ) o =>
      PassInv ok seen held queue s s.waitingQueue o :=
    { notes := fun _ _ _ _ _ h => h.of_same rfl rfl rfl rfl rfl rfl rfl rfl
      bucket := fun _ _ _ h => h.of_output rfl (fun _ hid => Or.inl hid) rfl rfl rfl
      preempt := fun _ h => (preemptSequences_inv h rfl choice).1
      swapIn := fun _ _ h hempty => (scheduleSwapped_inv h hempty.1 choice).1
      decode := fun _ _ h _ => scheduleRunning_inv h choice
      prefill := fun _ _ choose cap h hempty => scheduleWaiting_inv h hempty choice choose cap }
  exact hP.schedule h

end Scheduler

end DenseCore
