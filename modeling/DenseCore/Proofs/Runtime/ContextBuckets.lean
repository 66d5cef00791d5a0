/-
One batch, one context length.

Paged attention takes a batch whose sequences have all the same length in context.  The
passes of `Schedule` see to that with a target: it is the context of whoever is accepted
first, and from then on everybody else has to match it.  A target below zero is no
target, so the argument needs that no recorded context is negative, which every call
keeps.

The queue is walked with the contexts as they were when the call began: nothing a pass
does changes the context of a group that stays.  A batch of both kinds is made only after
the decoded sequences have been found to share a context, and that is the target the
prompts are then held to.
-/
import DenseCore.Proofs.Runtime.WorkConservation

namespace DenseCore

namespace Scheduler

variable {σ : Type} {s s₀ : Scheduler σ} {o : SchedulerOutput} {p p' : WaitingPass σ}
  {g : SequenceGroup} {gs : List SequenceGroup}

/-! ### Recorded contexts -/

/-- No sequence has a negative context. -/
def ContextsNonneg (s : Scheduler σ) : Prop := ∀ id, 0 ≤ s.getSequenceContextLen id

theorem ContextsNonneg.of_same (h : ContextsNonneg s₀) (hc : s.seqContextLen = s₀.seqContextLen) :
    ContextsNonneg s := by
  intro id
  unfold getSequenceContextLen
  rw [hc]
  exact h id

theorem ContextsNonneg.update (h : ContextsNonneg s₀) {id : Int} {context : Option Int}
    (hc : s.seqContextLen = Function.update s₀.seqContextLen id context)
    (hpos : 0 ≤ context.getD 0) : ContextsNonneg s := by
  intro x
  unfold getSequenceContextLen
  rw [hc]
  by_cases hx : x = id
  · rw [hx, Function.update_self]
    exact hpos
  rw [Function.update_of_ne hx]
  exact h x

theorem Outcome.contexts (hout : Outcome p g p') (h : ContextsNonneg p.sch) :
    ContextsNonneg p'.sch := by
  cases hout with
  | kept hs _ _ => exact hs ▸ h
  | recorded _ hs _ _ | ran _ hs _ _ => exact h.of_same (by rw [hs]; rfl)
  | dropped _ _ hs _ _ => exact h.update (congrArg seqContextLen hs) (Int.le_refl 0)
  | scheduled _ _ _ _ _ hp => exact h.of_same (congrArg (fun p => p.sch.seqContextLen) hp)

variable (queueLen : Nat) (choose : Int → AllocChoice) (rest : List SequenceGroup)

theorem considerGroups_contexts : ∀ p : WaitingPass σ, ContextsNonneg p.sch →
      ContextsNonneg (rest.foldl (WaitingPass.considerGroup queueLen choose) p).sch := by
  induction rest with
  | nil => exact fun p h => h
  | cons g rest ih =>
    exact fun p h => ih _ ((considerGroup_outcome queueLen choose p g).contexts h)

theorem preemptSequences_contexts (s : Scheduler σ) (choice : ScheduleChoice)
    (o : SchedulerOutput) : (s.preemptSequences choice o).1.seqContextLen = s.seqContextLen := by
  obtain ⟨running, swapped, status, blocks, ids, heq⟩ := preemptSequences_spec s choice o
  rw [heq]

theorem scheduleSwapped_contexts (s : Scheduler σ) (choice : ScheduleChoice)
    (o : SchedulerOutput) : (s.scheduleSwapped choice o).1.seqContextLen = s.seqContextLen := by
  obtain ⟨m, running, swapped, status, blocks, ids, allocations, heq⟩ :=
    scheduleSwapped_spec s choice o
  rw [heq]

theorem scheduleWaiting_contexts (h : ContextsNonneg s) (choice : ScheduleChoice)
    (choose : Int → AllocChoice) (cap : Int) :
    ContextsNonneg (s.scheduleWaiting choice choose o cap).1 :=
  considerGroups_contexts _ choose _ _ h

theorem swappedIn_contexts (h : ContextsNonneg s) (choice : ScheduleChoice) :
    ContextsNonneg (s.swappedIn choice).1 := by
  refine h.of_same ?_
  unfold swappedIn
  rw [scheduleSwapped_contexts]
  unfold preempted
  split
  · exact preemptSequences_contexts _ choice _
  · rfl

theorem schedule_contexts (h : ContextsNonneg s) (choice : ScheduleChoice) :
    ContextsNonneg (s.schedule choice).1 := by
  have hP : Phases choice fun (s : Scheduler σ) _ => ContextsNonneg s :=
    { notes := fun _ _ _ _ _ h => h
      bucket := fun _ _ _ h => h
      preempt := fun s h => h.of_same (preemptSequences_contexts s choice _)
      swapIn := fun s o h _ => h.of_same (scheduleSwapped_contexts s choice o)
      decode := fun _ _ h _ => h
      prefill := fun _ _ choose cap h _ => scheduleWaiting_contexts h choice choose cap }
  exact hP.schedule h

/-! ### The prompts -/

namespace WaitingPass

@[simp] theorem block_targetContextLen (r : SchedulerEmptyReason) :
    (p.block r g).targetContextLen = p.targetContextLen := by
  unfold block; split <;> rfl

@[simp] theorem reject_targetContextLen (u : SchedulerUnschedulableReason) :
    (p.reject u g).targetContextLen = p.targetContextLen := by
  unfold reject; split <;> rfl

end WaitingPass

/-- What the loop body does to the target: nothing, or the group joins the batch, whose
target it matches if there is one, and sets otherwise. -/
inductive Bucketing (p : WaitingPass σ) (g : SequenceGroup) (p' : WaitingPass σ) : Prop where
  | same (ho : p'.output = p.output) (ht : p'.targetContextLen = p.targetContextLen)
  | joined
      (hmatch : 0 ≤ p.targetContextLen →
        p.sch.getSequenceContextLen g.sequenceId = p.targetContextLen)
      (hids : p'.output.prefillSeqIds = p.output.prefillSeqIds ++ [g.sequenceId])
      (ht : p'.targetContextLen = p.sch.getSequenceContextLen g.sequenceId ∨
        p'.targetContextLen = p.targetContextLen ∧ 0 ≤ p.targetContextLen)
      (hbatch : p'.output.batchContextLen = p'.targetContextLen)

theorem schedulePrefill_bucketing {p₁ : WaitingPass σ} (bs new : List Int) (tokens : Int)
    (hsch : p₁.sch.seqContextLen = p.sch.seqContextLen) (hout : p₁.output = p.output)
    (htarget : p₁.targetContextLen = p.targetContextLen)
    (hmatch : 0 ≤ p.targetContextLen →
      p.sch.getSequenceContextLen g.sequenceId = p.targetContextLen) :
    Bucketing p g (p₁.schedulePrefill g bs new tokens) := by
  have hset : (p₁.schedulePrefill g bs new tokens).targetContextLen =
      if p.targetContextLen < 0 then p.sch.getSequenceContextLen g.sequenceId
      else p.targetContextLen := by
    unfold getSequenceContextLen
    rw [← hsch, ← htarget]
    rfl
  refine .joined hmatch ?_ ?_ rfl
  · show p₁.output.prefillSeqIds ++ _ = _
    rw [hout]
  rw [hset]
  by_cases hopen : p.targetContextLen < 0
  · exact Or.inl (if_pos hopen)
  · exact Or.inr ⟨if_neg hopen, Int.not_lt.mp hopen⟩

theorem admitGroup_bucketing (p : WaitingPass σ) (g : SequenceGroup)
    (tokens : Int) (hmatch : 0 ≤ p.targetContextLen →
      p.sch.getSequenceContextLen g.sequenceId = p.targetContextLen) :
    Bucketing p g (p.admitGroup choose g tokens) := by
  have hadmitted := admitGroup_admitted choose p g tokens
  generalize p.admitGroup choose g tokens = p' at hadmitted ⊢
  cases hadmitted with
  | exceeds => exact .same (by simp [WaitingPass.keep]; rfl) (by simp [WaitingPass.keep]; rfl)
  | blocked => exact .same (by simp; rfl) (by simp; rfl)
  | scheduled new m _ => exact schedulePrefill_bucketing _ new tokens rfl rfl rfl hmatch

/-- **A group joins only the bucket of the batch.** -/
theorem considerGroup_bucketing (p : WaitingPass σ)
    (g : SequenceGroup) (henforce : p.sch.config.enforceHomogeneousBatchNPast = true) :
    Bucketing p g (p.considerGroup queueLen choose g) := by
  have hconsidered := considerGroup_considered queueLen choose p g
  generalize p.considerGroup queueLen choose g = p' at hconsidered ⊢
  cases hconsidered with
  | blocked r _ | dropped => exact .same (by simp) (by simp)
  | ran => exact .same rfl rfl
  | admitted h =>
    refine admitGroup_bucketing choose p g _ fun hpos => ?_
    by_contra hne
    exact h.bucket ⟨henforce, hpos, hne⟩

/-- The listed prompts have the target for their context, as the call found it. -/
structure Bucketed (s₀ : Scheduler σ) (p : WaitingPass σ) : Prop where
  prefills : ∀ id ∈ p.output.prefillSeqIds, s₀.getSequenceContextLen id = p.output.batchContextLen
  target : p.output.prefillSeqIds ≠ [] →
    p.targetContextLen = p.output.batchContextLen ∧ 0 ≤ p.targetContextLen

theorem Bucketing.bucketed (hbucketing : Bucketing p g p') (h : Bucketed s₀ p)
    (hcontext : p.sch.getSequenceContextLen g.sequenceId = s₀.getSequenceContextLen g.sequenceId)
    (hpos : 0 ≤ p.sch.getSequenceContextLen g.sequenceId) : Bucketed s₀ p' := by
  cases hbucketing with
  | same ho ht =>
    refine ⟨?_, ?_⟩
    · rw [ho]; exact h.prefills
    · rw [ho, ht]; exact h.target
  | joined hmatch hids ht hbatch =>
    -- In both cases the new target is the context of the group.
    have htarget : p'.targetContextLen = p.sch.getSequenceContextLen g.sequenceId := by
      rcases ht with hset | ⟨hkept, hfixed⟩
      · exact hset
      · exact hkept.trans (hmatch hfixed).symm
    refine ⟨?_, fun _ => ⟨hbatch.symm, by rw [htarget]; exact hpos⟩⟩
    intro id hid
    rw [hids] at hid
    rw [hbatch, htarget]
    rcases List.mem_append.mp hid with hold | hnew
    · obtain ⟨hsame, hfixed⟩ := h.target (List.ne_nil_of_mem hold)
      rw [h.prefills id hold, ← hsame, hmatch hfixed]
    · rw [List.mem_singleton.mp hnew, hcontext]

theorem Bucketing.fixed (hbucketing : Bucketing p g p')
    (h : 0 ≤ p.targetContextLen ∧ p.output.batchContextLen = p.targetContextLen) :
    p'.targetContextLen = p.targetContextLen ∧
      p'.output.batchContextLen = p.output.batchContextLen := by
  cases hbucketing with
  | same ho ht => exact ⟨ht, by rw [ho]⟩
  | joined hmatch hids ht hbatch =>
    have htarget : p'.targetContextLen = p.targetContextLen := by
      rcases ht with hset | ⟨hkept, -⟩
      · exact hset.trans (hmatch h.1)
      · exact hkept
    exact ⟨htarget, hbatch.trans (htarget.trans h.2.symm)⟩

theorem considerGroups_fixed : ∀ p : WaitingPass σ,
      p.sch.config.enforceHomogeneousBatchNPast = true →
      0 ≤ p.targetContextLen ∧ p.output.batchContextLen = p.targetContextLen →
      (rest.foldl (WaitingPass.considerGroup queueLen choose) p).output.batchContextLen =
        p.output.batchContextLen := by
  induction rest with
  | nil => intro p _ _; rfl
  | cons g rest ih =>
    intro p henforce h
    obtain ⟨htarget, hbatch⟩ :=
      (considerGroup_bucketing queueLen choose p g henforce).fixed h
    have hconfig := (considerGroup_outcome queueLen choose p g).frame.2
    rw [List.foldl_cons, ih _ (by rw [hconfig]; exact henforce) ?_, hbatch]
    rw [htarget, hbatch]
    exact h

/-- **The loop over the queue** fills one bucket. -/
theorem considerGroups_bucketed
    (henforce : s₀.config.enforceHomogeneousBatchNPast = true) (hnonneg : ContextsNonneg s₀)
    (rest : List SequenceGroup) : ∀ p : WaitingPass σ, PassListing s₀ p (rest ++ p.stillWaiting) →
      (∀ g ∈ rest, g.sequenceId ∉ p.output.prefillSeqIds) → Bucketed s₀ p →
      Bucketed s₀ (rest.foldl (WaitingPass.considerGroup queueLen choose) p) := by
  induction rest with
  | nil => intro p _ _ h; exact h
  | cons g rest ih =>
    intro p h hnew hbucketed
    obtain ⟨hnext, hunlisted⟩ := h.turn hnew queueLen choose
    have hcontext : p.sch.getSequenceContextLen g.sequenceId =
        s₀.getSequenceContextLen g.sequenceId := by
      unfold getSequenceContextLen
      rw [h.listing.context g (by simp)]
    have hbucketing := considerGroup_bucketing queueLen choose p g
      (by rw [h.listing.config]; exact henforce)
    refine ih _ hnext hunlisted (hbucketing.bucketed hbucketed hcontext ?_)
    rw [hcontext]
    exact hnonneg _

/-- After the pass over the waiting groups all prefills share one context length. -/
theorem scheduleWaiting_bucketed (henforce : s₀.config.enforceHomogeneousBatchNPast = true)
    (hnonneg : ContextsNonneg s₀) (h : Listed s₀ s o) (hempty : o.prefillSeqIds = [])
    (choice : ScheduleChoice) (choose : Int → AllocChoice) (cap : Int) :
    let r := s.scheduleWaiting choice choose o cap
    (∀ id ∈ r.2.prefillSeqIds, r.1.getSequenceContextLen id = r.2.batchContextLen) ∧
      (0 ≤ o.batchContextLen → r.2.batchContextLen = o.batchContextLen) := by
  intro r
  have hperm := sortedQueue_perm s choice.arrangement
  have hafter : Listed s₀ r.1 r.2 := scheduleWaiting_listed h hempty choice choose cap
  have hstart : PassListing s₀ (passStart s o cap) (s.sortedQueue choice.arrangement ++ []) := by
    rw [List.append_nil]
    refine ⟨h.machine.perm hperm, h.listing.perm hperm, h.tally, ?_⟩
    show s.config.maxNumBatchedTokens - o.totalTokens + o.totalTokens = _
    rw [h.listing.config]
    omega
  have hloop := considerGroups_bucketed (s.sortedQueue choice.arrangement).length choose henforce
    hnonneg _ _ hstart (by rw [hempty]; simp)
    ⟨by rw [hempty]; simp, fun hne => absurd hempty hne⟩
  have hfixed := considerGroups_fixed (s.sortedQueue choice.arrangement).length choose
    (s.sortedQueue choice.arrangement)
    (passStart s o cap) (by rw [h.listing.config]; exact henforce)
  -- The reasons that are noted at the end are no part of this.
  have hids : r.2.prefillSeqIds = ((s.sortedQueue choice.arrangement).foldl
      (WaitingPass.considerGroup (s.sortedQueue choice.arrangement).length choose)
      (passStart s o cap)).output.prefillSeqIds := by
    show (s.scheduleWaiting choice choose o cap).2.prefillSeqIds = _
    unfold scheduleWaiting
    dsimp only
    split <;> rfl
  have hbatch : r.2.batchContextLen = ((s.sortedQueue choice.arrangement).foldl
      (WaitingPass.considerGroup (s.sortedQueue choice.arrangement).length choose)
      (passStart s o cap)).output.batchContextLen := by
    show (s.scheduleWaiting choice choose o cap).2.batchContextLen = _
    unfold scheduleWaiting
    dsimp only
    split <;> rfl
  refine ⟨?_, ?_⟩
  · intro id hid
    have hchunk := hid
    rw [← hafter.tally.chunkIds] at hchunk
    obtain ⟨c, hc, rfl⟩ := List.mem_map.mp hchunk
    obtain ⟨g, hg, hgid, -⟩ := hafter.listing.chunks c hc
    have hsame : r.1.getSequenceContextLen c.seqId = s₀.getSequenceContextLen c.seqId := by
      unfold getSequenceContextLen
      rw [← hgid, hafter.listing.context g hg]
    rw [hsame, hbatch]
    rw [hids] at hid
    exact hloop.prefills _ hid
  intro hpos
  rw [hbatch]
  exact hfixed ⟨hpos, rfl⟩

/-! ### The decoded sequences -/

theorem pickRunning_bucket {now : Nat} {p : RunningPass} {id : Int}
    (h : s.pickRunning now p = some id) : s.inContextBucket p id = true := by
  unfold pickRunning at h
  split at h
  · rename_i id' fit hbest
    cases h
    exact ((Bool.and_eq_true ..).mp (bestRunning_spec hbest).2).1
  split at h
  · exact List.find?_some h
  · cases h

/-- The decoded sequences have the target for their context. -/
structure DecodeBucketed (s : Scheduler σ) (p : RunningPass) : Prop where
  decodes : ∀ id ∈ p.output.decodeSeqIds, s.getSequenceContextLen id = p.targetContextLen
  target : p.output.decodeSeqIds ≠ [] → 0 ≤ p.targetContextLen

section

variable (hhomogeneous : s.config.decodeHomogeneousBatchNPast = true)

include hhomogeneous

theorem DecodeBucketed.taken
    (hnonneg : ContextsNonneg s) {now : Nat} {p : RunningPass} {id : Int} (h : DecodeBucketed s p)
    (hpick : s.pickRunning now p = some id) : DecodeBucketed s (s.taken p id) := by
  have hbucket := pickRunning_bucket hpick
  have htarget : (s.taken p id).targetContextLen = s.getSequenceContextLen id := by
    show (if p.targetContextLen < 0 then s.getSequenceContextLen id else p.targetContextLen) = _
    split
    · rfl
    rename_i hfixed
    have hpos : 0 ≤ p.targetContextLen := Int.not_lt.mp hfixed
    by_contra hne
    have hout : s.inContextBucket p id = false := by
      simp [inContextBucket, hhomogeneous, hpos, Ne.symm hne]
    rw [hout] at hbucket
    cases hbucket
  refine ⟨?_, ?_⟩
  · intro x hx
    rw [htarget]
    rcases List.mem_append.mp hx with hold | hnew
    · have hfixed := h.target (List.ne_nil_of_mem hold)
      rw [h.decodes x hold, ← htarget]
      exact (if_neg (Int.not_lt.mpr hfixed)).symm
    · rw [List.mem_singleton.mp hnew]
  intro _
  rw [htarget]
  exact hnonneg id

theorem runningRounds_bucketed
    (hnonneg : ContextsNonneg s) (now : Nat) : ∀ (n : Nat) (p : RunningPass),
      DecodeBucketed s p → DecodeBucketed s (s.runningRounds now n p) := by
  intro n
  induction n with
  | zero => exact fun p h => h
  | succ n ih =>
    intro p h
    rcases runningRounds_cases s now n p with ⟨heq, -⟩ | ⟨id, hpick, -, heq⟩
    · rw [heq]
      exact h
    rw [heq]
    exact ih _ (h.taken hhomogeneous hnonneg hpick)

theorem scheduleRunning_bucketed
    (hnonneg : ContextsNonneg s) (hempty : o.decodeSeqIds = []) (choice : ScheduleChoice) :
    ∃ context, ∀ id ∈ (s.scheduleRunning choice o).decodeSeqIds,
      s.getSequenceContextLen id = context := by
  have hbegin : DecodeBucketed s (s.decodeBegin choice o) := by
    refine ⟨?_, ?_⟩
    · show ∀ id ∈ o.decodeSeqIds, _
      rw [hempty]
      simp
    · exact fun hne => absurd hempty hne
  have hend := runningRounds_bucketed hhomogeneous hnonneg choice.now
    (s.decodeOrder choice).length _ hbegin
  have hnoted : ∀ o : SchedulerOutput, (s.noteUndecodable o).decodeSeqIds = o.decodeSeqIds := by
    intro o
    obtain ⟨reason, hnote⟩ := noteUndecodable_spec s o
    rw [hnote]
  rw [scheduleRunning_eq]
  split
  · rw [hnoted, hempty]
    exact ⟨0, by simp⟩
  refine ⟨(s.decodeEnd choice o).targetContextLen, ?_⟩
  split
  · rw [hnoted]
    exact hend.decodes
  · exact hend.decodes

end

theorem decodeContextBucket_spec (hnonneg : ContextsNonneg s) (ids : List Int) :
    ∀ {bucket result : Int}, s.decodeContextBucket bucket ids = some result →
      (∀ id ∈ ids, s.getSequenceContextLen id = result) ∧ (0 ≤ bucket → result = bucket) := by
  induction ids with
  | nil =>
    intro bucket result h
    cases h
    exact ⟨by simp, fun _ => rfl⟩
  | cons id rest ih =>
    intro bucket result h
    unfold decodeContextBucket at h
    split at h
    · rename_i hopen
      obtain ⟨hrest, hfixed⟩ := ih h
      have hresult := hfixed (hnonneg id)
      refine ⟨?_, fun hpos => absurd hpos (Int.not_le.mpr hopen)⟩
      rintro x (_ | ⟨_, hx⟩)
      · exact hresult.symm
      · exact hrest x hx
    rename_i hset
    split at h
    · cases h
    rename_i hsame
    obtain ⟨hrest, hfixed⟩ := ih h
    have hresult := hfixed (Int.not_lt.mp hset)
    refine ⟨?_, fun _ => hresult⟩
    rintro x (_ | ⟨_, hx⟩)
    · exact (not_not.mp hsame).symm.trans hresult.symm
    · exact hrest x hx

/-! ### One call

The first prefill fixes the context length of a batch. All others are measured against it,
and decoded sequences against the bucket.
-/

/-- The context lengths in the batch of a call, read when the call is over. -/
structure OneContext (s : Scheduler σ) (o : SchedulerOutput) (decodesShare : Bool) : Prop where
  prefills : ∀ id ∈ o.prefillSeqIds, s.getSequenceContextLen id = o.batchContextLen
  mixed : o.prefillSeqIds ≠ [] → ∀ id ∈ o.decodeSeqIds,
    s.getSequenceContextLen id = o.batchContextLen
  decodes : decodesShare = true → ∃ context, ∀ id ∈ o.decodeSeqIds,
    s.getSequenceContextLen id = context

theorem considerGroups_running_context {x : Int} : ∀ p : WaitingPass σ,
    Machine p.sch (rest ++ p.stillWaiting) → x ∈ p.sch.runningSeqs →
      (rest.foldl (WaitingPass.considerGroup queueLen choose) p).sch.seqContextLen x =
        p.sch.seqContextLen x := by
  intro p h hx
  refine (considerGroups_other
    (Q := fun s => x ∈ s.runningSeqs ∧ s.seqContextLen x = p.sch.seqContextLen x)
    (fun hm hx hw => hm.waitingNotRunning x hw hx.1) ?_ queueLen choose rest p h ⟨hx, rfl⟩).2
  rintro s gs s' gs' id hmoved hne ⟨hx, hsame⟩
  exact ⟨(hmoved.running x hne).mpr hx, (hmoved.records x hne).context.trans hsame⟩

theorem scheduleWaiting_running_context (h : Machine s s.waitingQueue) (choice : ScheduleChoice)
    (choose : Int → AllocChoice) (cap : Int) {x : Int} (hx : x ∈ s.runningSeqs) :
    (s.scheduleWaiting choice choose o cap).1.getSequenceContextLen x =
      s.getSequenceContextLen x := by
  have hsame := considerGroups_running_context (s.sortedQueue choice.arrangement).length choose
    (s.sortedQueue choice.arrangement) (passStart s o cap)
    (by rw [List.append_nil]; exact h.perm (sortedQueue_perm s _)) hx
  unfold getSequenceContextLen
  exact congrArg (Option.getD · 0) hsame

theorem OneContext.of_prefills {decodesShare : Bool}
    (hprefills : ∀ id ∈ o.prefillSeqIds, s.getSequenceContextLen id = o.batchContextLen)
    (hnone : o.decodeSeqIds = []) : OneContext s o decodesShare :=
  ⟨hprefills, by rw [hnone]; simp, fun _ => ⟨0, by rw [hnone]; simp⟩⟩

/-- The decodes that are added share it too. -/
theorem finishDecode_oneContext (henforce : s₀.config.enforceHomogeneousBatchNPast = true)
    (hnonneg₀ : ContextsNonneg s₀) (hnonneg : ContextsNonneg s) (h : Listed s₀ s o)
    (hempty : o.prefillSeqIds = []) (choice : ScheduleChoice) {decodesShare : Bool}
    (hdecodes : decodesShare = true → ∃ context, ∀ id ∈ o.decodeSeqIds,
      s.getSequenceContextLen id = context) :
    OneContext (s.finishDecode choice o).1 (s.finishDecode choice o).2 decodesShare := by
  unfold finishDecode
  dsimp only
  split
  · refine ⟨?_, fun hne => absurd hempty hne, hdecodes⟩
    show ∀ id ∈ o.prefillSeqIds, _
    rw [hempty]
    simp
  rename_i bucket cap hmixed
  -- The cap is there only if the decodes have been found to share a context.
  have hbucket : s.decodeContextBucket (-1) o.decodeSeqIds = some bucket ∧ 0 ≤ bucket := by
    split at hmixed
    · unfold mixedPrefillCap at hmixed
      split at hmixed
      · cases hmixed
      rename_i bucket' hfound
      dsimp only at hmixed
      split at hmixed
      · rename_i hcap
        obtain ⟨rfl, -⟩ := Prod.mk.inj (Option.some.inj hmixed)
        exact ⟨hfound, hcap.1⟩
      · cases hmixed
    · cases hmixed
  obtain ⟨hshare, -⟩ := decodeContextBucket_spec hnonneg _ hbucket.1
  have hlisted : Listed s₀ s { o with batchContextLen := bucket } :=
    ⟨h.machine, { h.listing with }, { h.tally with }⟩
  obtain ⟨hprefills, hfixed⟩ := scheduleWaiting_bucketed henforce hnonneg₀ hlisted hempty choice
    choice.allocFallback cap
  have hids := scheduleWaiting_decodes s choice choice.allocFallback
    { o with batchContextLen := bucket } cap
  have hcontexts : ∀ id ∈ o.decodeSeqIds, (s.scheduleWaiting choice choice.allocFallback
      { o with batchContextLen := bucket } cap).1.getSequenceContextLen id = bucket := by
    intro id hid
    rw [scheduleWaiting_running_context h.machine choice _ cap (h.listing.decodes id hid)]
    exact hshare id hid
  refine ⟨hprefills, ?_, fun _ => ⟨bucket, ?_⟩⟩
  · intro _ id hid
    rw [hids] at hid
    rw [hfixed hbucket.2]
    exact hcontexts id hid
  intro id hid
  rw [hids] at hid
  exact hcontexts id hid

theorem scheduleDecodeFirst_oneContext (henforce : s₀.config.enforceHomogeneousBatchNPast = true)
    (hnonneg₀ : ContextsNonneg s₀) (hnonneg : ContextsNonneg s) (h : Listed s₀ s o)
    (hempty : Unlisted o) (choice : ScheduleChoice) :
    OneContext (s.scheduleDecodeFirst choice o).1 (s.scheduleDecodeFirst choice o).2
      s.config.decodeHomogeneousBatchNPast := by
  have hdecoded := scheduleRunning_listed h hempty choice
  have hprefills : (s.scheduleRunning choice o).prefillSeqIds = [] := by
    obtain ⟨ids, context, reason, hout, -, -⟩ := scheduleRunning_spec s choice o
    rw [hout]
    exact hempty.1
  unfold scheduleDecodeFirst
  dsimp only
  split
  · exact finishDecode_oneContext henforce hnonneg₀ hnonneg hdecoded hprefills choice
      fun hshare => scheduleRunning_bucketed hshare hnonneg hempty.2 choice
  rename_i hnone
  obtain ⟨hbucket, -⟩ := scheduleWaiting_bucketed henforce hnonneg₀ hdecoded hprefills choice
    choice.allocFallback (-1)
  have hids := (scheduleWaiting_decodes s choice choice.allocFallback
    (s.scheduleRunning choice o) (-1)).trans (not_not.mp hnone)
  split <;> split <;> exact .of_prefills hbucket hids

/-- **One call of `Schedule` makes a batch of one context.** -/
theorem schedule_oneContext (h : Machine s s.waitingQueue) (hnonneg : ContextsNonneg s)
    (henforce : s.config.enforceHomogeneousBatchNPast = true)
    (hisolate : s.config.isolatePrefillDecode = true) (choice : ScheduleChoice) :
    OneContext (s.schedule choice).1 (s.schedule choice).2
      s.config.decodeHomogeneousBatchNPast := by
  have hlisted := swappedIn_listed h choice
  have hunlisted := swappedIn_unlisted s choice
  have hnonneg₁ := swappedIn_contexts hnonneg choice
  rw [schedule_eq, hlisted.listing.config, if_pos hisolate, ← hlisted.listing.config]
  unfold scheduleIsolated
  split
  · have hwaiting := scheduleWaiting_listed hlisted hunlisted.1 choice choice.allocWaiting (-1)
    have hids := (scheduleWaiting_decodes (s.swappedIn choice).1 choice choice.allocWaiting
      (s.swappedIn choice).2 (-1)).trans hunlisted.2
    dsimp only
    split
    · obtain ⟨hbucket, -⟩ := scheduleWaiting_bucketed henforce hnonneg hlisted hunlisted.1 choice
        choice.allocWaiting (-1)
      exact .of_prefills hbucket hids
    rename_i hnone
    have hfirst := scheduleDecodeFirst_oneContext henforce hnonneg
      (scheduleWaiting_contexts hnonneg₁ choice choice.allocWaiting (-1)) hwaiting
      ⟨not_not.mp hnone, hids⟩ choice
    rwa [hwaiting.listing.config, ← hlisted.listing.config] at hfirst
  · exact scheduleDecodeFirst_oneContext henforce hnonneg hnonneg₁ hlisted hunlisted choice

/-! ### The other calls -/

theorem advanceContext_contexts (h : ContextsNonneg s) (id tokens : Int)
    (hpos : 0 < tokens) : ContextsNonneg (s.advanceContext id tokens) := by
  refine h.update rfl ?_
  have hold := h id
  show 0 ≤ s.getSequenceContextLen id + tokens
  omega

theorem onPrefillChunkComplete_contexts (h : ContextsNonneg s) (id tokens : Int)
    (finished : Bool) : ContextsNonneg (s.onPrefillChunkComplete id tokens finished) := by
  unfold onPrefillChunkComplete
  dsimp only
  split
  · exact h
  rename_i hargs
  have hadvanced := advanceContext_contexts h id tokens (by omega)
  split
  · split <;> exact hadvanced
  · split <;> exact hadvanced

theorem onDecodeStepComplete_contexts (h : ContextsNonneg s) (id tokens : Int) :
    ContextsNonneg (s.onDecodeStepComplete id tokens) := by
  unfold onDecodeStepComplete
  dsimp only
  split
  · exact h
  have hmarked : ContextsNonneg (s.markRunning id) := h
  exact advanceContext_contexts hmarked id _ (by omega)

theorem updateProgress_contexts (h : ContextsNonneg s) (id tokens : Int) :
    ContextsNonneg (s.updateProgress id tokens) := by
  unfold updateProgress
  split
  · exact h
  split
  · exact onPrefillChunkComplete_contexts h id tokens _
  · exact onDecodeStepComplete_contexts h id tokens

theorem updateProgressBatch_contexts (updates : List (Int × Int)) (h : ContextsNonneg s) :
    ContextsNonneg (s.updateProgressBatch updates) := by
  rw [updateProgressBatch_eq]
  induction updates generalizing s with
  | nil => exact h
  | cons u rest ih => exact ih (updateProgress_contexts h u.1 u.2)

theorem removeRequest_contexts (h : ContextsNonneg s) (id : Int) (finished : Bool) :
    ContextsNonneg (s.removeRequest id finished) := by
  unfold removeRequest
  dsimp only
  split <;> exact h.update rfl (Int.le_refl 0)

end Scheduler

namespace Client

open Scheduler Option

variable {σ : Type} {c : Client σ}

theorem addRequest_contexts (h : ContextsNonneg c.sch) (salt : UInt64) (r : NewRequest σ) :
    ContextsNonneg (c.addRequest salt r).sch := by
  unfold Client.addRequest Scheduler.addRequest
  dsimp only
  split
  · exact h
  refine h.update rfl ?_
  rw [getD_some]
  -- Whatever the lookup has found, a prefix is recorded only if it is one.
  generalize (ite (Option.any _ r.prefixTokens = true) _ _ :
    BlockManager.PrefixCacheMatch × BlockManager σ) = found
  split
  · rename_i hhit
    exact Int.le_of_lt hhit.1
  · exact Int.le_refl 0

theorem step_contexts (h : ContextsNonneg c.sch) (salt : UInt64) (call : Call σ) :
    ContextsNonneg (c.step salt call).sch := by
  cases call with
  | addRequest r => exact addRequest_contexts h salt r
  | removeRequest id finished => exact removeRequest_contexts h id finished
  | schedule choice => exact schedule_contexts h choice
  | setPredictedExperts id experts =>
    show ContextsNonneg (c.sch.setPredictedExperts id experts)
    unfold Scheduler.setPredictedExperts
    split
    · exact h
    · exact h
  | onPrefillChunkComplete id tokens finished =>
    exact onPrefillChunkComplete_contexts h id tokens finished
  | onDecodeStepComplete id tokens => exact onDecodeStepComplete_contexts h id tokens
  | updateProgress id tokens => exact updateProgress_contexts h id tokens
  | updateProgressBatch updates => exact updateProgressBatch_contexts updates h
  | useManager op => exact h

theorem run_contexts (salt : UInt64) (calls : List (Call σ)) : ∀ c : Client σ,
    ContextsNonneg c.sch → ContextsNonneg (c.run salt calls).sch := by
  induction calls with
  | nil => exact fun c h => h
  | cons call rest ih => exact fun c h => ih _ (step_contexts h salt call)

/-- **Context homogeneity.**  In every state a legal run reaches, with homogeneous prefill
batches and isolated phases configured: the prompts of a batch have one context length,
which is the one the batch records; so have the sequences decoded beside them; and with
homogeneous decode batches configured all decoded sequences share a context length. -/
theorem schedule_context_homogeneous (salt : UInt64) (bm : BlockManager σ)
    (config : SchedulerConfig) (calls : List (Call σ))
    (hlegal : LegalRun salt (init bm config) calls)
    (henforce : config.enforceHomogeneousBatchNPast = true)
    (hisolate : config.isolatePrefillDecode = true) (choice : ScheduleChoice) :
    let s := ((init bm config).run salt calls).sch
    OneContext (s.schedule choice).1 (s.schedule choice).2 config.decodeHomogeneousBatchNPast := by
  intro s
  have hready : Ready ((init bm config).run salt calls) :=
    Ready.run salt calls _ (init_ready bm config) hlegal
  have hconfig : s.config = (Scheduler.init bm config).config := run_config salt calls _
  have hnonneg : ContextsNonneg s := run_contexts salt calls _ fun _ => Int.le_refl 0
  have hone := schedule_oneContext hready.machine hnonneg
    (by rw [hconfig]; exact henforce) (by rw [hconfig]; exact hisolate) choice
  rwa [hconfig] at hone

/-- Two prompts of one length are prefilled in one batch. -/
theorem two_prompts_one_context :
    let s := ((init (BlockManager.init 8 16 : BlockManager Unit) {}).run 0 (twoPrompts.take 2)).sch
    OneContext (s.schedule {}).1 (s.schedule {}).2 false :=
  schedule_context_homogeneous 0 (BlockManager.init 8 16) {} (twoPrompts.take 2)
    (by decide +kernel) rfl rfl {}

end Client

end DenseCore
