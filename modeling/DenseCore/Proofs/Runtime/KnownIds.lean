/-
A call of `Schedule` invents no sequence.

Every id the output names, and every id in the queue, the running set or the
swapped set afterwards, stood in one of the three before.  So whatever is closed
under "being one of them" is kept: that the worker has a request for each, that
none of them has been removed.  In the same way the output hands over cached
blocks only if some group of the queue had them.
-/
import DenseCore.Proofs.Runtime.Schedule

namespace DenseCore

open List

/-- The ids an output names; a diagnostic id of `-1` is none. -/
def SchedulerOutput.Names (o : SchedulerOutput) (id : Int) : Prop :=
  id ∈ o.prefillSeqIds ∨ id ∈ o.decodeSeqIds ∨ id ∈ o.preemptedSeqIds ∨ id ∈ o.swapInSeqIds ∨
    id ∈ o.newBlockAllocations.map (·.1) ∨ id ∈ o.freedBlocks.map (·.1) ∨
    id ∈ o.prefixCacheHits.map (·.seqId) ∨ id ∈ o.prefillChunkInfo.map (·.seqId) ∨
    (0 ≤ o.diagnosticSeqId ∧ id = o.diagnosticSeqId)

namespace Scheduler

variable {σ : Type}

/-- Every id in play is one of `K`; and when `off` holds, nothing is cached. -/
structure Within (K : Int → Prop) (off : Prop) (s : Scheduler σ) (gs : List SequenceGroup)
    (o : SchedulerOutput) : Prop where
  groups : ∀ g ∈ gs, K g.sequenceId
  running : ∀ id ∈ s.runningSeqs, K id
  swapped : ∀ id ∈ s.swappedSeqs, K id
  prefills : ∀ id ∈ o.prefillSeqIds, K id
  decodes : ∀ id ∈ o.decodeSeqIds, K id
  preempted : ∀ id ∈ o.preemptedSeqIds, K id
  swapIns : ∀ id ∈ o.swapInSeqIds, K id
  allocations : ∀ a ∈ o.newBlockAllocations, K a.1
  hits : ∀ h ∈ o.prefixCacheHits, K h.seqId
  unshared : off → ∀ g ∈ gs, g.sharedBlockIds = []
  uncached : off → o.prefixCacheHits = []

variable {K : Int → Prop} {off : Prop} {s s' : Scheduler σ} {gs gs' : List SequenceGroup}
  {o o' : SchedulerOutput} {g : SequenceGroup} {p p' : WaitingPass σ}

theorem Within.perm (h : Within K off s gs o) (hp : gs'.Perm gs) : Within K off s gs' o :=
  { h with
    groups := fun g hg => h.groups g (hp.mem_iff.mp hg)
    unshared := fun hoff g hg => h.unshared hoff g (hp.mem_iff.mp hg) }

theorem Within.of_same (h : Within K off s gs o) (hr : s'.runningSeqs = s.runningSeqs)
    (hsw : s'.swappedSeqs = s.swappedSeqs) : Within K off s' gs o :=
  { h with
    running := by rw [hr]; exact h.running
    swapped := by rw [hsw]; exact h.swapped }

/-! ### The waiting pass -/

theorem Within.schedulePrefill (h : Within K off p.sch (g :: gs) p.output)
    (bs new : List Int) (tokens : Int) :
    Within K off (p.schedulePrefill g bs new tokens).sch (handedOver g :: gs)
      (p.schedulePrefill g bs new tokens).output := by
  have hg : K g.sequenceId := h.groups g (by simp)
  refine ⟨?_, h.running, h.swapped, ?_, h.decodes, h.preempted, h.swapIns, ?_, ?_, ?_, ?_⟩
  · intro g' hg'
    rcases mem_cons.mp hg' with rfl | hold
    · rw [handedOver_sequenceId]; exact hg
    · exact h.groups g' (mem_cons_of_mem _ hold)
  · intro id hid
    rcases mem_append.mp hid with hold | hnew
    · exact h.prefills id hold
    obtain rfl : id = g.sequenceId := by simpa using hnew
    exact hg
  · intro a ha
    simp only [WaitingPass.schedulePrefill] at ha
    split at ha
    · exact h.allocations a ha
    rcases mem_append.mp ha with hold | hnew
    · exact h.allocations a hold
    obtain rfl : a = (g.sequenceId, new) := by simpa using hnew
    exact hg
  · intro hit hhit
    simp only [WaitingPass.schedulePrefill] at hhit
    split at hhit
    · rcases mem_append.mp hhit with hold | hnew
      · exact h.hits hit hold
      obtain rfl : hit = ⟨g.sequenceId, g.sharedPrefixLen, g.sharedBlockIds⟩ := by
        simpa using hnew
      exact hg
    · exact h.hits hit hhit
  · intro hoff g' hg'
    rcases mem_cons.mp hg' with rfl | hold
    · unfold handedOver
      split
      · rfl
      · exact h.unshared hoff g (by simp)
    · exact h.unshared hoff g' (mem_cons_of_mem _ hold)
  intro hoff
  simp only [WaitingPass.schedulePrefill]
  rw [if_neg fun hhit => hhit.2 (h.unshared hoff g (by simp))]
  exact h.uncached hoff

theorem Within.tail (h : Within K off s (g :: gs) o) : Within K off s gs o :=
  { h with
    groups := fun g' hg' => h.groups g' (mem_cons_of_mem _ hg')
    unshared := fun hoff g' hg' => h.unshared hoff g' (mem_cons_of_mem _ hg') }

theorem Outcome.within (hout : Outcome p g p') (h : Within K off p.sch (g :: gs) p.output) :
    ∃ back, p'.stillWaiting = p.stillWaiting ++ back ∧
      Within K off p'.sch (back ++ gs) p'.output := by
  cases hout with
  | kept hs ho hw =>
    refine ⟨[g], hw, ?_⟩
    rw [hs, ho]
    exact h
  | recorded _ hs ho hw =>
    refine ⟨[g], hw, ?_⟩
    rw [hs, ho]
    exact h.of_same rfl rfl
  | ran _ hs ho hw =>
    refine ⟨[], by rw [hw, append_nil], ?_⟩
    rw [hs, ho]
    refine { h.tail with running := ?_ }
    intro id hid
    rcases mem_insert_iff.mp hid with rfl | hold
    · exact h.groups g (by simp)
    · exact h.running id hold
  | dropped _ _ hs ho hw =>
    refine ⟨[], by rw [hw, append_nil], ?_⟩
    rw [hs, ho]
    exact
      { h.tail with
        running := fun id hid => h.running id (mem_filter.mp hid).1
        swapped := fun id hid => h.swapped id (mem_filter.mp hid).1 }
  | scheduled tokens new m _ _ hp =>
    subst hp
    have hm : Within K off (p.withManager g m).sch (g :: gs) (p.withManager g m).output :=
      h.of_same rfl rfl
    exact ⟨[handedOver g], rfl, hm.schedulePrefill (p.seqBlocks g) new tokens⟩

theorem considerGroups_within (queueLen : Nat) (choose : Int → AllocChoice)
    (rest : List SequenceGroup) :
    ∀ p : WaitingPass σ, Within K off p.sch (rest ++ p.stillWaiting) p.output →
      let p' := rest.foldl (WaitingPass.considerGroup queueLen choose) p
      Within K off p'.sch p'.stillWaiting p'.output := by
  exact considerGroups_rule (P := fun p gs => Within K off p.sch gs p.output) queueLen choose
    (fun _ _ _ hperm h => h.perm hperm)
    (fun p g _ h => (considerGroup_outcome queueLen choose p g).within h) rest

theorem scheduleWaiting_within (h : Within K off s s.waitingQueue o) (choice : ScheduleChoice)
    (choose : Int → AllocChoice) (cap : Int) :
    Within K off (s.scheduleWaiting choice choose o cap).1
      (s.scheduleWaiting choice choose o cap).1.waitingQueue
      (s.scheduleWaiting choice choose o cap).2 := by
  have hloop := considerGroups_within (s.sortedQueue choice.arrangement).length choose
    (s.sortedQueue choice.arrangement) (passStart s o cap)
    (by rw [append_nil]; exact h.perm (sortedQueue_perm s _))
  unfold scheduleWaiting
  dsimp only [passStart] at hloop ⊢
  generalize List.foldl _ _ _ = q at hloop ⊢
  split
  · exact { hloop with }
  · exact { hloop with }

/-! ### The other passes -/

theorem preemptSequences_within (h : Within K off s s.waitingQueue o) (choice : ScheduleChoice) :
    Within K off (s.preemptSequences choice o).1 (s.preemptSequences choice o).1.waitingQueue
      (s.preemptSequences choice o).2 := by
  unfold preemptSequences
  dsimp only
  split
  · exact h
  split
  · exact h
  rename_i hvictim
  have hK := h.running _ (selectPreemptionVictim_mem s choice hvictim)
  refine { h with running := ?_, swapped := ?_, preempted := ?_ }
  · intro id hid
    exact h.running id (mem_filter.mp hid).1
  · intro id hid
    rcases mem_insert_iff.mp hid with rfl | hold
    · exact hK
    · exact h.swapped id hold
  intro id hid
  rcases mem_append.mp hid with hold | hnew
  · exact h.preempted id hold
  obtain rfl : id = s.selectPreemptionVictim choice := by simpa using hnew
  exact hK

theorem takeIn_within {p : SwapInPass σ} {id : Int} (h : Within K off p.sch gs p.output)
    (hid : K id)
    (new : List Int) : Within K off (p.takeIn id new).sch gs (p.takeIn id new).output := by
  refine { h with running := ?_, swapped := ?_, swapIns := ?_, allocations := ?_ }
  · intro x hx
    rcases mem_insert_iff.mp hx with rfl | hold
    · exact hid
    · exact h.running x hold
  · intro x hx
    exact h.swapped x (mem_filter.mp hx).1
  · intro x hx
    rcases mem_append.mp hx with hold | hnew
    · exact h.swapIns x hold
    obtain rfl : x = id := by simpa using hnew
    exact hid
  intro a ha
  rcases mem_append.mp ha with hold | hnew
  · exact h.allocations a hold
  obtain rfl : a = (id, new) := by simpa using hnew
  exact hid

theorem swapInOne_within (choice : ScheduleChoice) {p : SwapInPass σ} {id : Int}
    (h : Within K off p.sch gs p.output) (hid : K id) :
    Within K off (swapInOne choice p id).sch gs (swapInOne choice p id).output ∧
      (swapInOne choice p id).sch.waitingQueue = p.sch.waitingQueue := by
  unfold swapInOne
  split
  · exact ⟨h, rfl⟩
  split
  · exact ⟨h, rfl⟩
  dsimp only
  split
  · exact ⟨h.of_same rfl rfl, rfl⟩
  have hm : Within K off { p.sch with
      blockManager := (p.sch.blockManager.allocate (p.sch.swapInBlocks id)
        (choice.allocSwapped id)).2 } gs p.output := h.of_same rfl rfl
  exact ⟨takeIn_within (p := { p with sch := _ }) hm hid _, rfl⟩

theorem swapInAll_within (choice : ScheduleChoice) (l : List Int) : ∀ p : SwapInPass σ,
    Within K off p.sch gs p.output → (∀ id ∈ l, K id) →
      Within K off (l.foldl (swapInOne choice) p).sch gs (l.foldl (swapInOne choice) p).output ∧
        (l.foldl (swapInOne choice) p).sch.waitingQueue = p.sch.waitingQueue := by
  induction l with
  | nil => intro p h _; exact ⟨h, rfl⟩
  | cons id rest ih =>
    intro p h hl
    obtain ⟨hone, hqueue⟩ := swapInOne_within choice h (hl id (by simp))
    rw [foldl_cons, ← hqueue]
    exact ih _ hone fun id' hid' => hl id' (mem_cons_of_mem _ hid')

theorem scheduleSwapped_within (h : Within K off s s.waitingQueue o) (choice : ScheduleChoice) :
    Within K off (s.scheduleSwapped choice o).1 (s.scheduleSwapped choice o).1.waitingQueue
      (s.scheduleSwapped choice o).2 := by
  unfold scheduleSwapped
  dsimp only
  split
  · exact h
  split
  · exact h
  obtain ⟨hw, hqueue⟩ := swapInAll_within choice
    (choice.arrangement.sort (s.runsBefore choice.now) (choice.arrangement.arrange s.swappedSeqs))
    ⟨s, o, s.config.maxNumSeqs - s.runningSeqs.length⟩ h (by
      intro id hid
      exact h.swapped id ((choice.arrangement.perm _).mem_iff.mp
        ((sort_perm choice.arrangement _ _).mem_iff.mp hid)))
  rw [hqueue]
  exact hw

theorem scheduleRunning_within (h : Within K off s gs o) (choice : ScheduleChoice) :
    Within K off s gs (s.scheduleRunning choice o) := by
  obtain ⟨ids, context, reason, hout, hsub, -⟩ := scheduleRunning_spec s choice o
  rw [hout]
  refine { h with decodes := ?_ }
  intro id hid
  rcases mem_append.mp hid with hold | hnew
  · exact h.decodes id hold
  · exact h.running id (hsub.subset hnew)

/-- **A call handles known ids only.** -/
theorem schedule_within (h : Within K off s s.waitingQueue {}) (choice : ScheduleChoice) :
    Within K off (s.schedule choice).1 (s.schedule choice).1.waitingQueue (s.schedule choice).2 := by
  have hP : Phases choice fun (s : Scheduler σ) o => Within K off s s.waitingQueue o :=
    { notes := fun _ _ _ _ _ h => h.of_same rfl rfl
      bucket := fun _ _ _ h => { h with }
      preempt := fun _ h => preemptSequences_within h choice
      swapIn := fun _ _ h _ => scheduleSwapped_within h choice
      decode := fun _ _ h _ => scheduleRunning_within h choice
      prefill := fun _ _ choose cap h _ => scheduleWaiting_within h choice choose cap }
  exact hP.schedule h

/-! ### Everything an output names

Beyond the lists above an output has the chunks, which are those of the prefills,
the freed blocks, which nothing writes, and one id for the diagnosis.
-/

/-- The diagnosis is of no group or of a known one. -/
def Diagnosed (K : Int → Prop) (id : Int) : Prop := id = -1 ∨ K id

namespace WaitingPass

variable (p : WaitingPass σ) (g : SequenceGroup)

theorem block_diagnosed (r : SchedulerEmptyReason) (h : Diagnosed K p.diagnosticSeqId)
    (hg : K g.sequenceId) : Diagnosed K (p.block r g).diagnosticSeqId := by
  unfold block
  split
  · exact Or.inr hg
  · exact h

theorem reject_diagnosed (u : SchedulerUnschedulableReason) (h : Diagnosed K p.diagnosticSeqId)
    (hg : K g.sequenceId) : Diagnosed K (p.reject u g).diagnosticSeqId := by
  unfold reject
  split
  · exact Or.inr hg
  · exact h

theorem admitGroup_diagnosed (choose : Int → AllocChoice) (tokens : Int)
    (h : Diagnosed K p.diagnosticSeqId) (hg : K g.sequenceId) :
    Diagnosed K (p.admitGroup choose g tokens).diagnosticSeqId := by
  have hadmitted := admitGroup_admitted choose p g tokens
  generalize p.admitGroup choose g tokens = p' at hadmitted ⊢
  cases hadmitted with
  | exceeds => exact reject_diagnosed (p.recordBlocks g) g _ h hg
  | blocked => exact block_diagnosed (p.recordBlocks g) g _ h hg
  | scheduled => exact h

theorem considerGroup_diagnosed (queueLen : Nat) (choose : Int → AllocChoice)
    (h : Diagnosed K p.diagnosticSeqId) (hg : K g.sequenceId) :
    Diagnosed K (p.considerGroup queueLen choose g).diagnosticSeqId := by
  have hconsidered := considerGroup_considered queueLen choose p g
  generalize p.considerGroup queueLen choose g = p' at hconsidered ⊢
  cases hconsidered with
  | blocked r _ => exact block_diagnosed p g r h hg
  | ran => exact h
  | dropped => exact reject_diagnosed p g _ h hg
  | admitted => exact admitGroup_diagnosed p g choose _ h hg

end WaitingPass

/-- What an output says besides the lists of `Within`. -/
structure Named (K : Int → Prop) (o : SchedulerOutput) (diagnosis : Int) : Prop where
  chunkIds : o.prefillChunkInfo.map (·.seqId) = o.prefillSeqIds
  freed : o.freedBlocks = []
  diagnosed : Diagnosed K diagnosis
  reported : Diagnosed K o.diagnosticSeqId

theorem Outcome.named (hout : Outcome p g p') (h : Named K p.output p.diagnosticSeqId)
    (hdiag : Diagnosed K p'.diagnosticSeqId) : Named K p'.output p'.diagnosticSeqId := by
  cases hout with
  | kept hs ho hw => rw [ho]; exact { h with diagnosed := hdiag }
  | recorded _ hs ho hw => rw [ho]; exact { h with diagnosed := hdiag }
  | ran _ hs ho hw => rw [ho]; exact { h with diagnosed := hdiag }
  | dropped _ _ hs ho hw => rw [ho]; exact { h with diagnosed := hdiag }
  | scheduled tokens new m _ _ hp =>
    subst hp
    refine ⟨?_, h.freed, hdiag, h.reported⟩
    show (p.output.prefillChunkInfo ++ [(⟨g.sequenceId, tokens⟩ : PrefillChunkInfo)]).map
      PrefillChunkInfo.seqId = p.output.prefillSeqIds ++ [g.sequenceId]
    rw [map_append, h.chunkIds]
    rfl

theorem considerGroups_named (queueLen : Nat) (choose : Int → AllocChoice)
    (rest : List SequenceGroup) : ∀ p : WaitingPass σ, (∀ g ∈ rest, K g.sequenceId) →
      Named K p.output p.diagnosticSeqId →
      let p' := rest.foldl (WaitingPass.considerGroup queueLen choose) p
      Named K p'.output p'.diagnosticSeqId := by
  induction rest with
  | nil => intro p _ h; exact h
  | cons g rest ih =>
    intro p hK h
    rw [foldl_cons]
    refine ih _ (fun g' hg' => hK g' (mem_cons_of_mem _ hg')) ?_
    exact (considerGroup_outcome queueLen choose p g).named h
      (WaitingPass.considerGroup_diagnosed p g queueLen choose h.diagnosed (hK g (by simp)))

/-- **Every id an output names was in play when the call began.** -/
theorem schedule_names (h : Within K off s s.waitingQueue {}) (choice : ScheduleChoice) {id : Int}
    (hnames : (s.schedule choice).2.Names id) : K id := by
  have hP : Phases choice fun (s : Scheduler σ) o =>
      Within K off s s.waitingQueue o ∧ Named K o (-1) := by
    refine ⟨⟨?_, ?_, ?_, ?_⟩, ?_, ?_⟩
    · exact fun s o e u n h => ⟨h.1.of_same rfl rfl, h.2⟩
    · exact fun s o context h => ⟨{ h.1 with }, { h.2 with }⟩
    · intro s o h _
      refine ⟨scheduleRunning_within h.1 choice, ?_⟩
      obtain ⟨ids, context, reason, hout, -, -⟩ := scheduleRunning_spec s choice o
      rw [hout]
      exact { h.2 with }
    · intro s o choose cap h _
      refine ⟨scheduleWaiting_within h.1 choice choose cap, ?_⟩
      have hloop := considerGroups_named (K := K) (s.sortedQueue choice.arrangement).length choose
        (s.sortedQueue choice.arrangement) (passStart s o cap)
        (fun g hg => h.1.groups g ((sortedQueue_perm s _).mem_iff.mp hg)) h.2
      unfold scheduleWaiting
      dsimp only [passStart] at hloop ⊢
      generalize List.foldl _ _ _ = q at hloop ⊢
      split
      · exact { hloop with diagnosed := Or.inl rfl, reported := hloop.diagnosed }
      · exact { hloop with diagnosed := Or.inl rfl }
    · intro s h
      refine ⟨preemptSequences_within h.1 choice, ?_⟩
      obtain ⟨running, swapped, status, blocks, ids, heq⟩ := preemptSequences_spec s choice {}
      rw [heq]
      exact { h.2 with }
    · intro s o h _
      refine ⟨scheduleSwapped_within h.1 choice, ?_⟩
      obtain ⟨m, running, swapped, status, blocks, ids, allocations, heq⟩ :=
        scheduleSwapped_spec s choice o
      rw [heq]
      exact { h.2 with }
  obtain ⟨hw, hn⟩ := hP.schedule ⟨h, ⟨rfl, rfl, Or.inl rfl, Or.inl rfl⟩⟩
  rcases hnames with h | h | h | h | h | h | h | h | ⟨hpos, h⟩
  · exact hw.prefills id h
  · exact hw.decodes id h
  · exact hw.preempted id h
  · exact hw.swapIns id h
  · obtain ⟨a, ha, rfl⟩ := mem_map.mp h
    exact hw.allocations a ha
  · rw [hn.freed] at h
    simp at h
  · obtain ⟨hit, hhit, rfl⟩ := mem_map.mp h
    exact hw.hits hit hhit
  · rw [hn.chunkIds] at h
    exact hw.prefills id h
  subst h
  rcases hn.reported with hnone | hK
  · omega
  · exact hK

end Scheduler

end DenseCore
