/-
Every pass of `Schedule` moves one sequence at a time.

Preemption takes a sequence from the running set to the swapped set, swap-in takes
it back, and a group of the queue stays where it is, enters the running set because
nothing of its prompt is left, or is cancelled.  So a whole call keeps the
invariant of `Machine`, and what was in play before it is in play after it unless
the call has cancelled it.
-/
import DenseCore.Proofs.Runtime.Machine

namespace DenseCore.Scheduler

open List hiding le_antisymm
open Function (update update_of_ne update_self)

variable {σ : Type} {s s' : Scheduler σ} {gs gs' : List SequenceGroup} {g : SequenceGroup}
  {id : Int} {K : Int → Prop}

/-! ### Single moves -/

theorem Machine.head_notMem (h : Machine s (g :: gs)) : g.sequenceId ∉ gs.map (·.sequenceId) := by
  have hnodup := h.waitingNodup
  rw [map_cons, nodup_cons] at hnodup
  exact hnodup.1

theorem Machine.tail_nodup (h : Machine s (g :: gs)) : (gs.map (·.sequenceId)).Nodup := by
  have hnodup := h.waitingNodup
  rw [map_cons, nodup_cons] at hnodup
  exact hnodup.2

theorem Machine.stay {b : SequenceGroup} (h : Machine s (g :: gs))
    (hsame : ∀ x, SameRecords s s' x) (hr : s'.runningSeqs = s.runningSeqs)
    (hsw : s'.swappedSeqs = s.swappedSeqs) (hn : s'.nextSeqId = s.nextSeqId)
    (hid : b.sequenceId = g.sequenceId) (htok : b.numTokensToProcess = g.numTokensToProcess) :
    Moved s (g :: gs) s' (b :: gs) g.sequenceId := by
  have hplay : InPlay s (g :: gs) g.sequenceId := Or.inl (by simp)
  have hhead : g.sequenceId ∈ (g :: gs).map (·.sequenceId) := by simp
  refine ⟨hn, fun _ => h.bounded _ hplay, fun x _ => hsame x, ?_, ?_, ?_, ?_, ?_, ?_, ?_⟩
  · intro g' hne
    simp only [mem_cons]
    refine ⟨?_, ?_⟩
    · rintro (rfl | hold)
      · exact absurd hid hne
      · exact Or.inr hold
    rintro (rfl | hold)
    · exact absurd rfl hne
    · exact Or.inr hold
  · intro x _
    rw [hr]
  · intro x _
    rw [hsw]
  · rw [map_cons, hid]
    exact nodup_cons.mpr ⟨h.head_notMem, h.tail_nodup⟩
  · rw [hr]; exact h.runningNodup
  · rw [hsw]; exact h.swappedNodup
  refine .waiting ?_ (by rw [hr]; exact h.waitingNotRunning _ hhead)
    (by rw [hsw]; exact h.waitingNotSwapped _ hhead)
  intro g' hg' heq
  rcases mem_cons.mp hg' with rfl | hold
  · have hw := (h.waits g (by simp)).of_same (hsame g.sequenceId)
    refine ⟨?_, ?_, ?_, ?_⟩
    · rw [hid]; exact hw.status
    · rw [hid]; exact hw.generated
    · rw [htok]; exact hw.remaining
    · rw [hid, htok]; exact hw.prompt
  · exact absurd (heq ▸ mem_map_of_mem hold) h.head_notMem

theorem Machine.run (h : Machine s (g :: gs)) (hdone : g.numTokensToProcess ≤ 0) :
    Moved s (g :: gs) (s.markRunning g.sequenceId) gs g.sequenceId := by
  have hplay : InPlay s (g :: gs) g.sequenceId := Or.inl (by simp)
  refine ⟨rfl, fun _ => h.bounded _ hplay, ?_, ?_, ?_, fun x _ => Iff.rfl, h.tail_nodup,
    h.runningNodup.insert, h.swappedNodup, ?_⟩
  · intro x hne
    exact ⟨update_of_ne hne _ _, rfl, rfl, rfl⟩
  · intro g' hne
    rw [mem_cons]
    refine ⟨Or.inr, ?_⟩
    rintro (rfl | hold)
    · exact absurd rfl hne
    · exact hold
  · intro x hne
    show x ∈ s.runningSeqs.insert g.sequenceId ↔ _
    rw [mem_insert_iff]
    simp [hne]
  have hw := h.waits g (by simp)
  obtain ⟨context, hctx, hprompt⟩ := hw.prompt
  have hzero : g.numTokensToProcess = 0 := le_antisymm hdone hw.remaining
  rw [hzero, Int.add_zero] at hprompt
  refine .running h.head_notMem ⟨update_self _ _ _, context, 0, hprompt,
    hw.generated, ?_⟩ (h.waitingNotSwapped _ (by simp))
  rw [Int.add_zero]
  exact hctx

theorem Machine.leave (h : Machine s gs)
    (hsame : ∀ x, x ≠ id → SameRecords s s' x) (hn : s'.nextSeqId = s.nextSeqId)
    (hgroups : ∀ g, g.sequenceId ≠ id → (g ∈ gs' ↔ g ∈ gs))
    (hnodup : (gs'.map (·.sequenceId)).Nodup) (hgone : id ∉ gs'.map (·.sequenceId))
    (hr : s'.runningSeqs = s.runningSeqs.filter fun x => x ≠ id)
    (hsw : s'.swappedSeqs = s.swappedSeqs.filter fun x => x ≠ id) : Moved s gs s' gs' id := by
  refine ⟨hn, ?_, hsame, hgroups, ?_, ?_, hnodup, ?_, ?_, ?_⟩
  · rintro (hw | hrun | hswap)
    · exact absurd hw hgone
    · rw [hr] at hrun; simp at hrun
    · rw [hsw] at hswap; simp at hswap
  · intro x hne
    rw [hr]
    simp [hne]
  · intro x hne
    rw [hsw]
    simp [hne]
  · rw [hr]; exact h.runningNodup.filter _
  · rw [hsw]; exact h.swappedNodup.filter _
  refine .waiting ?_ (by rw [hr]; simp) (by rw [hsw]; simp)
  intro g hg heq
  exact absurd (heq ▸ mem_map_of_mem hg) hgone

theorem Machine.swapOut (h : Machine s gs) (hid : id ∈ s.runningSeqs) :
    Moved s gs { s.setStatus id .swapped with
      runningSeqs := s.runningSeqs.filter fun x => x ≠ id
      swappedSeqs := s.swappedSeqs.insert id
      seqBlockIds := update s.seqBlockIds id none } gs id := by
  refine ⟨rfl, fun _ => h.bounded id (Or.inr (Or.inl hid)), ?_, fun g _ => Iff.rfl, ?_, ?_, h.waitingNodup,
    h.runningNodup.filter _, h.swappedNodup.insert, ?_⟩
  · intro x hne
    exact ⟨update_of_ne hne _ _, rfl, rfl, rfl⟩
  · intro x hne
    simp [hne]
  · intro x hne
    show x ∈ s.swappedSeqs.insert id ↔ _
    rw [mem_insert_iff]
    simp [hne]
  refine .swapped (fun hw => h.waitingNotRunning id hw hid) (by simp) ?_
  exact ⟨update_self _ _ _, (h.runs id hid).context⟩

theorem Machine.takeIn {p : SwapInPass σ} (h : Machine p.sch gs) (hid : id ∈ p.sch.swappedSeqs)
    (m : BlockManager σ) (new : List Int) :
    Moved p.sch gs ({ p with sch := { p.sch with blockManager := m } }.takeIn id new).sch gs id := by
  refine ⟨rfl, fun _ => h.bounded id (Or.inr (Or.inr hid)), ?_, fun g _ => Iff.rfl, ?_, ?_, h.waitingNodup,
    h.runningNodup.insert, h.swappedNodup.filter _, ?_⟩
  · intro x hne
    exact ⟨update_of_ne hne _ _, rfl, rfl, rfl⟩
  · intro x hne
    show x ∈ p.sch.runningSeqs.insert id ↔ _
    rw [mem_insert_iff]
    simp [hne]
  · intro x hne
    show x ∈ p.sch.swappedSeqs.filter (fun x => x ≠ id) ↔ _
    simp [hne]
  refine .running (fun hw => h.waitingNotSwapped id hw hid) ?_ ?_
  · exact ⟨update_self _ _ _, (h.swappedOut id hid).context⟩
  show id ∉ p.sch.swappedSeqs.filter fun x => x ≠ id
  simp

/-! ### The waiting pass -/

variable {p p' : WaitingPass σ} {o : SchedulerOutput}

theorem Waits.schedulePrefill_same {m : BlockManager σ} (h : Waits p.sch g) (bs new : List Int)
    (tokens : Int) (x : Int) :
    SameRecords p.sch ((p.withManager g m).schedulePrefill g bs new tokens).sch x := by
  refine ⟨?_, ?_, rfl, rfl⟩
  · show update p.sch.seqStatus g.sequenceId (some .waiting) x = _
    rw [← h.status, Function.update_eq_self]
  show update p.sch.seqGeneratedTokens g.sequenceId (some 0) x = _
  rw [← h.generated, Function.update_eq_self]

/-- **One group of the queue** is one move, after which its sequence is in play or
cancelled; what goes back to the queue has as much left as before. -/
theorem Outcome.moved (hout : Outcome p g p') (h : Machine p.sch (g :: gs)) :
    ∃ back, p'.stillWaiting = p.stillWaiting ++ back ∧
      Moved p.sch (g :: gs) p'.sch (back ++ gs) g.sequenceId ∧
      (InPlay p'.sch (back ++ gs) g.sequenceId ∨
        p'.sch.seqStatus g.sequenceId = some .cancelled) := by
  have hsame : ∀ x, SameRecords p.sch p.sch x := fun _ => ⟨rfl, rfl, rfl, rfl⟩
  cases hout with
  | kept hs ho hw =>
    refine ⟨[g], hw, ?_, ?_⟩
    · rw [hs]; exact h.stay hsame rfl rfl rfl rfl rfl
    · exact Or.inl (Or.inl (by simp))
  | recorded _ hs ho hw =>
    refine ⟨[g], hw, ?_, Or.inl (Or.inl (by simp))⟩
    rw [hs]
    refine h.stay ?_ rfl rfl rfl rfl rfl
    exact fun _ => ⟨rfl, rfl, rfl, rfl⟩
  | ran hdone hs ho hw =>
    refine ⟨[], by rw [hw, append_nil], ?_, ?_⟩
    · rw [hs]; exact h.run hdone
    rw [hs]
    exact Or.inl (Or.inr (Or.inl (mem_insert_self)))
  | dropped hchunk hlong hs ho hw =>
    refine ⟨[], by rw [hw, append_nil], ?_, ?_⟩
    · rw [hs]
      refine h.leave ?_ rfl ?_ h.tail_nodup h.head_notMem rfl rfl
      · intro x hne
        exact ⟨update_of_ne hne _ _, update_of_ne hne _ _,
          update_of_ne hne _ _, update_of_ne hne _ _⟩
      intro g' hne
      rw [mem_cons]
      refine ⟨Or.inr, ?_⟩
      rintro (rfl | hold)
      · exact absurd rfl hne
      · exact hold
    rw [hs]
    exact Or.inr (update_self _ _ _)
  | scheduled tokens new m hchunk hgrant hp =>
    subst hp
    refine ⟨[handedOver g], rfl, ?_, Or.inl (Or.inl (by simp))⟩
    exact h.stay ((h.waits g (by simp)).schedulePrefill_same _ _ _) rfl rfl rfl
      (handedOver_sequenceId g) (handedOver_numTokensToProcess g)

theorem considerGroups_machine (queueLen : Nat) (choose : Int → AllocChoice)
    (rest : List SequenceGroup) : ∀ p : WaitingPass σ, Machine p.sch (rest ++ p.stillWaiting) →
      Accounted K p.sch (rest ++ p.stillWaiting) →
      let p' := rest.foldl (WaitingPass.considerGroup queueLen choose) p
      Machine p'.sch p'.stillWaiting ∧ Accounted K p'.sch p'.stillWaiting := by
  intro p h hK
  refine considerGroups_rule (P := fun p gs => Machine p.sch gs ∧ Accounted K p.sch gs)
    queueLen choose (fun _ _ _ hperm h => ⟨h.1.perm hperm, h.2.perm hperm⟩) ?_ rest p ⟨h, hK⟩
  rintro p g gs ⟨h, hK⟩
  obtain ⟨back, hback, hmoved, hkept⟩ := (considerGroup_outcome queueLen choose p g).moved h
  exact ⟨back, hback, h.move hmoved, hK.move hmoved hkept⟩

/-- What is so of a sequence that does not wait is still so after the loop over the
queue: every group the loop looks at is another sequence's. -/
theorem considerGroups_other {Q : Scheduler σ → Prop} {x : Int}
    (hother : ∀ {s : Scheduler σ} {gs}, Machine s gs → Q s → x ∉ gs.map (·.sequenceId))
    (hkeep : ∀ {s gs s' gs' id}, Moved s gs s' gs' id → x ≠ id → Q s → Q s')
    (queueLen : Nat) (choose : Int → AllocChoice) (rest : List SequenceGroup) :
    ∀ p : WaitingPass σ, Machine p.sch (rest ++ p.stillWaiting) → Q p.sch →
      Q (rest.foldl (WaitingPass.considerGroup queueLen choose) p).sch := by
  intro p h hx
  refine (considerGroups_rule (P := fun p gs => Machine p.sch gs ∧ Q p.sch)
    queueLen choose (fun _ _ _ hperm h => ⟨h.1.perm hperm, h.2⟩) ?_ rest p ⟨h, hx⟩).2
  rintro p g gs ⟨h, hx⟩
  obtain ⟨back, hback, hmoved, -⟩ := (considerGroup_outcome queueLen choose p g).moved h
  have hne : x ≠ g.sequenceId := by
    rintro rfl
    exact hother h hx (by simp)
  exact ⟨back, hback, h.move hmoved, hkeep hmoved hne hx⟩

/-- The invariant with the account of what was in play. -/
def Kept (K : Int → Prop) (s : Scheduler σ) : Prop :=
  Machine s s.waitingQueue ∧ Accounted K s s.waitingQueue

theorem scheduleWaiting_kept (h : Kept K s) (choice : ScheduleChoice) (choose : Int → AllocChoice)
    (cap : Int) : Kept K (s.scheduleWaiting choice choose o cap).1 := by
  have hperm := sortedQueue_perm s choice.arrangement
  have hloop := considerGroups_machine (K := K) (s.sortedQueue choice.arrangement).length choose
    (s.sortedQueue choice.arrangement) (passStart s o cap)
    (by rw [append_nil]; exact h.1.perm hperm)
    (by rw [append_nil]; exact h.2.perm hperm)
  unfold scheduleWaiting
  dsimp only [passStart] at hloop ⊢
  generalize List.foldl _ _ _ = q at hloop ⊢
  refine ⟨hloop.1.of_same ?_ rfl rfl rfl, hloop.2⟩
  exact fun _ => ⟨rfl, rfl, rfl, rfl⟩

/-! ### Preemption and swap-in -/

theorem Kept.move (h : Kept K s) (hm : Moved s s.waitingQueue s' s'.waitingQueue id)
    (hplay : InPlay s' s'.waitingQueue id) : Kept K s' :=
  ⟨h.1.move hm, h.2.move hm (Or.inl hplay)⟩

theorem preemptSequences_kept (h : Kept K s) (choice : ScheduleChoice) :
    Kept K (s.preemptSequences choice o).1 := by
  unfold preemptSequences
  dsimp only
  split
  · exact h
  split
  · exact h
  rename_i hvictim
  refine h.move (h.1.swapOut (selectPreemptionVictim_mem s choice hvictim)) ?_
  exact Or.inr (Or.inr mem_insert_self)

theorem swapInOne_kept (choice : ScheduleChoice) {p : SwapInPass σ} (h : Kept K p.sch)
    (hid : id ∈ p.sch.swappedSeqs) :
    Kept K (swapInOne choice p id).sch ∧
      ∀ x, x ≠ id → x ∈ p.sch.swappedSeqs → x ∈ (swapInOne choice p id).sch.swappedSeqs := by
  unfold swapInOne
  split
  · exact ⟨h, fun _ _ hx => hx⟩
  split
  · exact ⟨h, fun _ _ hx => hx⟩
  dsimp only
  split
  · refine ⟨⟨h.1.of_same ?_ rfl rfl rfl, h.2⟩, fun _ _ hx => hx⟩
    exact fun _ => ⟨rfl, rfl, rfl, rfl⟩
  refine ⟨h.move (h.1.takeIn hid _ _) (Or.inr (Or.inl mem_insert_self)), ?_⟩
  intro x hne hx
  exact mem_filter.mpr ⟨hx, by simpa using hne⟩

theorem swapInAll_kept (choice : ScheduleChoice) (l : List Int) : ∀ p : SwapInPass σ,
    Kept K p.sch → l.Nodup → (∀ id ∈ l, id ∈ p.sch.swappedSeqs) →
      Kept K (l.foldl (swapInOne choice) p).sch := by
  induction l with
  | nil => intro p h _ _; exact h
  | cons id rest ih =>
    intro p h hnodup hswapped
    rw [nodup_cons] at hnodup
    obtain ⟨hone, hrest⟩ := swapInOne_kept choice h (hswapped id (by simp))
    rw [foldl_cons]
    refine ih _ hone hnodup.2 ?_
    intro x hx
    have hne : x ≠ id := by
      rintro rfl
      exact hnodup.1 hx
    exact hrest x hne (hswapped x (mem_cons_of_mem _ hx))

theorem swapInOrder_perm (s : Scheduler σ) (choice : ScheduleChoice) :
    (choice.arrangement.sort (s.runsBefore choice.now)
      (choice.arrangement.arrange s.swappedSeqs)).Perm s.swappedSeqs :=
  (sort_perm _ _ _).trans (choice.arrangement.perm _)

theorem scheduleSwapped_kept (h : Kept K s) (choice : ScheduleChoice) :
    Kept K (s.scheduleSwapped choice o).1 := by
  have hperm := swapInOrder_perm s choice
  unfold scheduleSwapped
  dsimp only
  split
  · exact h
  split
  · exact h
  exact swapInAll_kept choice _ _ h (hperm.nodup_iff.mpr h.1.swappedNodup)
    fun id hid => hperm.mem_iff.mp hid

/-! ### One call -/

/-- **One call keeps the invariant**, and loses no sequence but those it cancels. -/
theorem schedule_kept (h : Kept K s) (choice : ScheduleChoice) : Kept K (s.schedule choice).1 := by
  have hP : Phases choice fun (s : Scheduler σ) _ => Kept K s :=
    { notes := by
        intro s o e u n h
        refine ⟨h.1.of_same ?_ rfl rfl rfl, h.2⟩
        exact fun _ => ⟨rfl, rfl, rfl, rfl⟩
      bucket := fun _ _ _ h => h
      preempt := fun _ h => preemptSequences_kept h choice
      swapIn := fun _ _ h _ => scheduleSwapped_kept h choice
      decode := fun _ _ h _ => h
      prefill := fun _ _ choose cap h _ => scheduleWaiting_kept h choice choose cap }
  exact hP.schedule h

theorem Machine.schedule (h : Machine s s.waitingQueue) (choice : ScheduleChoice) :
    Machine (s.schedule choice).1 (s.schedule choice).1.waitingQueue := by
  have hkept : Kept (fun _ => False) s := ⟨h, fun _ hx => hx.elim⟩
  exact (schedule_kept hkept choice).1

end DenseCore.Scheduler
