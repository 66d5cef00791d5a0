/-
How many sequences run at once.

`max_num_seqs` bounds what a batch lists and what the swap-in lets back, but the
pass over the waiting queue does not count who runs already, and a report that
finishes a prompt enters the running set unasked.  So the limit holds exactly as
long as every prompt is finished while a slot is free.  Empty prompts are a second
way in: `Schedule` itself lets them run.
-/
import DenseCore.Proofs.Runtime.Protocol

namespace DenseCore

namespace Scheduler

open List hiding not_le not_lt

variable {σ : Type} {s s' : Scheduler σ} {gs gs' : List SequenceGroup} {g : SequenceGroup}
  {p p' : WaitingPass σ} {o : SchedulerOutput} {id : Int} {limit : Int}

/-! ### One call of Schedule -/

/-- Waiting groups with nothing to prefill. -/
def emptyGroups (gs : List SequenceGroup) : Nat :=
  (gs.filter fun g => g.numTokensToProcess ≤ 0).length

/-- The running set is within the limit, and stays so when every sequence without
anything to prefill runs. -/
structure Fits (limit : Int) (s : Scheduler σ) (gs : List SequenceGroup) : Prop where
  running : (s.runningSeqs.length : Int) ≤ limit
  empty : emptyGroups gs = 0 ∨
    (s.runningSeqs.length + s.swappedSeqs.length + emptyGroups gs : Int) ≤ limit

theorem emptyGroups_perm (hp : gs'.Perm gs) : emptyGroups gs' = emptyGroups gs :=
  (hp.filter _).length_eq

theorem Fits.perm (h : Fits limit s gs) (hp : gs'.Perm gs) : Fits limit s gs' where
  running := h.running
  empty := by rw [emptyGroups_perm hp]; exact h.empty

theorem emptyGroups_cons (g : SequenceGroup) (gs : List SequenceGroup) :
    emptyGroups (g :: gs) = (if g.numTokensToProcess ≤ 0 then 1 else 0) + emptyGroups gs := by
  unfold emptyGroups
  rw [filter_cons]
  split <;> rename_i h
  · rw [if_pos (by simpa using h), length_cons, Nat.add_comm]
  · rw [if_neg (by simpa using h), Nat.zero_add]

theorem Fits.mono (h : Fits limit s gs) (hr : s'.runningSeqs.length ≤ s.runningSeqs.length)
    (hboth : s'.runningSeqs.length + s'.swappedSeqs.length ≤
      s.runningSeqs.length + s.swappedSeqs.length)
    (hgroups : emptyGroups gs' ≤ emptyGroups gs) : Fits limit s' gs' := by
  obtain ⟨hrun, hempty⟩ := h
  refine ⟨by omega, ?_⟩
  rcases hempty with hnone | hfit
  · exact Or.inl (by omega)
  · exact Or.inr (by omega)

theorem length_insert_le (l : List Int) (x : Int) : (l.insert x).length ≤ l.length + 1 := by
  by_cases h : x ∈ l
  · rw [insert_of_mem h]; omega
  · rw [insert_of_not_mem h, length_cons]

theorem length_filter_ne_lt {l : List Int} {x : Int} (h : x ∈ l) :
    (l.filter fun y => y ≠ x).length + 1 ≤ l.length := by
  have hlt : (l.filter fun y => y ≠ x).length < l.length := by
    rw [length_filter_lt_length_iff_exists]
    exact ⟨x, h, by simp⟩
  omega

/-- A round keeps the slots that the groups still to come were counted for. -/
theorem Outcome.fits (hout : Outcome p g p') (h : Fits limit p.sch (g :: gs)) :
    ∃ back, p'.stillWaiting = p.stillWaiting ++ back ∧ Fits limit p'.sch (back ++ gs) := by
  have hcons := emptyGroups_cons g gs
  cases hout with
  | kept hs ho hw =>
    refine ⟨[g], hw, ?_⟩
    rw [hs]
    exact h
  | recorded _ hs ho hw =>
    refine ⟨[g], hw, ?_⟩
    rw [hs]
    exact h.mono le_rfl le_rfl le_rfl
  | ran hdone hs ho hw =>
    refine ⟨[], by rw [hw, append_nil], ?_⟩
    rw [hs]
    -- The group is one of those the slots were counted for.
    rw [if_pos hdone] at hcons
    have hlen : (p.sch.markRunning g.sequenceId).runningSeqs.length ≤
        p.sch.runningSeqs.length + 1 := length_insert_le _ _
    have hsw : (p.sch.markRunning g.sequenceId).swappedSeqs = p.sch.swappedSeqs := rfl
    rcases h.empty with hnone | hfit
    · omega
    refine ⟨by omega, Or.inr ?_⟩
    rw [hsw]
    show ((p.sch.markRunning g.sequenceId).runningSeqs.length + p.sch.swappedSeqs.length +
      emptyGroups gs : Int) ≤ limit
    omega
  | dropped hchunk hlong hs ho hw =>
    refine ⟨[], by rw [hw, append_nil], ?_⟩
    rw [hs]
    have hr := length_filter_le (fun x => x ≠ g.sequenceId) p.sch.runningSeqs
    have hsw := length_filter_le (fun x => x ≠ g.sequenceId) p.sch.swappedSeqs
    exact h.mono hr (Nat.add_le_add hr hsw) (by rw [nil_append, hcons]; omega)
  | scheduled tokens new m hchunk hgrant hp =>
    subst hp
    refine ⟨[handedOver g], rfl, h.mono le_rfl le_rfl ?_⟩
    rw [singleton_append, emptyGroups_cons, hcons, handedOver_numTokensToProcess]

theorem considerGroups_fits (queueLen : Nat) (choose : Int → AllocChoice)
    (rest : List SequenceGroup) : ∀ p : WaitingPass σ, Fits limit p.sch (rest ++ p.stillWaiting) →
      let p' := rest.foldl (WaitingPass.considerGroup queueLen choose) p
      Fits limit p'.sch p'.stillWaiting := by
  exact considerGroups_rule (P := fun p gs => Fits limit p.sch gs) queueLen choose
    (fun _ _ _ hperm h => h.perm hperm)
    (fun p g _ h => (considerGroup_outcome queueLen choose p g).fits h) rest

theorem scheduleWaiting_fits (h : Fits limit s s.waitingQueue) (choice : ScheduleChoice)
    (choose : Int → AllocChoice) (cap : Int) :
    Fits limit (s.scheduleWaiting choice choose o cap).1
      (s.scheduleWaiting choice choose o cap).1.waitingQueue := by
  have hloop := considerGroups_fits (s.sortedQueue choice.arrangement).length choose
    (s.sortedQueue choice.arrangement) (passStart s o cap)
    (by rw [append_nil]; exact h.perm (sortedQueue_perm s _))
  exact { hloop with }

theorem preemptSequences_fits (h : Fits limit s s.waitingQueue) (choice : ScheduleChoice) :
    Fits limit (s.preemptSequences choice o).1 (s.preemptSequences choice o).1.waitingQueue := by
  unfold preemptSequences
  dsimp only
  split
  · exact h
  split
  · exact h
  rename_i hvictim
  have hlen := length_filter_ne_lt (selectPreemptionVictim_mem s choice hvictim)
  have hins := length_insert_le s.swappedSeqs (s.selectPreemptionVictim choice)
  refine h.mono ?_ ?_ le_rfl
  · show (s.runningSeqs.filter _).length ≤ _
    omega
  show (s.runningSeqs.filter _).length + (s.swappedSeqs.insert _).length ≤ _
  omega

theorem swapInOne_fits (choice : ScheduleChoice) {p : SwapInPass σ} (h : Fits limit p.sch gs)
    (hslots : p.sch.runningSeqs.length + p.availableSlots ≤ limit)
    (hid : id ∈ p.sch.swappedSeqs) :
    Fits limit (swapInOne choice p id).sch gs ∧
      (swapInOne choice p id).sch.runningSeqs.length + (swapInOne choice p id).availableSlots ≤
        limit ∧
      ∀ x, x ≠ id → x ∈ p.sch.swappedSeqs → x ∈ (swapInOne choice p id).sch.swappedSeqs := by
  unfold swapInOne
  split
  · exact ⟨h, hslots, fun _ _ hx => hx⟩
  rename_i hfree
  split
  · exact ⟨h, hslots, fun _ _ hx => hx⟩
  dsimp only
  split
  · exact ⟨h.mono le_rfl le_rfl le_rfl, hslots, fun _ _ hx => hx⟩
  have hins := length_insert_le p.sch.runningSeqs id
  have hlen := length_filter_ne_lt hid
  refine ⟨⟨?_, ?_⟩, ?_, ?_⟩
  · show ((p.sch.runningSeqs.insert id).length : Int) ≤ limit
    omega
  · show emptyGroups gs = 0 ∨ ((p.sch.runningSeqs.insert id).length +
      (p.sch.swappedSeqs.filter fun x => x ≠ id).length + emptyGroups gs : Int) ≤ limit
    exact h.empty.imp_right fun hfit => by omega
  · show ((p.sch.runningSeqs.insert id).length : Int) + (p.availableSlots - 1) ≤ limit
    omega
  intro x hne hx
  exact mem_filter.mpr ⟨hx, by simpa using hne⟩

theorem swapInAll_fits (choice : ScheduleChoice) (l : List Int) : ∀ p : SwapInPass σ,
    Fits limit p.sch gs → p.sch.runningSeqs.length + p.availableSlots ≤ limit → l.Nodup →
      (∀ id ∈ l, id ∈ p.sch.swappedSeqs) → Fits limit (l.foldl (swapInOne choice) p).sch gs := by
  induction l with
  | nil => intro p h _ _ _; exact h
  | cons id rest ih =>
    intro p h hslots hnodup hswapped
    rw [nodup_cons] at hnodup
    obtain ⟨hone, hleft, hrest⟩ := swapInOne_fits choice h hslots (hswapped id (by simp))
    rw [foldl_cons]
    refine ih _ hone hleft hnodup.2 ?_
    intro x hx
    have hne : x ≠ id := by
      rintro rfl
      exact hnodup.1 hx
    exact hrest x hne (hswapped x (mem_cons_of_mem _ hx))

theorem scheduleSwapped_fits (h : Fits s.config.maxNumSeqs s s.waitingQueue)
    (hnodup : s.swappedSeqs.Nodup) (choice : ScheduleChoice) :
    Fits s.config.maxNumSeqs (s.scheduleSwapped choice o).1
      (s.scheduleSwapped choice o).1.waitingQueue := by
  have hperm := swapInOrder_perm s choice
  have hqueue : (s.scheduleSwapped choice o).1.waitingQueue = s.waitingQueue := by
    obtain ⟨m, running, swapped, status, blocks, ids, allocations, heq⟩ :=
      scheduleSwapped_spec s choice o
    rw [heq]
  rw [hqueue]
  unfold scheduleSwapped
  dsimp only
  split
  · exact h
  split
  · exact h
  refine swapInAll_fits choice _ _ h ?_ (hperm.nodup_iff.mpr hnodup)
    fun id hid => hperm.mem_iff.mp hid
  show (s.runningSeqs.length : Int) + (s.config.maxNumSeqs - s.runningSeqs.length) ≤ _
  omega

/-- **A call keeps the limit** when the empty prompts have their slots. -/
theorem schedule_fits (h : Fits s.config.maxNumSeqs s s.waitingQueue)
    (hm : Machine s s.waitingQueue) (choice : ScheduleChoice) :
    ((s.schedule choice).1.runningSeqs.length : Int) ≤ s.config.maxNumSeqs := by
  have hP : Phases choice fun (s' : Scheduler σ) _ =>
      s'.config = s.config ∧ Kept (fun _ => False) s' ∧
        Fits s.config.maxNumSeqs s' s'.waitingQueue :=
    { notes := by
        intro s' o e u n h
        refine ⟨h.1, ⟨h.2.1.1.of_same ?_ rfl rfl rfl, h.2.1.2⟩, h.2.2.mono le_rfl le_rfl le_rfl⟩
        exact fun _ => ⟨rfl, rfl, rfl, rfl⟩
      bucket := fun _ _ _ h => h
      preempt := fun s' h => ⟨(preemptSequences_frame s' choice {}).2.trans h.1,
        preemptSequences_kept h.2.1 choice, preemptSequences_fits h.2.2 choice⟩
      swapIn := by
        intro s' o h _
        refine ⟨(scheduleSwapped_frame s' choice o).2.trans h.1,
          scheduleSwapped_kept h.2.1 choice, ?_⟩
        have hfits := h.2.2
        rw [← h.1] at hfits ⊢
        exact scheduleSwapped_fits hfits h.2.1.1.swappedNodup choice
      decode := fun _ _ h _ => h
      prefill := fun s' o choose cap h _ => ⟨(scheduleWaiting_frame s' choice choose o cap).2.trans h.1,
        scheduleWaiting_kept h.2.1 choice choose cap, scheduleWaiting_fits h.2.2 choice choose cap⟩ }
  obtain ⟨-, -, hfits⟩ := hP.schedule ⟨rfl, ⟨hm, fun _ hx => hx.elim⟩, h⟩
  exact hfits.running

end Scheduler

namespace Client

open Scheduler

variable {σ : Type} {c : Client σ} {id tokens : Int}

/-! ### The condition

A report of a last chunk does not look at the limit, and neither does the pass over prompts with
nothing to prefill. The limit holds as long as each of the two finds room.
-/

/-- A slot is free. -/
def HasRoom (c : Client σ) : Prop := (c.sch.runningSeqs.length : Int) < c.sch.config.maxNumSeqs

/-- The report covers all that is left of a prompt. -/
def FinishesPrompt (c : Client σ) (id tokens : Int) : Prop :=
  0 ≤ id ∧ 0 < tokens ∧ c.sch.waitingRemaining id = some tokens

/-- Each update of a batch that finishes a prompt finds a slot. -/
def InRoomAll : Client σ → List (Int × Int) → Prop
  | _, [] => True
  | c, u :: updates => (c.FinishesPrompt u.1 u.2 → c.HasRoom) ∧
      InRoomAll (c.report (c.sch.updateProgress u.1 u.2) u.1 u.2) updates

/-- A report that finishes a prompt finds a slot. -/
def Call.InRoom (c : Client σ) : Call σ → Prop
  | .onPrefillChunkComplete id tokens _ => c.FinishesPrompt id tokens → c.HasRoom
  | .updateProgress id tokens => c.FinishesPrompt id tokens → c.HasRoom
  | .updateProgressBatch updates => c.InRoomAll updates
  | _ => True

/-- When `Schedule` is called, the waiting prompts with nothing to prefill have slots
beside the sequences that run or may be swapped in. -/
def Call.EmptyPromptsFit (c : Client σ) : Call σ → Prop
  | .schedule _ => emptyGroups c.sch.waitingQueue = 0 ∨
      (c.sch.runningSeqs.length + c.sch.swappedSeqs.length + emptyGroups c.sch.waitingQueue : Int) ≤
        c.sch.config.maxNumSeqs
  | _ => True

/-- Every step of the run meets the condition. -/
def Along (P : Client σ → Call σ → Prop) (salt : UInt64) : Client σ → List (Call σ) → Prop
  | _, [] => True
  | c, call :: calls => P c call ∧ Along P salt (c.step salt call) calls

instance (c : Client σ) : Decidable c.HasRoom := inferInstanceAs (Decidable (_ < _))

instance (c : Client σ) (id tokens : Int) : Decidable (c.FinishesPrompt id tokens) :=
  inferInstanceAs (Decidable (_ ∧ _ ∧ _))

instance decidableInRoomAll : (c : Client σ) → (updates : List (Int × Int)) →
    Decidable (c.InRoomAll updates)
  | _, [] => inferInstanceAs (Decidable True)
  | c, u :: updates =>
    have := decidableInRoomAll (c.report (c.sch.updateProgress u.1 u.2) u.1 u.2) updates
    inferInstanceAs (Decidable (_ ∧ _))

instance (c : Client σ) : (call : Call σ) → Decidable (call.InRoom c)
  | .onPrefillChunkComplete id tokens _ =>
    inferInstanceAs (Decidable (c.FinishesPrompt id tokens → c.HasRoom))
  | .updateProgress id tokens =>
    inferInstanceAs (Decidable (c.FinishesPrompt id tokens → c.HasRoom))
  | .updateProgressBatch updates => inferInstanceAs (Decidable (c.InRoomAll updates))
  | .addRequest _ | .removeRequest _ _ | .schedule _ | .setPredictedExperts _ _
  | .onDecodeStepComplete _ _ | .useManager _ => inferInstanceAs (Decidable True)

instance (c : Client σ) : (call : Call σ) → Decidable (call.EmptyPromptsFit c)
  | .schedule _ => inferInstanceAs (Decidable (_ ∨ _))
  | .onPrefillChunkComplete _ _ _ | .updateProgress _ _ | .updateProgressBatch _
  | .addRequest _ | .removeRequest _ _ | .setPredictedExperts _ _
  | .onDecodeStepComplete _ _ | .useManager _ => inferInstanceAs (Decidable True)

instance decidableAlong {P : Client σ → Call σ → Prop} [∀ c call, Decidable (P c call)]
    (salt : UInt64) : (c : Client σ) → (calls : List (Call σ)) → Decidable (Along P salt c calls)
  | _, [] => inferInstanceAs (Decidable True)
  | c, call :: calls =>
    have := decidableAlong (P := P) salt (c.step salt call) calls
    inferInstanceAs (Decidable (_ ∧ _))

/-- The limit holds. -/
def WithinLimit (c : Client σ) : Prop := (c.sch.runningSeqs.length : Int) ≤ c.sch.config.maxNumSeqs

/-! ### Reports -/

/-- The running set grows by one sequence if the report finishes a prompt, and not
otherwise. -/
def Enters (c : Client σ) (sch : Scheduler σ) (id tokens : Int) : Prop :=
  ¬ c.FinishesPrompt id tokens ∧ sch.runningSeqs.length = c.sch.runningSeqs.length ∨
    c.FinishesPrompt id tokens ∧ sch.runningSeqs.length = c.sch.runningSeqs.length + 1

theorem Ready.enters_prefill (h : Ready c) {finished : Bool} (hdue : tokens ≤ c.prefillDue id)
    (hfin : finished = true ↔ c.sch.waitingRemaining id = some tokens) :
    c.Enters (c.sch.onPrefillChunkComplete id tokens finished) id tokens := by
  by_cases hguard : id < 0 ∨ tokens ≤ 0
  · refine Or.inl ⟨fun hf => ?_, ?_⟩
    · obtain ⟨hid, hpos, -⟩ := hf
      omega
    unfold Scheduler.onPrefillChunkComplete
    rw [if_pos hguard]
  have hguard' := hguard
  rw [not_or, not_lt, not_le] at hguard'
  obtain ⟨g, hg, rfl, hle⟩ := h.prefillDue id (by omega)
  have hremaining := h.machine.waitingRemaining hg
  have hremaining' : (c.sch.advanceContext g.sequenceId tokens).waitingRemaining g.sequenceId =
      some g.numTokensToProcess := hremaining
  rw [hremaining, Option.some.injEq] at hfin
  have hnot : g.sequenceId ∉ c.sch.runningSeqs :=
    h.machine.waitingNotRunning _ (List.mem_map_of_mem hg)
  unfold Enters FinishesPrompt Scheduler.onPrefillChunkComplete
  rw [hremaining, if_neg hguard, Option.some.injEq]
  dsimp only
  rw [hremaining']
  dsimp only
  split
  · rename_i hdone
    refine Or.inr ⟨⟨hguard'.1, hguard'.2, ?_⟩, ?_⟩
    · rcases hdone with hfinished | hzero
      · exact hfin.mp hfinished
      · omega
    show (c.sch.runningSeqs.insert g.sequenceId).length = _
    rw [List.insert_of_not_mem hnot, List.length_cons]
  rename_i hmore
  rw [not_or] at hmore
  refine Or.inl ⟨fun hf => hmore.1 (hfin.mpr hf.2.2), rfl⟩

theorem Ready.decode_keeps (h : Ready c) (hdue : tokens ≤ c.decodeDue id) :
    ¬ c.FinishesPrompt id tokens ∧
      (c.sch.onDecodeStepComplete id tokens).runningSeqs.length = c.sch.runningSeqs.length := by
  by_cases htokens : tokens ≤ 0
  · refine ⟨fun hf => ?_, ?_⟩
    · have := hf.2.1
      omega
    unfold Scheduler.onDecodeStepComplete
    rw [if_pos (Or.inr htokens)]
  have hrunning := h.decodeDue id (by omega)
  have hnot : id ∉ c.sch.waitingQueue.map (·.sequenceId) :=
    fun hw => h.machine.waitingNotRunning id hw hrunning
  refine ⟨fun hf => ?_, ?_⟩
  · have hnone := Scheduler.waitingRemaining_none hnot rfl
    rw [hf.2.2] at hnone
    simp at hnone
  unfold Scheduler.onDecodeStepComplete
  dsimp only
  split
  · rfl
  show (c.sch.runningSeqs.insert id).length = _
  rw [List.insert_of_mem hrunning]

theorem Ready.enters_update (h : Ready c) (hdue : c.Due id tokens) :
    c.Enters (c.sch.updateProgress id tokens) id tokens := by
  unfold Scheduler.updateProgress
  split
  · rename_i htokens
    refine Or.inl ⟨fun hf => ?_, rfl⟩
    have := hf.2.1
    omega
  rename_i htokens
  rcases hdue with hprefill | hdecode
  · obtain ⟨g, hg, rfl, hle⟩ := h.prefillDue id (by omega)
    rw [h.machine.waitingRemaining hg]
    refine h.enters_prefill hprefill ?_
    rw [h.machine.waitingRemaining hg, decide_eq_true_eq, Option.some.injEq]
    exact ⟨fun hge => by omega, fun heq => by omega⟩
  have hrunning := h.decodeDue id (by omega)
  have hnot : id ∉ c.sch.waitingQueue.map (·.sequenceId) :=
    fun hw => h.machine.waitingNotRunning id hw hrunning
  rw [Scheduler.waitingRemaining_none hnot rfl]
  exact Or.inl (h.decode_keeps hdecode)

theorem Enters.withinLimit {sch : Scheduler σ} (h : c.Enters sch id tokens)
    (hconfig : sch.config = c.sch.config) (hlimit : c.WithinLimit) :
    (c.report sch id tokens).WithinLimit ↔ (c.FinishesPrompt id tokens → c.HasRoom) := by
  unfold WithinLimit HasRoom at *
  show (sch.runningSeqs.length : Int) ≤ sch.config.maxNumSeqs ↔ _
  rw [hconfig]
  rcases h with ⟨hnot, hlen⟩ | ⟨hfinish, hlen⟩
  · rw [hlen]
    exact ⟨fun _ hf => absurd hf hnot, fun _ => hlimit⟩
  rw [hlen]
  push_cast
  exact ⟨fun hle _ => by omega, fun hroom => by have := hroom hfinish; omega⟩

/-- The same for the updates of a batch, one after another. -/
theorem Ready.batch_withinLimit (updates : List (Int × Int)) : ∀ c : Client σ, Ready c →
    c.DueAll updates → c.WithinLimit →
      ((updates.foldl (fun c u => c.report (c.sch.updateProgress u.1 u.2) u.1 u.2) c).WithinLimit ↔
        c.InRoomAll updates) := by
  have hgrows : ∀ (us : List (Int × Int)) (c : Client σ), Ready c → c.DueAll us →
      c.sch.runningSeqs.length ≤ (us.foldl (fun c u => c.report (c.sch.updateProgress u.1 u.2)
        u.1 u.2) c).sch.runningSeqs.length ∧
      (us.foldl (fun c u => c.report (c.sch.updateProgress u.1 u.2) u.1 u.2) c).sch.config =
        c.sch.config := by
    intro us
    induction us with
    | nil => intro c _ _; exact ⟨le_rfl, rfl⟩
    | cons u rest ih =>
      intro c h hdue
      obtain ⟨hlen, hconfig⟩ := ih _ (h.updateProgress hdue.1)
        (dueAll_congr rest (c.report c.sch u.1 u.2) _ rfl rfl hdue.2)
      have hone : c.sch.runningSeqs.length ≤ (c.sch.updateProgress u.1 u.2).runningSeqs.length := by
        rcases h.enters_update hdue.1 with ⟨-, heq⟩ | ⟨-, heq⟩ <;> omega
      exact ⟨hone.trans hlen, hconfig.trans (updateProgress_frame _ _ _).config⟩
  induction updates with
  | nil => intro c _ _ hlimit; exact ⟨fun _ => trivial, fun _ => hlimit⟩
  | cons u rest ih =>
    intro c h hdue hlimit
    have hready := h.updateProgress hdue.1
    have hdue' := dueAll_congr rest (c.report c.sch u.1 u.2)
      (c.report (c.sch.updateProgress u.1 u.2) u.1 u.2) rfl rfl hdue.2
    have hone := (h.enters_update hdue.1).withinLimit (updateProgress_frame _ _ _).config hlimit
    rw [List.foldl_cons]
    refine ⟨fun hend => ?_, fun hroom => ?_⟩
    · -- The set only grows, so the limit at the end is the limit after this update.
      have hnow : (c.report (c.sch.updateProgress u.1 u.2) u.1 u.2).WithinLimit := by
        obtain ⟨hlen, hconfig⟩ := hgrows rest _ hready hdue'
        unfold WithinLimit at hend ⊢
        rw [hconfig] at hend
        omega
      exact ⟨hone.mp hnow, (ih _ hready hdue' hnow).mp hend⟩
    · exact (ih _ hready hdue' (hone.mpr hroom.1)).mpr hroom.2

/-! ### Runs -/

/-- One call keeps the limit if and only if its reports find room. -/
theorem Ready.step_withinLimit (h : Ready c) (salt : UInt64) {call : Call σ}
    (hlegal : call.Legal c) (hempty : call.EmptyPromptsFit c) (hlimit : c.WithinLimit) :
    (c.step salt call).WithinLimit ↔ call.InRoom c := by
  cases call with
  | addRequest r =>
    refine ⟨fun _ => trivial, fun _ => ?_⟩
    have hconfig := (step_frame salt c (.addRequest r)).1
    have hrunning : (c.step salt (.addRequest r)).sch.runningSeqs = c.sch.runningSeqs := by
      rcases addRequest_arrives c.sch salt r.now r.requestId r.promptLen r.priority
        r.prefixTokens r.allowChunkedPrefill r.requireSnapshot r.maxPrefillChunkTokens
        r.validator with hnone | ⟨-, g, hnew⟩
      · show (c.sch.addRequest _ _ _ _ _ _ _ _ _ _).2.runningSeqs = _
        rw [hnone]
      · exact hnew.running
    unfold WithinLimit
    rw [hconfig, hrunning]
    exact hlimit
  | removeRequest id finished =>
    refine ⟨fun _ => trivial, fun _ => ?_⟩
    have hlen := List.length_filter_le (fun x => x ≠ id) c.sch.runningSeqs
    unfold WithinLimit at hlimit ⊢
    rw [(step_frame salt c (.removeRequest id finished)).1]
    show ((c.sch.removeRequest id finished).runningSeqs.length : Int) ≤ _
    rw [removeRequest_runningSeqs]
    omega
  | schedule choice =>
    refine ⟨fun _ => trivial, fun _ => ?_⟩
    unfold WithinLimit
    rw [(step_frame salt c (.schedule choice)).1]
    exact schedule_fits ⟨hlimit, hempty⟩ h.machine choice
  | setPredictedExperts id experts =>
    refine ⟨fun _ => trivial, fun _ => ?_⟩
    show ((c.sch.setPredictedExperts id experts).runningSeqs.length : Int) ≤
      (c.sch.setPredictedExperts id experts).config.maxNumSeqs
    unfold Scheduler.setPredictedExperts
    split <;> exact hlimit
  | onPrefillChunkComplete id tokens finished =>
    exact (h.enters_prefill hlegal.1 hlegal.2).withinLimit
      (onPrefillChunkComplete_frame _ _ _ _).config hlimit
  | onDecodeStepComplete id tokens =>
    refine ⟨fun _ => trivial, fun _ => ?_⟩
    obtain ⟨hnot, hlen⟩ := h.decode_keeps hlegal
    have hsame : c.Enters (c.sch.onDecodeStepComplete id tokens) id tokens := Or.inl ⟨hnot, hlen⟩
    exact (hsame.withinLimit (onDecodeStepComplete_frame _ _ _).config hlimit).mpr
      fun hf => absurd hf hnot
  | updateProgress id tokens =>
    exact (h.enters_update hlegal).withinLimit (updateProgress_frame _ _ _).config hlimit
  | updateProgressBatch updates =>
    rw [step_updateProgressBatch]
    exact Ready.batch_withinLimit updates c h hlegal hlimit
  | useManager op => exact ⟨fun _ => trivial, fun _ => hlimit⟩

theorem Ready.run_withinLimit (salt : UInt64) (calls : List (Call σ)) : ∀ c : Client σ, Ready c →
    LegalRun salt c calls → Along (fun c call => call.EmptyPromptsFit c) salt c calls →
    c.WithinLimit → ((∀ before after, calls = before ++ after → (c.run salt before).WithinLimit) ↔
        Along (fun c call => call.InRoom c) salt c calls) := by
  induction calls with
  | nil =>
    intro c _ _ _ hlimit
    refine ⟨fun _ => trivial, fun _ before after heq => ?_⟩
    obtain ⟨rfl, -⟩ := List.append_eq_nil_iff.mp heq.symm
    exact hlimit
  | cons call rest ih =>
    intro c h hlegal hempty hlimit
    have hstep := h.step_withinLimit salt hlegal.1 hempty.1 hlimit
    have hrest := ih _ (h.step salt hlegal.1) hlegal.2 hempty.2
    refine ⟨fun hall => ?_, fun hroom => ?_⟩
    · have hnow : (c.step salt call).WithinLimit := hall [call] rest rfl
      refine ⟨hstep.mp hnow, (hrest hnow).mp ?_⟩
      intro before after heq
      exact hall (call :: before) after (by rw [heq]; rfl)
    have hnow := hstep.mpr hroom.1
    intro before after heq
    cases before with
    | nil => exact hlimit
    | cons b before =>
      obtain ⟨rfl, heq'⟩ := List.cons.inj heq
      exact (hrest hnow).mpr hroom.2 before after heq'

/-- **The concurrency limit.**  In a legal run whose empty prompts have their slots,
the running set stays within `max_num_seqs` in every state exactly when every
report that finishes a prompt finds a free slot. -/
theorem running_within_max_num_seqs_iff (salt : UInt64) (bm : BlockManager σ)
    (config : SchedulerConfig) (calls : List (Call σ))
    (hlegal : LegalRun salt (init bm config) calls) (hseqs : 1 ≤ config.maxNumSeqs)
    (hempty : Along (fun c call => call.EmptyPromptsFit c) salt (init bm config) calls) :
    (∀ before after, calls = before ++ after →
        (((init bm config).run salt before).sch.runningSeqs.length : Int) ≤ config.maxNumSeqs) ↔
      Along (fun c call => call.InRoom c) salt (init bm config) calls := by
  have hstart : (init bm config).WithinLimit := by
    show ((0 : Nat) : Int) ≤ config.maxNumSeqs
    omega
  rw [← Ready.run_withinLimit salt calls _ (init_ready bm config) hlegal hempty hstart]
  unfold WithinLimit
  simp only [run_config]
  exact Iff.rfl

/-- One prompt runs and a second one waits behind it. -/
def oneBehindAnother : List (Call Unit) :=
  [.addRequest { promptLen := 1 }, .schedule {}, .updateProgress 1 1, .addRequest { promptLen := 1 }]

/-- The second prompt is finished after the first sequence has left. -/
def oneAfterAnother : List (Call Unit) :=
  oneBehindAnother ++ [.schedule {}, .updateProgress 1 1, .removeRequest 1 true, .schedule {},
    .updateProgress 2 1]

theorem oneAfterAnother_within_limit :
    LegalRun 0 (init (BlockManager.init 8 16) { maxNumSeqs := 1 }) oneAfterAnother ∧
      ∀ before after, oneAfterAnother = before ++ after →
        (((init (BlockManager.init 8 16) { maxNumSeqs := 1 }).run 0 before).sch.runningSeqs.length :
          Int) ≤ 1 := by
  have hlegal : LegalRun 0 (init (BlockManager.init 8 16) { maxNumSeqs := 1 }) oneAfterAnother := by
    decide +kernel
  refine ⟨hlegal, (running_within_max_num_seqs_iff 0 _ _ _ hlegal (by decide) ?_).mpr ?_⟩
  · decide +kernel
  · decide +kernel

/-- Eight batches decode the first sequence; then the waiting prompt has its turn. -/
def overtaking : List (Call Unit) :=
  oneBehindAnother ++ (List.replicate 8 [Call.schedule {}, Call.updateProgress 1 1]).flatten ++
    [.schedule {}, .updateProgress 2 1]

/-- **The limit is crossed**: with room for one sequence, two run. -/
theorem overtaking_exceeds_limit :
    LegalRun 0 (init (BlockManager.init 8 16) { maxNumSeqs := 1 }) overtaking ∧
      ¬ ((((init (BlockManager.init 8 16) { maxNumSeqs := 1 }).run 0
        overtaking).sch.runningSeqs.length : Int) ≤ 1) := by
  decide +kernel

end Client

end DenseCore
