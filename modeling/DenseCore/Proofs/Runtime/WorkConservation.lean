/-
A call of `Schedule` does not come back empty while something runs.

The decode pass is a loop without a bound of its own: each round marks one more of the
running sequences, until a round finds no candidate or the batch is full.  So the
running sequences bound the rounds, and what the pass leaves out it has looked at in its
last round: it is outside the context bucket, or deferred for its experts, unless the
batch is full.  The first round starts from an empty batch, where no context is fixed
yet and the deferral has a fallback, so it always finds a candidate.

The rest is where a call makes the pass.  Isolated phases may try the waiting prompts
first, and go on to decode only when none was listed; the output is then as empty as
before, and what ran still runs, since the prompts are other sequences.
-/
import DenseCore.Proofs.Runtime.Protocol

namespace DenseCore

namespace Scheduler

variable {σ : Type} {s : Scheduler σ} {o : SchedulerOutput}

/-! ### One round -/

/-- The pass after a round has scheduled a sequence. -/
def taken (s : Scheduler σ) (p : RunningPass) (seqId : Int) : RunningPass :=
  let target := if p.targetContextLen < 0 then s.getSequenceContextLen seqId else p.targetContextLen
  { output :=
      { p.output with
        decodeSeqIds := p.output.decodeSeqIds ++ [seqId]
        numDecodeTokens := p.output.numDecodeTokens + 1
        totalTokens := p.output.totalTokens + 1
        batchContextLen := target }
    tokensBudget := p.tokensBudget - 1
    activeExperts := addExperts p.activeExperts ((s.seqPredictedExperts seqId).getD [])
    targetContextLen := target
    unscheduled := p.unscheduled.erase seqId }

/-- The batch has no slot or no token left. -/
def Full (s : Scheduler σ) (p : RunningPass) : Prop :=
  p.output.scheduledSeqCount ≥ asSize s.config.maxNumSeqs ∨ p.tokensBudget ≤ 0

instance (s : Scheduler σ) (p : RunningPass) : Decidable (s.Full p) :=
  inferInstanceAs (Decidable (_ ∨ _))

theorem runningRounds_succ (s : Scheduler σ) (now n : Nat) (p : RunningPass) :
    s.runningRounds now (n + 1) p =
      match s.pickRunning now p with
      | none => p
      | some seqId => if s.Full p then p else s.runningRounds now n (s.taken p seqId) := rfl

/-- A round ends the loop: there is no candidate, or the batch is full. -/
def Stopped (s : Scheduler σ) (now : Nat) (p : RunningPass) : Prop :=
  s.pickRunning now p = none ∨ s.Full p

/-- **One round**: the loop ends, or one of the unscheduled sequences is taken. -/
theorem runningRounds_cases (s : Scheduler σ) (now n : Nat) (p : RunningPass) :
    (s.runningRounds now (n + 1) p = p ∧ s.Stopped now p) ∨
      ∃ seqId, s.pickRunning now p = some seqId ∧ ¬ s.Full p ∧
        s.runningRounds now (n + 1) p = s.runningRounds now n (s.taken p seqId) := by
  rw [runningRounds_succ]
  cases hpick : s.pickRunning now p with
  | none => exact Or.inl ⟨rfl, Or.inl hpick⟩
  | some seqId =>
    dsimp only
    split
    · exact Or.inl ⟨rfl, Or.inr ‹_›⟩
    · exact Or.inr ⟨seqId, rfl, ‹_›, rfl⟩

variable {now : Nat} {p : RunningPass} {choice : ScheduleChoice}

theorem taken_unscheduled_length {seqId : Int} (hpick : s.pickRunning now p = some seqId) :
    (s.taken p seqId).unscheduled.length + 1 = p.unscheduled.length := by
  have hmem := pickRunning_mem hpick
  have hpos := List.length_pos_of_mem hmem
  show (p.unscheduled.erase seqId).length + 1 = _
  rw [List.length_erase_of_mem hmem]
  omega

theorem pickRunning_nil (h : p.unscheduled = []) : s.pickRunning now p = none := by
  cases hpick : s.pickRunning now p with
  | none => rfl
  | some seqId =>
    have hmem := pickRunning_mem hpick
    rw [h] at hmem
    cases hmem

/-! ### The rounds -/

theorem runningRounds_stopped (s : Scheduler σ) (now : Nat) : ∀ (n : Nat) (p : RunningPass),
    p.unscheduled.length ≤ n → s.Stopped now (s.runningRounds now n p) := by
  intro n
  induction n with
  | zero =>
    intro p hlen
    exact Or.inl (pickRunning_nil (List.eq_nil_of_length_eq_zero (Nat.le_zero.mp hlen)))
  | succ n ih =>
    intro p hlen
    rcases runningRounds_cases s now n p with ⟨heq, hstop⟩ | ⟨seqId, hpick, -, heq⟩
    · rw [heq]
      exact hstop
    have hless := taken_unscheduled_length hpick
    rw [heq]
    exact ih _ (by omega)

theorem runningRounds_enough (s : Scheduler σ) (now : Nat) : ∀ (n k : Nat) (p : RunningPass),
    p.unscheduled.length ≤ n → s.runningRounds now (n + k) p = s.runningRounds now n p := by
  intro n
  induction n with
  | zero =>
    intro k p hlen
    have hnil : p.unscheduled = [] := List.eq_nil_of_length_eq_zero (Nat.le_zero.mp hlen)
    rw [Nat.zero_add]
    cases k with
    | zero => rfl
    | succ k =>
      rw [runningRounds_succ, pickRunning_nil hnil]
      rfl
  | succ n ih =>
    intro k p hlen
    rw [Nat.add_right_comm, runningRounds_succ, runningRounds_succ]
    cases hpick : s.pickRunning now p with
    | none => rfl
    | some seqId =>
      have hless := taken_unscheduled_length hpick
      dsimp only
      rw [ih k _ (by omega)]

theorem runningRounds_split (s : Scheduler σ) (now : Nat) : ∀ (n : Nat) (p : RunningPass),
    ∃ ids, (s.runningRounds now n p).output.decodeSeqIds = p.output.decodeSeqIds ++ ids ∧
      (ids ++ (s.runningRounds now n p).unscheduled).Perm p.unscheduled := by
  intro n
  induction n with
  | zero => exact fun p => ⟨[], (List.append_nil _).symm, List.Perm.refl _⟩
  | succ n ih =>
    intro p
    rcases runningRounds_cases s now n p with ⟨heq, -⟩ | ⟨seqId, hpick, -, heq⟩
    · rw [heq]
      exact ⟨[], (List.append_nil _).symm, List.Perm.refl _⟩
    rw [heq]
    obtain ⟨ids, hout, hperm⟩ := ih (s.taken p seqId)
    refine ⟨seqId :: ids, ?_, ?_⟩
    · rw [hout]
      exact (List.append_assoc _ _ _)
    · exact (hperm.cons seqId).trans (List.perm_cons_erase (pickRunning_mem hpick)).symm

theorem bestRunning_none (h : s.bestRunning now p = none) : ∀ seqId ∈ p.unscheduled,
      (s.inContextBucket p seqId && !s.deferredForExperts p seqId) = false := by
  intro seqId hmem
  refine Bool.eq_false_iff.mpr fun hpass => ?_
  obtain ⟨front, back, hsplit⟩ := List.append_of_mem hmem
  unfold bestRunning at h
  rw [hsplit, List.foldl_append, List.foldl_cons, if_pos hpass] at h
  -- A fold that has a candidate keeps one.
  refine absurd h (List.foldlRecOn (motive := (· ≠ none)) back _ ?_ fun start hstart id _ => ?_)
  · split
    · simp
    split <;> simp
  split
  · split
    · simp
    split <;> simp
  · exact hstart

/-- The sequence is outside the context bucket of the batch, or deferred for its experts. -/
def PassedOver (s : Scheduler σ) (p : RunningPass) (seqId : Int) : Prop :=
  s.inContextBucket p seqId = false ∨ s.deferredForExperts p seqId = true

theorem pickRunning_none (h : s.pickRunning now p = none) :
    ∀ seqId ∈ p.unscheduled, s.PassedOver p seqId := by
  intro seqId hid
  unfold pickRunning at h
  split at h
  · cases h
  rename_i hbest
  have hpassed := bestRunning_none hbest seqId hid
  rw [Bool.and_eq_false_iff] at hpassed
  exact hpassed.imp_right fun hdefer => by simpa using hdefer

/-! ### The pass -/

/-- `running_ids`. -/
def decodeOrder (s : Scheduler σ) (choice : ScheduleChoice) : List Int :=
  choice.arrangement.sort (s.runsBefore choice.now) (choice.arrangement.arrange s.runningSeqs)

/-- The pass before its first round. -/
def decodeBegin (s : Scheduler σ) (choice : ScheduleChoice) (o : SchedulerOutput) : RunningPass :=
  ⟨o, s.config.maxNumBatchedTokens - o.totalTokens, [], -1, s.decodeOrder choice⟩

/-- The pass after its last round. -/
def decodeEnd (s : Scheduler σ) (choice : ScheduleChoice) (o : SchedulerOutput) : RunningPass :=
  s.runningRounds choice.now (s.decodeOrder choice).length (s.decodeBegin choice o)

theorem scheduleRunning_eq (s : Scheduler σ) (choice : ScheduleChoice) (o : SchedulerOutput) :
    s.scheduleRunning choice o =
      if s.config.maxNumBatchedTokens - o.totalTokens ≤ 0 then s.noteUndecodable o
      else if (s.decodeEnd choice o).output.decodeSeqIds = [] then
        s.noteUndecodable (s.decodeEnd choice o).output
      else (s.decodeEnd choice o).output := rfl

theorem decodeOrder_perm (s : Scheduler σ) (choice : ScheduleChoice) :
    (s.decodeOrder choice).Perm s.runningSeqs :=
  (sort_perm _ _ _).trans (choice.arrangement.perm _)

theorem inContextBucket_open (h : p.targetContextLen < 0) (seqId : Int) :
    s.inContextBucket p seqId = true := by
  have hopen : ¬ 0 ≤ p.targetContextLen := by omega
  simp [inContextBucket, hopen]

/-- **An empty batch always has a candidate.** -/
theorem decodeEnd_ne_nil (hrun : s.runningSeqs ≠ []) (hroom : ¬ s.Full (s.decodeBegin choice o)) :
    (s.decodeEnd choice o).output.decodeSeqIds ≠ [] := by
  unfold decodeEnd
  have horder : s.decodeOrder choice ≠ [] := by
    intro hnil
    exact hrun (List.nil_perm.mp (hnil ▸ decodeOrder_perm s choice))
  obtain ⟨first, rest, hcons⟩ := List.exists_cons_of_ne_nil horder
  rw [hcons, List.length_cons]
  rcases runningRounds_cases s choice.now rest.length (s.decodeBegin choice o) with
    ⟨heq, hpick | hfull⟩ | ⟨seqId, -, -, heq⟩
  · -- No candidate: the batch had something in it, or the fallback would have found one.
    rw [heq]
    intro hempty
    unfold pickRunning at hpick
    split at hpick
    · cases hpick
    rw [if_pos hempty, List.find?_eq_none] at hpick
    have hmem : first ∈ (s.decodeBegin choice o).unscheduled := by
      show first ∈ s.decodeOrder choice
      rw [hcons]
      exact List.mem_cons_self
    have hopen : (s.decodeBegin choice o).targetContextLen < 0 := Int.negSucc_lt_zero 0
    exact hpick first hmem (inContextBucket_open hopen first)
  · exact absurd hfull hroom
  · rw [heq]
    obtain ⟨ids, hout, -⟩ := runningRounds_split s choice.now rest.length
      (s.taken (s.decodeBegin choice o) seqId)
    rw [hout]
    simp [taken]

/-- **What the decode pass owes to the running sequences.**  It is entered, more rounds
would change nothing, and it divides them into those it lists behind the output and those
that its last round has passed over, unless the batch is full. -/
structure DecodesInFull (s : Scheduler σ) (choice : ScheduleChoice) (o : SchedulerOutput) :
    Prop where
  output : s.scheduleRunning choice o = (s.decodeEnd choice o).output
  ends : ∀ k, s.runningRounds choice.now ((s.decodeOrder choice).length + k)
    (s.decodeBegin choice o) = s.decodeEnd choice o
  split : ∃ ids, (s.decodeEnd choice o).output.decodeSeqIds = o.decodeSeqIds ++ ids ∧
    (ids ++ (s.decodeEnd choice o).unscheduled).Perm s.runningSeqs
  considered : s.Full (s.decodeEnd choice o) ∨
    ∀ seqId ∈ (s.decodeEnd choice o).unscheduled, s.PassedOver (s.decodeEnd choice o) seqId

theorem decodesInFull (hrun : s.runningSeqs ≠ [])
    (hroom : ¬ s.Full (s.decodeBegin choice o)) : DecodesInFull s choice o := by
  have hbudget : ¬ s.config.maxNumBatchedTokens - o.totalTokens ≤ 0 := fun h => hroom (Or.inr h)
  refine ⟨?_, ?_, ?_, ?_⟩
  · rw [scheduleRunning_eq, if_neg hbudget, if_neg (decodeEnd_ne_nil hrun hroom)]
  · exact fun k => runningRounds_enough s choice.now _ k _ (Nat.le_refl _)
  · obtain ⟨ids, hout, hperm⟩ := runningRounds_split s choice.now (s.decodeOrder choice).length
      (s.decodeBegin choice o)
    exact ⟨ids, hout, hperm.trans (decodeOrder_perm s choice)⟩
  have hstop := runningRounds_stopped s choice.now (s.decodeOrder choice).length
    (s.decodeBegin choice o) (Nat.le_refl _)
  exact hstop.symm.imp_right pickRunning_none

/-! ### Where a call makes the pass -/

/-- The scheduler and the output the decode pass of a call starts from; a call that has
listed waiting prompts in an isolated phase makes none. -/
def decodeStart (s : Scheduler σ) (choice : ScheduleChoice) :
    Option (Scheduler σ × SchedulerOutput) :=
  let r := s.swappedIn choice
  if r.1.config.isolatePrefillDecode && r.1.schedulePrefillFirst then
    let w := r.1.scheduleWaiting choice choice.allocWaiting r.2 (-1)
    if w.2.prefillSeqIds ≠ [] then none else some w
  else some r

theorem scheduleDecodeFirst_decodes (h : (s.scheduleRunning choice o).decodeSeqIds ≠ []) :
    (s.scheduleDecodeFirst choice o).2.decodeSeqIds =
      (s.scheduleRunning choice o).decodeSeqIds := by
  unfold scheduleDecodeFirst
  dsimp only
  rw [if_pos h]
  unfold finishDecode
  dsimp only
  split
  · rfl
  · exact scheduleWaiting_decodes _ _ _ _ _

theorem schedule_decodes {t : Scheduler σ} {o : SchedulerOutput}
    (hstart : s.decodeStart choice = some (t, o))
    (h : (t.scheduleRunning choice o).decodeSeqIds ≠ []) :
    (s.schedule choice).2.decodeSeqIds = (t.scheduleRunning choice o).decodeSeqIds := by
  rw [schedule_eq]
  unfold decodeStart at hstart
  dsimp only at hstart
  cases hisolate : (s.swappedIn choice).1.config.isolatePrefillDecode with
  | false =>
    rw [hisolate, Bool.false_and, if_neg (by decide)] at hstart
    obtain ⟨rfl, rfl⟩ := Prod.mk.inj (Option.some.inj hstart)
    rw [if_neg (by decide)]
    exact scheduleWaiting_decodes _ _ _ _ _
  | true =>
    rw [hisolate, Bool.true_and] at hstart
    rw [if_pos rfl]
    unfold scheduleIsolated
    dsimp only
    split at hstart
    · rename_i hfirst
      rw [if_pos hfirst]
      split at hstart
      · cases hstart
      rename_i hnone
      rw [if_neg hnone]
      rw [Option.some.inj hstart]
      exact scheduleDecodeFirst_decodes h
    rename_i hfirst
    rw [if_neg hfirst]
    obtain ⟨rfl, rfl⟩ := Prod.mk.inj (Option.some.inj hstart)
    exact scheduleDecodeFirst_decodes h

theorem schedule_prefills (hstart : s.decodeStart choice = none) :
    (s.schedule choice).2.prefillSeqIds ≠ [] := by
  rw [schedule_eq]
  unfold decodeStart at hstart
  dsimp only at hstart
  split at hstart
  · rename_i hfirst
    rw [Bool.and_eq_true] at hfirst
    rw [if_pos hfirst.1]
    unfold scheduleIsolated
    dsimp only
    rw [if_pos hfirst.2]
    split at hstart
    · rename_i hlisted
      rw [if_pos hlisted]
      exact hlisted
    · cases hstart
  · cases hstart

/-! ### The sequences that run -/

theorem scheduleWaiting_running (h : Machine s s.waitingQueue) (choice : ScheduleChoice)
    (choose : Int → AllocChoice) (cap : Int) {x : Int} (hx : x ∈ s.runningSeqs) :
    x ∈ (s.scheduleWaiting choice choose o cap).1.runningSeqs := by
  refine considerGroups_other (Q := fun s => x ∈ s.runningSeqs)
    (fun hm hx hw => hm.waitingNotRunning x hw hx)
    (fun hmoved hne hx => (hmoved.running x hne).mpr hx) _ choose _ _ ?_ hx
  rw [List.append_nil]
  exact h.perm (sortedQueue_perm s _)

/-- What holds where the decode pass starts: nothing is listed or counted yet, the
configuration is the call's, and who ran after the swap-in still runs. -/
structure DecodeReady (s : Scheduler σ) (choice : ScheduleChoice) (t : Scheduler σ)
    (o : SchedulerOutput) : Prop where
  unlisted : Unlisted o
  tokens : o.totalTokens = 0
  config : t.config = s.config
  running : ∀ x ∈ (s.swappedIn choice).1.runningSeqs, x ∈ t.runningSeqs

theorem Listed.tokens {s₀ : Scheduler σ} (h : Listed s₀ s o) (hempty : Unlisted o) :
    o.totalTokens = 0 := by
  have hchunks := h.tally.chunks_nil hempty.1
  rw [h.tally.total, h.tally.prefillTokens, h.tally.decodeTokens, hchunks, hempty.2]
  rfl

theorem swappedIn_listed (h : Machine s s.waitingQueue) (choice : ScheduleChoice) :
    Listed s (s.swappedIn choice).1 (s.swappedIn choice).2 := by
  have hnotes : Listed s (s.noteReasons .none .none) {} := by
    refine ⟨h.of_same ?_ rfl rfl rfl, ?_, Tally.empty _⟩
    · exact fun _ => ⟨rfl, rfl, rfl, rfl⟩
    exact .unlisted ⟨rfl, fun g hg => ⟨g, hg, rfl, rfl⟩, fun _ _ => rfl, fun _ _ => rfl⟩
      ⟨rfl, rfl⟩ rfl
  unfold swappedIn preempted
  split
  · exact scheduleSwapped_listed (preemptSequences_listed hnotes ⟨rfl, rfl⟩ choice)
      (preemptSequences_unlisted _ _ ⟨rfl, rfl⟩) choice
  · exact scheduleSwapped_listed hnotes ⟨rfl, rfl⟩ choice

theorem decodeStart_ready (h : Machine s s.waitingQueue)
    {t : Scheduler σ} (hstart : s.decodeStart choice = some (t, o)) : DecodeReady s choice t o := by
  have hlisted := swappedIn_listed h choice
  have hunlisted := swappedIn_unlisted s choice
  unfold decodeStart at hstart
  dsimp only at hstart
  split at hstart
  · split at hstart
    · cases hstart
    rename_i hnone
    rw [not_not] at hnone
    have hwaiting := scheduleWaiting_listed hlisted hunlisted.1 choice choice.allocWaiting (-1)
    have hdecodes := scheduleWaiting_decodes (s.swappedIn choice).1 choice choice.allocWaiting
      (s.swappedIn choice).2 (-1)
    have hrunning := fun (x : Int) (hx : x ∈ (s.swappedIn choice).1.runningSeqs) =>
      scheduleWaiting_running (o := (s.swappedIn choice).2) hlisted.machine choice
        choice.allocWaiting (-1) hx
    rw [Option.some.inj hstart] at hnone hwaiting hdecodes hrunning
    have hempty : Unlisted o := ⟨hnone, hdecodes.trans hunlisted.2⟩
    exact ⟨hempty, hwaiting.tokens hempty, hwaiting.listing.config, hrunning⟩
  · obtain ⟨rfl, rfl⟩ := Prod.mk.inj (Option.some.inj hstart)
    exact ⟨hunlisted, hlisted.tokens hunlisted, hlisted.listing.config, fun _ hx => hx⟩

end Scheduler

namespace Client

open Scheduler List

variable {σ : Type}

theorem asSize_pos {n : Int} (hpos : 1 ≤ n) (hle : n ≤ intMax) : 0 < asSize n := by
  unfold asSize
  unfold intMax at hle
  omega

/-- **Work conservation.**  In every state a legal run reaches, for every configuration
with room for one token and one sequence: if something runs after the preemption and the
swap-in of a call, the call's output is not empty, and its decode pass, when it makes
one, ends and leaves out no running sequence that it has not considered. -/
theorem schedule_work_conserving (salt : UInt64) (bm : BlockManager σ) (config : SchedulerConfig)
    (calls : List (Call σ)) (hlegal : LegalRun salt (init bm config) calls)
    (htokens : 1 ≤ config.maxNumBatchedTokens) (hseqs : 1 ≤ config.maxNumSeqs)
    (hint : config.maxNumSeqs ≤ intMax) (choice : ScheduleChoice) :
    let s := ((init bm config).run salt calls).sch
    (s.swappedIn choice).1.runningSeqs ≠ [] → (s.schedule choice).2.isEmpty = false ∧
        ∀ t o, s.decodeStart choice = some (t, o) → DecodesInFull t choice o := by
  intro s hrun
  have hready : Ready ((init bm config).run salt calls) :=
    Ready.run salt calls _ (init_ready bm config) hlegal
  have hconfig : s.config = (Scheduler.init bm config).config := run_config salt calls _
  -- Where the pass starts, something runs and the batch has room.
  have hpass : ∀ t o, s.decodeStart choice = some (t, o) →
      t.runningSeqs ≠ [] ∧ ¬ t.Full (t.decodeBegin choice o) := by
    intro t o hstart
    have hr := decodeStart_ready hready.machine hstart
    refine ⟨?_, ?_⟩
    · obtain ⟨x, rest, hcons⟩ := exists_cons_of_ne_nil hrun
      exact ne_nil_of_mem (hr.running x (hcons ▸ mem_cons_self))
    have hpos := asSize_pos hseqs hint
    rintro (hslots | hbudget)
    · have hcount : o.scheduledSeqCount = 0 := by
        unfold SchedulerOutput.scheduledSeqCount
        rw [hr.unlisted.1, hr.unlisted.2]
        rfl
      have hlimit : asSize t.config.maxNumSeqs ≤ o.scheduledSeqCount := hslots
      rw [hr.config, hconfig, hcount] at hlimit
      have hzero : asSize config.maxNumSeqs ≤ 0 := hlimit
      omega
    have hleft : t.config.maxNumBatchedTokens - o.totalTokens ≤ 0 := hbudget
    rw [hr.config, hconfig, hr.tokens] at hleft
    have hzero : config.maxNumBatchedTokens - 0 ≤ 0 := hleft
    omega
  refine ⟨?_, fun t o hstart => decodesInFull (hpass t o hstart).1 (hpass t o hstart).2⟩
  unfold SchedulerOutput.isEmpty
  rw [Bool.and_eq_false_iff, isEmpty_eq_false_iff, isEmpty_eq_false_iff]
  cases hstart : s.decodeStart choice with
  | none => exact Or.inl (schedule_prefills hstart)
  | some start =>
    obtain ⟨hsome, hroom⟩ := hpass start.1 start.2 hstart
    have hlisted : (start.1.scheduleRunning choice start.2).decodeSeqIds ≠ [] := by
      rw [(decodesInFull hsome hroom).output]
      exact decodeEnd_ne_nil hsome hroom
    refine Or.inr ?_
    rw [schedule_decodes hstart hlisted]
    exact hlisted

/-- A prompt that has been prefilled runs, and the next call lists it. -/
theorem one_running_not_empty :
    let s := ((init (BlockManager.init 8 16 : BlockManager Unit) {}).run 0 (twoPrompts.take 4)).sch
    (s.schedule {}).2.isEmpty = false :=
  (schedule_work_conserving 0 (BlockManager.init 8 16) {} (twoPrompts.take 4)
    (by decide +kernel) (by decide) (by decide) (by decide) {} (by decide +kernel)).1

end Client

end DenseCore
