/-
A preempted sequence and the swap-in of the same call.

Preemption marks a victim and leaves its blocks where they are, and the swap-in that
follows looks at the same free list.  It goes through the swapped sequences in their
order and takes each one for which a slot and enough free blocks are left; the
victim is now one of them.  `swapInLeft` is the arithmetic of that loop, and the
victim stays out exactly when what is left at its turn is too little.
-/
import DenseCore.Proofs.Runtime.Protocol

namespace DenseCore

namespace Scheduler

open List hiding not_le not_lt

variable {σ : Type} {s s' : Scheduler σ} {o : SchedulerOutput} {id : Int} {choice : ScheduleChoice}

/-! ### The arithmetic of the swap-in -/

/-- The slots and the free blocks the loop has left after the ids it went through. -/
def swapInLeft (s : Scheduler σ) : List Int → Int → Int → Int × Int
  | [], slots, free => (slots, free)
  | id :: rest, slots, free =>
    if 0 < slots ∧ s.swapInBlocks id ≤ free then
      swapInLeft s rest (slots - 1) (free - s.swapInBlocks id)
    else swapInLeft s rest slots free

theorem swapInBlocks_pos (s : Scheduler σ) (id : Int) : 0 < s.swapInBlocks id := by
  unfold swapInBlocks blocksNeeded blockSlots
  dsimp only
  split
  · decide
  rw [Int.tdiv_eq_ediv_of_nonneg (by omega)]
  omega

/-- The needs are read from two maps that neither pass writes. -/
theorem swapInBlocks_congr (hp : s'.seqPromptLen = s.seqPromptLen)
    (hg : s'.seqGeneratedTokens = s.seqGeneratedTokens) (id : Int) :
    s'.swapInBlocks id = s.swapInBlocks id := by
  unfold swapInBlocks getSequenceProgress
  rw [hp, hg]

theorem swapInLeft_congr (hneed : ∀ id, s'.swapInBlocks id = s.swapInBlocks id) (l : List Int) :
    ∀ slots free, s'.swapInLeft l slots free = s.swapInLeft l slots free := by
  induction l with
  | nil => intro slots free; rfl
  | cons id rest ih =>
    intro slots free
    unfold swapInLeft
    rw [hneed, ih, ih]

/-- **One turn of the loop**: with a slot and enough free blocks the sequence is
admitted, for the allocation then succeeds; otherwise nothing happens. -/
theorem swapInOne_admits (choice : ScheduleChoice) (p : SwapInPass σ) (id : Int)
    (hroom : 0 < p.availableSlots ∧ p.sch.swapInBlocks id ≤ p.sch.blockManager.getFreeBlockCount) :
    ∃ m new, swapInOne choice p id =
        { p with sch := { p.sch with blockManager := m } }.takeIn id new ∧
      (m.getFreeBlockCount : Int) =
        p.sch.blockManager.getFreeBlockCount - p.sch.swapInBlocks id ∧
      m = (p.sch.blockManager.allocate (p.sch.swapInBlocks id) (choice.allocSwapped id)).2 := by
  obtain ⟨hlen, hfree⟩ := p.sch.blockManager.allocate_of_free (choice.allocSwapped id)
    (swapInBlocks_pos p.sch id) hroom.2
  have hpos := swapInBlocks_pos p.sch id
  refine ⟨_, (p.sch.blockManager.allocate (p.sch.swapInBlocks id) (choice.allocSwapped id)).1, ?_,
    by omega, rfl⟩
  unfold swapInOne
  rw [if_neg (not_le.mpr hroom.1), if_neg (not_lt.mpr hroom.2)]
  dsimp only
  rw [if_neg]
  intro hnil
  rw [hnil, length_nil] at hlen
  omega

theorem swapInOne_skips (choice : ScheduleChoice) (p : SwapInPass σ) (id : Int)
    (hroom : ¬ (0 < p.availableSlots ∧
      p.sch.swapInBlocks id ≤ p.sch.blockManager.getFreeBlockCount)) :
    swapInOne choice p id = p := by
  unfold swapInOne
  split
  · rfl
  rename_i hslots
  rw [if_pos]
  by_contra hfree
  exact hroom ⟨not_le.mp hslots, not_lt.mp hfree⟩

/-- **The loop**, as far as slots and blocks go. -/
theorem swapInAll_left (choice : ScheduleChoice) (l : List Int) : ∀ p : SwapInPass σ,
    let p' := l.foldl (swapInOne choice) p
    (p'.availableSlots, (p'.sch.blockManager.getFreeBlockCount : Int)) =
      p.sch.swapInLeft l p.availableSlots p.sch.blockManager.getFreeBlockCount := by
  induction l with
  | nil => intro p; rfl
  | cons id rest ih =>
    intro p
    rw [foldl_cons]
    unfold swapInLeft
    have hneed : ∀ x, (swapInOne choice p id).sch.swapInBlocks x = p.sch.swapInBlocks x := by
      obtain ⟨m, r, w, st, b, is, al, n, heq⟩ := swapInOne_spec choice p id
      rw [heq]
      exact swapInBlocks_congr rfl rfl
    split
    · rename_i hroom
      obtain ⟨m, new, heq, hfree, -⟩ := swapInOne_admits choice p id hroom
      have hrest := ih (swapInOne choice p id)
      dsimp only at hrest ⊢
      rw [hrest, swapInLeft_congr hneed, heq]
      show p.sch.swapInLeft rest (p.availableSlots - 1) m.getFreeBlockCount = _
      rw [hfree]
    rename_i hroom
    rw [swapInOne_skips choice p id hroom]
    exact ih p

variable {x : Int} {l : List Int}

theorem swapInAll_others (choice : ScheduleChoice) (l : List Int) : ∀ p : SwapInPass σ, x ∉ l →
      let p' := l.foldl (swapInOne choice) p
      (x ∈ p'.output.swapInSeqIds ↔ x ∈ p.output.swapInSeqIds) ∧
        (x ∈ p'.sch.swappedSeqs ↔ x ∈ p.sch.swappedSeqs) := by
  induction l with
  | nil => intro p _; exact ⟨Iff.rfl, Iff.rfl⟩
  | cons id rest ih =>
    intro p hx
    rw [mem_cons, not_or] at hx
    obtain ⟨hids, hswapped⟩ := ih (swapInOne choice p id) hx.2
    rw [foldl_cons]
    dsimp only at hids hswapped ⊢
    rw [hids, hswapped]
    by_cases hroom : 0 < p.availableSlots ∧
        p.sch.swapInBlocks id ≤ p.sch.blockManager.getFreeBlockCount
    · obtain ⟨m, new, heq, -⟩ := swapInOne_admits choice p id hroom
      rw [heq]
      refine ⟨?_, ?_⟩
      · show x ∈ p.output.swapInSeqIds ++ [id] ↔ _
        simp [hx.1]
      show x ∈ p.sch.swappedSeqs.filter (fun y => y ≠ id) ↔ _
      simp [hx.1]
    rw [swapInOne_skips choice p id hroom]
    exact ⟨Iff.rfl, Iff.rfl⟩

/-- **The turn of one sequence decides**: it is swapped in exactly when the ids
before it leave a slot and enough blocks. -/
theorem swapInAll_turn (choice : ScheduleChoice) {before after : List Int}
    (hbefore : x ∉ before) (hafter : x ∉ after) (p : SwapInPass σ)
    (hnew : x ∉ p.output.swapInSeqIds) (hx : x ∈ p.sch.swappedSeqs) :
    let p' := (before ++ x :: after).foldl (swapInOne choice) p
    let left := p.sch.swapInLeft before p.availableSlots p.sch.blockManager.getFreeBlockCount
    (0 < left.1 ∧ p.sch.swapInBlocks x ≤ left.2 → x ∈ p'.output.swapInSeqIds) ∧
      (¬ (0 < left.1 ∧ p.sch.swapInBlocks x ≤ left.2) →
        x ∉ p'.output.swapInSeqIds ∧ x ∈ p'.sch.swappedSeqs) := by
  have hleft := swapInAll_left choice before p
  obtain ⟨hids, hswapped⟩ := swapInAll_others choice before p hbefore
  have hneed : (before.foldl (swapInOne choice) p).sch.swapInBlocks x = p.sch.swapInBlocks x := by
    obtain ⟨m, r, w, st, b, is, al, n, heq⟩ := swapInAll_spec choice before p
    rw [heq]
    exact swapInBlocks_congr rfl rfl x
  dsimp only at hleft hids hswapped ⊢
  rw [foldl_append, foldl_cons, ← hleft, ← hneed]
  generalize before.foldl (swapInOne choice) p = q at hids hswapped ⊢
  obtain ⟨hids', hswapped'⟩ := swapInAll_others choice after (swapInOne choice q x) hafter
  dsimp only at hids' hswapped' ⊢
  rw [hids', hswapped']
  refine ⟨?_, ?_⟩
  · intro hroom
    obtain ⟨m, new, heq, -⟩ := swapInOne_admits choice q x hroom
    rw [heq]
    exact mem_append_right _ (by simp)
  intro hroom
  rw [swapInOne_skips choice q x hroom, hids, hswapped]
  exact ⟨hnew, hx⟩

theorem swapInLeft_slots_le (s : Scheduler σ) (l : List Int) : ∀ slots free,
    (s.swapInLeft l slots free).1 ≤ slots := by
  induction l with
  | nil => intro slots free; exact le_rfl
  | cons id rest ih =>
    intro slots free
    unfold swapInLeft
    split
    · have := ih (slots - 1) (free - s.swapInBlocks id)
      omega
    · exact ih slots free

/-- A list up to the first occurrence of one of its elements. -/
theorem exists_takeWhile_split (h : x ∈ l) :
    ∃ after, l = l.takeWhile (fun y => y ≠ x) ++ x :: after := by
  induction l with
  | nil => simp at h
  | cons y rest ih =>
    by_cases heq : y = x
    · subst heq
      exact ⟨rest, by simp⟩
    obtain ⟨after, hsplit⟩ := ih ((List.mem_cons.mp h).resolve_left (Ne.symm heq))
    refine ⟨after, ?_⟩
    rw [takeWhile_cons_of_pos (by simpa using heq), cons_append, ← hsplit]

/-- The order in which the swap-in goes through a set. -/
def swapInOrder (s : Scheduler σ) (choice : ScheduleChoice) (swapped : List Int) : List Int :=
  choice.arrangement.sort (s.runsBefore choice.now) (choice.arrangement.arrange swapped)

/-- What the swap-in has left when it comes to `x`. -/
def leftFor (s : Scheduler σ) (choice : ScheduleChoice) (swapped : List Int) (slots x : Int) :
    Int × Int :=
  s.swapInLeft ((s.swapInOrder choice swapped).takeWhile fun y => y ≠ x) slots
    s.blockManager.getFreeBlockCount

theorem scheduleSwapped_turn (choice : ScheduleChoice) (hx : x ∈ s.swappedSeqs)
    (hnodup : s.swappedSeqs.Nodup)
    (hnew : x ∉ o.swapInSeqIds) :
    let r := s.scheduleSwapped choice o
    let left := s.leftFor choice s.swappedSeqs (s.config.maxNumSeqs - s.runningSeqs.length) x
    (0 < left.1 ∧ s.swapInBlocks x ≤ left.2 → x ∈ r.2.swapInSeqIds) ∧
      (¬ (0 < left.1 ∧ s.swapInBlocks x ≤ left.2) →
        x ∉ r.2.swapInSeqIds ∧ x ∈ r.1.swappedSeqs) := by
  have hperm : (s.swapInOrder choice s.swappedSeqs).Perm s.swappedSeqs := swapInOrder_perm s choice
  obtain ⟨after, hsplit⟩ := exists_takeWhile_split (hperm.mem_iff.mpr hx)
  have hids := hperm.nodup_iff.mpr hnodup
  rw [hsplit, nodup_append, nodup_cons] at hids
  have hbefore : x ∉ (s.swapInOrder choice s.swappedSeqs).takeWhile fun y => y ≠ x := by
    intro hmem
    exact hids.2.2 x hmem x (by simp) rfl
  have hslots := swapInLeft_slots_le s
    ((s.swapInOrder choice s.swappedSeqs).takeWhile fun y => y ≠ x)
    (s.config.maxNumSeqs - s.runningSeqs.length) s.blockManager.getFreeBlockCount
  have hturn := swapInAll_turn choice hbefore hids.2.1.1
    ⟨s, o, s.config.maxNumSeqs - s.runningSeqs.length⟩ hnew hx
  rw [← hsplit] at hturn
  unfold scheduleSwapped
  rw [if_neg (ne_nil_of_mem hx)]
  dsimp only
  split
  · rename_i hfull
    -- Without a slot the loop is not entered, and its arithmetic finds none either.
    refine ⟨fun hroom => ?_, fun _ => ⟨hnew, hx⟩⟩
    unfold leftFor at hroom
    omega
  · exact hturn

/-! ### The call -/

/-- The sequence a call preempts, if it preempts one. -/
def preemptionVictim (s : Scheduler σ) (choice : ScheduleChoice) : Option Int :=
  if s.config.aboveWatermarkHigh s.usedBlocks s.blockManager.numBlocks = true ∧
      ¬ (s.config.withinWatermarkLow s.usedBlocks s.blockManager.numBlocks = true ∨
        s.runningSeqs = []) ∧
      ¬ s.selectPreemptionVictim choice < 0 then
    some (s.selectPreemptionVictim choice)
  else none

/-- The victim finds a slot and enough free blocks when the swap-in of the same call
comes to it. -/
def VictimReturns (s : Scheduler σ) (choice : ScheduleChoice) (victim : Int) : Prop :=
  let left := s.leftFor choice (s.swappedSeqs.insert victim)
    (s.config.maxNumSeqs - (s.runningSeqs.length - 1)) victim
  0 < left.1 ∧ s.swapInBlocks victim ≤ left.2

instance (s : Scheduler σ) (choice : ScheduleChoice) (victim : Int) :
    Decidable (s.VictimReturns choice victim) := inferInstanceAs (Decidable (_ ∧ _))

/-- No sequence is listed as preempted and as swapped in, and a preempted one is
swapped out when the call returns. -/
def PreemptionStands (s : Scheduler σ) (choice : ScheduleChoice) : Prop :=
  let r := s.schedule choice
  (∀ id, ¬ (id ∈ r.2.preemptedSeqIds ∧ id ∈ r.2.swapInSeqIds)) ∧
    ∀ id ∈ r.2.preemptedSeqIds, r.1.seqStatus id = some .swapped ∧ id ∉ r.1.runningSeqs

/-- The scheduler with one running sequence swapped out. -/
def swappedOut (s : Scheduler σ) (victim : Int) : Scheduler σ :=
  { (s.noteReasons .none .none).setStatus victim .swapped with
    runningSeqs := s.runningSeqs.filter fun x => x ≠ victim
    swappedSeqs := s.swappedSeqs.insert victim
    seqBlockIds := Function.update s.seqBlockIds victim none }

theorem preempted_of_victim {victim : Int} (h : s.preemptionVictim choice = some victim) :
    s.preempted choice = (s.swappedOut victim, { preemptedSeqIds := [victim] }) ∧
      victim ∈ s.runningSeqs := by
  unfold preemptionVictim at h
  split at h
  · rename_i hpress
    obtain ⟨hhigh, hlow, hvictim⟩ := hpress
    obtain rfl : s.selectPreemptionVictim choice = victim := by simpa using h
    refine ⟨?_, selectPreemptionVictim_mem s choice hvictim⟩
    unfold preempted
    rw [if_pos hhigh]
    unfold preemptSequences
    rw [if_neg (show ¬ ((s.noteReasons .none .none).config.withinWatermarkLow
      (s.noteReasons .none .none).usedBlocks (s.noteReasons .none .none).blockManager.numBlocks =
        true ∨ (s.noteReasons .none .none).runningSeqs = []) from hlow)]
    dsimp only
    rw [if_neg (show ¬ (s.noteReasons .none .none).selectPreemptionVictim choice < 0 from hvictim)]
    rfl
  · exact absurd h (by simp)

theorem preempted_of_none (h : s.preemptionVictim choice = none) :
    s.preempted choice = (s.noteReasons .none .none, {}) := by
  unfold preemptionVictim at h
  split at h
  · exact absurd h (by simp)
  rename_i hpress
  unfold preempted
  split
  · rename_i hhigh
    unfold preemptSequences
    dsimp only
    split
    · rfl
    rename_i hlow
    split
    · rfl
    rename_i hvictim
    exact absurd ⟨hhigh, hlow, hvictim⟩ hpress
  · rfl

/-! ### After the swap-in -/

theorem schedule_keeps_swapped (hm : Machine s s.waitingQueue)
    (hx : x ∈ (s.swappedIn choice).1.swappedSeqs) : x ∈ (s.schedule choice).1.swappedSeqs := by
  have hP : BatchPhases choice fun (s' : Scheduler σ) _ =>
      Kept (fun _ => False) s' ∧ x ∈ s'.swappedSeqs :=
    { notes := by
        intro s' o e u n h
        refine ⟨⟨h.1.1.of_same ?_ rfl rfl rfl, h.1.2⟩, h.2⟩
        exact fun _ => ⟨rfl, rfl, rfl, rfl⟩
      bucket := fun _ _ _ h => h
      decode := fun _ _ h _ => h
      prefill := by
        intro s' o choose cap h _
        refine ⟨scheduleWaiting_kept h.1 choice choose cap, ?_⟩
        refine considerGroups_other (Q := fun s => x ∈ s.swappedSeqs)
          (fun hm hx hw => hm.waitingNotSwapped x hw hx)
          (fun hmoved hne hx => (hmoved.swapped x hne).mpr hx) _ choose _ _ ?_ h.2
        rw [append_nil]
        exact h.1.1.perm (sortedQueue_perm s' _) }
  have hkept : Kept (fun _ => False) (s.swappedIn choice).1 := by
    refine scheduleSwapped_kept ?_ choice
    have hnotes : Kept (fun _ => False) (s.noteReasons .none .none) := by
      refine ⟨hm.of_same ?_ rfl rfl rfl, fun _ hx => hx.elim⟩
      exact fun _ => ⟨rfl, rfl, rfl, rfl⟩
    unfold preempted
    split
    · exact preemptSequences_kept hnotes choice
    · exact hnotes
  exact (hP.schedule ⟨hkept, hx⟩).2

theorem considerGroups_swapLists (queueLen : Nat) (choose : Int → AllocChoice)
    (rest : List SequenceGroup) : ∀ p : WaitingPass σ,
      let p' := rest.foldl (WaitingPass.considerGroup queueLen choose) p
      p'.output.preemptedSeqIds = p.output.preemptedSeqIds ∧
        p'.output.swapInSeqIds = p.output.swapInSeqIds := by
  intro p
  exact ⟨considerGroups_output (·.preemptedSeqIds) (fun _ _ _ _ _ => rfl) queueLen choose rest p,
    considerGroups_output (·.swapInSeqIds) (fun _ _ _ _ _ => rfl) queueLen choose rest p⟩

theorem schedule_swapLists (s : Scheduler σ) (choice : ScheduleChoice) :
    (s.schedule choice).2.preemptedSeqIds = (s.preempted choice).2.preemptedSeqIds ∧
      (s.schedule choice).2.swapInSeqIds = (s.swappedIn choice).2.swapInSeqIds := by
  have hP : BatchPhases choice fun (_ : Scheduler σ) o =>
      o.preemptedSeqIds = (s.preempted choice).2.preemptedSeqIds ∧
        o.swapInSeqIds = (s.swappedIn choice).2.swapInSeqIds :=
    { notes := fun _ _ _ _ _ h => h
      bucket := fun _ _ _ h => h
      decode := by
        intro s' o h _
        obtain ⟨ids, context, reason, hout, -, -⟩ := scheduleRunning_spec s' choice o
        rw [hout]
        exact h
      prefill := by
        intro s' o choose cap h _
        have hloop := considerGroups_swapLists (s'.sortedQueue choice.arrangement).length choose
          (s'.sortedQueue choice.arrangement)
          { sch := s'
            output := o
            tokensBudget := s'.config.maxNumBatchedTokens - o.totalTokens
            prefillTokenCap := cap
            targetContextLen := o.batchContextLen }
        unfold scheduleWaiting
        dsimp only at hloop ⊢
        generalize List.foldl _ _ _ = q at hloop ⊢
        split
        · exact ⟨hloop.1.trans h.1, hloop.2.trans h.2⟩
        · exact ⟨hloop.1.trans h.1, hloop.2.trans h.2⟩ }
  refine hP.schedule ⟨?_, rfl⟩
  obtain ⟨m, running, swapped, status, blocks, ids, allocations, heq⟩ :=
    scheduleSwapped_spec (s.preempted choice).1 choice (s.preempted choice).2
  unfold swappedIn
  rw [heq]

theorem length_filter_ne (hnodup : l.Nodup) (hx : x ∈ l) :
    ((l.filter fun y => y ≠ x).length : Int) = l.length - 1 := by
  have herase : l.filter (fun y => y ≠ x) = l.erase x := by
    rw [hnodup.erase_eq_filter]
    exact filter_congr fun y _ => by rw [Bool.eq_iff_iff]; simp
  rw [herase, length_erase_of_mem hx]
  have := length_pos_of_mem hx
  omega

/-- **One call**: the preemption stands exactly when the victim does not find its way
back through the swap-in. -/
theorem preemptionStands_iff (hm : Machine s s.waitingQueue) (choice : ScheduleChoice) :
    s.PreemptionStands choice ↔
      ∀ victim, s.preemptionVictim choice = some victim → ¬ s.VictimReturns choice victim := by
  obtain ⟨hpre, hin⟩ := schedule_swapLists s choice
  unfold PreemptionStands
  dsimp only
  rw [hpre, hin]
  cases hvictim : s.preemptionVictim choice with
  | none =>
    rw [preempted_of_none hvictim]
    simp
  | some victim =>
    obtain ⟨heq, hrunning⟩ := preempted_of_victim hvictim
    have hnodup : (s.swappedOut victim).swappedSeqs.Nodup := hm.swappedNodup.insert
    have hmem : victim ∈ (s.swappedOut victim).swappedSeqs := mem_insert_self
    have hswappedIn : s.swappedIn choice =
        (s.swappedOut victim).scheduleSwapped choice { preemptedSeqIds := [victim] } := by
      unfold swappedIn
      rw [heq]
    have hslots : ((s.swappedOut victim).runningSeqs.length : Int) = s.runningSeqs.length - 1 :=
      length_filter_ne hm.runningNodup hrunning
    have hleft : (s.swappedOut victim).leftFor choice (s.swappedOut victim).swappedSeqs
        ((s.swappedOut victim).config.maxNumSeqs - (s.swappedOut victim).runningSeqs.length)
        victim = s.leftFor choice (s.swappedSeqs.insert victim)
          (s.config.maxNumSeqs - (s.runningSeqs.length - 1)) victim := by
      have hneed : ∀ x, (s.swappedOut victim).swapInBlocks x = s.swapInBlocks x :=
        swapInBlocks_congr rfl rfl
      rw [hslots]
      exact swapInLeft_congr hneed _ _ _
    obtain ⟨hreturns, hstays⟩ : (s.VictimReturns choice victim →
          victim ∈ (s.swappedIn choice).2.swapInSeqIds) ∧
        (¬ s.VictimReturns choice victim → victim ∉ (s.swappedIn choice).2.swapInSeqIds ∧
            victim ∈ (s.swappedIn choice).1.swappedSeqs) := by
      have hturn := scheduleSwapped_turn (o := { preemptedSeqIds := [victim] }) choice hmem hnodup
        (by simp)
      rw [hleft] at hturn
      rw [hswappedIn]
      exact hturn
    rw [heq]
    refine ⟨?_, ?_⟩
    · rintro ⟨hdisjoint, -⟩ x hx hback
      obtain rfl : victim = x := by simpa using hx
      exact hdisjoint victim ⟨by simp, hreturns hback⟩
    intro hnever
    obtain ⟨hnotIn, hswapped⟩ := hstays (hnever victim rfl)
    have hend := schedule_keeps_swapped hm hswapped
    have hmachine := hm.schedule choice
    refine ⟨?_, ?_⟩
    · rintro x ⟨hx, hxin⟩
      obtain rfl : x = victim := by simpa using hx
      exact hnotIn hxin
    intro x hx
    obtain rfl : x = victim := by simpa using hx
    exact ⟨(hmachine.swappedOut x hend).status, fun hr => hmachine.runningNotSwapped x hr hend⟩

end Scheduler

namespace Client

open Scheduler

variable {σ : Type}

/-- **Preemption and swap-in of one call.**  In every state a legal run reaches, no
sequence is both preempted and swapped in, and a preempted one is swapped out at
the end, exactly when the victim of the call, if there is one, finds no slot or too
few free blocks at its turn in the swap-in. -/
theorem preemption_stands_iff (salt : UInt64) (bm : BlockManager σ) (config : SchedulerConfig)
    (calls : List (Call σ)) (hlegal : LegalRun salt (init bm config) calls)
    (choice : ScheduleChoice) :
    let s := ((init bm config).run salt calls).sch
    s.PreemptionStands choice ↔
      ∀ victim, s.preemptionVictim choice = some victim → ¬ s.VictimReturns choice victim := by
  intro s
  have h : Ready ((init bm config).run salt calls) :=
    Ready.run salt calls _ (init_ready bm config) hlegal
  exact preemptionStands_iff h.machine choice

/-- Three prompts of eight, one and one block are prefilled and run. -/
def threeRunning : List (Call Unit) :=
  [.addRequest { promptLen := 128 }, .addRequest { promptLen := 16, now := 1 },
    .addRequest { promptLen := 16, now := 2 }, .schedule {},
    .updateProgress 1 128, .updateProgress 2 16, .updateProgress 3 16]

/-- On ten blocks none is free, and the last arrival stays out. -/
theorem threeRunning_preemption_stands :
    LegalRun 0 (init (BlockManager.init 10 16) {}) threeRunning ∧
      ((init (BlockManager.init 10 16) {}).run 0 threeRunning).sch.preemptionVictim {} = some 3 ∧
      ((init (BlockManager.init 10 16) {}).run 0 threeRunning).sch.PreemptionStands {} := by
  have hlegal : LegalRun 0 (init (BlockManager.init 10 16) {}) threeRunning := by decide +kernel
  have hvictim : ((init (BlockManager.init 10 16) {}).run 0 threeRunning).sch.preemptionVictim {} =
      some 3 := by decide +kernel
  refine ⟨hlegal, hvictim, (preemption_stands_iff 0 _ _ _ hlegal {}).mpr ?_⟩
  intro victim hsome
  obtain rfl : 3 = victim := by simpa using hvictim.symm.trans hsome
  decide +kernel

/-- **On eleven blocks one is free**, above the high watermark all the same, and the
victim comes back at once. -/
theorem threeRunning_victim_returns : LegalRun 0 (init (BlockManager.init 11 16) {}) threeRunning ∧
      (((init (BlockManager.init 11 16) {}).run 0 threeRunning).sch.schedule {}).2.preemptedSeqIds =
        [3] ∧
      (((init (BlockManager.init 11 16) {}).run 0 threeRunning).sch.schedule {}).2.swapInSeqIds =
        [3] ∧
      ¬ ((init (BlockManager.init 11 16) {}).run 0 threeRunning).sch.PreemptionStands {} := by
  have hpre : (((init (BlockManager.init 11 16) {}).run 0
      threeRunning).sch.schedule {}).2.preemptedSeqIds = [3] := by decide +kernel
  have hin : (((init (BlockManager.init 11 16) {}).run 0
      threeRunning).sch.schedule {}).2.swapInSeqIds = [3] := by decide +kernel
  refine ⟨by decide +kernel, hpre, hin, ?_⟩
  rintro ⟨hdisjoint, -⟩
  exact hdisjoint 3 ⟨by rw [hpre]; simp, by rw [hin]; simp⟩

end Client

end DenseCore
