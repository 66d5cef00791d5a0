/-
Whom an unfilled batch is blamed on.

The caller fails the request that an output names, for the reason the output gives.
Three things should therefore hold of every call: the reason is one that was found for
the sequence named, a sequence the call cancels is named, and a sequence whose next chunk
can never have its blocks is named.

None of them always does.  A group that is blocked after another one was found
unschedulable takes over the name.  A cancelled sequence is named only by a pass that
schedules nothing, leaves somebody waiting and is not followed by another one.  And the
pool is compared with the blocks a chunk still lacks, not with all the sequence would
then hold.
-/
import DenseCore.Proofs.Runtime.Diagnosis

namespace DenseCore

namespace Scheduler

open List hiding not_lt

variable {σ : Type} {s : Scheduler σ} {choice : ScheduleChoice} {call : WaitingCall σ}
  {before rest : List SequenceGroup} {g : SequenceGroup}

/-! ### The reason is one found for the sequence named -/

/-- What the turn of `g` finds out. -/
def WaitingCall.Established (call : WaitingCall σ) (choice : ScheduleChoice)
    (before : List SequenceGroup) (g : SequenceGroup) : SchedulerUnschedulableReason → Prop
  | .none => False
  | .promptExceedsBatchBudget => (call.after choice before).TooLong g
  | .requiredBlocksExceedCapacity =>
    (call.after choice before).HasChunk (call.queue choice).length g ∧
      (call.after choice before).sch.blockManager.numBlocks <
        (call.after choice before).blocksMissing (call.queue choice).length g

/-- The call establishes the reason `r` for the sequence `id`. -/
def EstablishedFor (s : Scheduler σ) (choice : ScheduleChoice) (id : Int)
    (r : SchedulerUnschedulableReason) : Prop :=
  ∃ call ∈ s.waitingCalls choice, ∃ before g rest, call.queue choice = before ++ g :: rest ∧
    g.sequenceId = id ∧ call.Established choice before g r

/-- The reason an output gives was established for the sequence it names. -/
def BlamesRight (s : Scheduler σ) (choice : ScheduleChoice) : Prop :=
  let o := (s.schedule choice).2
  o.unschedulableReason ≠ .none → s.EstablishedFor choice o.diagnosticSeqId o.unschedulableReason

theorem WaitingCall.established_iff {r : SchedulerUnschedulableReason} (hr : r ≠ .none) :
    call.Established choice before g r ↔ call.refusalAt choice before g = r := by
  cases r with
  | none => exact absurd rfl hr
  | promptExceedsBatchBudget => exact WaitingPass.refusalFor_tooLong_iff.symm
  | requiredBlocksExceedCapacity => exact WaitingPass.refusalFor_capacity_iff.symm

theorem exists_index {α : Type} {l before rest : List α} {x : α} (h : l = before ++ x :: rest) :
    ∃ i : Fin l.length, l.take i = before ∧ l.get i = x := by
  subst h
  exact ⟨⟨before.length, by simp⟩, by simp, by simp⟩

theorem split_at_index {α : Type} (l : List α) (i : Fin l.length) :
    l = l.take i ++ l.get i :: l.drop (i + 1) := by
  rw [get_eq_getElem, ← drop_eq_getElem_cons, take_append_drop]

theorem not_establishedFor_of_fits {id : Int}
    (h : ∀ call ∈ s.waitingCalls choice, ∀ i : Fin (call.queue choice).length,
      ((call.queue choice).get i).sequenceId = id →
      (call.after choice ((call.queue choice).take i)).blocksMissing (call.queue choice).length
          ((call.queue choice).get i) ≤
        (call.after choice ((call.queue choice).take i)).sch.blockManager.numBlocks) :
    ¬ s.EstablishedFor choice id .requiredBlocksExceedCapacity := by
  rintro ⟨call, hcall, before, g, rest, hqueue, hid, -, hlarge⟩
  obtain ⟨i, rfl, rfl⟩ := exists_index hqueue
  exact absurd hlarge (not_lt.mpr (h call hcall i hid))

theorem blamesRight_of_no_lateBlock
    (h : ∀ call, s.reportingCall choice = some call → ¬ call.BlocksLate choice) :
    s.BlamesRight choice := by
  intro hreason
  obtain ⟨call, hcall, hsame, hname⟩ := exists_reportingCall hreason
  have hfinish : (call.finish choice).unschedulableReason ≠ .none := by
    rw [← hsame]
    exact hreason
  obtain ⟨before, g, rest, hqueue, hfirst, hentry⟩ := WaitingCall.exists_firstRefused hfinish
  refine ⟨call, (mem_of_lastReport hcall).1, before, g, rest, hqueue, ?_, ?_⟩
  · exact ((hfirst.remembered hqueue).2 (h call hcall)).symm.trans hname.symm
  · exact (WaitingCall.established_iff hreason).mpr (hentry.trans hsame.symm)

theorem WaitingCall.not_blocksLate_of_head {first : SequenceGroup} {others : List SequenceGroup}
    (hqueue : call.queue choice = first :: others)
    (h : others = [] ∨ call.reasonAt choice [] first ≠ .none) : ¬ call.BlocksLate choice := by
  rintro ⟨before, g, rest, hsplit, hlate⟩
  obtain ⟨b, g', r, rfl, -⟩ := hlate.refused
  obtain ⟨head, tail, hhead⟩ : ∃ head tail, b ++ g' :: r = head :: tail :=
    exists_cons_of_ne_nil (by simp)
  rw [hqueue, hhead] at hsplit
  obtain ⟨rfl, hothers⟩ := List.cons.inj hsplit
  rcases h with rfl | hblocks
  · simp at hothers
  · exact hblocks (hlate.first [] first tail hhead)

/-! ### Whoever is cancelled is named -/

/-- Whoever the call cancels is named by its output, with the reason. -/
def NamesCancelled (s : Scheduler σ) (choice : ScheduleChoice) : Prop :=
  let o := (s.schedule choice).2
  ∀ call ∈ s.waitingCalls choice, ∀ before g rest, call.queue choice = before ++ g :: rest →
    (call.after choice before).Cancels (call.queue choice).length call.choose g →
    o.unschedulableReason = .promptExceedsBatchBudget ∧ o.diagnosticSeqId = g.sequenceId

/-- A group that is too long has its turn in the pass that reports, nobody before it is
unschedulable, and nobody is blocked late. -/
def CancelsWhereReported (s : Scheduler σ) (choice : ScheduleChoice) : Prop :=
  ∀ call ∈ s.waitingCalls choice, ∀ before g rest, call.queue choice = before ++ g :: rest →
    (call.after choice before).TooLong g →
    s.reportingCall choice = some call ∧
      (∀ b g' r, before = b ++ g' :: r → call.refusalAt choice b g' = .none) ∧
      ¬ call.BlocksLate choice

theorem WaitingCall.FirstRefused.reported (h : call.FirstRefused choice before g)
    (hqueue : call.queue choice = before ++ g :: rest)
    (hcall : s.reportingCall choice = some call) (hquiet : ¬ call.BlocksLate choice) :
    (s.schedule choice).2.unschedulableReason = call.refusalAt choice before g ∧
      (s.schedule choice).2.diagnosticSeqId = g.sequenceId := by
  obtain ⟨hreason, hname⟩ := h.remembered hqueue
  have hread := schedule_diagnosis s choice
  rw [hcall] at hread
  exact ⟨(congrArg Prod.fst hread).trans hreason, (congrArg Prod.snd hread).trans (hname hquiet)⟩

theorem namesCancelled_of_reported (h : s.CancelsWhereReported choice) :
    s.NamesCancelled choice := by
  intro call hcall before g rest hqueue hcancels
  have hlong := WaitingPass.cancels_iff.mp hcancels
  have hrefusal : call.refusalAt choice before g = .promptExceedsBatchBudget :=
    WaitingPass.refusalFor_tooLong_iff.mpr hlong
  obtain ⟨hreports, hfirst, hquiet⟩ := h call hcall before g rest hqueue hlong
  have hrefused : call.FirstRefused choice before g := ⟨by rw [hrefusal]; simp, hfirst⟩
  rw [← hrefusal]
  exact hrefused.reported hqueue hreports hquiet

theorem not_namesCancelled
    (hreason : (s.schedule choice).2.unschedulableReason ≠ .promptExceedsBatchBudget)
    (h : ∃ call ∈ s.waitingCalls choice, ∃ i : Fin (call.queue choice).length,
      (call.after choice ((call.queue choice).take i)).Cancels (call.queue choice).length
        call.choose ((call.queue choice).get i)) : ¬ s.NamesCancelled choice := by
  intro hnames
  obtain ⟨call, hcall, i, hcancels⟩ := h
  exact hreason (hnames call hcall _ _ _ (split_at_index _ i) hcancels).1

/-- The pass of a call that decodes and prefills in one go. -/
def legacyCall (s : Scheduler σ) (choice : ScheduleChoice) : WaitingCall σ :=
  let r := s.swappedIn choice
  ⟨r.1, choice.allocWaiting, r.1.scheduleRunning choice r.2, -1⟩

theorem waitingCalls_legacy (h : (s.swappedIn choice).1.config.isolatePrefillDecode = false) :
    s.waitingCalls choice = [s.legacyCall choice] := by
  unfold waitingCalls
  dsimp only
  rw [h]
  rfl

theorem cancelsWhereReported_of_two {first last : SequenceGroup}
    (hlegacy : (s.swappedIn choice).1.config.isolatePrefillDecode = false)
    (hreports : (s.legacyCall choice).reports choice = true)
    (hqueue : (s.legacyCall choice).queue choice = [first, last])
    (hblocked : (s.legacyCall choice).reasonAt choice [] first ≠ .none) :
    s.CancelsWhereReported choice := by
  have hcalls := waitingCalls_legacy hlegacy
  intro call hcall before g rest hsplit _
  rw [hcalls, mem_singleton] at hcall
  subst hcall
  refine ⟨?_, ?_, WaitingCall.not_blocksLate_of_head hqueue (Or.inr hblocked)⟩
  · unfold reportingCall
    rw [hcalls]
    exact lastReport_singleton hreports
  rintro b g' r rfl
  have hshort : b.length + r.length + rest.length = 0 := by
    have hlength := congrArg List.length (hqueue.symm.trans hsplit)
    simp only [length_append, length_cons, length_nil] at hlength
    omega
  obtain rfl : b = [] := eq_nil_of_length_eq_zero (by omega)
  obtain rfl : first = g' := (List.cons.inj (hqueue.symm.trans hsplit)).1
  exact (((s.legacyCall choice).after choice []).considerGroup_notes _ _ first).2.resolve_left
    hblocked

/-! ### Whoever can never have its blocks is named -/

/-- The blocks of the sequence with its next chunk: those it has and those it lacks. -/
def WaitingPass.blocksInTotal (p : WaitingPass σ) (queueLen : Nat) (g : SequenceGroup) : Int :=
  (p.seqBlocks g).length + p.blocksMissing queueLen g

/-- The next chunk would take more blocks than there are. -/
def WaitingPass.Hopeless (p : WaitingPass σ) (queueLen : Nat) (g : SequenceGroup) : Prop :=
  0 < p.tokensNeeded queueLen g ∧ p.sch.blockManager.numBlocks < p.blocksInTotal queueLen g

instance (p : WaitingPass σ) (queueLen : Nat) (g : SequenceGroup) :
    Decidable (p.Hopeless queueLen g) := inferInstanceAs (Decidable (_ ∧ _))

/-- A hopeless sequence is named when the call schedules no other. -/
def NamesHopeless (s : Scheduler σ) (choice : ScheduleChoice) : Prop :=
  let o := (s.schedule choice).2
  ∀ call ∈ s.waitingCalls choice, ∀ before g rest, call.queue choice = before ++ g :: rest →
    (call.after choice before).Hopeless (call.queue choice).length g →
    (∀ id ∈ o.prefillSeqIds ++ o.decodeSeqIds, id = g.sequenceId) →
    o.unschedulableReason = .requiredBlocksExceedCapacity ∧ o.diagnosticSeqId = g.sequenceId

/-- A hopeless sequence gets as far as its blocks in the pass that reports, the blocks it
lacks are by themselves more than there are, nobody before it is unschedulable, and nobody
is blocked late. -/
def HopelessByIncrement (s : Scheduler σ) (choice : ScheduleChoice) : Prop :=
  let o := (s.schedule choice).2
  ∀ call ∈ s.waitingCalls choice, ∀ before g rest, call.queue choice = before ++ g :: rest →
    (call.after choice before).Hopeless (call.queue choice).length g →
    (∀ id ∈ o.prefillSeqIds ++ o.decodeSeqIds, id = g.sequenceId) →
    ∃ last, s.reportingCall choice = some last ∧ ¬ last.BlocksLate choice ∧
      ∃ before' g' rest', last.queue choice = before' ++ g' :: rest' ∧
        g'.sequenceId = g.sequenceId ∧
        (last.after choice before').HasChunk (last.queue choice).length g' ∧
        (last.after choice before').sch.blockManager.numBlocks <
          (last.after choice before').blocksMissing (last.queue choice).length g' ∧
        ∀ b h r, before' = b ++ h :: r → last.refusalAt choice b h = .none

theorem namesHopeless_of_increment (h : s.HopelessByIncrement choice) : s.NamesHopeless choice := by
  intro call hcall before g rest hqueue hhopeless halone
  obtain ⟨last, hreports, hquiet, before', g', rest', hqueue', hid, hchunk, hlarge, hfirst⟩ :=
    h call hcall before g rest hqueue hhopeless halone
  have hrefusal : last.refusalAt choice before' g' = .requiredBlocksExceedCapacity :=
    WaitingPass.refusalFor_capacity_iff.mpr ⟨hchunk, hlarge⟩
  have hrefused : last.FirstRefused choice before' g' := ⟨by rw [hrefusal]; simp, hfirst⟩
  rw [← hrefusal, ← hid]
  exact hrefused.reported hqueue' hreports hquiet

theorem not_namesHopeless
    (hreason : (s.schedule choice).2.unschedulableReason ≠ .requiredBlocksExceedCapacity)
    (h : ∃ call ∈ s.waitingCalls choice, ∃ i : Fin (call.queue choice).length,
      (call.after choice ((call.queue choice).take i)).Hopeless (call.queue choice).length
          ((call.queue choice).get i) ∧
        ∀ id ∈ (s.schedule choice).2.prefillSeqIds ++ (s.schedule choice).2.decodeSeqIds,
          id = ((call.queue choice).get i).sequenceId) : ¬ s.NamesHopeless choice := by
  intro hnames
  obtain ⟨call, hcall, i, hhopeless, halone⟩ := h
  exact hreason (hnames call hcall _ _ _ (split_at_index _ i) hhopeless halone).1

end Scheduler

namespace Client

open Scheduler

variable {σ : Type}

/-- **The right sequence is blamed** by the next call of a run, unless in the pass that
reports a group is blocked for the first time behind one found unschedulable. -/
theorem blames_right_of_no_lateBlock (salt : UInt64) (bm : BlockManager σ)
    (config : SchedulerConfig) (calls : List (Call σ)) (choice : ScheduleChoice) :
    let s := ((init bm config).run salt calls).sch
    (∀ call, s.reportingCall choice = some call → ¬ call.BlocksLate choice) →
      s.BlamesRight choice := by
  intro s h
  exact blamesRight_of_no_lateBlock h

/-- A prompt of three blocks, alone on a pool of two. -/
def hopelessAlone : List (Call Unit) := [.addRequest { promptLen := 48 }]

theorem not_blocksLate_of_alone {call : WaitingCall Unit}
    (h : (call.queue {}).length ≤ 1) : ¬ call.BlocksLate {} := by
  cases hqueue : call.queue {} with
  | nil =>
    rintro ⟨before, g, rest, hsplit, -⟩
    rw [hqueue] at hsplit
    simp at hsplit
  | cons first others =>
    rw [hqueue] at h
    refine WaitingCall.not_blocksLate_of_head hqueue (Or.inl ?_)
    exact List.eq_nil_of_length_eq_zero (by simpa using h)

theorem hopelessAlone_blamed :
    let s := ((init (BlockManager.init 2 16) {}).run 0 hopelessAlone).sch
    (s.schedule {}).2.unschedulableReason = .requiredBlocksExceedCapacity ∧
      (s.schedule {}).2.diagnosticSeqId = 1 ∧ s.BlamesRight {} := by
  intro s
  refine ⟨by decide +kernel, by decide +kernel, ?_⟩
  refine blames_right_of_no_lateBlock 0 (BlockManager.init 2 16) {} hopelessAlone {} ?_
  intro call hcall
  have halone : ∀ call ∈ s.waitingCalls {}, (call.queue {}).length ≤ 1 := by decide +kernel
  exact not_blocksLate_of_alone (halone call (mem_of_lastReport hcall).1)

/-- Both blocks of the pool are idle, and two prompts wait: one of three blocks and one of
a single block. -/
def hopelessThenShort : List (Call Unit) :=
  cacheFillsPool.dropLast ++
    [.addRequest { promptLen := 48, now := 1 }, .addRequest { promptLen := 10, now := 2 }]

/-- **The short prompt is blamed**: its request is failed because three blocks are more
than there are, and it needs one. -/
theorem hopelessThenShort_blames_short :
    let s := ((init (BlockManager.init 2 16) {}).run 0 hopelessThenShort).sch
    LegalRun 0 (init (BlockManager.init 2 16) {}) hopelessThenShort ∧
      (s.schedule {}).2.unschedulableReason = .requiredBlocksExceedCapacity ∧
      (s.schedule {}).2.diagnosticSeqId = 3 ∧ ¬ s.BlamesRight {} := by
  intro s
  have hreason : (s.schedule {}).2.unschedulableReason = .requiredBlocksExceedCapacity := by
    decide +kernel
  have hname : (s.schedule {}).2.diagnosticSeqId = 3 := by decide +kernel
  refine ⟨by decide +kernel, hreason, hname, ?_⟩
  intro h
  have hestablished := h (by rw [hreason]; simp)
  rw [hreason, hname] at hestablished
  exact not_establishedFor_of_fits (by decide +kernel) hestablished

/-- **Whoever is cancelled is named** by the next call of a run, where every group too long
for a batch has its turn in the pass that reports, as the first unschedulable one, and
nobody is blocked late. -/
theorem names_cancelled_of_reported (salt : UInt64) (bm : BlockManager σ)
    (config : SchedulerConfig) (calls : List (Call σ)) (choice : ScheduleChoice) :
    let s := ((init bm config).run salt calls).sch
    s.CancelsWhereReported choice → s.NamesCancelled choice := by
  intro s h
  exact namesCancelled_of_reported h

/-- Without chunks and with decode and prefill in one pass, a short prompt waits for one of
two idle blocks, and one too long for a batch is behind it. -/
def shortThenLong : List (Call Unit) :=
  cacheFillsPool.dropLast ++
    [.addRequest { promptLen := 10, now := 1 }, .addRequest { promptLen := 40, now := 2 }]

def wholePrompts : SchedulerConfig :=
  { enableChunkedPrefill := false, maxNumBatchedTokens := 32, isolatePrefillDecode := false }

theorem shortThenLong_names_cancelled :
    let s := ((init (BlockManager.init 2 16) wholePrompts).run 0 shortThenLong).sch
    (s.schedule {}).1.seqStatus 3 = some .cancelled ∧ (s.schedule {}).2.diagnosticSeqId = 3 ∧
      s.NamesCancelled {} := by
  intro s
  refine ⟨by decide +kernel, by decide +kernel, ?_⟩
  refine names_cancelled_of_reported 0 (BlockManager.init 2 16) wholePrompts shortThenLong {} ?_
  have hqueue : (s.legacyCall {}).queue {} =
      [{ requestId := 0, sequenceId := 2, priority := 100, arrivalTime := 1,
         numTokensToProcess := 10 },
       { requestId := 0, sequenceId := 3, priority := 100, arrivalTime := 2,
         numTokensToProcess := 40 }] := by decide +kernel
  exact cancelsWhereReported_of_two (by decide +kernel) (by decide +kernel) hqueue
    (by decide +kernel)

/-- **A prompt is cancelled and nobody is told**: it was the only one, so nobody waits. -/
theorem longAlone_cancelled_unnamed :
    let c := (init (BlockManager.init 2 16) wholePrompts).run 0
      ([.addRequest { promptLen := 40 }] : List (Call Unit))
    LegalRun 0 (init (BlockManager.init 2 16) wholePrompts)
        ([.addRequest { promptLen := 40 }] : List (Call Unit)) ∧
      (c.sch.schedule {}).1.seqStatus 1 = some .cancelled ∧
      (c.sch.schedule {}).2.unschedulableReason = .none ∧ ¬ c.sch.NamesCancelled {} := by
  intro c
  have hreason : (c.sch.schedule {}).2.unschedulableReason = .none := by decide +kernel
  refine ⟨by decide +kernel, by decide +kernel, hreason, ?_⟩
  exact not_namesCancelled (by rw [hreason]; simp) (by decide +kernel)

/-- **Whoever can never have its blocks is named** by the next call of a run, where the
blocks it lacks are by themselves more than the pool and its turn in the pass that reports
finds it out first, nobody being blocked late. -/
theorem names_hopeless_of_increment (salt : UInt64) (bm : BlockManager σ)
    (config : SchedulerConfig) (calls : List (Call σ)) (choice : ScheduleChoice) :
    let s := ((init bm config).run salt calls).sch
    s.HopelessByIncrement choice → s.NamesHopeless choice := by
  intro s h
  exact namesHopeless_of_increment h

theorem hopelessAlone_named :
    let s := ((init (BlockManager.init 2 16) {}).run 0 hopelessAlone).sch
    (s.schedule {}).2.prefillSeqIds = [] ∧ s.NamesHopeless {} := by
  intro s
  refine ⟨by decide +kernel, ?_⟩
  refine names_hopeless_of_increment 0 (BlockManager.init 2 16) {} hopelessAlone {} ?_
  have hturn : ∀ call ∈ s.waitingCalls {},
      call.queue {} = [{ requestId := 0, sequenceId := 1, priority := 100, arrivalTime := 0,
                         numTokensToProcess := 48 }] ∧
        call.refusalAt {} [] { requestId := 0, sequenceId := 1, priority := 100, arrivalTime := 0,
                               numTokensToProcess := 48 } = .requiredBlocksExceedCapacity := by
    decide +kernel
  have hreports : (s.reportingCall {}).isSome = true := by decide +kernel
  obtain ⟨last, hlast⟩ := Option.isSome_iff_exists.mp hreports
  obtain ⟨hqueue', hrefusal⟩ := hturn last (mem_of_lastReport hlast).1
  obtain ⟨hchunk, hlarge⟩ := WaitingPass.refusalFor_capacity_iff.mp hrefusal
  intro call hcall before g rest hqueue _ _
  have hmem : g ∈ call.queue {} := by rw [hqueue]; simp
  rw [(hturn call hcall).1, List.mem_singleton] at hmem
  refine ⟨last, hlast, not_blocksLate_of_alone (by rw [hqueue']; simp), [], _, [], hqueue', ?_,
    hchunk, hlarge, by simp⟩
  rw [hmem]

/-- The first chunk of a prompt of three blocks has taken both blocks of the pool. -/
def twoOfThreeBlocks : List (Call Unit) :=
  [.addRequest { promptLen := 48 }, .schedule {}, .onPrefillChunkComplete 1 32 false]

/-- **The third block is waited for without end**: one block is less than the pool, so the
call reports that none is free. -/
theorem twoOfThreeBlocks_unnamed :
    let s := ((init (BlockManager.init 2 16) { maxPrefillTokens := 32 }).run 0 twoOfThreeBlocks).sch
    LegalRun 0 (init (BlockManager.init 2 16) { maxPrefillTokens := 32 }) twoOfThreeBlocks ∧
      (s.schedule {}).2.emptyReason = .noFreeBlocks ∧
      (s.schedule {}).2.unschedulableReason = .none ∧ ¬ s.NamesHopeless {} := by
  intro s
  have hreason : (s.schedule {}).2.unschedulableReason = .none := by decide +kernel
  refine ⟨by decide +kernel, by decide +kernel, hreason, ?_⟩
  exact not_namesHopeless (by rw [hreason]; simp) (by decide +kernel)

end Client

end DenseCore
