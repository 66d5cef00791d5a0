/-
What a call says about a batch it could not fill.

A pass over the waiting queue remembers two reasons, why the first group was blocked and
why the first one was found unschedulable, and one id for both.  Each turn enters at most
one of the two reasons, and which one it enters does not depend on what is remembered.

A pass hands its reasons to the output only when nothing is scheduled and somebody
waits.  A call makes one pass or two, so what the caller reads is from the last pass that
handed anything over.
-/
import DenseCore.Lib.FirstEntry
import DenseCore.Proofs.Runtime.Admission

namespace DenseCore

open List hiding not_le

open Lib (FirstEntry SharedAuthor)

namespace Scheduler

variable {σ : Type} {s : Scheduler σ} {choice : ScheduleChoice}

/-! ### What a turn enters

A turn enters at most one reason, and a later turn may enter another over it. What the pass
reports is thus what the last turn with a reason found.
-/

namespace WaitingPass

/-- The reason for which the turn of a group would find it unschedulable, if it were the
first. -/
def refusalFor (p : WaitingPass σ) (queueLen : Nat) (choose : Int → AllocChoice)
    (group : SequenceGroup) : SchedulerUnschedulableReason :=
  ({ p with unschedulableReason := .none }.considerGroup queueLen choose group).unschedulableReason

/-- What the pass remembers. -/
structure Notes where
  blocked : SchedulerEmptyReason
  refused : SchedulerUnschedulableReason
  named : Int

/-- What a pass has noted down. -/
def notes (p : WaitingPass σ) : Notes := ⟨p.blockedReason, p.unschedulableReason, p.diagnosticSeqId⟩

/-- The pass with other notes. -/
def withNotes (p : WaitingPass σ) (n : Notes) : WaitingPass σ :=
  { p with
    blockedReason := n.blocked
    unschedulableReason := n.refused
    diagnosticSeqId := n.named }

/-- The notes after a turn of `id` that enters `b` and `u`; `none` enters nothing. -/
def Notes.add (n : Notes) (b : SchedulerEmptyReason) (u : SchedulerUnschedulableReason) (id : Int) :
    Notes :=
  { blocked := if n.blocked = .none then b else n.blocked
    refused := if n.refused = .none then u else n.refused
    named :=
      if n.refused = .none ∧ u ≠ .none ∨ n.blocked = .none ∧ b ≠ .none then id else n.named }

variable {p : WaitingPass σ} {queueLen : Nat} {choose : Int → AllocChoice} {g : SequenceGroup}

theorem add_nothing (n : Notes) (id : Int) : n.add .none .none id = n := by
  obtain ⟨b, u, d⟩ := n
  unfold Notes.add
  cases b <;> cases u <;> rfl

theorem block_notes (p : WaitingPass σ) {r : SchedulerEmptyReason} (hr : r ≠ .none)
    (g : SequenceGroup) : (p.block r g).notes = p.notes.add r .none g.sequenceId := by
  unfold block notes Notes.add keep
  by_cases hb : p.blockedReason = .none
  · simp [hb, hr]
  · simp [hb]

variable {u : SchedulerUnschedulableReason}

theorem reject_notes (p : WaitingPass σ) (hu : u ≠ .none)
    (g : SequenceGroup) : (p.reject u g).notes = p.notes.add .none u g.sequenceId := by
  unfold reject notes Notes.add
  by_cases hp : p.unschedulableReason = .none
  · simp [hp, hu]
  · simp [hp]

/-- A turn, as a function of the notes before it, enters at most one reason, and the same
whatever the notes are. -/
def Enters (turn : Notes → WaitingPass σ) (id : Int) : Prop :=
  ∃ b u, (b = .none ∨ u = .none) ∧ ∀ n, (turn n).notes = n.add b u id

namespace Enters

variable {turn other : Notes → WaitingPass σ} {id : Int}

theorem nothing (h : ∀ n, (turn n).notes = n) : Enters turn id :=
  ⟨.none, .none, Or.inl rfl, fun n => (h n).trans (add_nothing n id).symm⟩

theorem block (h : ∀ n, (turn n).notes = n) {r : SchedulerEmptyReason} (hr : r ≠ .none)
    (g : SequenceGroup) : Enters (fun n => (turn n).block r g) g.sequenceId := by
  refine ⟨r, .none, Or.inr rfl, fun n => ?_⟩
  rw [block_notes _ hr, h n]

theorem reject (h : ∀ n, (turn n).notes = n) {u : SchedulerUnschedulableReason} (hu : u ≠ .none)
    (g : SequenceGroup) : Enters (fun n => (turn n).reject u g) g.sequenceId := by
  refine ⟨.none, u, Or.inl rfl, fun n => ?_⟩
  rw [reject_notes _ hu, h n]

theorem congr (h : Enters turn id) (hsame : ∀ n, (other n).notes = (turn n).notes) :
    Enters other id := by
  obtain ⟨b, u, hone, hadd⟩ := h
  exact ⟨b, u, hone, fun n => (hsame n).trans (hadd n)⟩

theorem check {c : Prop} {dec : Notes → Decidable c} (hthen : c → Enters turn id)
    (helse : ¬ c → Enters other id) :
    Enters (fun n => @ite _ c (dec n) (turn n) (other n)) id := by
  by_cases hc : c
  · exact (hthen hc).congr fun n => by rw [if_pos hc]
  · exact (helse hc).congr fun n => by rw [if_neg hc]

end Enters

/-! The checks of a turn read nothing of the notes. -/

section

variable (p : WaitingPass σ) (n : Notes) (queueLen : Nat) (choose : Int → AllocChoice)
  (g : SequenceGroup) (tokens : Int)

@[simp] theorem withNotes_notes : (p.withNotes n).notes = n := rfl

@[simp] theorem withNotes_sch : (p.withNotes n).sch = p.sch := rfl

@[simp] theorem withNotes_output : (p.withNotes n).output = p.output := rfl

@[simp] theorem withNotes_targetContextLen :
    (p.withNotes n).targetContextLen = p.targetContextLen := rfl

@[simp] theorem withNotes_activeExperts : (p.withNotes n).activeExperts = p.activeExperts := rfl

@[simp] theorem withNotes_prefillBudget :
    (p.withNotes n).prefillBudget queueLen g = p.prefillBudget queueLen g := rfl

@[simp] theorem withNotes_tokensNeeded :
    (p.withNotes n).tokensNeeded queueLen g = p.tokensNeeded queueLen g := rfl

@[simp] theorem withNotes_blocksToAllocate :
    (p.withNotes n).blocksToAllocate g tokens = p.blocksToAllocate g tokens := rfl

theorem admitGroup_enters :
    Enters (fun n => (p.withNotes n).admitGroup choose g tokens) g.sequenceId := by
  have hrecord : ∀ n : Notes, ((p.withNotes n).recordBlocks g).notes = n := fun _ => rfl
  unfold admitGroup
  simp only [withNotes_sch, withNotes_blocksToAllocate]
  refine .check ?_ ?_ <;> intro
  · exact (Enters.reject hrecord (u := .requiredBlocksExceedCapacity) nofun g).congr fun _ => rfl
  refine .check ?_ ?_ <;> intro
  · refine .check ?_ ?_ <;> intro
    · exact .block hrecord (by simp) g
    refine .check ?_ ?_ <;> intro
    · exact .block (by intro n; rfl) (by simp) g
    · exact .nothing fun _ => rfl
  · exact .nothing fun _ => rfl

theorem considerGroup_enters :
    Enters (fun n => (p.withNotes n).considerGroup queueLen choose g) g.sequenceId := by
  have hsame : ∀ n : Notes, (p.withNotes n).notes = n := fun _ => rfl
  unfold considerGroup
  simp only [withNotes_sch, withNotes_output, withNotes_prefillBudget, withNotes_tokensNeeded,
    withNotes_targetContextLen, withNotes_activeExperts]
  -- one check after the other, as the body makes them
  refine .check (fun _ => ?slots) fun _ => .check (fun _ => ?prefillSlots) fun _ =>
    .check (fun _ => ?done) fun _ => .check (fun _ => ?tooLong) fun _ =>
    .check (fun _ => ?whole) fun _ => .check (fun _ => ?empty) fun _ =>
    .check (fun _ => ?bucket) fun _ => .check (fun _ => ?experts)
    fun _ => ?memory
  case done => exact .nothing hsame
  case tooLong =>
    exact (Enters.reject hsame (u := .promptExceedsBatchBudget) nofun g).congr fun _ => rfl
  case memory => exact p.admitGroup_enters choose g _
  all_goals exact .block hsame (by simp) g

end

/-- **What a turn enters** depends on the group and the state, not on the notes. -/
theorem considerGroup_notes (p : WaitingPass σ) (queueLen : Nat) (choose : Int → AllocChoice)
    (g : SequenceGroup) :
    (p.considerGroup queueLen choose g).notes =
        p.notes.add (p.reasonFor queueLen choose g) (p.refusalFor queueLen choose g) g.sequenceId ∧
      (p.reasonFor queueLen choose g = .none ∨ p.refusalFor queueLen choose g = .none) := by
  obtain ⟨b, u, hone, hadd⟩ := p.considerGroup_enters queueLen choose g
  have hreason : p.reasonFor queueLen choose g = b :=
    congrArg Notes.blocked (hadd ⟨.none, p.unschedulableReason, p.diagnosticSeqId⟩)
  have hrefusal : p.refusalFor queueLen choose g = u :=
    congrArg Notes.refused (hadd ⟨p.blockedReason, .none, p.diagnosticSeqId⟩)
  rw [hreason, hrefusal]
  exact ⟨hadd p.notes, hone⟩

theorem considerGroups_author (queueLen : Nat) (choose : Int → AllocChoice) :
    SharedAuthor (considerGroup (σ := σ) queueLen choose) (·.unschedulableReason) .none
      (fun p g => p.refusalFor queueLen choose g) (·.blockedReason) .none
      (fun p g => p.reasonFor queueLen choose g) (·.diagnosticSeqId) (·.sequenceId) where
  first := fun p g => congrArg Notes.refused (p.considerGroup_notes queueLen choose g).1
  second := fun p g => congrArg Notes.blocked (p.considerGroup_notes queueLen choose g).1
  author := fun p g => congrArg Notes.named (p.considerGroup_notes queueLen choose g).1

/-! ### The two ways to be unschedulable -/

/-- The turn takes the group out of the queue and marks it cancelled. -/
def Cancels (p : WaitingPass σ) (queueLen : Nat) (choose : Int → AllocChoice)
    (g : SequenceGroup) : Prop :=
  let p' := p.considerGroup queueLen choose g
  p'.stillWaiting = p.stillWaiting ∧ p'.sch.seqStatus g.sequenceId = some .cancelled

instance (p : WaitingPass σ) (queueLen : Nat) (choose : Int → AllocChoice) (g : SequenceGroup) :
    Decidable (p.Cancels queueLen choose g) := inferInstanceAs (Decidable (_ ∧ _))

theorem considerGroup_ends (p : WaitingPass σ) (queueLen : Nat) (choose : Int → AllocChoice)
    (g : SequenceGroup) :
    p.TooLong g ∨ p.HasChunk queueLen g ∨ (∃ r, p.considerGroup queueLen choose g = p.block r g) ∨
      p.considerGroup queueLen choose g = { p with sch := p.sch.markRunning g.sequenceId } := by
  have hconsidered := considerGroup_considered queueLen choose p g
  generalize p.considerGroup queueLen choose g = p' at hconsidered ⊢
  cases hconsidered with
  | blocked r _ => exact Or.inr (Or.inr (Or.inl ⟨r, rfl⟩))
  | ran => exact Or.inr (Or.inr (Or.inr rfl))
  | dropped h => exact Or.inl h
  | admitted h => exact Or.inr (Or.inl h)

theorem block_unschedulableReason (p : WaitingPass σ) (r : SchedulerEmptyReason)
    (g : SequenceGroup) : (p.block r g).unschedulableReason = p.unschedulableReason := by
  unfold block
  split <;> rfl

theorem reject_unschedulableReason (p : WaitingPass σ) (u : SchedulerUnschedulableReason)
    (g : SequenceGroup) : (p.reject u g).unschedulableReason =
      if p.unschedulableReason = .none then u else p.unschedulableReason := by
  unfold reject
  split <;> rfl

theorem admitGroup_refusal_iff (hnone : p.unschedulableReason = .none) (tokens : Int)
    (hu : u ≠ .none) :
    (p.admitGroup choose g tokens).unschedulableReason = u ↔ u = .requiredBlocksExceedCapacity ∧
        p.sch.blockManager.numBlocks < p.blocksToAllocate g tokens := by
  by_cases hlarge : p.blocksToAllocate g tokens > p.sch.blockManager.numBlocks
  · have heq : p.admitGroup choose g tokens =
        ((p.recordBlocks g).reject .requiredBlocksExceedCapacity g).keep g := if_pos hlarge
    rw [heq]
    show ((p.recordBlocks g).reject .requiredBlocksExceedCapacity g).unschedulableReason = u ↔ _
    rw [reject_unschedulableReason, if_pos (show (p.recordBlocks g).unschedulableReason = _ from hnone)]
    exact ⟨fun h => ⟨h.symm, hlarge⟩, fun h => h.1.symm⟩
  refine iff_of_false ?_ fun h => hlarge h.2
  have hkept : ∀ q : WaitingPass σ, q.unschedulableReason = .none → q.unschedulableReason ≠ u :=
    fun q hq h => hu (h.symm.trans hq)
  unfold admitGroup
  dsimp only
  rw [if_neg hlarge]
  split
  · split
    · exact hkept _ ((block_unschedulableReason _ _ _).trans hnone)
    split
    · exact hkept _ ((block_unschedulableReason _ _ _).trans hnone)
    · exact hkept _ hnone
  · exact hkept _ hnone

theorem refusalFor_tooLong_iff :
    p.refusalFor queueLen choose g = .promptExceedsBatchBudget ↔ p.TooLong g := by
  unfold refusalFor
  constructor
  · intro h
    rcases considerGroup_ends { p with unschedulableReason := .none } queueLen choose g with
      hlong | hchunk | ⟨r, heq⟩ | heq
    · exact ⟨hlong.slot, hlong.prefillSlot, hlong.remaining, hlong.whole, hlong.long⟩
    · rw [considerGroup_of_hasChunk hchunk] at h
      exact absurd ((admitGroup_refusal_iff rfl _ (by simp)).mp h).1 (by simp)
    · rw [heq, block_unschedulableReason] at h
      exact absurd h (by simp)
    rw [heq] at h
    exact absurd h (by simp)
  intro h
  have hfirst : TooLong { p with unschedulableReason := .none } g :=
    ⟨h.slot, h.prefillSlot, h.remaining, h.whole, h.long⟩
  rw [considerGroup_of_tooLong hfirst]
  rfl

theorem refusalFor_capacity_iff : p.refusalFor queueLen choose g = .requiredBlocksExceedCapacity ↔
      p.HasChunk queueLen g ∧ p.sch.blockManager.numBlocks < p.blocksMissing queueLen g := by
  unfold refusalFor
  constructor
  · intro h
    rcases considerGroup_ends { p with unschedulableReason := .none } queueLen choose g with
      hlong | hchunk | ⟨r, heq⟩ | heq
    · rw [considerGroup_of_tooLong hlong] at h
      have hprompt : SchedulerUnschedulableReason.promptExceedsBatchBudget =
        .requiredBlocksExceedCapacity := h
      exact absurd hprompt (by simp)
    · rw [considerGroup_of_hasChunk hchunk] at h
      have hlarge := ((admitGroup_refusal_iff rfl _ (by simp)).mp h).2
      exact ⟨⟨hchunk.slot, hchunk.prefillSlot, hchunk.remaining, hchunk.fits, hchunk.whole,
        hchunk.chunk, hchunk.bucket, hchunk.experts⟩, hlarge⟩
    · rw [heq, block_unschedulableReason] at h
      exact absurd h (by simp)
    rw [heq] at h
    exact absurd h (by simp)
  · rintro ⟨h, hlarge⟩
    have hfirst : HasChunk { p with unschedulableReason := .none } queueLen g :=
      ⟨h.slot, h.prefillSlot, h.remaining, h.fits, h.whole, h.chunk, h.bucket, h.experts⟩
    rw [considerGroup_of_hasChunk hfirst]
    exact (admitGroup_refusal_iff rfl _ (by simp)).mpr ⟨rfl, hlarge⟩

theorem admitGroup_keepsOne (p : WaitingPass σ) (choose : Int → AllocChoice) (g : SequenceGroup)
    (tokens : Int) :
    ∃ g', (p.admitGroup choose g tokens).stillWaiting = p.stillWaiting ++ [g'] := by
  have hadmitted := admitGroup_admitted choose p g tokens
  generalize p.admitGroup choose g tokens = p' at hadmitted ⊢
  cases hadmitted with
  | exceeds =>
    refine ⟨g, ?_⟩
    show ((p.recordBlocks g).reject _ g).stillWaiting ++ [g] = _
    rw [reject_stillWaiting]
    rfl
  | blocked => exact ⟨g, block_stillWaiting (p.recordBlocks g) _ g⟩
  | scheduled => exact ⟨_, rfl⟩

/-- **Whom a turn cancels**: a prompt too long for a batch that may not be cut. -/
theorem cancels_iff : p.Cancels queueLen choose g ↔ p.TooLong g := by
  unfold Cancels
  dsimp only
  constructor
  · rintro ⟨hwaiting, hstatus⟩
    rcases considerGroup_ends p queueLen choose g with hlong | hchunk | ⟨r, heq⟩ | heq
    · exact hlong
    · rw [considerGroup_of_hasChunk hchunk] at hwaiting
      obtain ⟨g', hkept⟩ := p.admitGroup_keepsOne choose g (p.tokensNeeded queueLen g)
      rw [hkept] at hwaiting
      simp at hwaiting
    · rw [heq, block_stillWaiting] at hwaiting
      simp at hwaiting
    rw [heq] at hstatus
    simp [markRunning, setStatus] at hstatus
  intro h
  rw [considerGroup_of_tooLong h]
  exact ⟨reject_stillWaiting _ _ _, by simp [cleanupSequenceState, setStatus]⟩

end WaitingPass

/-! ### What a pass remembers at its end -/

namespace WaitingCall

variable (call : WaitingCall σ) (choice : ScheduleChoice)

/-- Why the turn of `g`, which follows those of `before`, blocks the group. -/
def reasonAt (before : List SequenceGroup) (g : SequenceGroup) : SchedulerEmptyReason :=
  (call.after choice before).reasonFor (call.queue choice).length call.choose g

/-- Why the turn of `g` finds the group unschedulable. -/
def refusalAt (before : List SequenceGroup) (g : SequenceGroup) : SchedulerUnschedulableReason :=
  (call.after choice before).refusalFor (call.queue choice).length call.choose g

/-- The loop variables when the queue has been gone through. -/
def finish : WaitingPass σ := call.after choice (call.queue choice)

/-- The first turn that finds its group unschedulable. -/
structure FirstRefused (before : List SequenceGroup) (g : SequenceGroup) : Prop where
  refuses : call.refusalAt choice before g ≠ .none
  first : ∀ b g' r, before = b ++ g' :: r → call.refusalAt choice b g' = .none

/-- The first turn that blocks its group comes after one that was found unschedulable. -/
structure LateBlock (before : List SequenceGroup) (g : SequenceGroup) : Prop where
  blocks : call.reasonAt choice before g ≠ .none
  first : ∀ b g' r, before = b ++ g' :: r → call.reasonAt choice b g' = .none
  refused : ∃ b g' r, before = b ++ g' :: r ∧ call.refusalAt choice b g' ≠ .none

/-- Somewhere in the pass there is such a turn. -/
def BlocksLate : Prop :=
  ∃ before g rest, call.queue choice = before ++ g :: rest ∧ call.LateBlock choice before g

variable {call choice} {before rest : List SequenceGroup} {g : SequenceGroup}

theorem after_append (before rest : List SequenceGroup) (g : SequenceGroup) :
    call.after choice (before ++ g :: rest) =
      rest.foldl (WaitingPass.considerGroup (call.queue choice).length call.choose)
        ((call.after choice before).considerGroup (call.queue choice).length call.choose g) := by
  unfold after
  rw [foldl_append, foldl_cons]

theorem after_unschedulable_iff (groups : List SequenceGroup) :
    (call.after choice groups).unschedulableReason = .none ↔
      ∀ before g rest, groups = before ++ g :: rest → call.refusalAt choice before g = .none :=
  (WaitingPass.considerGroups_author _ _).first.eq_blank_iff groups rfl

theorem after_blocked_iff (groups : List SequenceGroup) :
    (call.after choice groups).blockedReason = .none ↔
      ∀ before g rest, groups = before ++ g :: rest → call.reasonAt choice before g = .none :=
  (WaitingPass.considerGroups_author _ _).second.eq_blank_iff groups rfl

/-- **The first refusal** is what the pass remembers, and it remembers whose it was unless
another group is blocked late. -/
theorem FirstRefused.remembered (h : call.FirstRefused choice before g)
    (hqueue : call.queue choice = before ++ g :: rest) :
    (call.finish choice).unschedulableReason = call.refusalAt choice before g ∧
      (¬ call.BlocksLate choice → (call.finish choice).diagnosticSeqId = g.sequenceId) := by
  have hauthor := WaitingPass.considerGroups_author (σ := σ) (call.queue choice).length call.choose
  have hblank := (after_unschedulable_iff before).mpr h.first
  have hend : call.finish choice = _ := (congrArg (call.after choice) hqueue).trans
    (after_append before rest g)
  have hreason : ((call.after choice before).considerGroup (call.queue choice).length call.choose
      g).unschedulableReason = call.refusalAt choice before g :=
    (hauthor.first _ g).trans (if_pos hblank)
  have hname : ((call.after choice before).considerGroup (call.queue choice).length call.choose
      g).diagnosticSeqId = g.sequenceId :=
    (hauthor.author _ g).trans (if_pos (Or.inl ⟨hblank, h.refuses⟩))
  rw [hend]
  refine ⟨?_, fun hquiet => ?_⟩
  · rw [hauthor.first.keeps rest _ (by rw [hreason]; exact h.refuses), hreason]
  rw [hauthor.keeps_author rest _ (by rw [hreason]; exact h.refuses), hname]
  intro b g' r hsplit hfree
  by_contra hblocks
  have hafter : call.after choice (before ++ g :: b) = _ := after_append before b g
  refine hquiet ⟨before ++ g :: b, g', r, by rw [hqueue, hsplit]; simp, ?_, ?_,
    before, g, b, rfl, h.refuses⟩
  · unfold reasonAt
    rw [hafter]
    exact hblocks
  · exact (after_blocked_iff _).mp (by rw [hafter]; exact hfree)

theorem exists_firstRefused (h : (call.finish choice).unschedulableReason ≠ .none) :
    ∃ before g rest, call.queue choice = before ++ g :: rest ∧ call.FirstRefused choice before g ∧
      call.refusalAt choice before g = (call.finish choice).unschedulableReason := by
  obtain ⟨before, g, rest, hqueue, hblank, hentry⟩ :=
    (WaitingPass.considerGroups_author _ _).first.exists_entry (call.queue choice) call.start rfl h
  refine ⟨before, g, rest, hqueue, ⟨?_, (after_unschedulable_iff before).mp hblank⟩, hentry⟩
  intro hnone
  exact h (hentry.symm.trans hnone)

end WaitingCall

/-! ### What the caller reads -/

/-- Who cannot be scheduled, as an output or a pass says it. -/
abbrev Diagnosis := SchedulerUnschedulableReason × Int

/-- What an output says of a request that can not be scheduled. -/
def diagnosisOf (o : SchedulerOutput) : Diagnosis := (o.unschedulableReason, o.diagnosticSeqId)

namespace WaitingCall

/-- The pass hands its reasons to the output: nothing is scheduled and somebody waits. -/
def reports (call : WaitingCall σ) (choice : ScheduleChoice) : Bool :=
  (call.finish choice).output.isEmpty && !(call.finish choice).stillWaiting.isEmpty

/-- What the output of a pass says of it. -/
def diagnosis (call : WaitingCall σ) (choice : ScheduleChoice) : Diagnosis :=
  ((call.finish choice).unschedulableReason, (call.finish choice).diagnosticSeqId)

theorem result_diagnosis (call : WaitingCall σ) (choice : ScheduleChoice) :
    diagnosisOf (call.result choice).2 =
      if call.reports choice then call.diagnosis choice else diagnosisOf call.output := by
  have hkept : diagnosisOf (call.finish choice).output = diagnosisOf call.output :=
    considerGroups_output diagnosisOf (fun _ _ _ _ _ => rfl) _ _ _ call.start
  have hresult : (call.result choice).2 =
      if call.reports choice then
        { (call.finish choice).output with
          emptyReason :=
            if (call.finish choice).blockedReason = .none then .waitingSeqPresentButUnschedulable
            else (call.finish choice).blockedReason
          unschedulableReason := (call.finish choice).unschedulableReason
          diagnosticSeqId := (call.finish choice).diagnosticSeqId }
      else (call.finish choice).output := rfl
  rw [hresult]
  split
  · rfl
  · exact hkept

end WaitingCall

/-- The last of some passes that hands over its reasons. -/
def lastReport (choice : ScheduleChoice) (calls : List (WaitingCall σ)) : Option (WaitingCall σ) :=
  (calls.filter (·.reports choice)).getLast?

/-- The diagnosis after some passes, `d` being the one before. -/
def diagnosisAfter (choice : ScheduleChoice) (d : Diagnosis) (calls : List (WaitingCall σ)) :
    Diagnosis :=
  ((lastReport choice calls).map (·.diagnosis choice)).getD d

/-- The pass from which a call has its diagnosis. -/
def reportingCall (s : Scheduler σ) (choice : ScheduleChoice) : Option (WaitingCall σ) :=
  lastReport choice (s.waitingCalls choice)

variable {call : WaitingCall σ} {calls : List (WaitingCall σ)}

theorem mem_of_lastReport (h : lastReport choice calls = some call) :
    call ∈ calls ∧ call.reports choice = true :=
  mem_filter.mp (mem_of_getLast? h)

theorem lastReport_singleton (h : call.reports choice = true) :
    lastReport choice [call] = some call := by
  unfold lastReport
  simp only [filter_cons, h, if_true, filter_nil]
  rfl

@[simp] theorem diagnosisAfter_nil (choice : ScheduleChoice) (d : Diagnosis) :
    diagnosisAfter choice d ([] : List (WaitingCall σ)) = d := rfl

theorem diagnosisAfter_cons (choice : ScheduleChoice) (d : Diagnosis) (call : WaitingCall σ)
    (calls : List (WaitingCall σ)) : diagnosisAfter choice d (call :: calls) =
      diagnosisAfter choice (if call.reports choice then call.diagnosis choice else d) calls := by
  unfold diagnosisAfter lastReport
  by_cases hcall : call.reports choice = true
  · simp only [filter_cons, hcall, if_true, getLast?_cons]
    cases (calls.filter (·.reports choice)).getLast? with
    | none => rfl
    | some _ => rfl
  simp only [filter_cons, hcall]
  rfl

theorem diagnosisAfter_singleton (call : WaitingCall σ) (choice : ScheduleChoice) :
    diagnosisAfter choice (diagnosisOf call.output) [call] =
      diagnosisOf (call.result choice).2 := by
  rw [diagnosisAfter_cons, diagnosisAfter_nil, call.result_diagnosis]

theorem scheduleRunning_diagnosis (s : Scheduler σ) (choice : ScheduleChoice)
    (o : SchedulerOutput) : diagnosisOf (s.scheduleRunning choice o) = diagnosisOf o := by
  obtain ⟨ids, context, reason, hout, -, -⟩ := scheduleRunning_spec s choice o
  rw [hout]
  rfl

theorem scheduleDecodeFirst_diagnosis (s : Scheduler σ) (choice : ScheduleChoice)
    (o : SchedulerOutput) : diagnosisOf (s.scheduleDecodeFirst choice o).2 =
      diagnosisAfter choice (diagnosisOf o) (s.decodeFirstCalls choice o) := by
  have hdecoded := scheduleRunning_diagnosis s choice o
  unfold scheduleDecodeFirst decodeFirstCalls
  dsimp only
  split
  · unfold finishDecode
    dsimp only
    generalize (if s.config.enableMixedPrefillDecode = true ∧ s.waitingQueue ≠ [] then
      s.mixedPrefillCap (s.scheduleRunning choice o) else none) = mixed
    cases mixed with
    | none => exact hdecoded
    | some m =>
      dsimp only
      rw [← hdecoded]
      exact (diagnosisAfter_singleton ⟨s, choice.allocFallback,
        { s.scheduleRunning choice o with batchContextLen := m.1 }, m.2⟩ choice).symm
  rw [← hdecoded]
  exact (diagnosisAfter_singleton ⟨s, choice.allocFallback, s.scheduleRunning choice o, -1⟩
    choice).symm

theorem swappedIn_diagnosis (s : Scheduler σ) (choice : ScheduleChoice) :
    diagnosisOf (s.swappedIn choice).2 = (.none, -1) := by
  unfold swappedIn
  obtain ⟨m, running, swapped, status, blocks, ids, allocations, heq⟩ :=
    scheduleSwapped_spec (s.preempted choice).1 choice (s.preempted choice).2
  rw [heq]
  show diagnosisOf (s.preempted choice).2 = _
  unfold preempted
  split
  · obtain ⟨running, swapped, status, blocks, ids, hpre⟩ :=
      preemptSequences_spec (s.noteReasons .none .none) choice {}
    rw [hpre]
    rfl
  · rfl

/-- **What the caller reads** is what the last pass that hands over its reasons remembers. -/
theorem schedule_diagnosis (s : Scheduler σ) (choice : ScheduleChoice) :
    diagnosisOf (s.schedule choice).2 =
      ((s.reportingCall choice).map (·.diagnosis choice)).getD (.none, -1) := by
  have hstart := swappedIn_diagnosis s choice
  show _ = diagnosisAfter choice (.none, -1) (s.waitingCalls choice)
  rw [schedule_eq, ← hstart]
  unfold waitingCalls
  dsimp only
  split
  · unfold scheduleIsolated
    split
    · have hpass := WaitingCall.result_diagnosis
        ⟨(s.swappedIn choice).1, choice.allocWaiting, (s.swappedIn choice).2, -1⟩ choice
      unfold WaitingCall.result at hpass ⊢
      dsimp only at hpass ⊢
      split
      · rw [diagnosisAfter_cons, diagnosisAfter_nil]
        exact hpass
      rw [diagnosisAfter_cons, ← hpass]
      exact scheduleDecodeFirst_diagnosis _ _ _
    · exact scheduleDecodeFirst_diagnosis _ _ _
  rw [← scheduleRunning_diagnosis (s.swappedIn choice).1 choice (s.swappedIn choice).2]
  exact (diagnosisAfter_singleton ⟨(s.swappedIn choice).1, choice.allocWaiting,
    (s.swappedIn choice).1.scheduleRunning choice (s.swappedIn choice).2, -1⟩ choice).symm

theorem exists_reportingCall (h : (s.schedule choice).2.unschedulableReason ≠ .none) :
    ∃ call, s.reportingCall choice = some call ∧
      (s.schedule choice).2.unschedulableReason = (call.finish choice).unschedulableReason ∧
      (s.schedule choice).2.diagnosticSeqId = (call.finish choice).diagnosticSeqId := by
  have hread := schedule_diagnosis s choice
  cases hcall : s.reportingCall choice with
  | none =>
    rw [hcall] at hread
    exact absurd (congrArg Prod.fst hread) h
  | some call =>
    rw [hcall] at hread
    exact ⟨call, rfl, congrArg Prod.fst hread, congrArg Prod.snd hread⟩

end Scheduler

end DenseCore
