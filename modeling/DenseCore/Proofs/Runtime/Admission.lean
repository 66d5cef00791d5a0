/-
Two notions of available memory.

Before it admits a waiting group or a swapped sequence the scheduler compares what
it needs with `GetFreeBlockCount`, the length of the free lists.  `Allocate` itself
goes further and evicts blocks that only the prefix cache keeps.  Once the cache has
filled the pool the two disagree, and the scheduler refuses a group that `Allocate`
would have served.

A call is looked at turn by turn: which pass over the queue it makes, and with which
loop variables a pass comes to a group.  When no refusal is wrong is read off the state
before the call: no block is idle, or the free lists hold enough for everyone the call
may come to and that free and idle blocks could serve.  `Room` is what the passes keep
of this: the idle blocks grow no more, and the free lists still cover the demand of
those whose turn is to come.  A second pass over the queue begins with the demand of
the groups that the first left, so the account of a pass also counts these, as long as
nothing is scheduled.
-/
import DenseCore.Proofs.Memory.Allocation
import Mathlib.Algebra.Order.BigOperators.Group.List
import DenseCore.Proofs.Runtime.Preemption

namespace DenseCore

open BlockManager
open Function (update update_of_ne update_self)

namespace Scheduler

variable {σ : Type} {s : Scheduler σ} {choice : ScheduleChoice}

/-! ### The memory check of a waiting group -/

namespace WaitingPass

/-- What the chunk of a group still lacks. -/
def blocksMissing (p : WaitingPass σ) (queueLen : Nat) (group : SequenceGroup) : Int :=
  p.blocksToAllocate group (p.tokensNeeded queueLen group)

/-- The group passes every check that comes before the one on memory. -/
structure ReachesMemoryCheck (p : WaitingPass σ) (queueLen : Nat) (group : SequenceGroup) : Prop
    extends HasChunk p queueLen group where
  capacity : p.blocksMissing queueLen group ≤ p.sch.blockManager.numBlocks

/-- The reason for which the turn of a group would be remembered if it were the first. -/
def reasonFor (p : WaitingPass σ) (queueLen : Nat) (choose : Int → AllocChoice)
    (group : SequenceGroup) : SchedulerEmptyReason :=
  ({ p with blockedReason := .none }.considerGroup queueLen choose group).blockedReason

variable {p : WaitingPass σ} {queueLen : Nat} {choose : Int → AllocChoice} {g : SequenceGroup}

theorem block_blockedReason (p : WaitingPass σ) (r : SchedulerEmptyReason) (g : SequenceGroup) :
    (p.block r g).blockedReason = if p.blockedReason = .none then r else p.blockedReason := by
  unfold block
  split <;> rfl

@[simp] theorem reject_blockedReason (p : WaitingPass σ) (u : SchedulerUnschedulableReason)
    (g : SequenceGroup) : (p.reject u g).blockedReason = p.blockedReason := by
  unfold reject
  split <;> rfl

/-- **The memory check**: the free lists are all it looks at, for what they cover is
then also allocated. -/
theorem admitGroup_blocked_iff (hreason : p.blockedReason = .none) (tokens : Int) :
    (p.admitGroup choose g tokens).blockedReason = .noFreeBlocks ↔
      p.blocksToAllocate g tokens ≤ p.sch.blockManager.numBlocks ∧
        (p.sch.blockManager.getFreeBlockCount : Int) < p.blocksToAllocate g tokens := by
  have hrecord : (p.recordBlocks g).blockedReason = .none := hreason
  unfold admitGroup
  dsimp only
  split
  · rename_i hlarge
    refine iff_of_false ?_ (fun h => absurd h.1 (not_le.mpr hlarge))
    show ((p.recordBlocks g).reject _ g).blockedReason ≠ _
    rw [reject_blockedReason, hrecord]
    simp
  rename_i hcap
  split
  · rename_i hpos
    split
    · rename_i hshort
      rw [block_blockedReason, hrecord]
      exact iff_of_true rfl ⟨not_lt.mp hcap, hshort⟩
    rename_i henough
    obtain ⟨hlen, -⟩ := p.sch.blockManager.allocate_of_free (choose g.sequenceId) hpos
      (not_lt.mp henough)
    rw [if_neg (not_not.mpr hlen)]
    refine iff_of_false ?_ (fun h => henough h.2)
    show p.blockedReason ≠ _
    rw [hreason]
    simp
  · rename_i hzero
    refine iff_of_false ?_ (fun h => hzero (by omega))
    show p.blockedReason ≠ _
    rw [hreason]
    simp

/-- **A turn ends for lack of memory** exactly when the group gets as far as the
memory check and the free lists are too short. -/
theorem reasonFor_noFreeBlocks_iff : p.reasonFor queueLen choose g = .noFreeBlocks ↔
      p.ReachesMemoryCheck queueLen g ∧
        (p.sch.blockManager.getFreeBlockCount : Int) < p.blocksMissing queueLen g := by
  unfold reasonFor
  constructor
  · intro h
    have hconsidered := considerGroup_considered queueLen choose { p with blockedReason := .none } g
    generalize WaitingPass.considerGroup queueLen choose _ g = p' at hconsidered h
    cases hconsidered with
    | blocked r hr =>
      rw [block_blockedReason] at h
      exact absurd h hr
    | ran => cases h
    | dropped =>
      dsimp only at h
      rw [reject_blockedReason] at h
      cases h
    | admitted hchunk =>
      obtain ⟨hcapacity, hshort⟩ := (admitGroup_blocked_iff rfl _).mp h
      exact ⟨⟨⟨hchunk.slot, hchunk.prefillSlot, hchunk.remaining, hchunk.fits, hchunk.whole,
        hchunk.chunk, hchunk.bucket, hchunk.experts⟩, hcapacity⟩, hshort⟩
  · rintro ⟨hr, hshort⟩
    have hfirst : HasChunk { p with blockedReason := .none } queueLen g :=
      ⟨hr.slot, hr.prefillSlot, hr.remaining, hr.fits, hr.whole, hr.chunk, hr.bucket, hr.experts⟩
    rw [considerGroup_of_hasChunk hfirst, admitGroup_blocked_iff rfl]
    exact ⟨hr.capacity, hshort⟩

end WaitingPass

/-! ### The turns of a call -/

/-- One pass over the waiting queue, as a call of `Schedule` starts it. -/
structure WaitingCall (σ : Type) where
  sch : Scheduler σ
  choose : Int → AllocChoice
  output : SchedulerOutput
  prefillTokenCap : Int

namespace WaitingCall

/-- The loop variables before the first group. -/
def start (call : WaitingCall σ) : WaitingPass σ :=
  { sch := call.sch
    output := call.output
    tokensBudget := call.sch.config.maxNumBatchedTokens - call.output.totalTokens
    prefillTokenCap := call.prefillTokenCap
    targetContextLen := call.output.batchContextLen }

/-- The queue in the order the pass looks at it. -/
def queue (call : WaitingCall σ) (choice : ScheduleChoice) : List SequenceGroup :=
  call.sch.sortedQueue choice.arrangement

/-- What the pass returns. -/
def result (call : WaitingCall σ) (choice : ScheduleChoice) : Scheduler σ × SchedulerOutput :=
  call.sch.scheduleWaiting choice call.choose call.output call.prefillTokenCap

/-- The loop variables after some groups of the queue. -/
def after (call : WaitingCall σ) (choice : ScheduleChoice) (groups : List SequenceGroup) :
    WaitingPass σ :=
  groups.foldl (WaitingPass.considerGroup (call.queue choice).length call.choose) call.start

/-- The pass comes to `g` with the loop variables `p`. -/
def Turn (call : WaitingCall σ) (choice : ScheduleChoice) (p : WaitingPass σ) (g : SequenceGroup) :
    Prop :=
  ∃ before rest, call.queue choice = before ++ g :: rest ∧ p = call.after choice before

end WaitingCall

/-- The passes over the queue that follow a decode pass. -/
def decodeFirstCalls (s : Scheduler σ) (choice : ScheduleChoice) (output : SchedulerOutput) :
    List (WaitingCall σ) :=
  let decoded := s.scheduleRunning choice output
  if decoded.decodeSeqIds ≠ [] then
    match if s.config.enableMixedPrefillDecode = true ∧ s.waitingQueue ≠ [] then
        s.mixedPrefillCap decoded else none with
    | none => []
    | some (bucket, cap) =>
      [⟨s, choice.allocFallback, { decoded with batchContextLen := bucket }, cap⟩]
  else [⟨s, choice.allocFallback, decoded, -1⟩]

/-- The passes over the queue that one call of `Schedule` makes. -/
def waitingCalls (s : Scheduler σ) (choice : ScheduleChoice) : List (WaitingCall σ) :=
  let r := s.swappedIn choice
  if r.1.config.isolatePrefillDecode then
    if r.1.schedulePrefillFirst then
      let first : WaitingCall σ := ⟨r.1, choice.allocWaiting, r.2, -1⟩
      if (first.result choice).2.prefillSeqIds ≠ [] then [first]
      else first :: (first.result choice).1.decodeFirstCalls choice (first.result choice).2
    else r.1.decodeFirstCalls choice r.2
  else [⟨r.1, choice.allocWaiting, r.1.scheduleRunning choice r.2, -1⟩]

/-- The swap-in loop of a call comes to `id` with the loop variables `p`. -/
def SwapInTurn (s : Scheduler σ) (choice : ScheduleChoice) (p : SwapInPass σ) (id : Int) : Prop :=
  let r := s.preempted choice
  0 < r.1.config.maxNumSeqs - r.1.runningSeqs.length ∧
    ∃ before rest, r.1.swapInOrder choice r.1.swappedSeqs = before ++ id :: rest ∧
      p = before.foldl (swapInOne choice)
        ⟨r.1, r.2, r.1.config.maxNumSeqs - r.1.runningSeqs.length⟩

/-- Whoever a call leaves for lack of memory needs more than is free or idle. -/
structure IdleNeverBlocks (s : Scheduler σ) (choice : ScheduleChoice) : Prop where
  waiting : ∀ call ∈ s.waitingCalls choice, ∀ p g, call.Turn choice p g →
    p.reasonFor (call.queue choice).length call.choose g = .noFreeBlocks →
    (p.sch.blockManager.getFreeBlockCount : Int) + p.sch.blockManager.idleBlockCount <
      p.blocksMissing (call.queue choice).length g
  swapped : ∀ p id, s.SwapInTurn choice p id → 0 < p.availableSlots →
    id ∈ (swapInOne choice p id).sch.swappedSeqs →
    (p.sch.blockManager.getFreeBlockCount : Int) + p.sch.blockManager.idleBlockCount <
      p.sch.swapInBlocks id

/-! ### What a call may need

The blocks of a chunk grow with its tokens, so a group's need lies between that of its
shortest and that of its longest chunk, whatever the pass grants it.
-/

/-- The table of a group: the recorded one, or the cached prefix when that is empty. -/
def heldBlocks (s : Scheduler σ) (g : SequenceGroup) : List Int :=
  let recorded := (s.seqBlockIds g.sequenceId).getD []
  if recorded = [] ∧ g.sharedBlockIds ≠ [] then g.sharedBlockIds else recorded

/-- The blocks that a chunk of a group lacks. -/
def blocksFor (s : Scheduler σ) (g : SequenceGroup) (tokens : Int) : Int :=
  max 0 (blocksNeeded (s.getSequenceContextLen g.sequenceId + tokens) - (s.heldBlocks g).length)

/-- What the free lists and the cache can supply together. -/
def supply (m : BlockManager σ) : Int := m.getFreeBlockCount + m.idleBlockCount

/-- What one who needs from `least` to `most` blocks can claim of a supply: nothing where
it does not even reach `least`. -/
def claimOf (supply least most : Int) : Int := if least ≤ supply then most else 0

/-- The least a chunk of a group has, if the group is given one. -/
def fewestTokens (s : Scheduler σ) (g : SequenceGroup) : Int :=
  if s.canChunk g.sequenceId then 1 else g.numTokensToProcess

/-- The most a chunk of a group has. -/
def mostTokens (s : Scheduler σ) (g : SequenceGroup) : Int :=
  if s.canChunk g.sequenceId then min g.numTokensToProcess s.config.maxPrefillTokens
  else g.numTokensToProcess

/-- What a waiting group may take of the supply. -/
def groupClaim (s : Scheduler σ) (g : SequenceGroup) : Int :=
  claimOf (supply s.blockManager) (s.blocksFor g (s.fewestTokens g)) (s.blocksFor g (s.mostTokens g))

/-- What a sequence may take of the supply when it is swapped in. -/
def swapClaim (s : Scheduler σ) (id : Int) : Int :=
  claimOf (supply s.blockManager) (s.swapInBlocks id) (s.swapInBlocks id)

/-- The sequences the swap-in may come to: the one that the call preempts first, and
those swapped out. -/
def swapCandidates (s : Scheduler σ) (choice : ScheduleChoice) : List Int :=
  (s.preemptionVictim choice).toList ++ s.swappedSeqs

/-- No block is idle, or the free lists hold what all can claim; and a prompt that will be
cancelled for its length holds no blocks, which would go back during the call. -/
structure IdleHarmless (s : Scheduler σ) (choice : ScheduleChoice) : Prop where
  cancelled : ∀ g ∈ s.waitingQueue, ¬ FitsBudget s g → (s.seqBlockIds g.sequenceId).getD [] = []
  settled : s.blockManager.idleBlockCount = 0 ∨
    ((s.swapCandidates choice).map s.swapClaim).sum + (s.waitingQueue.map s.groupClaim).sum ≤
      s.blockManager.getFreeBlockCount

/-! ### The manager through a call -/

theorem Granted.quiet {p : WaitingPass σ} {g : SequenceGroup} {tokens : Int} {new : List Int}
    {m : BlockManager σ} (h : Granted p g tokens new m) : QuietMoves p.sch.blockManager m := by
  cases h with
  | covered _ => exact QuietMoves.refl _
  | allocated c _ _ => exact allocate_quiet _ _ c

theorem Outcome.quiet {p p' : WaitingPass σ} {g : SequenceGroup} (hout : Outcome p g p') :
    QuietMoves p.sch.blockManager p'.sch.blockManager := by
  cases hout with
  | kept hs _ _ | ran _ hs _ _ | recorded _ hs _ _ => rw [hs]; exact QuietMoves.refl _
  | dropped _ _ hs _ _ => rw [hs]; exact free_quiet _ _
  | scheduled _ _ _ _ hgrant hp => rw [hp]; exact hgrant.quiet

theorem considerGroups_quiet (queueLen : Nat) (choose : Int → AllocChoice)
    (rest : List SequenceGroup) : ∀ p : WaitingPass σ, QuietMoves p.sch.blockManager
      (rest.foldl (WaitingPass.considerGroup queueLen choose) p).sch.blockManager := by
  induction rest with
  | nil => intro p; exact QuietMoves.refl _
  | cons g rest ih =>
    intro p
    exact (considerGroup_outcome queueLen choose p g).quiet.trans (ih _)

theorem swapInOne_quiet (choice : ScheduleChoice) (p : SwapInPass σ) (id : Int) :
    QuietMoves p.sch.blockManager (swapInOne choice p id).sch.blockManager := by
  unfold swapInOne
  split
  · exact QuietMoves.refl _
  split
  · exact QuietMoves.refl _
  dsimp only
  split
  · exact allocate_quiet _ _ _
  · exact allocate_quiet _ _ _

theorem swapInAll_quiet (choice : ScheduleChoice) (l : List Int) : ∀ p : SwapInPass σ,
    QuietMoves p.sch.blockManager (l.foldl (swapInOne choice) p).sch.blockManager := by
  induction l with
  | nil => intro p; exact QuietMoves.refl _
  | cons id rest ih =>
    intro p
    exact (swapInOne_quiet choice p id).trans (ih _)

theorem scheduleSwapped_quiet (s : Scheduler σ) (choice : ScheduleChoice) (o : SchedulerOutput) :
    QuietMoves s.blockManager (s.scheduleSwapped choice o).1.blockManager := by
  unfold scheduleSwapped
  dsimp only
  split
  · exact QuietMoves.refl _
  split
  · exact QuietMoves.refl _
  · exact swapInAll_quiet choice _ ⟨s, o, s.config.maxNumSeqs - s.runningSeqs.length⟩

/-- **A call leaves the ledger well formed.** -/
theorem schedule_wellFormed (h : WellFormed s.blockManager) (choice : ScheduleChoice) :
    WellFormed (s.schedule choice).1.blockManager := by
  have hP : Phases choice fun (s : Scheduler σ) _ => WellFormed s.blockManager :=
    { notes := fun _ _ _ _ _ h => h
      bucket := fun _ _ _ h => h
      preempt := by
        intro s h
        obtain ⟨running, swapped, status, blocks, ids, heq⟩ := preemptSequences_spec s choice {}
        rw [heq]
        exact h
      swapIn := fun s o h _ => (scheduleSwapped_quiet s choice o).wellFormed h
      decode := fun _ _ h _ => h
      prefill := fun s o choose cap h _ =>
        (considerGroups_quiet _ _ _ (WaitingCall.start ⟨s, choose, o, cap⟩)).wellFormed h }
  exact hP.schedule h

/-! ### Room for those whose turn is to come -/

/-- What a call keeps of the manager it began with, `pending` being what those can claim
whose turn is to come. -/
structure Room (m₀ m : BlockManager σ) (pending : Int) : Prop where
  wellFormed : WellFormed m
  idle : m.idleBlockCount ≤ m₀.idleBlockCount
  supply : Scheduler.supply m ≤ Scheduler.supply m₀
  enough : m₀.idleBlockCount = 0 ∨ pending ≤ m.getFreeBlockCount

variable {m₀ m : BlockManager σ} {least most need pending pending' : Int}

theorem claimOf_nonneg (supply : Int) (h : 0 ≤ most) : 0 ≤ claimOf supply least most := by
  unfold claimOf
  split
  · exact h
  · exact le_refl 0

theorem Room.mono (h : Room m₀ m pending) (hle : pending' ≤ pending) : Room m₀ m pending' :=
  ⟨h.wellFormed, h.idle, h.supply, h.enough.imp_right hle.trans⟩

/-- **Whom the free lists refuse, the cache could not have helped.** -/
theorem Room.refuses (h : Room m₀ m (claimOf (Scheduler.supply m₀) least most + pending))
    (hpending : 0 ≤ pending) (hleast : least ≤ need) (hmost : need ≤ most)
    (hshort : (m.getFreeBlockCount : Int) < need) :
    (m.getFreeBlockCount : Int) + m.idleBlockCount < need := by
  have hidle := h.idle
  have hsupply : (m.getFreeBlockCount : Int) + m.idleBlockCount ≤ Scheduler.supply m₀ := h.supply
  rcases h.enough with hnone | henough
  · omega
  -- Who is refused claims more than is free, so the supply never reached the need.
  unfold claimOf at henough
  split at henough <;> omega

/-- **What is taken from the free lists leaves the claims of the others.** -/
theorem Room.allocate (h : Room m₀ m (claimOf (Scheduler.supply m₀) least most + pending))
    (hpos : 0 < need) (hleast : least ≤ need) (hmost : need ≤ most)
    (hfree : need ≤ m.getFreeBlockCount) (c : AllocChoice) :
    Room m₀ (m.allocate need c).2 pending := by
  have hidle := h.idle
  have hsupply : (m.getFreeBlockCount : Int) + m.idleBlockCount ≤ Scheduler.supply m₀ := h.supply
  have hwf := (allocate_quiet m need c).wellFormed h.wellFormed
  obtain ⟨hlen, hcount⟩ := m.allocate_of_free c hpos hfree
  have hsame : (m.allocate need c).2.idleBlockCount = m.idleBlockCount := by
    have hgathers := allocate_gathers h.wellFormed hpos c
    generalize m.allocate need c = r at hgathers hlen hcount
    cases hgathers with
    | all htakes _ =>
      have hsum := htakes.takes.supply h.wellFormed
      dsimp only at hlen hcount ⊢
      omega
    | short _ _ _ => simp at hlen; omega
  generalize (m.allocate need c).2 = m' at hwf hcount hsame ⊢
  refine ⟨hwf, by omega, ?_, h.enough.imp_right fun henough => ?_⟩
  · show (m'.getFreeBlockCount : Int) + m'.idleBlockCount ≤ _
    omega
  · unfold claimOf at henough
    split at henough <;> omega

/-! ### What a need is read from -/

theorem blocksFor_nonneg (s : Scheduler σ) (g : SequenceGroup) (tokens : Int) :
    0 ≤ s.blocksFor g tokens := le_max_left _ _

theorem blocksFor_mono (s : Scheduler σ) (g : SequenceGroup) {tokens tokens' : Int}
    (hle : tokens ≤ tokens') : s.blocksFor g tokens ≤ s.blocksFor g tokens' := by
  have hneeded : blocksNeeded (s.getSequenceContextLen g.sequenceId + tokens) ≤
      blocksNeeded (s.getSequenceContextLen g.sequenceId + tokens') :=
    Int.tdiv_le_tdiv (by decide) (by omega)
  unfold blocksFor
  omega

theorem groupClaim_nonneg (s : Scheduler σ) (g : SequenceGroup) : 0 ≤ s.groupClaim g :=
  claimOf_nonneg _ (s.blocksFor_nonneg g _)

theorem claims_nonneg (s : Scheduler σ) (gs : List SequenceGroup) :
    0 ≤ (gs.map s.groupClaim).sum :=
  List.sum_nonneg fun x hx => by
    obtain ⟨g, -, rfl⟩ := List.mem_map.mp hx
    exact s.groupClaim_nonneg g

/-- The records of a group are what they were when the call began. -/
structure SameNeed (s₀ s : Scheduler σ) (g : SequenceGroup) : Prop where
  config : s.config = s₀.config
  held : s.heldBlocks g = s₀.heldBlocks g
  context : s.getSequenceContextLen g.sequenceId = s₀.getSequenceContextLen g.sequenceId
  chunks : s.canChunk g.sequenceId = s₀.canChunk g.sequenceId
  cancelled : ¬ FitsBudget s g → (s.seqBlockIds g.sequenceId).getD [] = []

variable {s₀ s' : Scheduler σ} {g : SequenceGroup} {gs gs' rest : List SequenceGroup} {id : Int}
  {p p' : WaitingPass σ} {tokens : Int}

theorem SameNeed.off (h : SameNeed s₀ s g) (hoff : Off s s' id) (hne : g.sequenceId ≠ id) :
    SameNeed s₀ s' g where
  config := hoff.config.trans h.config
  held := by
    rw [← h.held]
    unfold heldBlocks
    rw [hoff.blocks _ hne]
  context := by
    rw [← h.context]
    unfold getSequenceContextLen
    rw [hoff.context _ hne]
  chunks := by
    rw [← h.chunks]
    unfold canChunk
    rw [hoff.config, hoff.allow _ hne]
  cancelled := by
    intro hlong
    rw [hoff.blocks _ hne]
    exact h.cancelled fun hfits => hlong (hfits.off hoff hne)

/-- Recording the table of a group does not change what it lacks. -/
theorem SameNeed.record (h : SameNeed s₀ p.sch g) (hfits : FitsBudget p.sch g) :
    SameNeed s₀ (p.recordBlocks g).sch g where
  config := h.config
  held := by
    rw [← h.held]
    show (let recorded := (update p.sch.seqBlockIds g.sequenceId (some (p.sch.heldBlocks g))
        g.sequenceId).getD []
      if recorded = [] ∧ g.sharedBlockIds ≠ [] then g.sharedBlockIds else recorded) = _
    rw [update_self]
    unfold heldBlocks
    dsimp only [Option.getD_some]
    split_ifs with hnone hshared <;> simp_all
  context := h.context
  chunks := h.chunks
  cancelled := fun hlong => absurd hfits hlong

/-- The chunk of a turn needs no less and no more than the claim allows for. -/
theorem SameNeed.bounds (h : SameNeed s₀ p.sch g) (hchunk : Chunk p g tokens) :
    s₀.blocksFor g (s₀.fewestTokens g) ≤ p.blocksToAllocate g tokens ∧
      p.blocksToAllocate g tokens ≤ s₀.blocksFor g (s₀.mostTokens g) := by
  have hneed : p.blocksToAllocate g tokens = s₀.blocksFor g tokens := by
    show max 0 (_ - ((p.sch.heldBlocks g).length : Int)) = _
    rw [h.held, h.context]
    rfl
  rw [hneed]
  unfold fewestTokens mostTokens
  rw [← h.chunks, ← h.config]
  split
  · rename_i hcan
    exact ⟨blocksFor_mono _ _ hchunk.pos,
      blocksFor_mono _ _ (le_min hchunk.le_remaining (hchunk.le_prefill hcan))⟩
  · rename_i hcan
    rw [hchunk.whole (by simpa using hcan)]
    exact ⟨le_refl _, le_refl _⟩

/-- There is room for the groups `gs`, whose records are as they were. -/
structure QueueRoom (s₀ s : Scheduler σ) (gs : List SequenceGroup) : Prop where
  nodup : (gs.map (·.sequenceId)).Nodup
  needs : ∀ g ∈ gs, SameNeed s₀ s g
  room : Room s₀.blockManager s.blockManager (gs.map s₀.groupClaim).sum

theorem QueueRoom.perm (h : QueueRoom s₀ s gs) (hp : gs'.Perm gs) : QueueRoom s₀ s gs' where
  nodup := ((hp.map _).nodup_iff).mpr h.nodup
  needs := fun g hg => h.needs g (hp.mem_iff.mp hg)
  room := by rw [(hp.map _).sum_eq]; exact h.room

theorem QueueRoom.ne_head (h : QueueRoom s₀ s (g :: gs)) :
    ∀ g' ∈ gs, g'.sequenceId ≠ g.sequenceId := by
  intro g' hg' heq
  exact (List.nodup_cons.mp h.nodup).1 (List.mem_map.mpr ⟨g', hg', heq⟩)

/-- A group has had its turn: the others are as they were, and the room for them is left. -/
theorem QueueRoom.tail (h : QueueRoom s₀ s (g :: gs)) (hoff : Off s s' g.sequenceId)
    (hroom : Room s₀.blockManager s'.blockManager (gs.map s₀.groupClaim).sum) :
    QueueRoom s₀ s' gs where
  nodup := (List.nodup_cons.mp h.nodup).2
  needs := fun g' hg' => (h.needs g' (List.mem_cons_of_mem _ hg')).off hoff (h.ne_head g' hg')
  room := hroom

theorem QueueRoom.drop (h : QueueRoom s₀ s (g :: gs)) (hoff : Off s s' g.sequenceId)
    (hm : s'.blockManager = s.blockManager) : QueueRoom s₀ s' gs := by
  refine h.tail hoff ?_
  rw [hm]
  refine h.room.mono ?_
  have := s₀.groupClaim_nonneg g
  rw [List.map_cons, List.sum_cons]
  omega

theorem QueueRoom.record (h : QueueRoom s₀ p.sch (g :: gs)) (hfits : FitsBudget p.sch g) :
    QueueRoom s₀ (p.recordBlocks g).sch (g :: gs) where
  nodup := h.nodup
  needs := by
    intro g' hg'
    rcases List.mem_cons.mp hg' with rfl | hold
    · exact (h.needs g' hg').record hfits
    · exact (h.needs g' hg').off (withManager_off p g p.sch.blockManager) (h.ne_head g' hold)
  room := h.room

/-- The table a cancelled prompt gives back is empty. -/
theorem QueueRoom.cancel (h : QueueRoom s₀ s (g :: gs)) (hlong : ¬ FitsBudget s g) :
    QueueRoom s₀ ((s.setStatus g.sequenceId .cancelled).cleanupSequenceState g.sequenceId
      false true) gs := by
  refine h.drop ?_ ?_
  · have hstatus : Off s (s.setStatus g.sequenceId .cancelled) g.sequenceId :=
      ⟨rfl, rfl, fun _ hx => Or.inl hx, fun _ hx => Or.inl hx, fun _ _ => rfl, fun _ _ => rfl,
        fun _ _ => rfl⟩
    exact hstatus.trans (cleanupSequenceState_off _ _ _ _)
  · show s.blockManager.free ((s.seqBlockIds g.sequenceId).getD []) = _
    rw [(h.needs g (by simp)).cancelled hlong]
    rfl

theorem QueueRoom.grant {new : List Int} {m : BlockManager σ} (h : QueueRoom s₀ p.sch (g :: gs))
    (hchunk : Chunk p g tokens) (hgrant : Granted p g tokens new m) :
    QueueRoom s₀ ((p.withManager g m).schedulePrefill g (p.seqBlocks g) new tokens).sch gs := by
  have hoff := (withManager_off p g m).trans
    (schedulePrefill_off (p.withManager g m) g (p.seqBlocks g) new tokens)
  cases hgrant with
  | covered _ => exact h.drop hoff rfl
  | allocated c hpos hfree =>
    obtain ⟨hleast, hmost⟩ := (h.needs g (by simp)).bounds hchunk
    exact h.tail hoff (h.room.allocate hpos hleast hmost hfree c)

/-! ### A pass over the queue

The induction is on the groups still to come. The invariant says that the free blocks
suffice for each of them, and a turn spends no more than its group was counted for.
-/

/-- What a pass keeps, `rest` being the groups to come.  As long as nothing is scheduled
there is also room for those it has left. -/
structure PassRoom (s₀ : Scheduler σ) (p : WaitingPass σ) (rest : List SequenceGroup) : Prop where
  toCome : QueueRoom s₀ p.sch rest
  unspent : p.output.prefillSeqIds = [] → QueueRoom s₀ p.sch (rest ++ p.stillWaiting)

/-- **One turn**: whatever becomes of a group, the room for those after it is left. -/
theorem PassRoom.step (h : PassRoom s₀ p (g :: rest)) (hout : Outcome p g p') :
    PassRoom s₀ p' rest := by
  have hback : (g :: (rest ++ p.stillWaiting)).Perm (rest ++ (p.stillWaiting ++ [g])) := by
    rw [← List.append_assoc]
    exact (List.perm_append_singleton g _).symm
  cases hout with
  | kept hs ho hw =>
    refine ⟨?_, fun hnone => ?_⟩
    · rw [hs]
      exact h.toCome.drop ⟨rfl, rfl, fun _ => Or.inl, fun _ => Or.inl, fun _ _ => rfl,
        fun _ _ => rfl, fun _ _ => rfl⟩ rfl
    · rw [hs, hw]
      exact (h.unspent (ho ▸ hnone)).perm hback.symm
  | recorded hfits hs ho hw =>
    refine ⟨?_, fun hnone => ?_⟩
    · rw [hs]
      exact h.toCome.drop (withManager_off p g p.sch.blockManager) rfl
    · rw [hs, hw]
      exact ((h.unspent (ho ▸ hnone)).record hfits).perm hback.symm
  | ran _ hs ho hw =>
    refine ⟨?_, fun hnone => ?_⟩
    · rw [hs]
      exact h.toCome.drop (markRunning_off _ _) rfl
    · rw [hs, hw]
      exact (h.unspent (ho ▸ hnone)).drop (markRunning_off _ _) rfl
  | dropped hcan hlong hs ho hw =>
    have hunfit : ¬ FitsBudget p.sch g := fun hfits => absurd (hfits hcan) (not_le.mpr hlong)
    refine ⟨?_, fun hnone => ?_⟩
    · rw [hs]
      exact h.toCome.cancel hunfit
    · rw [hs, hw]
      exact (h.unspent (ho ▸ hnone)).cancel hunfit
  | scheduled tokens new m hchunk hgrant hp =>
    subst hp
    refine ⟨h.toCome.grant hchunk hgrant, fun hnone => ?_⟩
    exact absurd hnone (List.append_ne_nil_of_right_ne_nil _ (List.cons_ne_nil _ _))

/-- **The loop**, up to any point of it. -/
theorem PassRoom.run (queueLen : Nat) (choose : Int → AllocChoice) (before : List SequenceGroup) :
    ∀ p : WaitingPass σ, PassRoom s₀ p (before ++ rest) →
      PassRoom s₀ (before.foldl (WaitingPass.considerGroup queueLen choose) p) rest := by
  induction before with
  | nil => exact fun p h => h
  | cons g before ih =>
    exact fun p h => ih _ (h.step (considerGroup_outcome queueLen choose p g))

/-- **A refusal for lack of memory** is one that the idle blocks could not avert. -/
theorem PassRoom.refuses {queueLen : Nat} {choose : Int → AllocChoice}
    (h : PassRoom s₀ p (g :: rest)) (hreason : p.reasonFor queueLen choose g = .noFreeBlocks) :
    (p.sch.blockManager.getFreeBlockCount : Int) + p.sch.blockManager.idleBlockCount <
      p.blocksMissing queueLen g := by
  obtain ⟨hreaches, hshort⟩ := WaitingPass.reasonFor_noFreeBlocks_iff.mp hreason
  obtain ⟨hleast, hmost⟩ := (h.toCome.needs g (by simp)).bounds hreaches.toHasChunk.given
  exact h.toCome.room.refuses (s₀.claims_nonneg rest) hleast hmost hshort

/-! ### The passes of a call -/

namespace WaitingCall

variable {call : WaitingCall σ}

/-- The pass begins with room for the whole queue, and nothing is scheduled yet. -/
structure HasRoom (s₀ : Scheduler σ) (call : WaitingCall σ) : Prop where
  queue : QueueRoom s₀ call.sch call.sch.waitingQueue
  unlisted : call.output.prefillSeqIds = []

theorem HasRoom.after (h : call.HasRoom s₀) {before : List SequenceGroup}
    (hqueue : call.queue choice = before ++ rest) : PassRoom s₀ (call.after choice before) rest := by
  refine PassRoom.run _ _ before _ ?_
  have hroom : QueueRoom s₀ call.sch (before ++ rest) :=
    h.queue.perm (hqueue ▸ sortedQueue_perm call.sch choice.arrangement)
  exact ⟨hroom, fun _ => by rw [show call.start.stillWaiting = [] from rfl, List.append_nil]; exact hroom⟩

/-- A pass that schedules nothing leaves the room as it was. -/
theorem HasRoom.result (h : call.HasRoom s₀) (hnone : (call.result choice).2.prefillSeqIds = []) :
    QueueRoom s₀ (call.result choice).1 (call.result choice).1.waitingQueue := by
  have hpass : PassRoom s₀ (call.after choice (call.queue choice)) [] :=
    h.after (List.append_nil (call.queue choice)).symm
  have hlisted : (call.after choice (call.queue choice)).output.prefillSeqIds = [] := by
    unfold WaitingCall.result scheduleWaiting at hnone
    dsimp only at hnone
    split at hnone
    · exact hnone
    · exact hnone
  have hunspent := hpass.unspent hlisted
  exact ⟨hunspent.nodup, fun g hg => ⟨(hunspent.needs g hg).config, (hunspent.needs g hg).held,
    (hunspent.needs g hg).context, (hunspent.needs g hg).chunks, (hunspent.needs g hg).cancelled⟩,
    hunspent.room⟩

end WaitingCall

theorem decodeFirstCalls_room (h : QueueRoom s₀ s s.waitingQueue) {o : SchedulerOutput}
    (hnone : o.prefillSeqIds = []) :
    ∀ call ∈ s.decodeFirstCalls choice o, call.HasRoom s₀ := by
  have hdecoded : (s.scheduleRunning choice o).prefillSeqIds = [] := by
    obtain ⟨ids, context, reason, hout, -⟩ := scheduleRunning_spec s choice o
    rw [hout]
    exact hnone
  intro call hcall
  unfold decodeFirstCalls at hcall
  dsimp only at hcall
  split at hcall
  · split at hcall
    · simp at hcall
    · obtain rfl := List.mem_singleton.mp hcall
      exact ⟨h, hdecoded⟩
  · obtain rfl := List.mem_singleton.mp hcall
    exact ⟨h, hdecoded⟩

theorem waitingCalls_room (h : QueueRoom s₀ (s.swappedIn choice).1 (s.swappedIn choice).1.waitingQueue) :
    ∀ call ∈ s.waitingCalls choice, call.HasRoom s₀ := by
  have hnone := (swappedIn_unlisted s choice).1
  intro call hcall
  unfold waitingCalls at hcall
  dsimp only at hcall
  split at hcall
  · split at hcall
    · have hfirst : WaitingCall.HasRoom s₀
          ⟨(s.swappedIn choice).1, choice.allocWaiting, (s.swappedIn choice).2, -1⟩ := ⟨h, hnone⟩
      split at hcall
      · obtain rfl := List.mem_singleton.mp hcall
        exact hfirst
      · rename_i hempty
        rcases List.mem_cons.mp hcall with rfl | hcall
        · exact hfirst
        · exact decodeFirstCalls_room (hfirst.result (not_not.mp hempty)) (not_not.mp hempty) call hcall
    · exact decodeFirstCalls_room h hnone call hcall
  · obtain rfl := List.mem_singleton.mp hcall
    obtain ⟨ids, context, reason, hout, -⟩ := scheduleRunning_spec (s.swappedIn choice).1 choice
      (s.swappedIn choice).2
    refine ⟨h, ?_⟩
    show (Scheduler.scheduleRunning _ _ _).prefillSeqIds = []
    rw [hout]
    exact hnone

/-! ### The swap-in -/

/-- What the swap-in keeps, `ids` being the sequences to come. -/
structure SwapRoom (s₀ s : Scheduler σ) (ids : List Int) : Prop where
  queue : s.waitingQueue = s₀.waitingQueue
  apart : ∀ id ∈ ids, ∀ g ∈ s₀.waitingQueue, g.sequenceId ≠ id
  needs : ∀ id, s.swapInBlocks id = s₀.swapInBlocks id
  groups : ∀ g ∈ s₀.waitingQueue, SameNeed s₀ s g
  room : Room s₀.blockManager s.blockManager
    ((ids.map s₀.swapClaim).sum + (s₀.waitingQueue.map s₀.groupClaim).sum)

theorem swapClaim_nonneg (s : Scheduler σ) (id : Int) : 0 ≤ s.swapClaim id :=
  claimOf_nonneg _ (le_of_lt (swapInBlocks_pos s id))

theorem swapClaims_nonneg (s : Scheduler σ) (ids : List Int) : 0 ≤ (ids.map s.swapClaim).sum :=
  List.sum_nonneg fun x hx => by
    obtain ⟨id, -, rfl⟩ := List.mem_map.mp hx
    exact s.swapClaim_nonneg id

variable {ids : List Int} {q : SwapInPass σ}

theorem SwapRoom.perm (h : SwapRoom s₀ s ids) {ids' : List Int} (hp : ids'.Perm ids) :
    SwapRoom s₀ s ids' :=
  ⟨h.queue, fun id hid => h.apart id (hp.mem_iff.mp hid), h.needs, h.groups, by
    rw [(hp.map _).sum_eq]
    exact h.room⟩

/-- The room of the sequence at hand and of all others. -/
theorem SwapRoom.split (h : SwapRoom s₀ s (id :: ids)) :
    Room s₀.blockManager s.blockManager
      (claimOf (supply s₀.blockManager) (s₀.swapInBlocks id) (s₀.swapInBlocks id) +
        ((ids.map s₀.swapClaim).sum + (s₀.waitingQueue.map s₀.groupClaim).sum)) := by
  have hroom := h.room
  rw [List.map_cons, List.sum_cons, add_assoc] at hroom
  exact hroom

theorem SwapRoom.step (h : SwapRoom s₀ q.sch (id :: ids)) (choice : ScheduleChoice) :
    SwapRoom s₀ (swapInOne choice q id).sch ids := by
  by_cases hroom : 0 < q.availableSlots ∧
      q.sch.swapInBlocks id ≤ q.sch.blockManager.getFreeBlockCount
  · obtain ⟨m, new, heq, -, hm⟩ := swapInOne_admits choice q id hroom
    have hoff : Off q.sch ({ q with sch := { q.sch with blockManager := m } }.takeIn id new).sch
        id :=
      ⟨rfl, rfl, fun _ hx => (List.mem_insert_iff.mp hx).symm,
        fun _ hx => Or.inl (List.mem_filter.mp hx).1, fun _ _ => rfl,
        fun _ hne => update_of_ne hne _ _, fun _ _ => rfl⟩
    rw [heq]
    refine ⟨h.queue, fun x hx => h.apart x (List.mem_cons_of_mem _ hx), h.needs,
      fun g hg => (h.groups g hg).off hoff (h.apart id (by simp) g hg), ?_⟩
    have hneed := h.needs id
    rw [hneed] at hroom hm
    show Room _ m _
    rw [hm]
    exact h.split.allocate (swapInBlocks_pos s₀ id) le_rfl le_rfl hroom.2 _
  · rw [swapInOne_skips choice q id hroom]
    have hnonneg := s₀.swapClaim_nonneg id
    exact ⟨h.queue, fun x hx => h.apart x (List.mem_cons_of_mem _ hx), h.needs, h.groups,
      h.split.mono (by unfold swapClaim at hnonneg; omega)⟩

theorem SwapRoom.run (choice : ScheduleChoice) (before : List Int) : ∀ q : SwapInPass σ,
    SwapRoom s₀ q.sch (before ++ ids) → SwapRoom s₀ (before.foldl (swapInOne choice) q).sch ids := by
  induction before with
  | nil => exact fun q h => h
  | cons id before ih => exact fun q h => ih _ (h.step choice)

theorem SwapRoom.refuses (h : SwapRoom s₀ q.sch (id :: ids)) (hslots : 0 < q.availableSlots)
    (hstays : id ∈ (swapInOne choice q id).sch.swappedSeqs) :
    (q.sch.blockManager.getFreeBlockCount : Int) + q.sch.blockManager.idleBlockCount <
      q.sch.swapInBlocks id := by
  have hshort : ¬ q.sch.swapInBlocks id ≤ q.sch.blockManager.getFreeBlockCount := by
    intro hfree
    obtain ⟨m, new, heq, -⟩ := swapInOne_admits choice q id ⟨hslots, hfree⟩
    rw [heq] at hstays
    exact absurd rfl (of_decide_eq_true (List.mem_filter.mp hstays).2)
  have hneed := h.needs id
  rw [hneed] at hshort ⊢
  have hpending := add_nonneg (s₀.swapClaims_nonneg ids) (s₀.claims_nonneg s₀.waitingQueue)
  exact h.split.refuses hpending le_rfl le_rfl (not_le.mp hshort)

/-! ### One call -/

/-- **After the preemption** there is room for the swapped sequences and the queue. -/
theorem preempted_room (hm : Machine s s.waitingQueue) (hwf : WellFormed s.blockManager)
    (h : IdleHarmless s choice) :
    SwapRoom s (s.preempted choice).1 (s.preempted choice).1.swappedSeqs := by
  have hroom : Room s.blockManager s.blockManager (((s.swapCandidates choice).map s.swapClaim).sum +
      (s.waitingQueue.map s.groupClaim).sum) := ⟨hwf, le_refl _, le_refl _, h.settled⟩
  have hneed : ∀ g ∈ s.waitingQueue, SameNeed s (s.noteReasons .none .none) g :=
    fun g hg => ⟨rfl, rfl, rfl, rfl, h.cancelled g hg⟩
  have hswapped : ∀ id ∈ s.swappedSeqs, ∀ g ∈ s.waitingQueue, g.sequenceId ≠ id := by
    rintro id hid g hg rfl
    exact hm.waitingNotSwapped _ (List.mem_map_of_mem hg) hid
  unfold swapCandidates at hroom
  cases hvictim : s.preemptionVictim choice with
  | none =>
    rw [preempted_of_none hvictim]
    rw [hvictim] at hroom
    exact ⟨rfl, hswapped, fun _ => rfl, hneed, hroom⟩
  | some victim =>
    obtain ⟨heq, hrunning⟩ := preempted_of_victim hvictim
    have hapart : ∀ g ∈ s.waitingQueue, g.sequenceId ≠ victim := by
      rintro g hg rfl
      exact hm.waitingNotRunning _ (List.mem_map_of_mem hg) hrunning
    have hoff : Off (s.noteReasons .none .none) (s.swappedOut victim) victim :=
      ⟨rfl, rfl, fun _ hx => Or.inl (List.mem_filter.mp hx).1,
        fun _ hx => (List.mem_insert_iff.mp hx).symm, fun _ _ => rfl,
        fun _ hne => update_of_ne hne _ _, fun _ _ => rfl⟩
    rw [heq]
    rw [hvictim] at hroom
    refine ⟨rfl, ?_, fun _ => rfl, fun g hg => (hneed g hg).off hoff (hapart g hg), ?_⟩
    · intro id hid
      rcases List.mem_insert_iff.mp hid with rfl | hold
      · exact hapart
      · exact hswapped id hold
    · -- Whoever is preempted is no longer running, and so a new candidate.
      show Room _ s.blockManager (((s.swappedSeqs.insert victim).map s.swapClaim).sum + _)
      rw [List.insert_of_not_mem (hm.runningNotSwapped victim hrunning)]
      exact hroom

theorem SwapRoom.queueRoom (h : SwapRoom s₀ s ids) (hm : Machine s₀ s₀.waitingQueue) :
    QueueRoom s₀ s s.waitingQueue := by
  have hnonneg := s₀.swapClaims_nonneg ids
  rw [h.queue]
  exact ⟨hm.waitingNodup, h.groups, h.room.mono (by omega)⟩

/-- **After the swap-in** there is room for the queue. -/
theorem swappedIn_room (hm : Machine s s.waitingQueue) (hwf : WellFormed s.blockManager)
    (h : IdleHarmless s choice) :
    QueueRoom s (s.swappedIn choice).1 (s.swappedIn choice).1.waitingQueue := by
  have hpre := preempted_room hm hwf h
  unfold swappedIn scheduleSwapped
  dsimp only
  split
  · exact hpre.queueRoom hm
  split
  · exact hpre.queueRoom hm
  have hroom : SwapRoom s (s.preempted choice).1
      ((s.preempted choice).1.swapInOrder choice (s.preempted choice).1.swappedSeqs ++ []) := by
    rw [List.append_nil]
    exact hpre.perm (swapInOrder_perm _ choice)
  exact (SwapRoom.run choice _ ⟨_, _, _⟩ hroom).queueRoom hm

/-- **One call**: where idle blocks are harmless, no refusal is owed to them. -/
theorem idleNeverBlocks_of_harmless (hm : Machine s s.waitingQueue)
    (hwf : WellFormed s.blockManager) (h : IdleHarmless s choice) : s.IdleNeverBlocks choice where
  waiting := by
    rintro call hcall p g ⟨before, rest, hqueue, rfl⟩ hreason
    exact ((waitingCalls_room (swappedIn_room hm hwf h) call hcall).after hqueue).refuses hreason
  swapped := by
    rintro p id ⟨hslots, before, rest, horder, rfl⟩ havailable hstays
    have hroom : SwapRoom s (s.preempted choice).1 (before ++ id :: rest) := by
      rw [← horder]
      exact (preempted_room hm hwf h).perm (swapInOrder_perm _ choice)
    exact (SwapRoom.run choice before ⟨_, _, _⟩ hroom).refuses havailable hstays

end Scheduler

namespace Client

open Scheduler

variable {σ : Type} {c : Client σ}

/-! ### Reachable states -/

theorem addRequest_wellFormed (h : WellFormed c.sch.blockManager) (salt : UInt64)
    (r : NewRequest σ) : WellFormed (c.addRequest salt r).sch.blockManager := by
  unfold Client.addRequest Scheduler.addRequest
  dsimp only
  split
  · exact h
  dsimp only
  split
  · exact (findLongest_quiet _ _ _ _ _ _ h).wellFormed h
  · exact h

theorem step_wellFormed (h : WellFormed c.sch.blockManager) (salt : UInt64) (call : Call σ) :
    WellFormed (c.step salt call).sch.blockManager := by
  cases call with
  | addRequest r => exact addRequest_wellFormed h salt r
  | removeRequest id finished =>
    show WellFormed (c.sch.removeRequest id finished).blockManager
    rw [Scheduler.removeRequest_blockManager]
    exact h
  | schedule choice => exact Scheduler.schedule_wellFormed h choice
  | setPredictedExperts id experts =>
    show WellFormed (c.sch.setPredictedExperts id experts).blockManager
    unfold Scheduler.setPredictedExperts
    split
    · exact h
    · exact h
  | onPrefillChunkComplete id tokens finished =>
    show WellFormed (c.sch.onPrefillChunkComplete id tokens finished).blockManager
    rw [(onPrefillChunkComplete_frame c.sch id tokens finished).blockManager]
    exact h
  | onDecodeStepComplete id tokens =>
    show WellFormed (c.sch.onDecodeStepComplete id tokens).blockManager
    rw [(onDecodeStepComplete_frame c.sch id tokens).blockManager]
    exact h
  | updateProgress id tokens =>
    show WellFormed (c.sch.updateProgress id tokens).blockManager
    rw [(updateProgress_frame c.sch id tokens).blockManager]
    exact h
  | updateProgressBatch updates =>
    show WellFormed (c.sch.updateProgressBatch updates).blockManager
    rw [(updateProgressBatch_frame c.sch updates).blockManager]
    exact h
  | useManager op => exact (apply_moves salt _ op h).wellFormed h

theorem run_manager_wellFormed (salt : UInt64) (calls : List (Call σ)) : ∀ c : Client σ,
    WellFormed c.sch.blockManager → WellFormed (c.run salt calls).sch.blockManager := by
  induction calls with
  | nil => intro c h; exact h
  | cons call rest ih =>
    intro c h
    exact ih _ (step_wellFormed h salt call)

/-- **Idle cache and admission.**  In every reachable state where no block is idle, or
the free lists hold what all those can claim whom the next call may come to, that call
leaves no one waiting or swapped for lack of memory whom free and idle blocks together
would have served. -/
theorem idle_cache_never_blocks (salt : UInt64) (numBlocks : Nat) (blockSize : Int)
    (config : SchedulerConfig) (calls : List (Call σ)) (choice : ScheduleChoice)
    (hlegal : LegalRun salt (init (BlockManager.init numBlocks blockSize) config) calls)
    (hharmless : IdleHarmless
      ((init (BlockManager.init numBlocks blockSize) config).run salt calls).sch choice) :
    ((init (BlockManager.init numBlocks blockSize) config).run salt calls).sch.IdleNeverBlocks
      choice :=
  idleNeverBlocks_of_harmless (Ready.run salt calls _ (init_ready _ config) hlegal).machine
    (run_manager_wellFormed salt calls _ (init_wellFormed numBlocks blockSize)) hharmless

/-- A prompt of two blocks is prefilled, its blocks are registered for reuse, and the
request ends; then another prompt arrives. -/
def cacheFillsPool : List (Call Unit) :=
  [.addRequest { promptLen := 32 }, .schedule {}, .onPrefillChunkComplete 1 32 true,
    .useManager (.registerPrefixBlock 0 7), .useManager (.registerPrefixBlock 1 8),
    .removeRequest 1 true, .useManager (.free [0, 1]), .addRequest { promptLen := 10 }]

/-- On three blocks the free one is enough for the second prompt, and the two idle ones
are left alone. -/
theorem cacheFillsPool_idle_cache_never_blocks :
    let s := ((init (BlockManager.init 3 16) {}).run 0 cacheFillsPool).sch
    s.blockManager.idleBlockCount = 2 ∧ (s.schedule {}).2.prefillSeqIds = [2] ∧
      s.IdleNeverBlocks {} := by
  refine ⟨by decide +kernel, by decide +kernel,
    idle_cache_never_blocks 0 3 16 {} cacheFillsPool {} (by decide +kernel) ⟨?_, ?_⟩⟩
  · have hempty : ∀ g ∈ ((init (BlockManager.init 3 16) {}).run 0 cacheFillsPool).sch.waitingQueue,
        (((init (BlockManager.init 3 16) {}).run 0 cacheFillsPool).sch.seqBlockIds
          g.sequenceId).getD [] = [] := by decide +kernel
    exact fun g hg _ => hempty g hg
  · exact Or.inr (by decide +kernel)

/-- The pass over the queue that the next call begins with. -/
def cacheFullPass : WaitingCall Unit :=
  let s := ((init (BlockManager.init 2 16) {}).run 0 cacheFillsPool).sch
  ⟨(s.swappedIn {}).1, fun _ => {}, (s.swappedIn {}).2, -1⟩

/-- **On two blocks the second prompt never starts**: both blocks are idle and one
would do, but none is free. -/
theorem cacheFillsPool_blocks_admission :
    let s := ((init (BlockManager.init 2 16) {}).run 0 cacheFillsPool).sch
    LegalRun 0 (init (BlockManager.init 2 16) {}) cacheFillsPool ∧
      (s.schedule {}).2.emptyReason = .noFreeBlocks ∧
      s.blockManager.getFreeBlockCount = 0 ∧ s.blockManager.idleBlockCount = 2 ∧
      ¬ s.IdleNeverBlocks {} := by
  intro s
  refine ⟨by decide +kernel, by decide +kernel, by decide +kernel, by decide +kernel, ?_⟩
  intro h
  have hcall : cacheFullPass ∈ s.waitingCalls {} := by
    unfold Scheduler.waitingCalls
    rw [if_pos (show (s.swappedIn {}).1.config.isolatePrefillDecode = true by decide +kernel),
      if_pos (show (s.swappedIn {}).1.schedulePrefillFirst = true by decide +kernel)]
    dsimp only
    split
    · exact List.mem_cons_self
    · exact List.mem_cons_self
  have hturn : cacheFullPass.Turn {} cacheFullPass.start
      { requestId := 0, sequenceId := 2, priority := 100, arrivalTime := 0,
        numTokensToProcess := 10 } :=
    ⟨[], [], by decide +kernel, rfl⟩
  have hneed := h.waiting cacheFullPass hcall _ _ hturn (by decide +kernel)
  revert hneed
  decide +kernel

end Client

end DenseCore
