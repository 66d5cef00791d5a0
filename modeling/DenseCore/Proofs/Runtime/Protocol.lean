/-
Runs of the scheduler under its protocol.

`Ready` is what holds between two calls: the three places and the records agree, the
live sequences are those in play, and what may still be reported is covered by what
is there, a waiting group with at least that much left or a running sequence.
Each call keeps it, so it holds in every state a legal run reaches.  The batches
such a state can produce have the shape that `Listing` and `Tally` describe.
-/
import DenseCore.Runtime.Protocol
import DenseCore.Proofs.Runtime.Requests
import DenseCore.Proofs.Runtime.Listing

namespace DenseCore

namespace Scheduler

open List hiding lt_irrefl not_le not_lt

variable {σ : Type} {s s' : Scheduler σ} {gs : List SequenceGroup} {g : SequenceGroup}
  {id tokens : Int}

/-! ### The calls as moves

A call moves one sequence at a time, and a move says of it where it was and where it is now.
Everything else about the sequence is read off that.
-/

/-- A new sequence comes into play with its prompt to prefill. -/
theorem Machine.arrive {promptLen : Int} {allow cached : Bool} (h : Machine s s.waitingQueue)
    (ha : Arrives s s' g promptLen allow cached) (hpos : 0 ≤ promptLen) :
    Machine s' s'.waitingQueue ∧
      ∀ x, InPlay s' s'.waitingQueue x ↔ InPlay s s.waitingQueue x ∨ x = s.nextSeqId := by
  have hfresh : ¬ InPlay s s.waitingQueue s.nextSeqId := by
    intro hplay
    exact absurd (h.bounded _ hplay) (lt_irrefl _)
  have hroom : Machine { s with nextSeqId := s.nextSeqId + 1 } s.waitingQueue := by
    refine { h with waits := ?_, runs := ?_, swappedOut := ?_, bounded := ?_ }
    · exact fun g hg => (h.waits g hg).of_same ⟨rfl, rfl, rfl, rfl⟩
    · exact fun id hid => (h.runs id hid).of_same ⟨rfl, rfl, rfl, rfl⟩
    · exact fun id hid => (h.swappedOut id hid).of_same ⟨rfl, rfl, rfl, rfl⟩
    intro id hid
    have := h.bounded id hid
    show id < s.nextSeqId + 1
    omega
  have hmoved : Moved { s with nextSeqId := s.nextSeqId + 1 } s.waitingQueue s' s'.waitingQueue
      s.nextSeqId := by
    refine ⟨ha.nextSeqId, fun _ => Int.lt_succ _, ?_, ?_, ?_, ?_, ?_, ?_, ?_, ?_⟩
    · intro x hne
      refine ⟨?_, ?_, ?_, ?_⟩
      · rw [ha.status, Function.update_of_ne hne]
      · rw [ha.generated, Function.update_of_ne hne]
      · rw [ha.context, Function.update_of_ne hne]
      · rw [ha.prompt, Function.update_of_ne hne]
    · intro g' hne
      rw [ha.queue, mem_append, mem_singleton]
      refine ⟨?_, Or.inl⟩
      rintro (hold | rfl)
      · exact hold
      · exact absurd ha.sequenceId hne
    · intro x _
      rw [ha.running]
    · intro x _
      rw [ha.swapped]
    · rw [ha.queue, map_append, nodup_append]
      refine ⟨h.waitingNodup, nodup_singleton _, ?_⟩
      intro x hx y hy heq
      obtain rfl : y = g.sequenceId := by simpa using hy
      exact hfresh (Or.inl (ha.sequenceId ▸ heq ▸ hx))
    · rw [ha.running]; exact h.runningNodup
    · rw [ha.swapped]; exact h.swappedNodup
    refine .waiting ?_ ?_ ?_
    · intro g' hg' heq
      rw [ha.queue, mem_append, mem_singleton] at hg'
      rcases hg' with hold | rfl
      · exact absurd (Or.inl (heq ▸ mem_map_of_mem hold)) hfresh
      have hrem := ha.remaining
      refine ⟨?_, ?_, ?_, ?_⟩
      · rw [heq, ha.status, Function.update_self]
      · rw [heq, ha.generated, Function.update_self]
      · rcases Int.lt_or_le 0 promptLen with hlt | hle
        · have := ha.short hlt
          omega
        rw [hrem, ha.long hle]
        simpa using hpos
      refine ⟨blockSlots * g'.sharedBlockIds.length, ?_, ?_⟩
      · rw [heq, ha.context, Function.update_self]
      rw [heq, ha.prompt, Function.update_self, hrem]
      congr 1
      omega
    · rw [ha.running]
      exact fun hx => hfresh (Or.inr (Or.inl hx))
    · rw [ha.swapped]
      exact fun hx => hfresh (Or.inr (Or.inr hx))
  refine ⟨hroom.move hmoved, ?_⟩
  intro x
  by_cases hne : x = s.nextSeqId
  · subst hne
    refine ⟨fun _ => Or.inr rfl, fun _ => Or.inl ?_⟩
    rw [ha.queue, map_append]
    exact mem_append_right _ (by simp [ha.sequenceId])
  rw [hmoved.inPlay hne]
  refine ⟨Or.inl, ?_⟩
  rintro (hplay | rfl)
  · exact hplay
  · exact absurd rfl hne

theorem Machine.depart (h : Machine s s.waitingQueue) (id : Int) (finished : Bool) :
    Moved s s.waitingQueue (s.removeRequest id finished)
      (s.removeRequest id finished).waitingQueue id := by
  have hstatus : ∀ x, x ≠ id → (s.removeRequest id finished).seqStatus x = s.seqStatus x := by
    intro x hne
    unfold removeRequest
    dsimp only
    split
    · exact Function.update_of_ne hne _ _
    · rfl
  have hrest : ∀ x, x ≠ id → SameRecords s (s.removeRequest id finished) x := by
    intro x hne
    refine ⟨hstatus x hne, ?_, ?_, ?_⟩
    all_goals
      unfold removeRequest
      dsimp only
      split <;> exact Function.update_of_ne hne _ _
  refine h.leave hrest (removeRequest_nextSeqId s id finished) ?_ ?_ ?_
    (removeRequest_runningSeqs s id finished) (removeRequest_swappedSeqs s id finished)
  · intro g hne
    rw [removeRequest_waitingQueue, mem_filter]
    simp [hne]
  · rw [removeRequest_waitingQueue]
    exact h.waitingNodup.sublist (filter_sublist.map _)
  rw [removeRequest_waitingQueue]
  simp

theorem Machine.waitingGroup (h : Machine s gs) (hg : g ∈ gs) :
    gs.find? (fun b => b.sequenceId = g.sequenceId) = some g := by
  cases hfind : gs.find? (fun b => b.sequenceId = g.sequenceId) with
  | none => exact absurd (find?_eq_none.mp hfind g hg) (by simp)
  | some b =>
    have heq : b.sequenceId = g.sequenceId := by simpa using find?_some hfind
    rw [inj_on_of_nodup_map h.waitingNodup (mem_of_find?_eq_some hfind) hg heq]

theorem Machine.waitingRemaining (h : Machine s s.waitingQueue) (hg : g ∈ s.waitingQueue) :
    s.waitingRemaining g.sequenceId = some g.numTokensToProcess := by
  unfold Scheduler.waitingRemaining
  rw [h.waitingGroup hg]
  rfl

theorem waitingRemaining_none (h : id ∉ gs.map (·.sequenceId)) (hs : s.waitingQueue = gs) :
    s.waitingRemaining id = none := by
  unfold Scheduler.waitingRemaining
  rw [hs, Option.map_eq_none_iff, find?_eq_none]
  intro g hg heq
  exact h ((by simpa using heq : g.sequenceId = id) ▸ mem_map_of_mem hg)

theorem Machine.lastChunk (h : Machine s s.waitingQueue) (hg : g ∈ s.waitingQueue) :
    Moved s s.waitingQueue ({ s.advanceContext g.sequenceId g.numTokensToProcess with
        waitingQueue := s.waitingQueue.filter fun b => b.sequenceId ≠ g.sequenceId }.markRunning
          g.sequenceId)
      (s.waitingQueue.filter fun b => b.sequenceId ≠ g.sequenceId) g.sequenceId := by
  have hwaiting : g.sequenceId ∈ s.waitingQueue.map (·.sequenceId) := mem_map_of_mem hg
  refine ⟨rfl, fun _ => h.bounded _ (Or.inl hwaiting), ?_, ?_, ?_, fun x _ => Iff.rfl, ?_,
    h.runningNodup.insert, h.swappedNodup, ?_⟩
  · intro x hne
    exact ⟨Function.update_of_ne hne _ _, rfl, Function.update_of_ne hne _ _, rfl⟩
  · intro b hne
    simp [hne]
  · intro x hne
    show x ∈ s.runningSeqs.insert g.sequenceId ↔ _
    rw [mem_insert_iff]
    simp [hne]
  · exact h.waitingNodup.sublist (filter_sublist.map _)
  obtain ⟨context, hctx, hprompt⟩ := (h.waits g hg).prompt
  refine .running (by simp) ⟨Function.update_self _ _ _, _, 0, hprompt,
    (h.waits g hg).generated, ?_⟩ (h.waitingNotSwapped _ hwaiting)
  show Function.update s.seqContextLen g.sequenceId _ g.sequenceId = _
  rw [Function.update_self, Int.add_zero]
  unfold getSequenceContextLen
  rw [hctx]
  rfl

theorem Machine.nextChunk (h : Machine s s.waitingQueue) (hg : g ∈ s.waitingQueue)
    (hlt : tokens < g.numTokensToProcess) :
    Moved s s.waitingQueue ({ s.advanceContext g.sequenceId tokens with
        waitingQueue := modifyWaiting g.sequenceId
          (fun b => { b with numTokensToProcess := g.numTokensToProcess - tokens })
          s.waitingQueue }.setStatus g.sequenceId .waiting)
      (modifyWaiting g.sequenceId
        (fun b => { b with numTokensToProcess := g.numTokensToProcess - tokens }) s.waitingQueue)
      g.sequenceId := by
  have hwaiting : g.sequenceId ∈ s.waitingQueue.map (·.sequenceId) := mem_map_of_mem hg
  have hids := modifyWaiting_ids g.sequenceId
    (fun b => { b with numTokensToProcess := g.numTokensToProcess - tokens }) (fun _ => rfl)
    s.waitingQueue
  refine ⟨rfl, fun _ => h.bounded _ (Or.inl hwaiting), ?_, ?_, fun x _ => Iff.rfl,
    fun x _ => Iff.rfl, ?_, h.runningNodup, h.swappedNodup, ?_⟩
  · intro x hne
    exact ⟨Function.update_of_ne hne _ _, rfl, Function.update_of_ne hne _ _, rfl⟩
  · intro b hne
    refine modifyWaiting_mem_other hne ?_ s.waitingQueue
    exact fun _ => rfl
  · rw [hids]; exact h.waitingNodup
  refine .waiting ?_ (h.waitingNotRunning _ hwaiting) (h.waitingNotSwapped _ hwaiting)
  intro b hb heq
  obtain ⟨context, hctx, hprompt⟩ := (h.waits g hg).prompt
  have hnum : b.numTokensToProcess = g.numTokensToProcess - tokens :=
    modifyWaiting_num h.waitingNodup hb heq
  refine ⟨?_, ?_, by omega, context + tokens, ?_, ?_⟩
  · rw [heq]; exact Function.update_self _ _ _
  · rw [heq]; exact (h.waits g hg).generated
  · show Function.update s.seqContextLen g.sequenceId _ b.sequenceId = _
    rw [heq, Function.update_self]
    unfold getSequenceContextLen
    rw [hctx]
    rfl
  rw [heq, hnum]
  show s.seqPromptLen g.sequenceId = _
  rw [hprompt]
  congr 1
  omega

/-- **A prefill report** of no more than what is left is one move; what is then
left stays in the queue. -/
theorem Machine.prefillReport (h : Machine s s.waitingQueue) (hg : g ∈ s.waitingQueue)
    (hvalid : 0 ≤ g.sequenceId) (hpos : 0 < tokens) (hle : tokens ≤ g.numTokensToProcess)
    {finished : Bool} (hfin : finished = true ↔ tokens = g.numTokensToProcess) :
    let s' := s.onPrefillChunkComplete g.sequenceId tokens finished
    Moved s s.waitingQueue s' s'.waitingQueue g.sequenceId ∧
      InPlay s' s'.waitingQueue g.sequenceId ∧
      (tokens < g.numTokensToProcess → ∃ b ∈ s'.waitingQueue, b.sequenceId = g.sequenceId ∧
        b.numTokensToProcess = g.numTokensToProcess - tokens) := by
  have hremaining : (s.advanceContext g.sequenceId tokens).waitingRemaining g.sequenceId =
      some g.numTokensToProcess := h.waitingRemaining hg
  have hleft : max 0 (g.numTokensToProcess - tokens) = g.numTokensToProcess - tokens :=
    max_eq_right (by omega)
  unfold onPrefillChunkComplete
  dsimp only
  rw [if_neg (by omega), hremaining]
  dsimp only
  rw [hleft]
  split
  · rename_i hdone
    obtain rfl : tokens = g.numTokensToProcess := by
      rcases hdone with hfinished | hzero
      · exact hfin.mp hfinished
      · omega
    refine ⟨h.lastChunk hg, Or.inr (Or.inl mem_insert_self), ?_⟩
    intro hlt
    exact absurd hlt (lt_irrefl _)
  rename_i hmore
  rw [not_or] at hmore
  have hlt : tokens < g.numTokensToProcess := by omega
  have hmoved := h.nextChunk hg hlt
  have hmem : g.sequenceId ∈ (modifyWaiting g.sequenceId
      (fun b => { b with numTokensToProcess := g.numTokensToProcess - tokens })
      s.waitingQueue).map (·.sequenceId) := by
    rw [modifyWaiting_ids]
    · exact mem_map_of_mem hg
    · exact fun _ => rfl
  refine ⟨hmoved, Or.inl hmem, fun _ => ?_⟩
  obtain ⟨b, hb, heq⟩ := mem_map.mp hmem
  exact ⟨b, hb, heq, modifyWaiting_num h.waitingNodup hb heq⟩

/-- **A decode report** of a running sequence is one move. -/
theorem Machine.decodeReport (h : Machine s s.waitingQueue) (hid : id ∈ s.runningSeqs)
    (tokens : Int) :
    let s' := s.onDecodeStepComplete id tokens
    Moved s s.waitingQueue s' s'.waitingQueue id ∧ id ∈ s'.runningSeqs ∧
      s'.waitingQueue = s.waitingQueue := by
  have hnotWaiting : id ∉ s.waitingQueue.map (·.sequenceId) :=
    fun hw => h.waitingNotRunning id hw hid
  have hplay : InPlay s s.waitingQueue id := Or.inr (Or.inl hid)
  unfold onDecodeStepComplete
  dsimp only
  split
  · exact ⟨h.still hplay, hid, rfl⟩
  refine ⟨⟨rfl, fun _ => h.bounded _ hplay, ?_, fun g _ => Iff.rfl, ?_, fun x _ => Iff.rfl,
    h.waitingNodup, h.runningNodup.insert, h.swappedNodup, ?_⟩, mem_insert_self, rfl⟩
  · intro x hne
    exact ⟨Function.update_of_ne hne _ _, Function.update_of_ne hne _ _,
      Function.update_of_ne hne _ _, rfl⟩
  · intro x hne
    show x ∈ s.runningSeqs.insert id ↔ _
    rw [mem_insert_iff]
    simp [hne]
  obtain ⟨prompt, generated, hprompt, hgen, hctx⟩ := (h.runs id hid).context
  refine .running hnotWaiting ⟨Function.update_self _ _ _, prompt, generated + tokens, hprompt,
    ?_, ?_⟩ (h.runningNotSwapped id hid)
  · show Function.update s.seqGeneratedTokens id _ id = _
    rw [Function.update_self]
    unfold getSequenceProgress
    rw [hgen]
    rfl
  show Function.update s.seqContextLen id (some ((s.seqContextLen id).getD 0 + tokens)) id = _
  rw [Function.update_self, hctx]
  congr 1
  show prompt + generated + tokens = _
  omega

variable (s : Scheduler σ)

theorem setPredictedExperts_keys (id : Int) (experts : List Int) :
    (s.setPredictedExperts id experts).waitingQueue.map groupKey = s.waitingQueue.map groupKey := by
  unfold setPredictedExperts
  split
  · rfl
  show (modifyWaiting id _ s.waitingQueue).map groupKey = _
  induction s.waitingQueue with
  | nil => rfl
  | cons g gs ih =>
    unfold modifyWaiting
    split
    · rfl
    · rw [map_cons, map_cons, ih]

/-- What a report of progress leaves alone. -/
structure SameFrame (s s' : Scheduler σ) : Prop where
  nextSeqId : s'.nextSeqId = s.nextSeqId
  config : s'.config = s.config
  blockManager : s'.blockManager = s.blockManager

theorem onPrefillChunkComplete_frame (id tokens : Int) (finished : Bool) :
    SameFrame s (s.onPrefillChunkComplete id tokens finished) := by
  unfold onPrefillChunkComplete
  dsimp only
  split
  · exact ⟨rfl, rfl, rfl⟩
  split
  · split <;> exact ⟨rfl, rfl, rfl⟩
  · split <;> exact ⟨rfl, rfl, rfl⟩

theorem onDecodeStepComplete_frame (id tokens : Int) :
    SameFrame s (s.onDecodeStepComplete id tokens) := by
  unfold onDecodeStepComplete
  dsimp only
  split <;> exact ⟨rfl, rfl, rfl⟩

theorem updateProgress_frame (id tokens : Int) : SameFrame s (s.updateProgress id tokens) := by
  unfold updateProgress
  split
  · exact ⟨rfl, rfl, rfl⟩
  split
  · exact onPrefillChunkComplete_frame s id tokens _
  · exact onDecodeStepComplete_frame s id tokens

theorem updateProgressBatch_eq (updates : List (Int × Int)) :
    s.updateProgressBatch updates = updates.foldl (fun s u => s.updateProgress u.1 u.2) s := by
  unfold updateProgressBatch
  congr 1
  funext s u
  unfold updateProgress
  by_cases htokens : u.2 ≤ 0
  · rw [if_pos (Or.inr htokens), if_pos htokens]
  rw [if_neg htokens]
  by_cases hid : u.1 < 0
  · rw [if_pos (Or.inl hid)]
    -- Both reports ignore an id that is not one.
    split
    · unfold onPrefillChunkComplete
      rw [if_pos (Or.inl hid)]
    unfold onDecodeStepComplete
    rw [if_pos (Or.inl hid)]
  · rw [if_neg (by omega)]

theorem updateProgressBatch_frame (updates : List (Int × Int)) :
    SameFrame s (s.updateProgressBatch updates) := by
  rw [updateProgressBatch_eq]
  induction updates generalizing s with
  | nil => exact ⟨rfl, rfl, rfl⟩
  | cons u rest ih =>
    have hone := updateProgress_frame s u.1 u.2
    have hrest := ih (s.updateProgress u.1 u.2)
    exact ⟨hrest.nextSeqId.trans hone.nextSeqId, hrest.config.trans hone.config,
      hrest.blockManager.trans hone.blockManager⟩

end Scheduler

namespace Client

open Scheduler

variable {σ : Type} {c : Client σ} {id tokens : Int}

/-! ### Between two calls -/

/-- The scheduler and its client agree between two calls. -/
structure Ready (c : Client σ) : Prop where
  machine : Machine c.sch c.sch.waitingQueue
  inPlay : ∀ id, id ∈ c.live ↔ InPlay c.sch c.sch.waitingQueue id
  prefillDue : ∀ id, 0 < c.prefillDue id → ∃ g ∈ c.sch.waitingQueue, g.sequenceId = id ∧
    c.prefillDue id ≤ g.numTokensToProcess
  decodeDue : ∀ id, 0 < c.decodeDue id → id ∈ c.sch.runningSeqs

theorem init_ready (bm : BlockManager σ) (config : SchedulerConfig) : Ready (init bm config) where
  machine :=
    { waitingNodup := List.nodup_nil
      runningNodup := List.nodup_nil
      swappedNodup := List.nodup_nil
      waitingNotRunning := by simp [init, Scheduler.init]
      waitingNotSwapped := by simp [init, Scheduler.init]
      runningNotSwapped := by simp [init, Scheduler.init]
      waits := by simp [init, Scheduler.init]
      runs := by simp [init, Scheduler.init]
      swappedOut := by simp [init, Scheduler.init]
      bounded := by simp [init, Scheduler.init, InPlay] }
  inPlay := by simp [init, Scheduler.init, InPlay]
  prefillDue := by simp [init]
  decodeDue := by simp [init]

theorem Ready.addRequest (h : Ready c) (salt : UInt64) (r : NewRequest σ) (hpos : 0 ≤ r.promptLen) :
    Ready (c.addRequest salt r) := by
  unfold Client.addRequest
  dsimp only
  rcases addRequest_arrives c.sch salt r.now r.requestId r.promptLen r.priority r.prefixTokens
    r.allowChunkedPrefill r.requireSnapshot r.maxPrefillChunkTokens r.validator with
    hnone | ⟨hid, g, hnew⟩
  · rw [hnone]
    refine ⟨h.machine, ?_, h.prefillDue, h.decodeDue⟩
    show ∀ id, id ∈ c.live ++ [] ↔ _
    rw [List.append_nil]
    exact h.inPlay
  obtain ⟨hmachine, hplay⟩ := h.machine.arrive hnew hpos
  refine ⟨hmachine, ?_, ?_, ?_⟩
  · intro id
    rw [hid, hplay, ← h.inPlay]
    simp
  · intro id hdue
    obtain ⟨b, hb, heq, hle⟩ := h.prefillDue id hdue
    refine ⟨b, ?_, heq, hle⟩
    show b ∈ (c.sch.addRequest _ _ _ _ _ _ _ _ _ _).2.waitingQueue
    rw [hnew.queue]
    exact List.mem_append_left _ hb
  intro id hdue
  show id ∈ (c.sch.addRequest _ _ _ _ _ _ _ _ _ _).2.runningSeqs
  rw [hnew.running]
  exact h.decodeDue id hdue

theorem Ready.removeRequest (h : Ready c) (id : Int) (finished : Bool) :
    Ready (c.removeRequest id finished) := by
  have hmoved := h.machine.depart id finished
  have hgone : ¬ InPlay (c.sch.removeRequest id finished)
      (c.sch.removeRequest id finished).waitingQueue id := by
    rintro (hw | hr | hsw)
    · rw [removeRequest_waitingQueue] at hw
      obtain ⟨g, hg, heq⟩ := List.mem_map.mp hw
      simp [heq] at hg
    · rw [removeRequest_runningSeqs] at hr; simp at hr
    · rw [removeRequest_swappedSeqs] at hsw; simp at hsw
  refine ⟨h.machine.move hmoved, ?_, ?_, ?_⟩
  · intro x
    show x ∈ c.live.filter (fun x => x ≠ id) ↔ InPlay (c.sch.removeRequest id finished) _ x
    by_cases hne : x = id
    · subst hne
      exact ⟨fun hx => by simp at hx, fun hx => absurd hx hgone⟩
    show _ ↔ InPlay _ (c.sch.removeRequest id finished).waitingQueue x
    rw [hmoved.inPlay hne, ← h.inPlay]
    simp [hne]
  · intro x hdue
    have hne : x ≠ id := by
      rintro rfl
      simp [Client.removeRequest] at hdue
    rw [show (c.removeRequest id finished).prefillDue x = c.prefillDue x from
      Function.update_of_ne hne _ _] at hdue ⊢
    obtain ⟨g, hg, heq, hle⟩ := h.prefillDue x hdue
    exact ⟨g, (hmoved.groups g (heq.trans_ne hne)).mpr hg, heq, hle⟩
  intro x hdue
  have hne : x ≠ id := by
    rintro rfl
    simp [Client.removeRequest] at hdue
  rw [show (c.removeRequest id finished).decodeDue x = c.decodeDue x from
    Function.update_of_ne hne _ _] at hdue
  exact (hmoved.running x hne).mpr (h.decodeDue x hdue)

/-! ### A batch -/

theorem filter_eq_singleton {α β : Type} [DecidableEq β] {key : α → β} {l : List α} {a : α}
    (hnodup : (l.map key).Nodup) (ha : a ∈ l) : l.filter (fun b => key b = key a) = [a] := by
  induction l with
  | nil => simp at ha
  | cons b rest ih =>
    rw [List.map_cons, List.nodup_cons] at hnodup
    rcases List.mem_cons.mp ha with rfl | hrest
    · have hnone : rest.filter (fun b => key b = key a) = [] := by
        rw [List.filter_eq_nil_iff]
        intro b hb heq
        exact hnodup.1 ((by simpa using heq : key b = key a) ▸ List.mem_map_of_mem hb)
      rw [List.filter_cons_of_pos (by simp), hnone]
    have hne : key b ≠ key a := by
      intro heq
      exact hnodup.1 (heq ▸ List.mem_map_of_mem hrest)
    rw [List.filter_cons_of_neg (by simpa using hne)]
    exact ih hnodup.2 hrest

variable {o : SchedulerOutput} {entry : PrefillChunkInfo}

theorem chunkOf_of_mem (hnodup : (o.prefillChunkInfo.map (·.seqId)).Nodup)
    (hentry : entry ∈ o.prefillChunkInfo) :
    chunkOf o entry.seqId = entry.chunkTokens := by
  unfold chunkOf
  rw [filter_eq_singleton hnodup hentry]
  simp

theorem exists_of_chunkOf_pos (h : 0 < chunkOf o id) :
    ∃ entry ∈ o.prefillChunkInfo, entry.seqId = id := by
  by_contra hnone
  have hnil : o.prefillChunkInfo.filter (fun entry => entry.seqId = id) = [] := by
    rw [List.filter_eq_nil_iff]
    intro entry hentry heq
    exact hnone ⟨entry, hentry, by simpa using heq⟩
  unfold chunkOf at h
  rw [hnil] at h
  simp at h

theorem Ready.within (h : Ready c) :
    Within (fun id => id ∈ c.live) False c.sch c.sch.waitingQueue {} := by
  refine ⟨?_, ?_, ?_, by simp, by simp, by simp, by simp, by simp, by simp,
    fun hoff => hoff.elim, fun hoff => hoff.elim⟩
  · intro g hg
    exact (h.inPlay _).mpr (Or.inl (List.mem_map_of_mem hg))
  · intro id hid
    exact (h.inPlay _).mpr (Or.inr (Or.inl hid))
  intro id hid
  exact (h.inPlay _).mpr (Or.inr (Or.inr hid))

theorem Ready.schedule (h : Ready c) (choice : ScheduleChoice) : Ready (c.schedule choice) := by
  have hstart : Kept (fun id => id ∈ c.live) c.sch :=
    ⟨h.machine, fun x hx => Or.inl ((h.inPlay x).mp hx)⟩
  obtain ⟨hmachine, haccount⟩ := schedule_kept hstart choice
  have hwithin := schedule_within h.within choice
  obtain ⟨-, hlisting, htally⟩ := schedule_listed h.machine choice
  refine ⟨hmachine, ?_, ?_, ?_⟩
  · intro id
    show id ∈ c.live.filter (fun x => (c.sch.schedule choice).1.seqStatus x ≠ some .cancelled) ↔ _
    rw [List.mem_filter, decide_eq_true_eq]
    refine ⟨?_, ?_⟩
    · rintro ⟨hlive, hnot⟩
      exact (haccount id hlive).resolve_right hnot
    intro hplay
    refine ⟨?_, hmachine.not_cancelled hplay⟩
    rcases hplay with hw | hr | hsw
    · obtain ⟨g, hg, rfl⟩ := List.mem_map.mp hw
      exact hwithin.groups g hg
    · exact hwithin.running id hr
    · exact hwithin.swapped id hsw
  · intro id hdue
    obtain ⟨entry, hentry, rfl⟩ := exists_of_chunkOf_pos hdue
    obtain ⟨g, hg, heq, hfits⟩ := hlisting.chunks entry hentry
    refine ⟨g, hg, heq, ?_⟩
    show chunkOf (c.sch.schedule choice).2 entry.seqId ≤ g.numTokensToProcess
    rw [chunkOf_of_mem (by rw [htally.chunkIds]; exact hlisting.prefillNodup) hentry]
    exact hfits.le_remaining
  · intro id hdue
    have hlisted : id ∈ (c.sch.schedule choice).2.decodeSeqIds := by
      by_contra hnot
      have hzero : (c.schedule choice).decodeDue id = 0 := if_neg hnot
      omega
    exact hlisting.decodes id hlisted

/-! ### Reports

A report is legal for what the last batch listed. It takes its tokens off what is due, so
the same tokens are never reported twice.
-/

/-- A report of at most what is due leaves the client ready. -/
theorem Ready.reported {sch : Scheduler σ} (h : Ready c)
    (hmoved : Moved c.sch c.sch.waitingQueue sch sch.waitingQueue id)
    (hold : InPlay c.sch c.sch.waitingQueue id) (hnew : InPlay sch sch.waitingQueue id)
    (hprefill : 0 < c.prefillDue id - max 0 tokens → ∃ g ∈ sch.waitingQueue, g.sequenceId = id ∧
      c.prefillDue id - max 0 tokens ≤ g.numTokensToProcess)
    (hdecode : 0 < c.decodeDue id - max 0 tokens → id ∈ sch.runningSeqs) :
    Ready (c.report sch id tokens) := by
  refine ⟨h.machine.move hmoved, ?_, ?_, ?_⟩
  · intro x
    show x ∈ c.live ↔ InPlay sch sch.waitingQueue x
    rw [h.inPlay]
    by_cases hne : x = id
    · subst hne
      exact ⟨fun _ => hnew, fun _ => hold⟩
    · rw [hmoved.inPlay hne]
  · intro x hdue
    by_cases hne : x = id
    · subst hne
      have hval : (c.report sch x tokens).prefillDue x = c.prefillDue x - max 0 tokens :=
        Function.update_self _ _ _
      rw [hval] at hdue ⊢
      exact hprefill hdue
    have hval : (c.report sch id tokens).prefillDue x = c.prefillDue x :=
      Function.update_of_ne hne _ _
    rw [hval] at hdue ⊢
    obtain ⟨g, hg, heq, hle⟩ := h.prefillDue x hdue
    exact ⟨g, (hmoved.groups g (heq.trans_ne hne)).mpr hg, heq, hle⟩
  intro x hdue
  by_cases hne : x = id
  · subst hne
    rw [show (c.report sch x tokens).decodeDue x = c.decodeDue x - max 0 tokens from
      Function.update_self _ _ _] at hdue
    exact hdecode hdue
  rw [show (c.report sch id tokens).decodeDue x = c.decodeDue x from
    Function.update_of_ne hne _ _] at hdue
  exact (hmoved.running x hne).mpr (h.decodeDue x hdue)

theorem report_of_nonpos (c : Client σ) (id : Int) (htokens : tokens ≤ 0) :
    c.report c.sch id tokens = c := by
  unfold report
  rw [max_eq_left htokens, Int.sub_zero, Int.sub_zero, Function.update_eq_self,
    Function.update_eq_self]

theorem Ready.onPrefillChunkComplete (h : Ready c) {finished : Bool}
    (hdue : tokens ≤ c.prefillDue id)
    (hfin : finished = true ↔ c.sch.waitingRemaining id = some tokens) :
    Ready (c.report (c.sch.onPrefillChunkComplete id tokens finished) id tokens) := by
  by_cases htokens : tokens ≤ 0
  · have hsame : c.sch.onPrefillChunkComplete id tokens finished = c.sch := by
      unfold Scheduler.onPrefillChunkComplete
      rw [if_pos (Or.inr htokens)]
    rw [hsame, report_of_nonpos c id htokens]
    exact h
  obtain ⟨g, hg, rfl, hle⟩ := h.prefillDue id (by omega)
  rw [h.machine.waitingRemaining hg] at hfin
  have hwaiting : g.sequenceId ∈ c.sch.waitingQueue.map (·.sequenceId) := List.mem_map_of_mem hg
  by_cases hvalid : g.sequenceId < 0
  · have hsame : c.sch.onPrefillChunkComplete g.sequenceId tokens finished = c.sch := by
      unfold Scheduler.onPrefillChunkComplete
      rw [if_pos (Or.inl hvalid)]
    rw [hsame]
    refine h.reported (h.machine.still (Or.inl hwaiting)) (Or.inl hwaiting) (Or.inl hwaiting) ?_ ?_
    · intro _
      exact ⟨g, hg, rfl, by omega⟩
    intro hmore
    exact h.decodeDue _ (by omega)
  obtain ⟨hmoved, hplay, hleft⟩ := h.machine.prefillReport hg (not_lt.mp hvalid)
    (not_le.mp htokens) (hdue.trans hle)
    (hfin.trans (by rw [Option.some.injEq, eq_comm]))
  refine h.reported hmoved (Or.inl hwaiting) hplay ?_ ?_
  · intro hmore
    obtain ⟨b, hb, heq, hnum⟩ := hleft (by omega)
    exact ⟨b, hb, heq, by omega⟩
  intro hmore
  exact absurd (h.decodeDue _ (by omega)) (h.machine.waitingNotRunning _ hwaiting)

theorem Ready.onDecodeStepComplete (h : Ready c) (hdue : tokens ≤ c.decodeDue id) :
    Ready (c.report (c.sch.onDecodeStepComplete id tokens) id tokens) := by
  by_cases htokens : tokens ≤ 0
  · have hsame : c.sch.onDecodeStepComplete id tokens = c.sch := by
      unfold Scheduler.onDecodeStepComplete
      rw [if_pos (Or.inr htokens)]
    rw [hsame, report_of_nonpos c id htokens]
    exact h
  have hrunning := h.decodeDue id (by omega)
  obtain ⟨hmoved, hstays, -⟩ := h.machine.decodeReport hrunning tokens
  refine h.reported hmoved (Or.inr (Or.inl hrunning)) (Or.inr (Or.inl hstays)) ?_ (fun _ => hstays)
  intro hmore
  obtain ⟨g, hg, rfl, -⟩ := h.prefillDue id (by omega)
  exact absurd hrunning (h.machine.waitingNotRunning _ (List.mem_map_of_mem hg))

theorem Ready.updateProgress (h : Ready c) (hdue : c.Due id tokens) :
    Ready (c.report (c.sch.updateProgress id tokens) id tokens) := by
  unfold Scheduler.updateProgress
  split
  · rename_i htokens
    rw [report_of_nonpos c id htokens]
    exact h
  rename_i htokens
  rcases hdue with hprefill | hdecode
  · obtain ⟨g, hg, rfl, hle⟩ := h.prefillDue id (by omega)
    rw [h.machine.waitingRemaining hg]
    refine h.onPrefillChunkComplete hprefill ?_
    rw [h.machine.waitingRemaining hg, decide_eq_true_eq, Option.some.injEq]
    exact ⟨fun hge => by omega, fun heq => by omega⟩
  have hrunning := h.decodeDue id (by omega)
  have hnot : id ∉ c.sch.waitingQueue.map (·.sequenceId) :=
    fun hw => h.machine.waitingNotRunning id hw hrunning
  rw [Scheduler.waitingRemaining_none hnot rfl]
  exact h.onDecodeStepComplete hdecode

variable (salt : UInt64) (updates : List (Int × Int))

theorem dueAll_congr : ∀ c c' : Client σ,
    c'.prefillDue = c.prefillDue → c'.decodeDue = c.decodeDue → c.DueAll updates →
      c'.DueAll updates := by
  induction updates with
  | nil => intro c c' _ _ _; trivial
  | cons u rest ih =>
    intro c c' hp hd hdue
    refine ⟨?_, ih _ _ ?_ ?_ hdue.2⟩
    · unfold Due
      rw [hp, hd]
      exact hdue.1
    · show Function.update c'.prefillDue u.1 _ = Function.update c.prefillDue u.1 _
      rw [hp]
    show Function.update c'.decodeDue u.1 _ = Function.update c.decodeDue u.1 _
    rw [hd]

theorem step_updateProgressBatch : ∀ c : Client σ, c.step salt (.updateProgressBatch updates) =
      updates.foldl (fun c u => c.report (c.sch.updateProgress u.1 u.2) u.1 u.2) c := by
  suffices h : ∀ (us : List (Int × Int)) (c : Client σ) (sch : Scheduler σ),
      { us.foldl (fun c u => c.report c.sch u.1 u.2) c with
        sch := us.foldl (fun s u => s.updateProgress u.1 u.2) sch } =
      us.foldl (fun c u => c.report (c.sch.updateProgress u.1 u.2) u.1 u.2) { c with sch := sch } by
    intro c
    show
    { updates.foldl (fun c u => c.report c.sch u.1 u.2) c with
      sch := c.sch.updateProgressBatch updates } = _
    rw [updateProgressBatch_eq, h]
  intro us
  induction us with
  | nil => intro c sch; rfl
  | cons u rest ih =>
    intro c sch
    rw [List.foldl_cons, List.foldl_cons, List.foldl_cons, ih]
    rfl

theorem Ready.updateProgressBatch : ∀ c : Client σ, Ready c → c.DueAll updates →
      Ready (updates.foldl (fun c u => c.report (c.sch.updateProgress u.1 u.2) u.1 u.2) c) := by
  induction updates with
  | nil => intro c h _; exact h
  | cons u rest ih =>
    intro c h hdue
    rw [List.foldl_cons]
    exact ih _ (h.updateProgress hdue.1) (dueAll_congr rest (c.report c.sch u.1 u.2) _ rfl rfl hdue.2)

theorem Ready.setPredictedExperts (h : Ready c) (id : Int) (experts : List Int) :
    Ready { c with sch := c.sch.setPredictedExperts id experts } := by
  have hkeys := setPredictedExperts_keys c.sch id experts
  have hids := map_sequenceId_of_groupKey hkeys
  have hrecords : ∀ x, SameRecords c.sch (c.sch.setPredictedExperts id experts) x := by
    intro x
    unfold Scheduler.setPredictedExperts
    split <;> exact ⟨rfl, rfl, rfl, rfl⟩
  have hsets : (c.sch.setPredictedExperts id experts).runningSeqs = c.sch.runningSeqs ∧
      (c.sch.setPredictedExperts id experts).swappedSeqs = c.sch.swappedSeqs ∧
      (c.sch.setPredictedExperts id experts).nextSeqId = c.sch.nextSeqId := by
    unfold Scheduler.setPredictedExperts
    split <;> exact ⟨rfl, rfl, rfl⟩
  obtain ⟨hrunning, hswapped, hnext⟩ := hsets
  refine ⟨(h.machine.regroup hkeys).of_same hrecords hrunning hswapped hnext, ?_, ?_, ?_⟩
  · intro x
    unfold InPlay
    dsimp only
    rw [hids, hrunning, hswapped]
    exact h.inPlay x
  · intro x hdue
    obtain ⟨g, hg, heq, hle⟩ := h.prefillDue x hdue
    obtain ⟨b, hb, hid, htok⟩ := exists_of_groupKey hkeys.symm hg
    exact ⟨b, hb, hid.trans heq, hle.trans htok.ge⟩
  intro x hdue
  show x ∈ (c.sch.setPredictedExperts id experts).runningSeqs
  rw [hrunning]
  exact h.decodeDue x hdue

/-! ### Runs -/

theorem Ready.step (h : Ready c) (salt : UInt64) {call : Call σ} (hlegal : call.Legal c) :
    Ready (c.step salt call) := by
  cases call with
  | addRequest r => exact h.addRequest salt r hlegal
  | removeRequest id finished => exact h.removeRequest id finished
  | schedule choice => exact h.schedule choice
  | setPredictedExperts id experts => exact h.setPredictedExperts id experts
  | onPrefillChunkComplete id tokens finished =>
    exact h.onPrefillChunkComplete hlegal.1 hlegal.2
  | onDecodeStepComplete id tokens => exact h.onDecodeStepComplete hlegal
  | updateProgress id tokens => exact h.updateProgress hlegal
  | updateProgressBatch updates =>
    rw [step_updateProgressBatch]
    exact Ready.updateProgressBatch updates c h hlegal
  | useManager op =>
    refine ⟨h.machine.of_same ?_ rfl rfl rfl, h.inPlay, h.prefillDue, h.decodeDue⟩
    exact fun _ => ⟨rfl, rfl, rfl, rfl⟩

theorem Ready.run (salt : UInt64) (calls : List (Call σ)) : ∀ c : Client σ, Ready c →
    LegalRun salt c calls → Ready (c.run salt calls) := by
  induction calls with
  | nil => intro c h _; exact h
  | cons call rest ih =>
    intro c h hlegal
    exact ih _ (h.step salt hlegal.1) hlegal.2

theorem run_append (before after : List (Call σ)) (c : Client σ) :
    c.run salt (before ++ after) = (c.run salt before).run salt after := List.foldl_append

/-- What every call keeps: the configuration, and who was there before. -/
theorem step_frame (c : Client σ) (call : Call σ) : (c.step salt call).sch.config = c.sch.config ∧
      c.sch.nextSeqId ≤ (c.step salt call).sch.nextSeqId ∧
      ∀ x ∈ (c.step salt call).live, x ∈ c.live ∨ x = c.sch.nextSeqId := by
  have hold : ∀ x ∈ c.live, x ∈ c.live ∨ x = c.sch.nextSeqId := fun x hx => Or.inl hx
  cases call with
  | addRequest r =>
    show (c.addRequest salt r).sch.config = _ ∧ _ ≤ (c.addRequest salt r).sch.nextSeqId ∧
      ∀ x ∈ (c.addRequest salt r).live, _
    unfold Client.addRequest
    dsimp only
    rcases addRequest_arrives c.sch salt r.now r.requestId r.promptLen r.priority r.prefixTokens
      r.allowChunkedPrefill r.requireSnapshot r.maxPrefillChunkTokens r.validator with
      hnone | ⟨hid, g, hnew⟩
    · rw [hnone]
      exact ⟨rfl, le_rfl, by simpa using hold⟩
    rw [hid]
    refine ⟨hnew.config, by rw [hnew.nextSeqId]; omega, ?_⟩
    intro x hx
    simpa using hx
  | removeRequest id finished =>
    refine ⟨(removeRequest_off c.sch id finished).config,
      (removeRequest_nextSeqId c.sch id finished).ge, ?_⟩
    intro x hx
    exact Or.inl (List.mem_filter.mp hx).1
  | schedule choice =>
    obtain ⟨hnext, hconfig⟩ := schedule_frame c.sch choice
    exact ⟨hconfig, hnext.ge, fun x hx => Or.inl (List.mem_filter.mp hx).1⟩
  | setPredictedExperts id experts =>
    show (c.sch.setPredictedExperts id experts).config = _ ∧
      _ ≤ (c.sch.setPredictedExperts id experts).nextSeqId ∧ _
    unfold Scheduler.setPredictedExperts
    split <;> exact ⟨rfl, le_rfl, hold⟩
  | onPrefillChunkComplete id tokens finished =>
    have hframe := onPrefillChunkComplete_frame c.sch id tokens finished
    exact ⟨hframe.config, hframe.nextSeqId.ge, hold⟩
  | onDecodeStepComplete id tokens =>
    have hframe := onDecodeStepComplete_frame c.sch id tokens
    exact ⟨hframe.config, hframe.nextSeqId.ge, hold⟩
  | updateProgress id tokens =>
    have hframe := updateProgress_frame c.sch id tokens
    exact ⟨hframe.config, hframe.nextSeqId.ge, hold⟩
  | updateProgressBatch updates =>
    have hframe := updateProgressBatch_frame c.sch updates
    have hlive : (updates.foldl (fun c u => c.report c.sch u.1 u.2) c).live = c.live := by
      clear hframe hold
      induction updates generalizing c with
      | nil => rfl
      | cons u rest ih => exact ih (c.report c.sch u.1 u.2)
    refine ⟨hframe.config, hframe.nextSeqId.ge, ?_⟩
    intro x hx
    exact Or.inl (hlive ▸ hx)
  | useManager op => exact ⟨rfl, le_rfl, hold⟩

theorem run_config (calls : List (Call σ)) : ∀ c : Client σ,
    (c.run salt calls).sch.config = c.sch.config := by
  induction calls with
  | nil => intro c; rfl
  | cons call rest ih => intro c; exact (ih _).trans (step_frame salt c call).1

/-- Ids are given out once, so what has left does not come back. -/
theorem run_notMem_live (calls : List (Call σ)) {id : Int} : ∀ c : Client σ,
    id < c.sch.nextSeqId → id ∉ c.live → id ∉ (c.run salt calls).live := by
  induction calls with
  | nil => intro c _ hnot; exact hnot
  | cons call rest ih =>
    intro c hlt hnot
    obtain ⟨-, hnext, hlive⟩ := step_frame salt c call
    refine ih _ (by omega) ?_
    intro hmem
    rcases hlive id hmem with hold | hnew
    · exact hnot hold
    · omega

/-! ### The state machine -/

/-- The sequence is in exactly one place, with the status and the counters that
belong there. -/
inductive Standing (s : Scheduler σ) (id : Int) : Prop where
  | waiting (g : SequenceGroup)
      (hgroup : s.waitingQueue.filter (fun b => b.sequenceId = id) = [g])
      (hr : id ∉ s.runningSeqs) (hsw : id ∉ s.swappedSeqs) (hstatus : s.seqStatus id = some .waiting)
      (hcount : ∃ context prompt, s.seqContextLen id = some context ∧
        s.seqPromptLen id = some prompt ∧ context + g.numTokensToProcess = prompt)
  | running (hw : ∀ g ∈ s.waitingQueue, g.sequenceId ≠ id) (hr : id ∈ s.runningSeqs)
      (hsw : id ∉ s.swappedSeqs) (hstatus : s.seqStatus id = some .running)
      (hcount : ∃ prompt generated, s.seqPromptLen id = some prompt ∧
        s.seqGeneratedTokens id = some generated ∧ s.seqContextLen id = some (prompt + generated))
  | swapped (hw : ∀ g ∈ s.waitingQueue, g.sequenceId ≠ id) (hr : id ∉ s.runningSeqs)
      (hsw : id ∈ s.swappedSeqs) (hstatus : s.seqStatus id = some .swapped)
      (hcount : ∃ prompt generated, s.seqPromptLen id = some prompt ∧
        s.seqGeneratedTokens id = some generated ∧ s.seqContextLen id = some (prompt + generated))

/-- The sequence is in none of the three places. -/
def Absent (s : Scheduler σ) (id : Int) : Prop :=
  (∀ g ∈ s.waitingQueue, g.sequenceId ≠ id) ∧ id ∉ s.runningSeqs ∧ id ∉ s.swappedSeqs

theorem Ready.standing (h : Ready c) (hid : id ∈ c.live) : Standing c.sch id := by
  rcases (h.inPlay id).mp hid with hw | hr | hsw
  · obtain ⟨g, hg, rfl⟩ := List.mem_map.mp hw
    obtain ⟨context, hctx, hprompt⟩ := (h.machine.waits g hg).prompt
    refine .waiting g ?_ (h.machine.waitingNotRunning _ hw) (h.machine.waitingNotSwapped _ hw)
      (h.machine.waits g hg).status ⟨context, _, hctx, hprompt, rfl⟩
    exact filter_eq_singleton h.machine.waitingNodup hg
  · refine .running ?_ hr (h.machine.runningNotSwapped id hr) (h.machine.runs id hr).status
      (h.machine.runs id hr).context
    rintro g hg rfl
    exact h.machine.waitingNotRunning _ (List.mem_map_of_mem hg) hr
  refine .swapped ?_ ?_ hsw (h.machine.swappedOut id hsw).status
    (h.machine.swappedOut id hsw).context
  · rintro g hg rfl
    exact h.machine.waitingNotSwapped _ (List.mem_map_of_mem hg) hsw
  intro hr
  exact h.machine.runningNotSwapped id hr hsw

theorem Ready.absent (h : Ready c) (hid : id ∉ c.live) : Absent c.sch id := by
  rw [h.inPlay] at hid
  refine ⟨?_, fun hr => hid (Or.inr (Or.inl hr)), fun hsw => hid (Or.inr (Or.inr hsw))⟩
  rintro g hg rfl
  exact hid (Or.inl (List.mem_map_of_mem hg))

/-- **The scheduler's state machine.**  In every state a legal run reaches, a live
sequence waits, runs or is swapped out, in one place only and with the status and
the counters of that place; any other id is in none of the places and no batch of
that state names it.  A sequence that was removed is never live again. -/
theorem scheduler_state_machine (salt : UInt64) (bm : BlockManager σ) (config : SchedulerConfig)
    (calls : List (Call σ)) (hlegal : LegalRun salt (init bm config) calls) :
    let c := (init bm config).run salt calls
    (∀ id ∈ c.live, Standing c.sch id) ∧ (∀ id, id ∉ c.live →
        Absent c.sch id ∧ ∀ choice, ¬ (c.sch.schedule choice).2.Names id) ∧
      (∀ before id finished after, calls = before ++ .removeRequest id finished :: after →
        id < ((init bm config).run salt before).sch.nextSeqId → id ∉ c.live) := by
  intro c
  have h : Ready c := Ready.run salt calls _ (init_ready bm config) hlegal
  refine ⟨fun id hid => h.standing hid, ?_, ?_⟩
  · intro id hid
    refine ⟨h.absent hid, ?_⟩
    intro choice hnames
    exact hid (schedule_names h.within choice hnames)
  rintro before id finished after rfl hlt
  show id ∉ ((init bm config).run salt (before ++ .removeRequest id finished :: after)).live
  rw [run_append]
  refine run_notMem_live salt after _ ?_ ?_
  · show id < (((init bm config).run salt before).sch.removeRequest id finished).nextSeqId
    rw [removeRequest_nextSeqId]
    exact hlt
  show id ∉ ((init bm config).run salt before).live.filter fun x => x ≠ id
  simp

/-- Two prompts, of which one is served and removed and the other half prefilled. -/
def twoPrompts : List (Call Unit) :=
  [.addRequest { promptLen := 3 }, .addRequest { promptLen := 40 }, .schedule {},
    .updateProgress 1 3, .onPrefillChunkComplete 2 20 false, .schedule {},
    .onDecodeStepComplete 1 1, .removeRequest 1 true]

theorem twoPrompts_standing : LegalRun 0 (init (BlockManager.init 8 16) {}) twoPrompts ∧
      Standing ((init (BlockManager.init 8 16) {}).run 0 twoPrompts).sch 2 ∧
      Absent ((init (BlockManager.init 8 16) {}).run 0 twoPrompts).sch 1 := by
  have hlegal : LegalRun 0 (init (BlockManager.init 8 16) {}) twoPrompts := by decide +kernel
  obtain ⟨hlive, hgone, -⟩ := scheduler_state_machine 0 _ _ _ hlegal
  exact ⟨hlegal, hlive 2 (by decide +kernel), (hgone 1 (by decide +kernel)).1⟩

/-! ### The shape of a batch -/

/-- What an output may list, `s` and `s'` being the scheduler before and after the
call: sums, limits, distinct ids, and for each chunk the group of the queue it is
taken from. -/
structure BatchShape (config : SchedulerConfig) (s s' : Scheduler σ) (o : SchedulerOutput) :
    Prop where
  total : o.totalTokens = o.numPrefillTokens + o.numDecodeTokens
  budget : o.totalTokens ≤ config.maxNumBatchedTokens
  decodeTokens : o.numDecodeTokens = o.decodeSeqIds.length
  prefillTokens : o.numPrefillTokens = (o.prefillChunkInfo.map (·.chunkTokens)).sum
  chunkIds : o.prefillChunkInfo.map (·.seqId) = o.prefillSeqIds
  distinct : (o.prefillSeqIds ++ o.decodeSeqIds).Nodup
  slots : (o.prefillSeqIds.length + o.decodeSeqIds.length : Int) ≤ config.maxNumSeqs
  prefillSlots : (o.prefillSeqIds.length : Int) ≤ config.maxPrefillSeqs
  chunks : ∀ entry ∈ o.prefillChunkInfo, ∃ g ∈ s.waitingQueue, g.sequenceId = entry.seqId ∧
    ChunkFits s s' g entry

theorem listing_fromQueue {s s' : Scheduler σ} (h : Listing s s' s'.waitingQueue o)
    (hentry : entry ∈ o.prefillChunkInfo) :
    ∃ g ∈ s.waitingQueue, g.sequenceId = entry.seqId ∧ ChunkFits s s' g entry := by
  obtain ⟨g, hg, hid, hfits⟩ := h.chunks entry hentry
  obtain ⟨q, hq, hqid, hqtok⟩ := h.origin g hg
  refine ⟨q, hq, hqid.trans hid, ?_⟩
  refine ⟨hfits.pos, ?_, ?_, ?_⟩
  · rw [hqtok]; exact hfits.le_remaining
  · rw [hqid, hqtok]; exact hfits.whole
  · rw [hqid]; exact hfits.covered

theorem listed_distinct {s s' : Scheduler σ} (h : Listed s s' o) :
    (o.prefillSeqIds ++ o.decodeSeqIds).Nodup := by
  rw [List.nodup_append]
  refine ⟨h.listing.prefillNodup, h.listing.decodeNodup, ?_⟩
  intro x hx y hy heq
  rw [← h.tally.chunkIds] at hx
  obtain ⟨entry, hentry, rfl⟩ := List.mem_map.mp hx
  obtain ⟨g, hg, hid, -⟩ := h.listing.chunks entry hentry
  refine h.machine.waitingNotRunning entry.seqId ?_ (heq ▸ h.listing.decodes y hy)
  exact hid ▸ List.mem_map_of_mem hg

end Client

end DenseCore
