/-
Whether an acknowledged cancellation takes effect.

`CancelRequest` first looks at the active list, then among the pending ids, and then
leaves its note.  The worker takes the request out of the queue, takes its id out of
the pending ids and looks for a note, once.  A note that comes after that is found by
nobody: the call has returned 0, the request runs on, and the note stays.

That is the only way.  In a run in which every note is left while the request still
waits for the worker's look, or after it was cancelled or finalised during a shutdown,
each acknowledged cancellation is seen and each note is taken out.
-/
import DenseCore.Lib.Parts
import DenseCore.Proofs.Runtime.Handover

namespace DenseCore.Handover

open Lib List Option

/-! ### The property -/

/-- `Shutdown` has begun and will still clear the notes. -/
def ShutdownCall.UnderWay : ShutdownCall → Prop
  | .notCalled => False
  | .returned => False
  | _ => True

theorem ShutdownCall.underWay_of_dropping {c : ShutdownCall} {id : Nat} (h : c = .dropping id) :
    c.UnderWay := by
  rw [h]
  trivial

namespace EngineState

variable (s : EngineState)

/-- Whether a request has been put into the pending queue. -/
def Queued (id : Nat) : Prop :=
  ∃ r, s.requests[id]? = some r ∧ r.queued = true

/-- The request is in the queue, or the worker has taken it and not looked for a note
yet. -/
def Waits (id : Nat) : Prop :=
  id ∈ s.pendingRequests.items ∨ s.worker.deciding = some id

/-- **An acknowledged cancellation takes effect**: once the worker has taken the request
and looked, or `Shutdown` has dealt with it, it is cancelled. -/
def CancelsTakeEffect : Prop :=
  ∀ (id : Nat) r, s.requests[id]? = some r → r.queued = true → r.acknowledged = true →
    s.Waits id ∨ s.shutdown = .dropping id ∨ r.cancelled = true

/-- **No note stays** about a request that has left the queue: the worker is about to
look for it, or `Shutdown` is about to clear it. -/
def NoNoteStays : Prop :=
  ∀ id ∈ s.pendingCancellations, s.Queued id → s.Waits id ∨ s.shutdown.UnderWay

/-- A note is left while the request waits, or when the request is cancelled or
finalised and `Shutdown` will clear the note. -/
def NotesInTime : Event → Prop
  | .record _ id => s.Queued id → s.Waits id ∨ s.shutdown = .dropping id ∨ s.shutdown.UnderWay ∧
        ∃ r, s.requests[id]? = some r ∧ (r.cancelled = true ∨ r.terminals ≠ [])
  | _ => True

end EngineState

/-! ### The invariant -/

/-- What is known of a request whose cancellation was acknowledged. -/
def Heeded (s : EngineState) (id : Nat) (r : Request) : Prop :=
  r.cancelled = true ∨ s.shutdown = .dropping id ∨
    id ∈ s.pendingCancellations ∧ (s.Waits id ∨ s.submitting = some id) ∨
    r.queued = false ∧ s.submitting ≠ some id

/-- No note stays behind, and every acknowledged cancellation is on its way. -/
structure CancelInv (s : EngineState) : Prop extends Phases s where
  notes : s.NoNoteStays
  acknowledged : ∀ (id : Nat) r, s.requests[id]? = some r → r.acknowledged = true → Heeded s id r

theorem CancelInv.takeEffect {s : EngineState} (h : CancelInv s) : s.CancelsTakeEffect := by
  intro id r hr hqueued hack
  rcases h.acknowledged id r hr hack with hc | hd | ⟨-, hw | hsub⟩ | ⟨hnot, -⟩
  · exact Or.inr (Or.inr hc)
  · exact Or.inr (Or.inl hd)
  · exact Or.inl hw
  · obtain ⟨-, r', hr', hnot⟩ := h.submitting id hsub
    rw [hr] at hr'
    rw [← some.inj hr', hqueued] at hnot
    cases hnot
  rw [hqueued] at hnot
  cases hnot

theorem cancelInv_init (exclusive : Bool) : CancelInv (.init exclusive) where
  toPhases := phases_init exclusive
  notes := fun _ h => nomatch h
  acknowledged := fun _ _ h => nomatch h

section Steps

variable {s t : EngineState}

variable {id i : Nat}

theorem Waits.frame (hf : Frame s t) (h : s.Waits id) : t.Waits id := by
  rcases h with hitem | hdeciding
  · exact Or.inl (hf.items ▸ hitem)
  · exact Or.inr (hf.deciding id hdeciding)

theorem Heeded.mono {r r' : Request} (h : Heeded s i r)
    (hcancelled : r.cancelled = true → r'.cancelled = true) (hqueued : r'.queued = r.queued)
    (hshutdown : s.shutdown = .dropping i → t.shutdown = .dropping i)
    (hnotes : i ∈ s.pendingCancellations → i ∈ t.pendingCancellations)
    (hwaits : s.Waits i → t.Waits i) (hsubmitting : t.submitting = s.submitting) :
    Heeded t i r' := by
  unfold Heeded
  rw [hsubmitting]
  rcases h with hc | hd | ⟨hnote, hw⟩ | ⟨hnot, hsub⟩
  · exact Or.inl (hcancelled hc)
  · exact Or.inr (Or.inl (hshutdown hd))
  · exact Or.inr (Or.inr (Or.inl ⟨hnotes hnote, hw.imp_left hwaits⟩))
  · exact Or.inr (Or.inr (Or.inr ⟨hqueued.trans hnot, hsub⟩))

/-- **A step that only moves a request on keeps the invariant.** -/
theorem CancelInv.frame (h : CancelInv s) (hf : Frame s t) : CancelInv t where
  toPhases := h.toPhases.frame hf
  notes := by
    rintro id hid ⟨r', hr', hqueued⟩
    obtain ⟨r, hr, hcalm⟩ := hf.requests.before hr'
    rw [hf.notes] at hid
    rw [hf.shutdown]
    exact (h.notes id hid ⟨r, hr, hcalm.queued.symm.trans hqueued⟩).imp_left (Waits.frame hf)
  acknowledged := by
    intro id r' hr' hack
    obtain ⟨r, hr, hcalm⟩ := hf.requests.before hr'
    exact (h.acknowledged id r hr (hcalm.acknowledged.symm.trans hack)).mono hcalm.cancelled
      hcalm.queued (fun hd => hf.shutdown.trans hd) (fun hnote => hf.notes ▸ hnote)
      (Waits.frame hf) hf.submitting

theorem Heeded.consumed {r r' : Request} (hc : Consumed s t id)
    (hcalm : r.Calm r') (hr' : t.requests[i]? = some r') (h : Heeded s i r)
    (hwaits : i ≠ id → s.Waits i → t.Waits i) : Heeded t i r' := by
  unfold Heeded
  rw [hc.shutdown, hc.submitting]
  rcases h with hcancelled | hd | ⟨hnote, hw⟩ | ⟨hnot, hsub⟩
  · exact Or.inl (hcalm.cancelled hcancelled)
  · exact Or.inr (Or.inl hd)
  · by_cases hi : i = id
    · subst hi
      exact Or.inl (hc.cancelled hnote r' hr')
    · exact Or.inr (Or.inr (Or.inl ⟨hc.keep i hnote hi, hw.imp_left (hwaits hi)⟩))
  · exact Or.inr (Or.inr (Or.inr ⟨hcalm.queued.trans hnot, hsub⟩))

/-! ### The steps

A note is added by `CancelRequest` and taken out by the worker's look or by `Shutdown`.
Between the two the request waits in the queue or is on its way to it.
-/

theorem CancelInv.submit (h : CancelInv s) {kind : Kind} {tier : Tier} {hasTokens : Bool}
    (hs : s.step (.submit kind tier hasTokens) = some t) : CancelInv t := by
  have hphases := h.toPhases.step hs
  obtain ⟨⟨-, hnone⟩, rfl⟩ := when_eq_some hs
  refine ⟨hphases, ?_, ?_⟩
  · rintro id hid ⟨r, hr, hqueued⟩
    rcases getElem?_concat_cases hr with hold | ⟨-, rfl⟩
    · exact h.notes id hid ⟨r, hold, hqueued⟩
    · cases hqueued
  intro id r hr hack
  rcases getElem?_concat_cases hr with hold | ⟨-, rfl⟩
  · have hne : some s.requests.length ≠ some id := by
      intro heq
      have hlt := (List.getElem?_eq_some_iff.mp hold).1
      have hlength := some.inj heq
      omega
    rcases h.acknowledged id r hold hack with hc | hd | ⟨hnote, hw | hsub⟩ | ⟨hnot, -⟩
    · exact Or.inl hc
    · exact Or.inr (Or.inl hd)
    · exact Or.inr (Or.inr (Or.inl ⟨hnote, Or.inl hw⟩))
    · rw [hnone] at hsub
      cases hsub
    · exact Or.inr (Or.inr (Or.inr ⟨hnot, hne⟩))
  · cases hack

theorem CancelInv.push (h : CancelInv s) (hs : s.step (.push id) = some t) : CancelInv t := by
  have hphases := h.toPhases.step hs
  simp only [EngineState.step] at hs
  split at hs
  · cases hs
  rename_i r hr
  obtain ⟨hsub, rfl⟩ := when_eq_some hs
  have hitems := PendingQueue.items_push_perm s.pendingRequests id r.tier
  have hwaits : ∀ i, s.Waits i →
      i ∈ (s.pendingRequests.push id r.tier).items ∨ s.worker.deciding = some i :=
    fun i hi => hi.imp_left fun hmem => hitems.mem_iff.mpr (mem_cons_of_mem _ hmem)
  refine ⟨hphases, ?_, ?_⟩
  · rintro i hi ⟨r', hr', hqueued⟩
    by_cases hid : i = id
    · subst hid
      exact Or.inl (Or.inl (hitems.mem_iff.mpr mem_cons_self))
    obtain ⟨r₀, hr₀, rfl⟩ := modifyRequest_cases hr'
    rw [if_neg hid] at hqueued
    exact (h.notes i hi ⟨r₀, hr₀, hqueued⟩).imp_left (hwaits i)
  intro i r' hr' hack
  obtain ⟨r₀, hr₀, rfl⟩ := modifyRequest_cases hr'
  by_cases hid : i = id
  · subst hid
    rw [if_pos rfl] at hack ⊢
    rcases h.acknowledged i r₀ hr₀ hack with hc | hd | ⟨hnote, -⟩ | ⟨-, hne⟩
    · exact Or.inl hc
    · exact Or.inr (Or.inl hd)
    · exact Or.inr (Or.inr (Or.inl ⟨hnote, Or.inl (Or.inl (hitems.mem_iff.mpr mem_cons_self))⟩))
    · exact absurd hsub hne
  rw [if_neg hid] at hack ⊢
  rcases h.acknowledged i r₀ hr₀ hack with hc | hd | ⟨hnote, hw | hsub'⟩ | ⟨hnot, -⟩
  · exact Or.inl hc
  · exact Or.inr (Or.inl hd)
  · exact Or.inr (Or.inr (Or.inl ⟨hnote, Or.inl (hwaits i hw)⟩))
  · exact absurd (some.inj (hsub'.symm.trans hsub)) hid
  · exact Or.inr (Or.inr (Or.inr ⟨hnot, by simp⟩))

theorem CancelInv.pushFails (h : CancelInv s) (hs : s.step (.pushFails id) = some t) :
    CancelInv t := by
  have hphases := h.toPhases.step hs
  obtain ⟨hsub, rfl⟩ := when_eq_some hs
  refine ⟨hphases, h.notes, ?_⟩
  intro i r hr hack
  rcases h.acknowledged i r hr hack with hc | hd | ⟨hnote, hw | hsub'⟩ | ⟨hnot, -⟩
  · exact Or.inl hc
  · exact Or.inr (Or.inl hd)
  · exact Or.inr (Or.inr (Or.inl ⟨hnote, Or.inl hw⟩))
  · obtain ⟨-, r', hr', hnot⟩ := h.submitting i hsub'
    rw [some.inj (hr'.symm.trans hr)] at hnot
    exact Or.inr (Or.inr (Or.inr ⟨hnot, nofun⟩))
  · exact Or.inr (Or.inr (Or.inr ⟨hnot, nofun⟩))

theorem CancelInv.cancel (h : CancelInv s) (id : Nat) : CancelInv (s.cancelActive id) := by
  have hphases := h.toPhases.step (e := .cancel id) rfl
  by_cases hactive : id ∈ s.activeRequests
  · have ht : s.cancelActive id =
      { s.modifyRequest id fun r => r.cancel.acknowledge with
        cancels := s.cancels ++ [.returned 0] } := if_pos hactive
    rw [ht] at hphases ⊢
    refine ⟨hphases, ?_, ?_⟩
    · rintro i hi ⟨r', hr', hqueued⟩
      obtain ⟨r, hr, rfl⟩ := modifyRequest_cases hr'
      refine h.notes i hi ⟨r, hr, ?_⟩
      split at hqueued <;> exact hqueued
    intro i r' hr' hack
    obtain ⟨r, hr, rfl⟩ := modifyRequest_cases hr'
    by_cases hid : i = id
    · rw [if_pos hid]
      exact Or.inl rfl
    rw [if_neg hid] at hack ⊢
    exact h.acknowledged i r hr hack
  · exact h.frame (frame_of_step (e := .cancel id) hactive rfl)

/-- **A note in time keeps the invariant.** -/
theorem CancelInv.record (h : CancelInv s) {c : Nat} (hok : s.NotesInTime (.record c id))
    (hs : s.step (.record c id) = some t) : CancelInv t := by
  have hphases := h.toPhases.step hs
  obtain ⟨-, rfl⟩ := when_eq_some hs
  have hqueued : ∀ {i : Nat} {r' : Request},
      (s.modifyRequest id Request.acknowledge).requests[i]? = some r' →
      ∃ r, s.requests[i]? = some r ∧ r'.queued = r.queued ∧ r'.cancelled = r.cancelled := by
    intro i r' hr'
    obtain ⟨r, hr, rfl⟩ := modifyRequest_cases hr'
    refine ⟨r, hr, ?_⟩
    split <;> exact ⟨rfl, rfl⟩
  refine ⟨hphases, ?_, ?_⟩
  · rintro i hi ⟨r', hr', hq⟩
    obtain ⟨r, hr, hsame, -⟩ := hqueued hr'
    have hin : s.Queued i := ⟨r, hr, hsame.symm.trans hq⟩
    rcases mem_cons.mp hi with rfl | hold
    · rcases hok hin with hw | hd | ⟨hunder, -⟩
      · exact Or.inl hw
      · exact Or.inr (ShutdownCall.underWay_of_dropping hd)
      · exact Or.inr hunder
    · exact h.notes i hold hin
  intro i r' hr' hack
  obtain ⟨r, hr, rfl⟩ := modifyRequest_cases hr'
  by_cases hid : i = id
  · subst hid
    rw [if_pos rfl] at hack ⊢
    by_cases hin : s.Queued i
    · rcases hok hin with hw | hd | ⟨-, r₀, hr₀, hlate⟩
      · exact Or.inr (Or.inr (Or.inl ⟨mem_cons_self, Or.inl hw⟩))
      · exact Or.inr (Or.inl hd)
      rw [some.inj (hr₀.symm.trans hr)] at hlate
      rcases hlate with hc | hterminal
      · exact Or.inl hc
      -- it was acknowledged before
      have hold : r.acknowledged = true := by
        have hor : (r.acknowledged || r.terminals.isEmpty) = true := hack
        rw [isEmpty_eq_false_iff.mpr hterminal, Bool.or_false] at hor
        exact hor
      exact (h.acknowledged i r hr hold).mono (fun hc => hc) rfl (fun hd => hd)
        (mem_cons_of_mem _) (fun hw => hw) rfl
    · have hnot : r.queued = false := by
        rw [← Bool.not_eq_true]
        exact fun hq => hin ⟨r, hr, hq⟩
      by_cases hsub : s.submitting = some i
      · exact Or.inr (Or.inr (Or.inl ⟨mem_cons_self, Or.inr hsub⟩))
      · exact Or.inr (Or.inr (Or.inr ⟨hnot, hsub⟩))
  · rw [if_neg hid] at hack ⊢
    exact (h.acknowledged i r hr hack).mono (fun hc => hc) rfl (fun hd => hd)
      (mem_cons_of_mem _) (fun hw => hw) rfl

theorem Waits.taken {q : PendingQueue} (hitems : s.pendingRequests.items.Perm (id :: q.items))
    (hdeciding : s.worker.deciding = none) (h : s.Waits i) : i ∈ q.items ∨ i = id := by
  rcases h with hmem | hdec
  · rcases mem_cons.mp (hitems.mem_iff.mp hmem) with rfl | hrest
    · exact Or.inr rfl
    · exact Or.inl hrest
  rw [hdeciding] at hdec
  cases hdec

theorem CancelInv.pop (h : CancelInv s) (hs : s.step (.pop id) = some t) : CancelInv t := by
  have hphases := h.toPhases.step hs
  obtain ⟨⟨hw, -, hpop⟩, rfl⟩ := when_eq_some hs
  have hitems := PendingQueue.pop_some hpop
  have hdeciding : s.worker.deciding = none := by
    rw [hw]
    rfl
  have hwaits : ∀ i, s.Waits i → i ∈ s.pendingRequests.pop.2.items ∨ some id = some i := by
    intro i hi
    exact (Waits.taken (Perm.of_eq hitems) hdeciding hi).imp_right fun heq => by rw [heq]
  refine ⟨hphases, ?_, ?_⟩
  · rintro i hi hqueued
    exact (h.notes i hi hqueued).imp_left (hwaits i)
  intro i r hr hack
  exact (h.acknowledged i r hr hack).mono (fun hc => hc) rfl (fun hd => hd)
    (fun hnote => hnote) (hwaits i) rfl

theorem CancelInv.popMatching (h : CancelInv s)
    (hs : s.step (.popMatching id) = some t) : CancelInv t := by
  have hphases := h.toPhases.step hs
  obtain ⟨⟨hw, -, hpop⟩, rfl⟩ := when_eq_some hs
  have hitems := PendingQueue.popMatching_perm hpop
  have hdeciding : s.worker.deciding = none := by
    rw [hw]
    rfl
  have hlook := consumed_takeCancelled s id
  have hc : Consumed s { s.takeCancelled id with
      pendingRequests := (s.pendingRequests.popMatching s.canceling).2, worker := .taken id } id :=
    ⟨hlook.requests, hlook.sub, hlook.keep, hlook.cancelled, hlook.submitting, hlook.status,
      hlook.shutdown, hlook.active⟩
  have hwaits : ∀ i, s.Waits i →
      i ∈ (s.pendingRequests.popMatching s.canceling).2.items ∨ some id = some i := by
    intro i hi
    exact (Waits.taken hitems hdeciding hi).imp_right fun heq => by rw [heq]
  refine ⟨hphases, ?_, ?_⟩
  · rintro i hi ⟨r', hr', hqueued⟩
    obtain ⟨r, hr, hcalm⟩ := hc.requests.before hr'
    rw [hc.shutdown]
    exact (h.notes i (hc.sub i hi) ⟨r, hr, hcalm.queued.symm.trans hqueued⟩).imp_left (hwaits i)
  intro i r' hr' hack
  obtain ⟨r, hr, hcalm⟩ := hc.requests.before hr'
  exact (h.acknowledged i r hr (hcalm.acknowledged.symm.trans hack)).consumed hc hcalm hr'
    fun _ => hwaits i

/-- **The look for a note decides.** -/
theorem CancelInv.consume (h : CancelInv s) (hs : s.step (.consume id) = some t) : CancelInv t := by
  have hphases := h.toPhases.step hs
  obtain ⟨hw, rfl⟩ := when_eq_some hs
  have hlook := consumed s id
  have hc : Consumed s { s.consumePendingCancellation id with worker := .checked id } id :=
    ⟨hlook.requests, hlook.sub, hlook.keep, hlook.cancelled, hlook.submitting, hlook.status,
      hlook.shutdown, hlook.active⟩
  have hqueue : (s.consumePendingCancellation id).pendingRequests = s.pendingRequests := by
    unfold EngineState.consumePendingCancellation
    split <;> rfl
  have hwaits : ∀ i, i ≠ id → s.Waits i →
      ({ s.consumePendingCancellation id with worker := .checked id } : EngineState).Waits i := by
    intro i hne hi
    rcases hi with hmem | hdec
    · refine Or.inl ?_
      show i ∈ (s.consumePendingCancellation id).pendingRequests.items
      rwa [hqueue]
    rw [hw] at hdec
    exact absurd (some.inj hdec).symm hne
  refine ⟨hphases, ?_, ?_⟩
  · rintro i hi ⟨r', hr', hqueued⟩
    obtain ⟨r, hr, hcalm⟩ := hc.requests.before hr'
    have hne : i ≠ id := by
      rintro rfl
      exact not_mem_consumed s i hi
    rw [hc.shutdown]
    exact (h.notes i (hc.sub i hi) ⟨r, hr, hcalm.queued.symm.trans hqueued⟩).imp_left (hwaits i hne)
  intro i r' hr' hack
  obtain ⟨r, hr, hcalm⟩ := hc.requests.before hr'
  exact (h.acknowledged i r hr (hcalm.acknowledged.symm.trans hack)).consumed hc hcalm hr'
    (hwaits i)

theorem CancelInv.checkStatus (h : CancelInv s)
    (hs : s.step (.checkStatus id) = some t) : CancelInv t := by
  have hphases := h.toPhases.step hs
  obtain ⟨hw, rfl⟩ := when_eq_some hs
  have hnotJoined : ¬ s.shutdown.Joined := h.not_joined (by rw [hw]; nofun)
  by_cases hrunning : s.status = .running
  · rw [if_pos hrunning] at hphases ⊢
    have hwaits : ∀ i, s.Waits i → ({ s with worker := .consuming id } : EngineState).Waits i := by
      intro i hi
      refine hi.imp_right fun hdec => ?_
      rw [hw] at hdec
      exact hdec
    refine ⟨hphases, fun i hi hq => (h.notes i hi hq).imp_left (hwaits i), fun i r hr hack => ?_⟩
    exact (h.acknowledged i r hr hack).mono (fun hc => hc) rfl (fun hd => hd)
      (fun hnote => hnote) (hwaits i) rfl
  rw [if_neg hrunning] at hphases ⊢
  -- the note is not looked for, but the shutdown clears it
  have hunder : s.shutdown.UnderWay := by
    cases hcase : s.shutdown with
    | notCalled => exact absurd hcase (h.status_ne hrunning)
    | returned => exact absurd (by rw [hcase]; trivial) hnotJoined
    | _ => trivial
  refine ⟨hphases, fun _ _ _ => Or.inr hunder, fun i r' hr' hack => ?_⟩
  obtain ⟨r, hr, rfl⟩ := modifyRequest_cases hr'
  by_cases hid : i = id
  · rw [if_pos hid]
    exact Or.inl (Request.stopPending_cancelled r)
  rw [if_neg hid] at hack ⊢
  refine (h.acknowledged i r hr hack).mono (fun hc => hc) rfl (fun hd => hd)
    (fun hnote => hnote) (fun hi => ?_) rfl
  refine hi.imp_right fun hdec => ?_
  rw [hw] at hdec
  exact absurd (some.inj hdec).symm hid

/-! ### The steps of Shutdown -/

section

variable (h : CancelInv s)

include h

/-- A step of `Shutdown` that has no request in its hands. -/
theorem CancelInv.control (hphases : Phases t) (hcalm : Changes Request.Calm s t)
    (hnotes : t.pendingCancellations = s.pendingCancellations)
    (hwaits : ∀ i, s.Waits i → t.Waits i ∨ t.shutdown = .dropping i)
    (hdropping : ∀ i, s.shutdown ≠ .dropping i) (hunder : t.shutdown.UnderWay)
    (hsubmitting : t.submitting = s.submitting) : CancelInv t where
  toPhases := hphases
  notes := fun _ _ _ => Or.inr hunder
  acknowledged := by
    intro id r' hr' hack
    obtain ⟨r, hr, hsame⟩ := hcalm.before hr'
    unfold Heeded
    rw [hsubmitting, hnotes]
    rcases h.acknowledged id r hr (hsame.acknowledged.symm.trans hack) with hc | hd |
      ⟨hnote, hwait | hsub⟩ | ⟨hnot, hsub⟩
    · exact Or.inl (hsame.cancelled hc)
    · exact absurd hd (hdropping id)
    · rcases hwaits id hwait with hw | hd
      · exact Or.inr (Or.inr (Or.inl ⟨hnote, Or.inl hw⟩))
      · exact Or.inr (Or.inl hd)
    · exact Or.inr (Or.inr (Or.inl ⟨hnote, Or.inr hsub⟩))
    · exact Or.inr (Or.inr (Or.inr ⟨hsame.queued.trans hnot, hsub⟩))

theorem CancelInv.shutdown (hs : s.step .shutdown = some t) : CancelInv t := by
  have hphases := h.toPhases.step hs
  obtain ⟨⟨hcall, -⟩, rfl⟩ := when_eq_some hs
  exact h.control hphases (.same Request.Calm.refl rfl) rfl (fun _ hi => Or.inl hi)
    (by rw [hcall]; nofun) trivial rfl

theorem CancelInv.drained (hs : s.step .drained = some t) : CancelInv t := by
  have hphases := h.toPhases.step hs
  obtain ⟨⟨hd, -⟩, rfl⟩ := when_eq_some hs
  exact h.control hphases (.same Request.Calm.refl rfl) rfl (fun _ hi => Or.inl hi)
    (by rw [hd]; nofun) trivial rfl

theorem CancelInv.timeout (hs : s.step .timeout = some t) : CancelInv t := by
  have hphases := h.toPhases.step hs
  obtain ⟨hd, rfl⟩ := when_eq_some hs
  refine h.control hphases ⟨_, mapRequests_get s _, fun i r _ => ?_⟩ rfl (fun _ hi => Or.inl hi)
    (by rw [hd]; nofun) trivial rfl
  split
  · exact Request.cancel_calm r
  · exact Request.Calm.refl r

theorem CancelInv.stop (hs : s.step .stop = some t) : CancelInv t := by
  have hphases := h.toPhases.step hs
  obtain ⟨hd, rfl⟩ := when_eq_some hs
  exact h.control hphases (.same Request.Calm.refl rfl) rfl (fun _ hi => Or.inl hi)
    (by rw [hd]; nofun) trivial rfl

theorem CancelInv.join (hs : s.step .join = some t) : CancelInv t := by
  have hphases := h.toPhases.step hs
  obtain ⟨⟨hd, -⟩, rfl⟩ := when_eq_some hs
  exact h.control hphases (.same Request.Calm.refl rfl) rfl (fun _ hi => Or.inl hi)
    (by rw [hd]; nofun) trivial rfl

/-- After the sweep no request is left that a note could be about. -/
theorem CancelInv.recover (hs : s.recover = some t) : CancelInv t := by
  have hphases := h.toPhases.recover hs
  unfold EngineState.recover at hs
  split at hs
  · -- an active request
    rename_i id rest hd
    cases hs
    refine h.control hphases (.modified Request.Calm.refl rfl fun r _ => ?_) rfl
      (fun _ hi => Or.inl hi) (by rw [hd]; nofun) trivial rfl
    have hcalm := Request.stopActive_calm r
    exact ⟨hcalm.kind, hcalm.queued, hcalm.acknowledged, hcalm.cancelled⟩
  · rename_i hd
    cases hs
    exact h.control hphases (.same Request.Calm.refl rfl) rfl (fun _ hi => Or.inl hi)
      (by rw [hd]; nofun) trivial rfl
  · -- the next pending request, if there is one
    rename_i hd
    obtain ⟨-, hexited, -⟩ := h.begun hd trivial
    split at hs
    · rename_i id q hpop
      cases hs
      have hitems := PendingQueue.pop_some (q := s.pendingRequests) (by rw [hpop])
      rw [hpop] at hitems
      refine h.control hphases (.same Request.Calm.refl rfl) rfl (fun i hi => ?_)
        (by rw [hd]; nofun) trivial rfl
      have hdeciding : s.worker.deciding = none := by
        rw [hexited]
        rfl
      rcases Waits.taken (Perm.of_eq hitems) hdeciding hi with hmem | rfl
      · exact Or.inl (Or.inl hmem)
      · exact Or.inr rfl
    cases hs
    exact h.control hphases (.same Request.Calm.refl rfl) rfl (fun _ hi => Or.inl hi)
      (by rw [hd]; nofun) trivial rfl
  · -- the request that was popped is cancelled now
    rename_i id hd
    cases hs
    refine ⟨hphases, fun _ _ _ => Or.inr trivial, fun i r' hr' hack => ?_⟩
    obtain ⟨r, hr, rfl⟩ := modifyRequest_cases hr'
    by_cases hid : i = id
    · rw [if_pos hid]
      exact Or.inl (Request.stopPending_cancelled r)
    rw [if_neg hid] at hack ⊢
    rcases h.acknowledged i r hr hack with hc | hdrop | hnote | hnot
    · exact Or.inl hc
    · rw [hd] at hdrop
      exact absurd (ShutdownCall.dropping.inj hdrop).symm hid
    · exact Or.inr (Or.inr (Or.inl hnote))
    · exact Or.inr (Or.inr (Or.inr hnot))
  · -- nothing is in the queue any more
    rename_i hd
    obtain ⟨hcall, hexited, -⟩ := h.begun hd trivial
    cases hs
    have hempty := h.emptied (by rw [hd]; trivial)
    refine ⟨hphases, fun _ hi => (nomatch hi), fun i r hr hack => ?_⟩
    rcases h.acknowledged i r hr hack with hc | hdrop | ⟨-, hwait | hsub⟩ | hnot
    · exact Or.inl hc
    · rw [hd] at hdrop
      cases hdrop
    · rcases hwait with hmem | hdec
      · rw [hempty] at hmem
        cases hmem
      rw [hexited] at hdec
      cases hdec
    · exact absurd (h.submitting i hsub).1 hcall
    · exact Or.inr (Or.inr (Or.inr hnot))
  · cases hs

/-- **Every step keeps the invariant**, if its note is in time. -/
theorem CancelInv.step {e : Event} (hok : s.NotesInTime e)
    (hs : s.step e = some t) : CancelInv t := by
  cases e with
  | submit kind tier hasTokens => exact h.submit hs
  | push id => exact h.push hs
  | pushFails id => exact h.pushFails hs
  | cancel id =>
    rw [← some.inj hs]
    exact h.cancel id
  | record c id => exact h.record hok hs
  | pop id => exact h.pop hs
  | popMatching id => exact h.popMatching hs
  | checkStatus id => exact h.checkStatus hs
  | consume id => exact h.consume hs
  | shutdown => exact h.shutdown hs
  | drained => exact h.drained hs
  | timeout => exact h.timeout hs
  | stop => exact h.stop hs
  | join => exact h.join hs
  | recover => exact h.recover hs
  | _ => exact h.frame (frame_of_step (by exact trivial) hs)

end

end Steps

/-! ### The result -/

/-- **A note that is not in time breaks the property at once.** -/
theorem late_note_breaks {s t : EngineState} {c id : Nat} (hs : s.step (.record c id) = some t)
    (hlate : ¬ s.NotesInTime (.record c id)) : ¬ (t.CancelsTakeEffect ∧ t.NoNoteStays) := by
  obtain ⟨-, rfl⟩ := when_eq_some hs
  rintro ⟨heffect, hnotes⟩
  have hqueued : s.Queued id := by
    by_contra hnot
    exact hlate fun hq => absurd hq hnot
  have hother : ¬ (s.Waits id ∨ s.shutdown = .dropping id ∨ s.shutdown.UnderWay ∧
      ∃ r, s.requests[id]? = some r ∧ (r.cancelled = true ∨ r.terminals ≠ [])) :=
    fun h => hlate fun _ => h
  obtain ⟨r, hr, hq⟩ := hqueued
  have hr' := modifyRequest_self hr Request.acknowledge
  rcases hnotes id mem_cons_self ⟨_, hr', hq⟩ with hw | hunder
  · exact hother (Or.inl hw)
  have hquiet : ¬ (r.cancelled = true ∨ r.terminals ≠ []) :=
    fun h => hother (Or.inr (Or.inr ⟨hunder, r, hr, h⟩))
  have hack : r.acknowledge.acknowledged = true := by
    have hnone : r.terminals = [] := by
      by_contra hsome
      exact hquiet (Or.inr hsome)
    show (r.acknowledged || r.terminals.isEmpty) = true
    rw [hnone]
    exact Bool.or_true _
  rcases heffect id _ hr' hq hack with hw | hd | hc
  · exact hother (Or.inl hw)
  · exact hother (Or.inr (Or.inl hd))
  · exact hquiet (Or.inl hc)

/-- **Acknowledged cancellations take effect, and no note stays, in every run whose notes
are left in time**; a note that is not breaks one or the other. -/
theorem cancellation_effective (exclusive : Bool) :
    (∀ t, Runs EngineState.step EngineState.NotesInTime (.init exclusive) t →
      t.CancelsTakeEffect ∧ t.NoNoteStays) ∧
    ∀ (s t : EngineState) (c id : Nat), s.step (.record c id) = some t →
      ¬ s.NotesInTime (.record c id) → ¬ (t.CancelsTakeEffect ∧ t.NoNoteStays) := by
  refine ⟨fun t hrun => ?_, fun s t c id hs hlate => late_note_breaks hs hlate⟩
  have hinv : CancelInv t :=
    hrun.inv (cancelInv_init exclusive) fun _ _ _ h hok hs => h.step hok hs
  exact ⟨hinv.takeEffect, hinv.notes⟩

/-- A request that is cancelled while it is in the queue. -/
theorem cancelled_in_queue : ∃ t, runList EngineState.step (.init false)
      [.submit .generation .premium true, .push 0, .cancel 0, .lookUp 0 0, .record 0 0, .look,
        .pop 0, .removePending 0, .checkStatus 0, .consume 0] = some t ∧
    t.CancelsTakeEffect ∧ t.NoNoteStays := by
  refine ⟨_, rfl, (cancellation_effective false).1 _ ?_⟩
  have hchecked : ∀ (s : EngineState) (e : Event), (match e with
        | .record _ id => decide (id ∈ s.pendingRequests.items)
        | _ => true) = true → s.NotesInTime e := by
    intro s e h
    cases e with
    | record c id => exact fun _ => Or.inl (Or.inl (of_decide_eq_true h))
    | _ => trivial
  exact Runs.of_checked hchecked
    [.submit .generation .premium true, .push 0, .cancel 0, .lookUp 0 0, .record 0 0, .look,
      .pop 0, .removePending 0, .checkStatus 0, .consume 0] Runs.refl rfl

/-- The note comes after the worker's look: the call returns 0, the request becomes
active and runs on, and the note stays. -/
theorem late_note_lost : ∃ t, runList EngineState.step (.init false)
      [.submit .generation .premium true, .push 0, .look, .pop 0, .cancel 0, .lookUp 0 0,
        .removePending 0, .checkStatus 0, .consume 0, .record 0 0, .dispatch 0, .schedule 0 true,
        .activate 0] = some t ∧
    t.cancels = [.returned 0] ∧ t.activeRequests = [0] ∧ t.pendingCancellations = [0] ∧
    t.requests.map (·.cancelled) = [false] ∧ t.requests.map (·.terminals) = [[]] ∧
    ¬ t.CancelsTakeEffect ∧ ¬ t.NoNoteStays := by
  refine ⟨_, rfl, rfl, rfl, rfl, rfl, rfl, fun heffect => ?_, fun hnotes => ?_⟩
  · rcases heffect 0 _ rfl rfl rfl with (hmem | hdec) | hdrop | hcancelled
    · cases hmem
    · cases hdec
    · cases hdrop
    · cases hcancelled
  rcases hnotes 0 mem_cons_self ⟨_, rfl, rfl⟩ with (hmem | hdec) | hunder
  · cases hmem
  · cases hdec
  · exact hunder

end DenseCore.Handover
