/-
One terminal callback and one release for each admitted request.

Each step moves a request from one holder to the next, or gives it back to the pool
after its callback.  When `Shutdown` has returned there is no holder left, so each
request has gone that way.

One place forgets what it holds.  An exception during the preparation of a request or
in the scheduler ends the worker loop, and the request is in no list any more.
-/
import DenseCore.Lib.Parts
import DenseCore.Proofs.Runtime.Custody

namespace DenseCore.Handover

open Option hiding or

open List

open Lib

/-! ### The property -/

namespace EngineState

/-- **Exactly one terminal event for each admitted request**, once `Shutdown` has
returned. -/
def OneTerminalEach (s : EngineState) : Prop :=
  s.shutdown = .returned → ∀ (id : Nat) r, s.requests[id]? = some r → r.queued = true →
    r.terminals.length = 1 ∧ r.released = 1

/-- The worker throws only where it holds no request that is in no list. -/
def NothingInHand (s : EngineState) : Event → Prop
  | .throw => ∀ id, s.worker ≠ .preparing id
  | _ => True

end EngineState

section Steps

variable {s t : EngineState}

theorem TerminalInv.keep (h : TerminalInv s) (hphases : Phases t)
    (hreq : Changes Request.Steady s t) (hperm : t.holders.Perm s.holders)
    (hworker : ∀ (id : Nat) r, t.requests[id]? = some r → t.worker.Demands id r)
    (hdecoded : ∀ id ∈ t.decoded, id ∈ s.decoded ∨ ∀ r, s.requests[id]? = some r → r.kind ≠ .graph)
    (hlate : ∀ (id : Nat) r, t.requests[id]? = some r → s.worker.Late id →
      r.Done ∨ t.worker.Late id)
    (hfinishing : ∀ id, t.worker = .finishing id → id ∈ t.activeRequests)
    (hleft : t.shutdown.Joined → t.activeRequests = []) : TerminalInv t where
  toPhases := hphases
  toLedger := h.toLedger.move (hreq.mono fun _ _ h => h.toKeeps) hperm
  toRoles := h.toRoles.keep h.toLedger (hreq.mono fun _ _ h => h.toSound) hworker hdecoded hlate
    hfinishing hleft

/-- A step of another thread. -/
theorem TerminalInv.outside (h : TerminalInv s) (hphases : Phases t)
    (hreq : Changes Request.Steady s t) (hworker : t.worker = s.worker)
    (hitems : t.pendingRequests = s.pendingRequests)
    (hactive : t.activeRequests = s.activeRequests)
    (hheld : t.shutdown.held = s.shutdown.held) (hfinals : t.shutdown.finals = s.shutdown.finals)
    (hleft : t.shutdown.Joined → s.shutdown.Joined) : TerminalInv t := by
  have hholders : t.holders = s.holders := by
    unfold EngineState.holders
    rw [hworker, hitems, hactive, hheld]
  have hdecoded : t.decoded = s.decoded := by
    unfold EngineState.decoded
    rw [hworker, hactive, hfinals]
  refine h.keep hphases hreq (Perm.of_eq hholders) ?_ ?_ ?_ ?_ ?_
  · intro id r hr
    rw [hworker]
    exact h.toLedger.demands h.toRoles (hreq.mono fun _ _ h => h.toSound) hr
  · intro id hid
    rw [hdecoded] at hid
    exact Or.inl hid
  · intro id r _ hlate
    rw [hworker]
    exact Or.inr hlate
  · intro id hid
    rw [hworker] at hid
    rw [hactive]
    exact h.finishing id hid
  intro hjoined
  rw [hactive]
  exact h.left (hleft hjoined)

theorem TerminalInv.moves (h : TerminalInv s) (hphases : Phases t)
    (hreq : Changes Request.Steady s t) (hitems : t.pendingRequests = s.pendingRequests)
    (hactive : t.activeRequests = s.activeRequests) (hshutdown : t.shutdown = s.shutdown)
    (hheld : t.worker.held = s.worker.held)
    (hworker : ∀ (id : Nat) r, t.requests[id]? = some r → t.worker.Demands id r)
    (hadmitting : ∀ id ∈ t.worker.admitting, id ∈ s.worker.admitting ∨
      ∀ r, s.requests[id]? = some r → r.kind ≠ .graph)
    (hlate : ∀ id, s.worker.Late id → t.worker.Late id)
    (hfinishing : ∀ id, t.worker ≠ .finishing id) : TerminalInv t := by
  have hholders : t.holders = s.holders := by
    unfold EngineState.holders
    rw [hitems, hheld, hactive, hshutdown]
  refine h.keep hphases hreq (Perm.of_eq hholders) hworker ?_
    (fun id _ _ hl => Or.inr (hlate id hl)) (fun id hid => absurd hid (hfinishing id)) ?_
  · intro id hid
    unfold EngineState.decoded at hid ⊢
    rw [hactive, hshutdown] at hid
    rcases mem_append.mp hid with hworker | hrest
    · exact (hadmitting id hworker).imp_left (mem_append_left _)
    · exact Or.inl (mem_append_right _ hrest)
  rw [hshutdown, hactive]
  exact h.left

variable {id : Nat} {f : Request → Request}

theorem not_late {w : Worker} (hw : s.worker = w) (hnot : ∀ id, ¬ w.Late id) {p : Prop}
    (h : s.worker.Late id) : p := by
  rw [hw] at h
  exact absurd h (hnot id)

theorem TerminalInv.giveBack (h : TerminalInv s) (hphases : Phases t)
    (ht : t.requests = (s.modifyRequest id f).requests)
    (hf : ∀ r, s.requests[id]? = some r → r.GivesBack (f r))
    (hperm : s.holders.Perm (id :: t.holders))
    (hworker : ∀ (id : Nat) r, t.requests[id]? = some r → t.worker.Demands id r)
    (hdecoded : ∀ id ∈ t.decoded, id ∈ s.decoded)
    (hlate : ∀ id, s.worker.Late id → t.worker.Late id)
    (hfinishing : ∀ id, t.worker ≠ .finishing id)
    (hleft : t.shutdown.Joined → t.activeRequests = []) : TerminalInv t where
  toPhases := hphases
  toLedger := h.toLedger.giveBack ht hf hperm
  toRoles := h.toRoles.keep h.toLedger (.modified Request.Sound.refl ht fun r hr => (hf r hr).toSound)
    hworker (fun i hi => Or.inl (hdecoded i hi)) (fun i _ _ hl => Or.inr (hlate i hl))
    (fun i hi => absurd hi (hfinishing i)) hleft

/-! ### Submission -/

/-- A new request is pushed as pending or turned away. -/
theorem TerminalInv.submit (h : TerminalInv s) {kind : Kind} {tier : Tier} {hasTokens : Bool}
    (hs : s.step (.submit kind tier hasTokens) = some t) : TerminalInv t := by
  have hphases := h.toPhases.step hs
  obtain ⟨-, rfl⟩ := when_eq_some hs
  have hheld : ∀ id ∈ s.holders, id ≠ s.requests.length := by
    rintro id hid rfl
    obtain ⟨r, hr, -⟩ := h.holds _ hid
    exact Nat.lt_irrefl _ (List.getElem?_eq_some_iff.mp hr).1
  have hdecoded : ∀ id ∈ s.decoded, id ∈ s.holders := by
    intro id hid
    refine mem_append_right _ ?_
    rcases mem_append.mp hid with hworker | hrest
    · refine mem_append_left _ ?_
      cases hw : s.worker <;> rw [hw] at hworker <;> first | exact hworker | cases hworker
    refine mem_append_right _ ?_
    rcases mem_append.mp hrest with hactive | hfinals
    · exact mem_append_left _ hactive
    refine mem_append_right _ ?_
    cases hd : s.shutdown <;> rw [hd] at hfinals <;> first | exact hfinals | cases hfinals
  refine ⟨hphases, ⟨h.nodup, ?_, ?_, ?_⟩, ⟨?_, ?_, ?_, h.finishing, h.left⟩⟩
  · intro id hid
    obtain ⟨r, hr, hstate⟩ := h.holds id hid
    exact ⟨r, getElem?_append_of_some hr _, hstate⟩
  · intro id r hr hqueued hreleased
    rcases getElem?_concat_cases hr with hold | ⟨-, rfl⟩
    · exact h.kept id r hold hqueued hreleased
    · cases hqueued
  · intro id r hr
    rcases getElem?_concat_cases hr with hold | ⟨-, rfl⟩
    · exact h.past id r hold
    refine ⟨?_, Or.inl rfl⟩
    cases kind <;> rfl
  · intro id r hr
    rcases getElem?_concat_cases hr with hold | ⟨rfl, -⟩
    · exact h.worker id r hold
    refine demands_of_not_held (fun hmem => ?_) r
    exact hheld _ (mem_append_right _ (mem_append_left _ hmem)) rfl
  · intro id hid r hr
    rcases getElem?_concat_cases hr with hold | ⟨rfl, -⟩
    · exact h.decoded id hid r hold
    · exact absurd rfl (hheld _ (hdecoded _ hid))
  intro id r hr hfinished
  rcases getElem?_concat_cases hr with hold | ⟨-, rfl⟩
  · exact h.finished id r hold hfinished
  · cases hfinished

/-- A request that was not in the queue comes into it. -/
theorem TerminalInv.push (h : TerminalInv s) (hs : s.step (.push id) = some t) : TerminalInv t := by
  have hphases := h.toPhases.step hs
  simp only [EngineState.step] at hs
  split at hs
  · cases hs
  rename_i r hr
  obtain ⟨hsub, rfl⟩ := when_eq_some hs
  obtain ⟨-, r₀, hr₀, hnot⟩ := h.submitting id hsub
  obtain rfl := some.inj (hr₀.symm.trans hr)
  have hfresh : r₀.released = 0 := by
    rcases (h.past id r₀ hr).2 with hzero | ⟨hqueued, -⟩
    · exact hzero
    rw [hnot] at hqueued
    cases hqueued
  have hnone : id ∉ s.holders := by
    intro hmem
    obtain ⟨r', hr', hqueued, -⟩ := h.holds id hmem
    rw [some.inj (hr'.symm.trans hr), hnot] at hqueued
    cases hqueued
  have hreq : Changes Request.Sound s (s.modifyRequest id Request.enqueue) :=
    .modified Request.Sound.refl rfl fun r _ => Request.enqueue_sound r
  have hget := modifyRequest_self hr Request.enqueue
  have hperm := (PendingQueue.items_push_perm s.pendingRequests id r₀.tier).append_right
    (s.worker.held ++ (s.activeRequests ++ s.shutdown.held))
  refine ⟨hphases, ⟨hperm.nodup_iff.mpr (nodup_cons.mpr ⟨hnone, h.nodup⟩), ?_, ?_, ?_⟩,
    h.toRoles.keep h.toLedger hreq (fun i r hr => h.toLedger.demands h.toRoles hreq hr)
      (fun i hi => Or.inl hi) (fun i _ _ hl => Or.inr hl) h.finishing h.left⟩
  · intro i hi
    rcases mem_cons.mp (hperm.mem_iff.mp hi) with rfl | hold
    · exact ⟨_, hget, rfl, hfresh⟩
    obtain ⟨r, hr', hqueued, hzero⟩ := h.holds i hold
    have hne : i ≠ id := by
      rintro rfl
      exact hnone hold
    refine ⟨r, ?_, hqueued, hzero⟩
    show (s.modifyRequest id Request.enqueue).requests[i]? = some r
    rw [modifyRequest_get, hr', map_some, if_neg hne]
  · intro i r' hr' hqueued hzero
    refine hperm.mem_iff.mpr ?_
    by_cases hid : i = id
    · subst hid
      exact mem_cons_self
    obtain ⟨r, hr, rfl⟩ := modifyRequest_cases hr'
    rw [if_neg hid] at hqueued hzero
    exact mem_cons_of_mem _ (h.kept i r hr hqueued hzero)
  intro i r' hr'
  obtain ⟨r, hr, rfl⟩ := modifyRequest_cases hr'
  obtain ⟨hmarked, hpast⟩ := h.past i r hr
  split
  · exact ⟨hmarked, hpast.imp_right fun hp => ⟨rfl, hp.2⟩⟩
  · exact ⟨hmarked, hpast⟩

/-! ### The worker

The worker has at most one request in its hands outside the lists. Each of its steps passes
that request on, finalises it or gives it back to the pool.
-/

theorem TerminalInv.take (h : TerminalInv s) (hphases : Phases t)
    (hw : s.worker = .looking) (hreq : Changes Request.Steady s t)
    (hitems : s.pendingRequests.items.Perm (id :: t.pendingRequests.items))
    (hworker : t.worker = .taken id) (hactive : t.activeRequests = s.activeRequests)
    (hshutdown : t.shutdown = s.shutdown) : TerminalInv t := by
  refine h.keep hphases hreq ?_ ?_ ?_ ?_ ?_ ?_
  · unfold EngineState.holders
    rw [hworker, hactive, hshutdown, hw]
    exact perm_middle.trans (hitems.symm.append_right _)
  · intro i r _
    rw [hworker]
    trivial
  · intro i hi
    unfold EngineState.decoded at hi ⊢
    rw [hworker, hactive, hshutdown] at hi
    exact Or.inl (mem_append_right _ hi)
  · exact fun i r _ hl => not_late hw (fun _ hlate => hlate) hl
  · intro i hi
    rw [hworker] at hi
    cases hi
  rw [hshutdown, hactive]
  exact h.left

theorem consume_steady (s : EngineState) (id : Nat) :
    Changes Request.Steady s (s.consumePendingCancellation id) ∧
      (s.consumePendingCancellation id).pendingRequests = s.pendingRequests := by
  unfold EngineState.consumePendingCancellation
  split
  · exact ⟨.modified Request.Steady.refl rfl fun r _ => Request.cancel_steady r, rfl⟩
  · exact ⟨.same Request.Steady.refl rfl, rfl⟩

theorem takeCancelled_steady (s : EngineState) (id : Nat) :
    Changes Request.Steady s (s.takeCancelled id) := by
  unfold EngineState.takeCancelled
  split
  · exact .same Request.Steady.refl rfl
  · exact (consume_steady s id).1

theorem releasing_demands {w : Worker} (hl : Ledger s)
    (hf : ∀ r, s.requests[id]? = some r → r.Retires (f r)) (hw : w = .releasing id) :
    ∀ (i : Nat) r', (s.modifyRequest id f).requests[i]? = some r' → w.Demands i r' := by
  subst hw
  rintro i r' hr' rfl
  obtain ⟨r, hr, rfl⟩ := modifyRequest_cases hr'
  rw [if_pos rfl]
  exact ((hf r hr).done (hl.past _ r hr).1).2

section

variable (h : TerminalInv s)

include h

theorem TerminalInv.dispatch (hs : s.step (.dispatch id) = some t) : TerminalInv t := by
  have hphases := h.toPhases.step hs
  simp only [EngineState.step] at hs
  split at hs
  · cases hs
  rename_i u hu
  obtain ⟨hw, rfl⟩ := when_eq_some hs
  have hheld : s.worker.held = [id] := by
    rw [hw]
    rfl
  have hlate : ∀ {p : Prop} i, s.worker.Late i → p :=
    fun i hl => not_late hw (fun _ hlate => hlate) hl
  obtain ⟨r, hr, ⟨f, hf, rfl⟩ | ⟨-, hkind, rfl⟩ | ⟨-, hkind, rfl⟩⟩ := dispatch_cases hu
  · have hretires : ∀ r', s.requests[id]? = some r' → r'.Retires (f r') := by
      intro r' hr'
      rw [← some.inj (hr.symm.trans hr')]
      exact hf
    exact h.moves hphases
      (.modified Request.Steady.refl rfl fun r' hr' => (hretires r' hr').steady) rfl rfl rfl
      hheld.symm (releasing_demands h.toLedger hretires rfl)
      (fun _ hi => absurd hi not_mem_nil) hlate (by simp)
  · refine h.moves hphases (.same Request.Steady.refl rfl) rfl rfl rfl hheld.symm ?_
      (fun _ hi => absurd hi not_mem_nil) hlate (by simp)
    rintro i r' hr' rfl
    rw [← some.inj (hr.symm.trans hr')]
    exact hkind
  refine h.moves hphases (.same Request.Steady.refl rfl) rfl rfl rfl hheld.symm
    (fun _ _ _ => trivial) (fun i hi => Or.inr fun r' hr' => ?_) hlate (by simp)
  obtain rfl := mem_singleton.mp hi
  rw [← some.inj (hr.symm.trans hr')]
  exact hkind

theorem TerminalInv.popMatching (hs : s.step (.popMatching id) = some t) : TerminalInv t := by
  have hphases := h.toPhases.step hs
  obtain ⟨⟨hw, -, hpop⟩, rfl⟩ := when_eq_some hs
  have hlook := consumed_takeCancelled s id
  exact h.take hphases hw (takeCancelled_steady s id) (PendingQueue.popMatching_perm hpop) rfl
    hlook.active hlook.shutdown

/-- A request that was cancelled before it started is stopped where the worker looks. -/
theorem TerminalInv.checkStatus (hs : s.step (.checkStatus id) = some t) : TerminalInv t := by
  have hphases := h.toPhases.step hs
  obtain ⟨hw, rfl⟩ := when_eq_some hs
  split at hphases <;> rename_i hstatus
  · rw [if_pos hstatus] at hs ⊢
    exact h.moves hphases (.same Request.Steady.refl rfl) rfl rfl rfl (by rw [hw]; rfl)
      (fun _ _ _ => trivial) (fun _ hi => (nomatch hi))
      (fun _ hl => not_late hw (fun _ hl => hl) hl) nofun
  rw [if_neg hstatus] at hs ⊢
  have hretires : ∀ r, s.requests[id]? = some r → r.Retires r.stopPending :=
    fun r _ => Request.stopPending_retires r
  exact h.moves hphases
    (.modified Request.Steady.refl rfl fun r hr => (hretires r hr).steady) rfl rfl rfl
    (by rw [hw]; rfl) (releasing_demands h.toLedger hretires rfl) (fun _ hi => (nomatch hi))
    (fun _ hl => not_late hw (fun _ hl => hl) hl) nofun

theorem TerminalInv.consume (hs : s.step (.consume id) = some t) : TerminalInv t := by
  have hphases := h.toPhases.step hs
  obtain ⟨hw, rfl⟩ := when_eq_some hs
  have hlook := consumed s id
  have hsteady := consume_steady s id
  exact h.moves hphases hsteady.1 hsteady.2 hlook.active hlook.shutdown (by rw [hw]; rfl)
    (fun _ _ _ => trivial) (fun _ hi => (nomatch hi)) (fun _ hl => not_late hw (fun _ hl => hl) hl) nofun

theorem TerminalInv.graphDone {n : Int}
    (hs : s.step (.graphDone id n) = some t) : TerminalInv t := by
  have hphases := h.toPhases.step hs
  obtain ⟨hw, rfl⟩ := when_eq_some hs
  have hretires : ∀ r, s.requests[id]? = some r →
      r.Retires (r.completeGraphRequest n).markFinished := by
    intro r hr
    have hdemand := h.worker id r hr
    rw [hw] at hdemand
    exact Request.graphDone_retires (hdemand rfl) n
  exact h.moves hphases
    (.modified Request.Steady.refl rfl fun r hr => (hretires r hr).steady) rfl rfl rfl
    (by rw [hw]; rfl) (releasing_demands h.toLedger hretires rfl) (fun _ hi => (nomatch hi))
    (fun _ hl => not_late hw (fun _ hl => hl) hl) nofun

/-- The scheduler takes the request or refuses it, which ends it with an error. -/
theorem TerminalInv.schedule {accepted : Bool}
    (hs : s.step (.schedule id accepted) = some t) : TerminalInv t := by
  have hphases := h.toPhases.step hs
  obtain ⟨hw, rfl⟩ := when_eq_some hs
  cases accepted with
  | true =>
    refine h.moves hphases (.same Request.Steady.refl rfl) rfl rfl rfl (by rw [hw]; rfl)
      (fun _ _ _ => trivial) (fun i hi => Or.inl ?_)
      (fun _ hl => not_late hw (fun _ hl => hl) hl) nofun
    rw [hw]
    exact hi
  | false =>
    have hkind : ∀ r, s.requests[id]? = some r → r.kind ≠ .graph := by
      refine h.decoded id ?_
      unfold EngineState.decoded
      rw [hw]
      exact mem_cons_self
    have hretires : ∀ r, s.requests[id]? = some r → r.Retires (r.finalizeGenerationError false
        "Error: Request cannot be scheduled (queue full or prefill budget exceeded)") :=
      fun r hr => (Request.finalizeGenerationError_finalizes _ _ r).retires
        (Request.finalizeGenerationError_dispatched (hkind r hr) _ _)
    exact h.moves hphases
      (.modified Request.Steady.refl rfl fun r hr => (hretires r hr).steady) rfl rfl rfl
      (by rw [hw]; rfl) (releasing_demands h.toLedger hretires rfl)
      (fun _ hi => (nomatch hi)) (fun _ hl => not_late hw (fun _ hl => hl) hl) nofun

theorem TerminalInv.activate (hs : s.step (.activate id) = some t) : TerminalInv t := by
  have hphases := h.toPhases.step hs
  obtain ⟨hw, rfl⟩ := when_eq_some hs
  refine h.keep hphases (.same Request.Steady.refl rfl) ?_ (fun _ _ _ => trivial) ?_
    (fun i r _ hl => not_late hw (fun _ hlate => hlate) hl) nofun ?_
  · unfold EngineState.holders
    rw [hw]
    refine Perm.append_left _ ?_
    show ((s.activeRequests ++ [id]) ++ s.shutdown.held).Perm
      (id :: (s.activeRequests ++ s.shutdown.held))
    exact (perm_append_singleton _ _).append_right _
  · have hperm : ((s.activeRequests ++ [id]) ++ s.shutdown.finals).Perm
        (id :: (s.activeRequests ++ s.shutdown.finals)) :=
      (perm_append_singleton _ _).append_right _
    intro i hi
    unfold EngineState.decoded
    rw [hw]
    exact Or.inl (hperm.mem_iff.mp hi)
  · exact fun hj => absurd hj (h.not_joined (by rw [hw]; nofun))

theorem TerminalInv.release (hs : s.step (.release id) = some t) : TerminalInv t := by
  have hphases := h.toPhases.step hs
  obtain ⟨hw, rfl⟩ := when_eq_some hs
  refine h.giveBack hphases rfl (fun r hr => ?_) ?_ (fun _ _ _ => trivial) ?_
    (fun i hl => not_late hw (fun _ hlate => hlate) hl) nofun h.left
  · have hdemand := h.worker id r hr
    rw [hw] at hdemand
    exact Request.release_givesBack (h.past id r hr).1 (hdemand rfl)
  · unfold EngineState.holders
    rw [hw]
    exact perm_middle
  · exact fun i hi => mem_append_right _ hi

/-- The callback for an active request that is marked as finished. -/
theorem TerminalInv.finalize {outcome : Outcome}
    (hs : s.step (.finalize id outcome) = some t) : TerminalInv t := by
  have hphases := h.toPhases.step hs
  obtain ⟨hw, rfl⟩ := when_eq_some hs
  have hactive : id ∈ s.decoded :=
    mem_append_right _ (mem_append_left _ (h.finishing id hw))
  refine h.keep hphases
    (.modified Request.Steady.refl rfl fun r _ => (Request.outcome_finalizes outcome r).steady) ?_
    (fun _ _ _ => trivial) ?_ ?_ nofun h.left
  · unfold EngineState.holders
    rw [hw]
    exact Perm.refl _
  · intro i hi
    exact Or.inl (mem_append_right _ hi)
  intro i r' hr' hl
  rw [hw] at hl
  subst hl
  obtain ⟨r, hr, rfl⟩ := modifyRequest_cases hr'
  rw [if_pos rfl]
  have hmarked := (Request.outcome_finalizes outcome r).marked (h.past _ r hr).1
  exact Or.inl (hmarked.done (Request.outcome_dispatched (h.decoded _ hactive r hr) outcome))

theorem TerminalInv.markFinished (hs : s.step (.markFinished id) = some t) : TerminalInv t := by
  have hphases := h.toPhases.step hs
  obtain ⟨⟨hw, hactive⟩, rfl⟩ := when_eq_some hs
  have hreq : Changes Request.Keeps s (s.modifyRequest id Request.markFinished) :=
    .modified Request.Keeps.refl rfl fun r _ => Request.markFinished_keeps r
  refine ⟨hphases, h.toLedger.move hreq ?_, ⟨fun _ _ _ => trivial, ?_, ?_, ?_, h.left⟩⟩
  · unfold EngineState.holders
    rw [hw]
    exact Perm.refl _
  · intro i hi r' hr'
    obtain ⟨r, hr, rfl⟩ := modifyRequest_cases hr'
    have hkind := h.decoded i (mem_append_right _ hi) r hr
    split <;> exact hkind
  · intro i r' hr' hfinished
    obtain ⟨r, hr, rfl⟩ := modifyRequest_cases hr'
    by_cases hid : i = id
    · exact Or.inr hid.symm
    rw [if_neg hid] at hfinished ⊢
    rcases h.finished i r hr hfinished with hdone | hl
    · exact Or.inl hdone
    · exact not_late hw (fun _ hlate => hlate) hl
  intro i hi
  rw [← Worker.finishing.inj hi]
  exact hactive

/-- The finished requests come off the active list. -/
theorem TerminalInv.reap (hs : s.step .reap = some t) : TerminalInv t := by
  have hphases := h.toPhases.step hs
  obtain ⟨hw, rfl⟩ := when_eq_some hs
  refine h.keep hphases (.same Request.Steady.refl rfl) ?_ ?_ ?_
    (fun i r _ hl => not_late hw (fun _ hlate => hlate) hl) nofun ?_
  · unfold EngineState.holders
    rw [hw]
    refine Perm.append_left _ ?_
    show (_ ++ (_ ++ s.shutdown.held)).Perm (s.activeRequests ++ s.shutdown.held)
    rw [← append_assoc]
    exact (filter_append_perm _ _).append_right _
  · intro i r hr hi
    have hfinished := (mem_filter.mp hi).2
    rw [hr] at hfinished
    rcases h.finished i r hr hfinished with hdone | hl
    · exact hdone
    · exact not_late hw (fun _ hlate => hlate) hl
  · intro i hi
    have hrest : i ∈ s.activeRequests.filter (fun id => !(s.requests[id]?).any (·.finished)) ++
        s.shutdown.finals := hi
    rcases mem_append.mp hrest with hactive | hfinals
    · exact Or.inl (mem_append_right _ (mem_append_left _ (mem_filter.mp hactive).1))
    · exact Or.inl (mem_append_right _ (mem_append_right _ hfinals))
  · exact fun hj => absurd hj (h.not_joined (by rw [hw]; nofun))

theorem TerminalInv.reapRelease (hs : s.step (.reapRelease id) = some t) : TerminalInv t := by
  have hphases := h.toPhases.step hs
  simp only [EngineState.step] at hs
  split at hs
  · rename_i first rest hw
    obtain ⟨rfl, rfl⟩ := when_eq_some hs
    refine h.giveBack hphases rfl (fun r hr => ?_) ?_ (fun i r' hr' hi => ?_) ?_
      (fun i hl => not_late hw (fun _ hlate => hlate) hl) (by simp) h.left
    · have hdemand := h.worker first r hr
      rw [hw] at hdemand
      exact Request.release_givesBack (h.past first r hr).1 (hdemand mem_cons_self)
    · unfold EngineState.holders
      rw [hw]
      exact perm_middle
    · obtain ⟨r, hr, rfl⟩ := modifyRequest_cases hr'
      have hdemand := h.worker i r hr
      rw [hw] at hdemand
      have hdone : r.Done := hdemand (mem_cons_of_mem _ hi)
      split <;> exact hdone
    · exact fun i hi => mem_append_right _ hi
  · cases hs

theorem TerminalInv.ends (hheld : s.worker.held = [])
    (hphases : Phases { s with worker := .exited }) :
    TerminalInv { s with worker := .exited } :=
  h.moves hphases (.same Request.Steady.refl rfl) rfl rfl rfl hheld.symm (fun _ _ _ => trivial)
    (fun _ hi => (nomatch hi)) (fun _ _ => trivial) nofun

end

/-! ### `Shutdown` -/

/-- The worker has exited, and `Shutdown` finalises what is on the active list. -/
theorem TerminalInv.join (h : TerminalInv s) (hs : s.step .join = some t) : TerminalInv t := by
  have hphases := h.toPhases.step hs
  obtain ⟨⟨hd, hexited⟩, rfl⟩ := when_eq_some hs
  refine h.keep hphases (.same Request.Steady.refl rfl) ?_ (fun i r hr => h.worker i r hr) ?_
    (fun i r _ hl => Or.inr hl) (fun i hi => ?_) (fun _ => rfl)
  · unfold EngineState.holders
    rw [hd]
    show (_ ++ (_ ++ ([] ++ s.activeRequests))).Perm (_ ++ (_ ++ (s.activeRequests ++ [])))
    rw [append_nil]
    exact Perm.refl _
  · intro i hi
    unfold EngineState.decoded
    rw [hd]
    show i ∈ _ ++ (s.activeRequests ++ []) ∨ _
    rw [append_nil]
    exact Or.inl hi
  rw [hexited] at hi
  cases hi

/-- The sweep after a throw takes every request there is out of its list and ends it. -/
theorem TerminalInv.recover (h : TerminalInv s) (hs : s.recover = some t) : TerminalInv t := by
  have hphases := h.toPhases.recover hs
  have hexited : ∀ {c : ShutdownCall}, s.shutdown = c → c.Joined →
      ∀ id, s.worker ≠ .finishing id := by
    intro c hc hj id hw
    cases hw.symm.trans (h.begun hc hj).2.1
  unfold EngineState.recover at hs
  split at hs
  · -- an active request
    rename_i id rest hd
    cases hs
    have hdecoded : id ∈ s.decoded := by
      unfold EngineState.decoded
      rw [hd]
      exact mem_append_right _ (mem_append_right _ mem_cons_self)
    have hgives : ∀ r, s.requests[id]? = some r → r.GivesBack r.stopActive.release := fun r hr =>
      (Request.stopActive_retires (h.decoded id hdecoded r hr)).givesBack (h.past id r hr).1
    refine h.giveBack hphases rfl hgives ?_ (fun i r hr => ?_) ?_ (fun _ hl => hl)
      (hexited hd trivial) (fun _ => h.left (by rw [hd]; trivial))
    · unfold EngineState.holders
      rw [hd, ← append_assoc, ← append_assoc]
      refine perm_middle.trans (Perm.cons _ ?_)
      rw [append_assoc, append_assoc]
      exact Perm.refl _
    · exact h.toLedger.demands h.toRoles
        (.modified Request.Sound.refl rfl fun r hr => (hgives r hr).toSound) hr
    intro i hi
    unfold EngineState.decoded at hi ⊢
    rw [hd]
    rcases mem_append.mp hi with hworker | hrest
    · exact mem_append_left _ hworker
    refine mem_append_right _ ?_
    rcases mem_append.mp hrest with hactive | hfinals
    · exact mem_append_left _ hactive
    · exact mem_append_right _ (mem_cons_of_mem _ hfinals)
  · rename_i hd
    cases hs
    exact h.outside hphases (.same Request.Steady.refl rfl) rfl rfl rfl (by rw [hd]; rfl)
      (by rw [hd]; rfl) (fun _ => by rw [hd]; trivial)
  · -- the next pending request, if there is one
    rename_i hd
    split at hs
    · rename_i id q hpop
      cases hs
      have hitems := PendingQueue.pop_some (q := s.pendingRequests) (by rw [hpop])
      rw [hpop] at hitems
      refine h.keep hphases (.same Request.Steady.refl rfl) ?_ (fun i r hr => h.worker i r hr) ?_
        (fun _ _ _ hl => Or.inr hl) (fun i hi => absurd hi (hexited hd trivial i))
        (fun _ => h.left (by rw [hd]; trivial))
      · unfold EngineState.holders
        rw [hd, hitems]
        show (q.items ++ (s.worker.held ++ (s.activeRequests ++ [id]))).Perm
          (id :: q.items ++ (s.worker.held ++ (s.activeRequests ++ [])))
        rw [append_nil, ← append_assoc, ← append_assoc, append_assoc q.items]
        exact perm_append_singleton _ _
      intro i hi
      unfold EngineState.decoded at hi ⊢
      rw [hd]
      exact Or.inl hi
    · cases hs
      exact h.outside hphases (.same Request.Steady.refl rfl) rfl rfl rfl (by rw [hd]; rfl)
        (by rw [hd]; rfl) (fun _ => by rw [hd]; trivial)
  · -- the request that was popped
    rename_i id hd
    cases hs
    have hgives : ∀ r, s.requests[id]? = some r → r.GivesBack r.stopPending.release := fun r hr =>
      (Request.stopPending_retires r).givesBack (h.past id r hr).1
    refine h.giveBack hphases rfl hgives ?_ (fun i r hr => ?_) ?_ (fun _ hl => hl)
      (hexited hd trivial) (fun _ => h.left (by rw [hd]; trivial))
    · unfold EngineState.holders
      rw [hd, ← append_assoc, ← append_assoc]
      refine (perm_append_singleton _ _).trans (Perm.cons _ ?_)
      show ((s.pendingRequests.items ++ s.worker.held) ++ s.activeRequests).Perm
        (s.pendingRequests.items ++ (s.worker.held ++ (s.activeRequests ++ [])))
      rw [append_nil, append_assoc]
    · exact h.toLedger.demands h.toRoles
        (.modified Request.Sound.refl rfl fun r hr => (hgives r hr).toSound) hr
    intro i hi
    unfold EngineState.decoded at hi ⊢
    rw [hd]
    exact hi
  · rename_i hd
    cases hs
    exact h.outside hphases (.same Request.Steady.refl rfl) rfl rfl rfl (by rw [hd]; rfl)
      (by rw [hd]; rfl) (fun _ => by rw [hd]; trivial)
  · cases hs

/-! ### Cancelling, sweeping and throwing -/

section

variable (h : TerminalInv s)

include h

theorem TerminalInv.throw (hok : s.NothingInHand .throw)
    (hs : s.step .throw = some t) : TerminalInv t := by
  have hphases := h.toPhases.step hs
  obtain ⟨hcan, rfl⟩ := when_eq_some hs
  refine h.ends ?_ hphases
  unfold EngineState.CanThrow at hcan
  split at hcan
  · rename_i hw
    rw [hw]
    rfl
  · rename_i id hw
    exact absurd hw (hok id)
  · rename_i hw
    rw [hw]
    rfl
  · exact absurd hcan id

/-- `CancelRequest` sets the flag of a request that it finds, and changes nothing else. -/
theorem TerminalInv.cancel (hs : s.step (.cancel id) = some t) : TerminalInv t := by
  have hphases := h.toPhases.step hs
  cases hs
  unfold EngineState.cancelActive at hphases ⊢
  split at hphases <;> rename_i hactive
  · rw [if_pos hactive]
    refine h.outside hphases (.modified Request.Steady.refl rfl fun r _ => ?_) rfl rfl rfl rfl
      rfl (fun hj => hj)
    exact ⟨⟨rfl, rfl, fun hm => hm, fun _ hd => hd⟩, rfl, fun _ hf => Or.inl hf⟩
  rw [if_neg hactive]
  exact h.outside hphases (.same Request.Steady.refl rfl) rfl rfl rfl rfl rfl (fun hj => hj)

/-- The error callbacks for every active request. -/
theorem TerminalInv.sweep (hs : s.step .sweep = some t) : TerminalInv t := by
  have hphases := h.toPhases.step hs
  obtain ⟨-, rfl⟩ := when_eq_some hs
  refine h.outside hphases ⟨_, fun id => mapRequests_get s _ id, fun id r _ => ?_⟩
    rfl rfl rfl rfl rfl (fun hj => hj)
  split
  · exact (Request.finalizeGenerationError_finalizes _ _ r).steady
  · exact Request.Steady.refl r

/-- `Shutdown` has waited long enough, and cancels what is still active. -/
theorem TerminalInv.timeout (hs : s.step .timeout = some t) : TerminalInv t := by
  have hphases := h.toPhases.step hs
  obtain ⟨hd, rfl⟩ := when_eq_some hs
  refine h.outside hphases ⟨_, fun id => mapRequests_get s _ id, fun id r _ => ?_⟩
    rfl rfl rfl (by rw [hd]; rfl) (by rw [hd]; rfl) (fun hj => False.elim hj)
  split
  · exact Request.cancel_steady r
  · exact Request.Steady.refl r

end

/-! ### One step -/

/-- **Every step keeps the invariant**, if the worker has nothing in its hands where it
throws. -/
theorem TerminalInv.step (h : TerminalInv s) {e : Event} (hok : s.NothingInHand e)
    (hs : s.step e = some t) : TerminalInv t := by
  have hphases := h.toPhases.step hs
  cases e with
  | submit kind tier hasTokens => exact h.submit hs
  | push id => exact h.push hs
  | pushFails id | lookUp c id =>
    obtain ⟨-, rfl⟩ := when_eq_some hs
    exact h.outside hphases (.same Request.Steady.refl rfl) rfl rfl rfl rfl rfl (fun hj => hj)
  | cancel id => exact h.cancel hs
  | record c id =>
    obtain ⟨-, rfl⟩ := when_eq_some hs
    exact h.outside hphases
      (.modified Request.Steady.refl rfl fun r _ => Request.acknowledge_steady r) rfl rfl rfl rfl
      rfl (fun hj => hj)
  | look | popNothing =>
    obtain ⟨⟨hw, -⟩, rfl⟩ := when_eq_some hs
    exact h.moves hphases (.same Request.Steady.refl rfl) rfl rfl rfl (by rw [hw]; rfl)
      (fun _ _ _ => trivial) (fun _ hi => (nomatch hi))
      (fun _ hl => not_late hw (fun _ hl => hl) hl) nofun
  | pop id =>
    obtain ⟨⟨hw, -, hpop⟩, rfl⟩ := when_eq_some hs
    exact h.take hphases hw (.same Request.Steady.refl rfl)
      (Perm.of_eq (PendingQueue.pop_some hpop)) rfl rfl rfl
  | popMatching id => exact h.popMatching hs
  | removePending id | reaped =>
    obtain ⟨hw, rfl⟩ := when_eq_some hs
    exact h.moves hphases (.same Request.Steady.refl rfl) rfl rfl rfl (by rw [hw]; rfl)
      (fun _ _ _ => trivial) (fun _ hi => (nomatch hi))
      (fun _ hl => not_late hw (fun _ hl => hl) hl) nofun
  | checkStatus id => exact h.checkStatus hs
  | consume id => exact h.consume hs
  | dispatch id => exact h.dispatch hs
  | graphDone id n => exact h.graphDone hs
  | schedule id accepted => exact h.schedule hs
  | activate id => exact h.activate hs
  | release id => exact h.release hs
  | finish id outcome =>
    obtain ⟨-, rfl⟩ := when_eq_some hs
    exact h.outside hphases
      (.modified Request.Steady.refl rfl fun r _ => (Request.outcome_finalizes outcome r).steady)
      rfl rfl rfl rfl rfl (fun hj => hj)
  | markFinished id => exact h.markFinished hs
  | finalize id outcome => exact h.finalize hs
  | sweep => exact h.sweep hs
  | reap => exact h.reap hs
  | reapRelease id => exact h.reapRelease hs
  | throw => exact h.throw hok hs
  | exitLoop =>
    obtain ⟨⟨hw, -⟩, rfl⟩ := when_eq_some hs
    exact h.ends (by rw [hw]; rfl) hphases
  | shutdown | drained =>
    obtain ⟨⟨hd, -⟩, rfl⟩ := when_eq_some hs
    exact h.outside hphases (.same Request.Steady.refl rfl) rfl rfl rfl (by rw [hd]; rfl)
      (by rw [hd]; rfl) (fun hj => False.elim hj)
  | timeout => exact h.timeout hs
  | stop =>
    obtain ⟨hd, rfl⟩ := when_eq_some hs
    exact h.outside hphases (.same Request.Steady.refl rfl) rfl rfl rfl (by rw [hd]; rfl)
      (by rw [hd]; rfl) (fun hj => False.elim hj)
  | join => exact h.join hs
  | recover => exact h.recover hs

theorem TerminalInv.oneTerminalEach (h : TerminalInv s) : s.OneTerminalEach := by
  intro hd id r hr hqueued
  have hexited := (h.begun hd trivial).2.1
  have hnone : s.holders = [] := by
    unfold EngineState.holders
    rw [h.emptied (by rw [hd]; trivial), hexited, h.left (by rw [hd]; trivial), hd]
    rfl
  rcases (h.past id r hr).2 with hzero | ⟨-, hone, hdone⟩
  · have hheld := h.kept id r hr hqueued hzero
    rw [hnone] at hheld
    cases hheld
  · exact ⟨hdone, hone⟩

/-! ### A request that nobody holds

If the worker throws with a request in its hands, the request is in no list any more.
Neither the sweep nor `Shutdown` comes to it, in any later state.
-/

/-- The worker has exited, and the request is neither in a list nor back in the pool. -/
structure Lost (s : EngineState) (id : Nat) : Prop where
  exited : s.worker = .exited
  gone : id ∉ s.holders
  request : ∃ r, s.requests[id]? = some r ∧ r.queued = true ∧ r.released = 0

theorem Lost.keep (h : Lost s id) (hworker : t.worker = s.worker)
    (hholders : id ∈ t.holders → id ∈ s.holders) (hreq : ∀ r, s.requests[id]? = some r →
      ∃ r', t.requests[id]? = some r' ∧ r'.queued = r.queued ∧ r'.released = r.released) :
    Lost t id := by
  obtain ⟨r, hr, hqueued, hreleased⟩ := h.request
  obtain ⟨r', hr', hsame, hsame'⟩ := hreq r hr
  exact ⟨hworker.trans h.exited, fun hmem => h.gone (hholders hmem), r', hr',
    hsame.trans hqueued, hsame'.trans hreleased⟩

theorem Lost.changes (h : Lost s id) (hworker : t.worker = s.worker)
    (hholders : id ∈ t.holders → id ∈ s.holders) (hreq : Changes Request.Keeps s t) :
    Lost t id :=
  h.keep hworker hholders fun _ hr => by
    obtain ⟨r', hr', hkeeps⟩ := hreq.after hr
    exact ⟨r', hr', hkeeps.queued, hkeeps.released⟩

/-- What `Shutdown` finalises it finds in a list. -/
theorem Lost.other {i : Nat} (h : Lost s id) (hworker : t.worker = s.worker)
    (hheld : i ∈ s.holders) (hholders : id ∈ t.holders → id ∈ s.holders)
    (ht : t.requests = (s.modifyRequest i f).requests) : Lost t id := by
  have hne : id ≠ i := by
    rintro rfl
    exact h.gone hheld
  refine h.keep hworker hholders fun r hr => ⟨r, ?_, rfl, rfl⟩
  rw [ht, modifyRequest_get, hr, map_some, if_neg hne]

theorem Lost.recover (h : Lost s id) (hs : s.recover = some t) : Lost t id := by
  unfold EngineState.recover at hs
  split at hs
  · rename_i i rest hd
    cases hs
    refine h.other rfl ?_ (fun hmem => ?_) rfl
    · unfold EngineState.holders
      rw [hd]
      exact mem_append_right _ (mem_append_right _ (mem_append_right _ mem_cons_self))
    unfold EngineState.holders at hmem ⊢
    rw [hd]
    simp only [mem_append] at hmem ⊢
    exact hmem.imp_right (Or.imp_right (Or.imp_right (mem_cons_of_mem _)))
  · rename_i hd
    cases hs
    refine h.changes rfl (fun hmem => ?_) (.same Request.Keeps.refl rfl)
    unfold EngineState.holders
    rw [hd]
    exact hmem
  · rename_i hd
    split at hs
    · rename_i i q hpop
      cases hs
      have hitems := PendingQueue.pop_some (q := s.pendingRequests) (by rw [hpop])
      rw [hpop] at hitems
      refine h.changes rfl (fun hmem => ?_) (.same Request.Keeps.refl rfl)
      unfold EngineState.holders at hmem ⊢
      rw [hd, hitems]
      simp only [ShutdownCall.held, mem_append, mem_cons, not_mem_nil, or_false] at hmem ⊢
      tauto
    cases hs
    refine h.changes rfl (fun hmem => ?_) (.same Request.Keeps.refl rfl)
    unfold EngineState.holders
    rw [hd]
    exact hmem
  · rename_i i hd
    cases hs
    refine h.other rfl ?_ (fun hmem => ?_) rfl
    · unfold EngineState.holders
      rw [hd]
      exact mem_append_right _ (mem_append_right _ (mem_append_right _ mem_cons_self))
    unfold EngineState.holders at hmem ⊢
    rw [hd]
    simp only [ShutdownCall.held, mem_append, not_mem_nil, or_false] at hmem ⊢
    exact hmem.imp_right (Or.imp_right Or.inl)
  · rename_i hd
    cases hs
    refine h.changes rfl (fun hmem => ?_) (.same Request.Keeps.refl rfl)
    unfold EngineState.holders
    rw [hd]
    exact hmem
  · cases hs

/-- **Nobody finds a lost request again.** -/
theorem Lost.step (h : Lost s id) (hp : Phases s) {e : Event}
    (hs : s.step e = some t) : Lost t id := by
  have hdead : ∀ {w : Worker} {p : Prop}, s.worker = w → w ≠ .exited → p :=
    fun hw hne => absurd (hw.symm.trans h.exited) hne
  cases e with
  | submit kind tier hasTokens =>
    obtain ⟨-, rfl⟩ := when_eq_some hs
    exact h.keep rfl (fun hmem => hmem) fun r hr => ⟨r, getElem?_append_of_some hr _, rfl, rfl⟩
  | push i =>
    simp only [EngineState.step] at hs
    split at hs
    · cases hs
    rename_i r' hr'
    obtain ⟨hsub, rfl⟩ := when_eq_some hs
    have hne : id ≠ i := by
      rintro rfl
      obtain ⟨-, r₀, hr₀, hnot⟩ := hp.submitting id hsub
      obtain ⟨r, hr, hqueued, -⟩ := h.request
      rw [some.inj (hr₀.symm.trans hr), hqueued] at hnot
      cases hnot
    refine h.keep rfl (fun hmem => ?_) fun r hr => ⟨r, ?_, rfl, rfl⟩
    · have hitems := PendingQueue.items_push_perm s.pendingRequests i r'.tier
      rcases mem_append.mp hmem with hpending | hrest
      · exact mem_append_left _
          ((mem_cons.mp (hitems.mem_iff.mp hpending)).resolve_left hne)
      · exact mem_append_right _ hrest
    show (s.modifyRequest i Request.enqueue).requests[id]? = some r
    rw [modifyRequest_get, hr, map_some, if_neg hne]
  | pushFails i | lookUp c i =>
    obtain ⟨-, rfl⟩ := when_eq_some hs
    exact h.changes rfl (fun hmem => hmem) (.same Request.Keeps.refl rfl)
  | cancel i =>
    cases hs
    unfold EngineState.cancelActive
    split
    · exact h.changes rfl (fun hmem => hmem)
        (.modified Request.Keeps.refl rfl fun r _ => ⟨rfl, rfl, fun hm => hm, fun _ hd => hd⟩)
    · exact h.changes rfl (fun hmem => hmem) (.same Request.Keeps.refl rfl)
  | record c i =>
    obtain ⟨-, rfl⟩ := when_eq_some hs
    exact h.changes rfl (fun hmem => hmem)
      (.modified Request.Keeps.refl rfl fun r _ => (Request.acknowledge_steady r).toKeeps)
  | dispatch i =>
    simp only [EngineState.step] at hs
    split at hs
    · cases hs
    · exact hdead (when_eq_some hs).1 (by simp)
  | reapRelease i =>
    simp only [EngineState.step] at hs
    split at hs
    · rename_i hw
      exact hdead hw (by simp)
    · cases hs
  | throw =>
    have hcan := (when_eq_some hs).1
    unfold EngineState.CanThrow at hcan
    rw [h.exited] at hcan
    exact False.elim hcan
  | shutdown | drained =>
    obtain ⟨⟨hd, -⟩, rfl⟩ := when_eq_some hs
    refine h.changes rfl (fun hmem => ?_) (.same Request.Keeps.refl rfl)
    unfold EngineState.holders
    rw [hd]
    exact hmem
  | timeout =>
    obtain ⟨hd, rfl⟩ := when_eq_some hs
    refine h.changes rfl (fun hmem => ?_) ⟨_, fun i => mapRequests_get s _ i, fun i r _ => ?_⟩
    · unfold EngineState.holders
      rw [hd]
      exact hmem
    split
    · exact (Request.cancel_steady r).toKeeps
    · exact Request.Keeps.refl r
  | stop =>
    obtain ⟨hd, rfl⟩ := when_eq_some hs
    refine h.changes rfl (fun hmem => ?_) (.same Request.Keeps.refl rfl)
    unfold EngineState.holders
    rw [hd]
    exact hmem
  | join =>
    obtain ⟨⟨hd, -⟩, rfl⟩ := when_eq_some hs
    refine h.changes rfl (fun hmem => ?_) (.same Request.Keeps.refl rfl)
    unfold EngineState.holders at hmem ⊢
    rw [hd]
    simp only [ShutdownCall.held, mem_append, not_mem_nil, or_false, false_or] at hmem ⊢
    exact hmem
  | recover => exact h.recover hs
  | look | pop | popMatching | popNothing | finish | markFinished | exitLoop =>
    exact hdead (when_eq_some hs).1.1 (by simp)
  | removePending | checkStatus | consume | graphDone | schedule | activate | release | finalize
  | sweep | reap | reaped => exact hdead (when_eq_some hs).1 (by simp)

theorem TerminalInv.lost (h : TerminalInv s) (hw : s.worker = .preparing id)
    (hs : s.step .throw = some t) : Lost t id := by
  obtain ⟨-, rfl⟩ := when_eq_some hs
  have hheld : id ∈ s.holders := by
    unfold EngineState.holders
    rw [hw]
    exact mem_append_right _ mem_cons_self
  have hnodup := h.nodup
  unfold EngineState.holders at hnodup
  rw [hw] at hnodup
  have hcons := perm_middle.nodup_iff.mp hnodup
  exact ⟨rfl, (nodup_cons.mp hcons).1, h.holds id hheld⟩

end Steps

/-! ### The result -/

/-- **One terminal callback and one release for each admitted request, in every run in
which the worker throws with nothing in its hands**; and after any other exception there
is a request that `Shutdown` leaves without either. -/
theorem one_terminal_each (exclusive : Bool) :
    (∀ t, Runs EngineState.step EngineState.NothingInHand (.init exclusive) t → t.OneTerminalEach) ∧
    ∀ s t u, Runs EngineState.step EngineState.NothingInHand (.init exclusive) s →
      ¬ s.NothingInHand .throw → s.step .throw = some t →
      Runs EngineState.step (fun _ _ => True) t u → u.shutdown = .returned →
      ¬ u.OneTerminalEach := by
  have hinv : ∀ t, Runs EngineState.step EngineState.NothingInHand (.init exclusive) t →
      TerminalInv t := fun t hrun =>
    hrun.inv (terminalInv_init exclusive) fun _ _ _ h hok hs => h.step hok hs
  refine ⟨fun t hrun => (hinv t hrun).oneTerminalEach, ?_⟩
  intro s t u hrun hhand hthrow hrest hreturned hone
  unfold EngineState.NothingInHand at hhand
  push Not at hhand
  obtain ⟨id, hw⟩ := hhand
  have hbefore := hinv s hrun
  have hlost : Phases u ∧ Lost u id :=
    hrest.inv (I := fun a => Phases a ∧ Lost a id)
      ⟨hbefore.toPhases.step hthrow, hbefore.lost hw hthrow⟩
      fun _ _ _ h _ hs => ⟨h.1.step hs, h.2.step h.1 hs⟩
  obtain ⟨r, hr, hqueued, hreleased⟩ := hlost.2.request
  have hgiven := (hone hreturned id r hr hqueued).2
  rw [hreleased] at hgiven
  cases hgiven

/-- A generation request that runs to its end, and a shutdown. -/
theorem finished_run : ∃ t, runList EngineState.step (.init false)
      [.submit .generation .premium true, .push 0, .look, .pop 0, .removePending 0,
        .checkStatus 0, .consume 0, .dispatch 0, .schedule 0 true, .activate 0,
        .finish 0 .success, .reap, .reapRelease 0, .reaped, .shutdown, .drained, .stop,
        .exitLoop, .join, .recover, .recover, .recover] = some t ∧
    t.shutdown = .returned ∧ t.OneTerminalEach := by
  refine ⟨_, rfl, rfl, (one_terminal_each false).1 _ ?_⟩
  have hchecked : ∀ (s : EngineState) (e : Event), (match e with
        | .throw => false
        | _ => true) = true → s.NothingInHand e := by
    intro s e h
    cases e with
    | throw => cases h
    | _ => trivial
  exact Runs.of_checked hchecked
    [.submit .generation .premium true, .push 0, .look, .pop 0, .removePending 0,
      .checkStatus 0, .consume 0, .dispatch 0, .schedule 0 true, .activate 0,
      .finish 0 .success, .reap, .reapRelease 0, .reaped, .shutdown, .drained, .stop,
      .exitLoop, .join, .recover, .recover, .recover] Runs.refl rfl

/-- The worker throws while it prepares the request.  `Shutdown` returns, and there was
no callback and no release. -/
theorem thrown_request_lost : ∃ t, runList EngineState.step (.init false)
      [.submit .generation .premium true, .push 0, .look, .pop 0, .removePending 0,
        .checkStatus 0, .consume 0, .dispatch 0, .throw, .shutdown, .drained, .stop, .join,
        .recover, .recover, .recover] = some t ∧
    t.shutdown = .returned ∧ t.requests.map (·.queued) = [true] ∧
    t.requests.map (·.terminals) = [[]] ∧ t.requests.map (·.released) = [0] ∧
    ¬ t.OneTerminalEach := by
  refine ⟨_, rfl, rfl, rfl, rfl, rfl, fun hone => ?_⟩
  cases (hone rfl 0 _ rfl rfl).2

/-! ### Between submission and shutdown -/

/-- **No request is lost or held twice.**  As long as the worker throws with nothing in its
hands, a queued request is always in exactly one place, or back in the pool, after its one
callback. -/
theorem held_once_or_released (exclusive : Bool) {s : EngineState}
    (hrun : Runs EngineState.step EngineState.NothingInHand (.init exclusive) s) {id : Nat}
    {r : Request} (hr : s.requests[id]? = some r) (hqueued : r.queued = true) :
    s.holders.count id = 1 ∧ r.released = 0 ∨
      id ∉ s.holders ∧ r.released = 1 ∧ r.terminals.length = 1 := by
  have h : TerminalInv s :=
    hrun.inv (terminalInv_init exclusive) fun _ _ _ h hok hs => h.step hok hs
  rcases (h.past id r hr).2 with hzero | ⟨-, hone, hdone⟩
  · exact Or.inl ⟨count_eq_one_of_mem h.nodup (h.kept id r hr hqueued hzero), hzero⟩
  refine Or.inr ⟨fun hid => ?_, hone, hdone⟩
  obtain ⟨r', hr', -, hzero⟩ := h.holds id hid
  rw [← some.inj (hr.symm.trans hr'), hone] at hzero
  cases hzero

theorem pushed_held_once : ∃ s : EngineState, s.requests.length = 1 ∧ s.holders.count 0 = 1 := by
  have hrun : Runs EngineState.step EngineState.NothingInHand (.init false) _ :=
    (Runs.refl.tail (e := .submit .graph .batch false) trivial rfl).tail (e := .push 0) trivial rfl
  rcases held_once_or_released false hrun (show _[0]? = some _ from rfl) rfl with h | h
  · exact ⟨_, rfl, h.1⟩
  · cases h.2.1

end DenseCore.Handover
