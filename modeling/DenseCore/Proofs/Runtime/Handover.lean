/-
What the steps of a request's way do to it.

The functions that finalise a request differ in their texts and in the flag they look
at.  To everything else they are alike: they keep the kind and the notes about the
past, they never take a cancellation back, and a request that they are meant for has
one terminal callback afterwards.  `Calm` and `Marked` say so once for all of them.
-/
import Mathlib.Data.List.Perm.Basic
import DenseCore.Runtime.Handover

namespace DenseCore.Handover

open List Option

open Lib

/-! ### The pending queue -/

namespace PendingQueue

theorem items_push_perm (q : PendingQueue) (item : Nat) (tier : Tier) :
    (q.push item tier).items.Perm (item :: q.items) := by
  cases tier with
  | premium =>
    show (q.premium ++ [item] ++ q.standard ++ q.batch).Perm _
    rw [append_assoc, append_assoc, items, append_assoc]
    exact perm_middle
  | standard =>
    show (q.premium ++ (q.standard ++ [item]) ++ q.batch).Perm _
    rw [← append_assoc, append_assoc]
    exact perm_middle
  | batch =>
    show (q.premium ++ q.standard ++ (q.batch ++ [item])).Perm _
    rw [← append_assoc]
    exact perm_append_singleton _ _

variable {q : PendingQueue} {item : Nat} {p : Nat → Bool}

theorem pop_some (h : q.pop.1 = some item) : q.items = item :: q.pop.2.items := by
  unfold pop items at *
  split at h
  · rename_i hp
    rw [← some.inj h, hp]
    rfl
  · rename_i hp hs
    rw [← some.inj h, hp, hs]
    rfl
  · rename_i hp hs hb
    rw [← some.inj h, hp, hs, hb]
    rfl
  · cases h

theorem pop_none (h : q.pop.1 = none) : q.items = [] := by
  unfold pop items at *
  split at h
  · cases h
  · cases h
  · cases h
  rename_i hp hs hb
  rw [hp, hs, hb]
  rfl

theorem select_perm {queue rest : List Nat}
    (h : select p queue = some (item, rest)) : queue.Perm (item :: rest) := by
  obtain ⟨x, hx, heq⟩ := map_eq_some_iff.mp h
  obtain ⟨rfl, rfl⟩ := Prod.mk.inj heq
  exact perm_cons_erase (mem_of_find?_eq_some hx)

theorem popMatching_perm
    (h : (q.popMatching p).1 = some item) : q.items.Perm (item :: (q.popMatching p).2.items) := by
  unfold popMatching items at *
  split at h
  · rename_i found rest hselect
    obtain rfl : found = item := some.inj h
    exact ((select_perm hselect).append_right _).append_right _
  split at h
  · rename_i found rest hselect
    obtain rfl : found = item := some.inj h
    exact (((select_perm hselect).append_left _).trans perm_middle).append_right _
  split at h
  · rename_i found rest hselect
    obtain rfl : found = item := some.inj h
    exact ((select_perm hselect).append_left _).trans perm_middle
  · cases h

end PendingQueue

/-! ### Requests -/

namespace Request

/-- What no step but its own changes, and a cancellation that stays. -/
structure Calm (r r' : Request) : Prop where
  kind : r'.kind = r.kind
  queued : r'.queued = r.queued
  acknowledged : r'.acknowledged = r.acknowledged
  cancelled : r.cancelled = true → r'.cancelled = true

theorem Calm.refl (r : Request) : r.Calm r := ⟨rfl, rfl, rfl, id⟩

variable {r r' : Request}

theorem Calm.trans {r'' : Request} (h : r.Calm r') (h' : r'.Calm r'') : r.Calm r'' :=
  ⟨h'.kind.trans h.kind, h'.queued.trans h.queued, h'.acknowledged.trans h.acknowledged,
    fun hc => h'.cancelled (h.cancelled hc)⟩

/-- The flag that goes with the kind. -/
def dispatched (r : Request) : Bool :=
  match r.kind with
  | .generation => r.generationTerminalDispatched
  | .embedding => r.embeddingTerminalDispatched
  | .graph => r.graphCallbackCompleted

theorem dispatched_generation (h : r.kind = .generation) :
    r.dispatched = r.generationTerminalDispatched := by
  unfold dispatched
  rw [h]

theorem dispatched_embedding (h : r.kind = .embedding) :
    r.dispatched = r.embeddingTerminalDispatched := by
  unfold dispatched
  rw [h]

theorem dispatched_graph (h : r.kind = .graph) : r.dispatched = r.graphCallbackCompleted := by
  unfold dispatched
  rw [h]

/-- The flag says whether there was a terminal callback, and there was one at most. -/
def Marked (r : Request) : Prop := r.terminals.length = r.dispatched.toNat

/-- It has had its one terminal callback. -/
def Done (r : Request) : Prop := r.terminals.length = 1

theorem Marked.done (h : r.Marked) (hd : r.dispatched = true) : r.Done := by
  unfold Done
  rw [h, hd]
  rfl

/-- What a function that may finalise a request does to it. -/
structure Finalizes (r r' : Request) : Prop extends Calm r r' where
  released : r'.released = r.released
  marked : r.Marked → r'.Marked
  done : r.Marked → r.Done → r'.Done
  finished : r.Marked → r'.finished = true → r.finished = true ∨ r'.Done

theorem Finalizes.refl (r : Request) : r.Finalizes r :=
  ⟨Calm.refl r, rfl, id, fun _ h => h, fun _ h => Or.inl h⟩

/-- Setting the flag and calling back. -/
theorem finalizes_of_dispatch (hcalm : r.Calm r')
    (hreleased : r'.released = r.released) (hbefore : r.dispatched = false)
    (hafter : r'.dispatched = true) {x : Terminal} (hx : r'.terminals = r.terminals ++ [x]) :
    r.Finalizes r' := by
  have hnone : r.Marked → r.terminals.length = 0 := by
    intro hm
    rw [hm, hbefore]
    rfl
  have hone : r.Marked → r'.terminals.length = 1 := by
    intro hm
    rw [hx, length_append, hnone hm]
    rfl
  refine ⟨hcalm, hreleased, fun hm => ?_, fun hm _ => hone hm, fun hm _ => Or.inr (hone hm)⟩
  unfold Marked
  rw [hone hm, hafter]
  rfl

theorem completeGraphRequest_finalizes (n : Int) (r : Request) :
    r.Finalizes (r.completeGraphRequest n) := by
  unfold completeGraphRequest
  split
  · exact Finalizes.refl r
  rename_i h
  rw [not_or, Classical.not_not, Bool.not_eq_true] at h
  refine finalizes_of_dispatch ⟨rfl, rfl, rfl, id⟩ rfl ?_ ?_ rfl
  · rw [dispatched_graph h.1]
    exact h.2
  · exact dispatched_graph h.1

theorem completeGraphRequest_dispatched (h : r.kind = .graph) (n : Int) :
    (r.completeGraphRequest n).dispatched = true := by
  unfold completeGraphRequest
  split
  · rename_i hflag
    rw [dispatched_graph h]
    exact hflag.resolve_left (not_not.mpr h)
  · exact dispatched_graph h

theorem finalizeGenerationRequestOnce_finalizes (text : String) (error : Bool) (r : Request) :
    r.Finalizes (r.finalizeGenerationRequestOnce text error) := by
  unfold finalizeGenerationRequestOnce
  split
  · exact Finalizes.refl r
  rename_i h
  rw [not_or, Classical.not_not, Bool.not_eq_true] at h
  refine finalizes_of_dispatch ⟨rfl, rfl, rfl, id⟩ rfl ?_ ?_ rfl
  · rw [dispatched_generation h.1]
    exact h.2
  · exact dispatched_generation h.1

theorem finalizeGenerationRequestOnce_dispatched (h : r.kind = .generation)
    (text : String) (error : Bool) :
    (r.finalizeGenerationRequestOnce text error).dispatched = true := by
  unfold finalizeGenerationRequestOnce
  split
  · rename_i hflag
    rw [dispatched_generation h]
    exact hflag.resolve_left (not_not.mpr h)
  · exact dispatched_generation h

theorem finalizeEmbeddingRequestOnce_finalizes (status : Int) (r : Request) :
    r.Finalizes (r.finalizeEmbeddingRequestOnce status) := by
  unfold finalizeEmbeddingRequestOnce
  split
  · exact Finalizes.refl r
  rename_i h
  rw [not_or, Classical.not_not, Bool.not_eq_true] at h
  refine finalizes_of_dispatch ⟨rfl, rfl, rfl, id⟩ rfl ?_ ?_ rfl
  · rw [dispatched_embedding h.1]
    exact h.2
  · exact dispatched_embedding h.1

theorem finalizeEmbeddingRequestOnce_dispatched (h : r.kind = .embedding)
    (status : Int) : (r.finalizeEmbeddingRequestOnce status).dispatched = true := by
  unfold finalizeEmbeddingRequestOnce
  split
  · rename_i hflag
    rw [dispatched_embedding h]
    exact hflag.resolve_left (not_not.mpr h)
  · exact dispatched_embedding h

theorem finalizeGenerationError_finalizes (canceled : Bool) (text : String) (r : Request) :
    r.Finalizes (r.finalizeGenerationError canceled text) := by
  unfold finalizeGenerationError
  split
  · exact Finalizes.refl r
  · exact finalizeEmbeddingRequestOnce_finalizes _ r
  · exact finalizeGenerationRequestOnce_finalizes _ _ r

theorem finalizeGenerationError_dispatched (h : r.kind ≠ .graph) (canceled : Bool)
    (text : String) : (r.finalizeGenerationError canceled text).dispatched = true := by
  unfold finalizeGenerationError
  split
  · rename_i hgraph
    exact absurd hgraph h
  · rename_i hkind
    exact finalizeEmbeddingRequestOnce_dispatched hkind _
  rename_i hkind
  exact finalizeGenerationRequestOnce_dispatched hkind _ _

theorem outcome_finalizes (outcome : Outcome) (r : Request) : r.Finalizes (outcome.finalize r) := by
  cases outcome with
  | error text => exact finalizeGenerationError_finalizes false text r
  | success =>
    unfold Outcome.finalize
    dsimp only
    split
    · exact finalizeEmbeddingRequestOnce_finalizes _ r
    · exact finalizeGenerationRequestOnce_finalizes _ _ r

theorem outcome_dispatched (h : r.kind ≠ .graph) (outcome : Outcome) :
    (outcome.finalize r).dispatched = true := by
  cases outcome with
  | error text => exact finalizeGenerationError_dispatched h false text
  | success =>
    unfold Outcome.finalize
    dsimp only
    split
    · rename_i hkind
      exact finalizeEmbeddingRequestOnce_dispatched hkind _
    rename_i hkind
    refine finalizeGenerationRequestOnce_dispatched ?_ _ _
    cases hcase : r.kind with
    | generation => rfl
    | embedding => exact absurd hcase hkind
    | graph => exact absurd hcase h

/-! ### What becomes of a request that is taken out

Each of these finalises a request, whatever its kind. -/

/-- A function that leaves a request finalised. -/
structure Retires (r r' : Request) : Prop extends Calm r r' where
  released : r'.released = r.released
  done : r.Marked → r'.Marked ∧ r'.Done

theorem Finalizes.retires (h : r.Finalizes r') (hd : r'.dispatched = true) : r.Retires r' :=
  ⟨h.toCalm, h.released, fun hm => ⟨h.marked hm, (h.marked hm).done hd⟩⟩

theorem cancel_calm (r : Request) : r.Calm r.cancel := ⟨rfl, rfl, rfl, fun _ => rfl⟩

theorem stopPending_retires (r : Request) : r.Retires r.stopPending := by
  have hcancel := cancel_calm r
  have hrest : r.cancel.Retires r.stopPending := by
    unfold stopPending
    dsimp only
    split
    · rename_i hkind
      exact (completeGraphRequest_finalizes _ _).retires
        (completeGraphRequest_dispatched (r := r.cancel) hkind _)
    rename_i hkind
    exact (finalizeGenerationError_finalizes _ _ _).retires
      (finalizeGenerationError_dispatched (r := r.cancel) hkind _ _)
  exact ⟨hcancel.trans hrest.toCalm, hrest.released, hrest.done⟩

theorem stopPending_cancelled (r : Request) : r.stopPending.cancelled = true := by
  have hrest : r.cancel.Calm r.stopPending := by
    unfold stopPending
    dsimp only
    split
    · exact (completeGraphRequest_finalizes _ _).toCalm
    · exact (finalizeGenerationError_finalizes _ _ _).toCalm
  exact hrest.cancelled rfl

theorem stopActive_calm (r : Request) : r.Calm r.stopActive := by
  have hcancel := cancel_calm r
  refine hcancel.trans ?_
  unfold stopActive
  dsimp only
  split
  · exact (finalizeEmbeddingRequestOnce_finalizes _ _).toCalm
  · exact (finalizeGenerationRequestOnce_finalizes _ _ _).toCalm

theorem stopActive_retires (hkind : r.kind ≠ .graph) : r.Retires r.stopActive := by
  have hrest : r.cancel.Retires r.stopActive := by
    unfold stopActive
    dsimp only
    split
    · rename_i hembedding
      exact (finalizeEmbeddingRequestOnce_finalizes _ _).retires
        (finalizeEmbeddingRequestOnce_dispatched (r := r.cancel) hembedding _)
    rename_i hother
    refine (finalizeGenerationRequestOnce_finalizes _ _ _).retires
      (finalizeGenerationRequestOnce_dispatched (r := r.cancel) ?_ _ _)
    cases hcase : r.kind with
    | generation => exact hcase
    | embedding => exact absurd hcase hother
    | graph => exact absurd hcase hkind
  exact ⟨(cancel_calm r).trans hrest.toCalm, hrest.released, hrest.done⟩

theorem skipCancelled_retires (r : Request) : r.Retires r.skipCancelled := by
  unfold skipCancelled
  split
  · rename_i hkind
    have hmark : r.Calm r.markFinished := ⟨rfl, rfl, rfl, id⟩
    have hrest := (completeGraphRequest_finalizes engineStopped r.markFinished).retires
      (completeGraphRequest_dispatched (r := r.markFinished) hkind _)
    exact ⟨hmark.trans hrest.toCalm, hrest.released, hrest.done⟩
  rename_i hkind
  exact (finalizeGenerationError_finalizes _ _ _).retires
    (finalizeGenerationError_dispatched hkind _ _)

theorem graphDone_retires (hkind : r.kind = .graph) (n : Int) :
    r.Retires (r.completeGraphRequest n).markFinished := by
  have hrest := (completeGraphRequest_finalizes n r).retires
    (completeGraphRequest_dispatched hkind n)
  exact ⟨⟨hrest.kind, hrest.queued, hrest.acknowledged, hrest.cancelled⟩, hrest.released, hrest.done⟩

end Request

/-! ### Requests by their ids -/

theorem mapRequests_get (s : EngineState) (f : Nat → Request → Request) (id : Nat) :
    (s.mapRequests f).requests[id]? = (s.requests[id]?).map (f id) := getElem?_mapIdx

theorem modifyRequest_get (s : EngineState) (id : Nat) (f : Request → Request) (i : Nat) :
    (s.modifyRequest id f).requests[i]? =
      (s.requests[i]?).map fun r => if i = id then f r else r := mapRequests_get _ _ _

theorem modifyRequest_cases {s : EngineState} {id i : Nat} {f : Request → Request} {r' : Request}
    (h : (s.modifyRequest id f).requests[i]? = some r') :
    ∃ r, s.requests[i]? = some r ∧ r' = if i = id then f r else r := by
  rw [modifyRequest_get] at h
  obtain ⟨r, hr, heq⟩ := map_eq_some_iff.mp h
  exact ⟨r, hr, heq.symm⟩

theorem modifyRequest_self {s : EngineState} {id : Nat} {r : Request}
    (h : s.requests[id]? = some r) (f : Request → Request) :
    (s.modifyRequest id f).requests[id]? = some (f r) := by
  rw [modifyRequest_get, h, map_some, if_pos rfl]

/-- The request a worker holds before it looks at the notes. -/
def Worker.deciding : Worker → Option Nat
  | .taken id => some id
  | .removed id => some id
  | .consuming id => some id
  | _ => none

/-! ### Steps that only move a request on -/

/-- Every request is still there, and what became of it is in the relation. -/
def Changes (R : Request → Request → Prop) (s t : EngineState) : Prop :=
  ∃ f : Nat → Request → Request, (∀ id : Nat, t.requests[id]? = (s.requests[id]?).map (f id)) ∧
    ∀ (id : Nat) r, s.requests[id]? = some r → R r (f id r)

/-- What a step changes that neither takes a request nor records anything about a
cancellation. -/
structure Frame (s t : EngineState) : Prop where
  requests : Changes Request.Calm s t
  notes : t.pendingCancellations = s.pendingCancellations
  items : t.pendingRequests = s.pendingRequests
  submitting : t.submitting = s.submitting
  status : t.status = s.status
  shutdown : t.shutdown = s.shutdown
  deciding : ∀ id, s.worker.deciding = some id → t.worker.deciding = some id
  exited : s.worker = .exited → t.worker = .exited

section Frames

variable {s t : EngineState}

variable {R : Request → Request → Prop} {id : Nat}

theorem Changes.before (h : Changes R s t) {r' : Request}
    (hr : t.requests[id]? = some r') : ∃ r, s.requests[id]? = some r ∧ R r r' := by
  obtain ⟨f, hget, hrel⟩ := h
  rw [hget] at hr
  obtain ⟨r, hbefore, rfl⟩ := map_eq_some_iff.mp hr
  exact ⟨r, hbefore, hrel id r hbefore⟩

theorem Changes.after (h : Changes R s t) {r : Request}
    (hr : s.requests[id]? = some r) : ∃ r', t.requests[id]? = some r' ∧ R r r' := by
  obtain ⟨f, hget, hrel⟩ := h
  refine ⟨f id r, ?_, hrel id r hr⟩
  rw [hget, hr, map_some]

theorem Changes.same (hrefl : ∀ r, R r r) (h : t.requests = s.requests) : Changes R s t :=
  ⟨fun _ r => r, fun id => by rw [h, Option.map_id'], fun _ r _ => hrefl r⟩

theorem Changes.modified (hrefl : ∀ r, R r r)
    {f : Request → Request} (ht : t.requests = (s.modifyRequest id f).requests)
    (hf : ∀ r, s.requests[id]? = some r → R r (f r)) : Changes R s t := by
  refine ⟨fun i r => if i = id then f r else r, fun i => by rw [ht, modifyRequest_get], ?_⟩
  intro i r hr
  dsimp only
  split
  · rename_i heq
    subst heq
    exact hf r hr
  · exact hrefl r

/-- The events of which `Frame` is true. -/
def Quiet (s : EngineState) : Event → Prop
  | .cancel id => id ∉ s.activeRequests
  | .lookUp _ _ | .look | .popNothing | .removePending _ | .dispatch _ | .graphDone _ _
  | .schedule _ _ | .activate _ | .release _ | .finish _ _ | .markFinished _ | .finalize _ _
  | .sweep | .reap | .reapRelease _ | .reaped | .throw | .exitLoop => True
  | _ => False

theorem dispatch_cases (h : s.dispatch id = some t) : ∃ r, s.requests[id]? = some r ∧
      ((∃ f : Request → Request, r.Retires (f r) ∧
          t = { s.modifyRequest id f with worker := .releasing id }) ∨
        r.cancelled = false ∧ r.kind = .graph ∧ t = { s with worker := .inGraph id } ∨
        r.cancelled = false ∧ r.kind ≠ .graph ∧ t = { s with worker := .preparing id }) := by
  obtain ⟨r, hr, rfl⟩ := map_eq_some_iff.mp h
  refine ⟨r, hr, ?_⟩
  by_cases hcancelled : r.cancelled = true
  · rw [if_pos hcancelled]
    exact Or.inl ⟨_, Request.skipCancelled_retires r, rfl⟩
  rw [if_neg hcancelled]
  rw [Bool.not_eq_true] at hcancelled
  unfold EngineState.start
  by_cases hkind : r.kind = .graph
  · rw [if_pos hkind]
    exact Or.inr (Or.inl ⟨hcancelled, hkind, rfl⟩)
  rw [if_neg hkind]
  by_cases htokens : r.hasTokens = false
  · rw [if_pos htokens]
    exact Or.inl ⟨_, (Request.finalizeGenerationError_finalizes _ _ r).retires
      (Request.finalizeGenerationError_dispatched hkind _ _), rfl⟩
  rw [if_neg htokens]
  exact Or.inr (Or.inr ⟨hcancelled, hkind, rfl⟩)

/-- **Most steps only move a request on.** -/
theorem frame_of_step {e : Event} (hquiet : Quiet s e) (h : s.step e = some t) : Frame s t := by
  have hleave : ∀ {w : Worker}, s.worker = w → w.deciding = none → w ≠ .exited →
      (∀ id, s.worker.deciding = some id → t.worker.deciding = some id) ∧
        (s.worker = .exited → t.worker = .exited) := by
    intro w hw hdeciding hexited
    subst hw
    exact ⟨fun id hid => (nomatch hdeciding.symm.trans hid), fun hw => absurd hw hexited⟩
  cases e with
  | cancel id =>
    cases h
    have ht : s.cancelActive id = { s with cancels := s.cancels ++ [.lookingUp id] } :=
      if_neg hquiet
    rw [ht]
    exact ⟨.same Request.Calm.refl rfl, rfl, rfl, rfl, rfl, rfl, fun _ h => h, fun h => h⟩
  | lookUp c id =>
    obtain ⟨-, rfl⟩ := when_eq_some h
    exact ⟨.same Request.Calm.refl rfl, rfl, rfl, rfl, rfl, rfl, fun _ h => h, fun h => h⟩
  | look | popNothing =>
    obtain ⟨hw, rfl⟩ := when_eq_some h
    obtain ⟨hd, he⟩ := hleave hw.1 rfl nofun
    exact ⟨.same Request.Calm.refl rfl, rfl, rfl, rfl, rfl, rfl, hd, he⟩
  | removePending id =>
    obtain ⟨hw, rfl⟩ := when_eq_some h
    refine ⟨.same Request.Calm.refl rfl, rfl, rfl, rfl, rfl, rfl, fun i hi => ?_, fun he => ?_⟩
    · rw [hw] at hi
      exact hi
    rw [hw] at he
    cases he
  | dispatch id =>
    simp only [EngineState.step] at h
    split at h
    · cases h
    rename_i u hu
    obtain ⟨hw, rfl⟩ := when_eq_some h
    obtain ⟨hd, he⟩ := hleave hw rfl nofun
    obtain ⟨r, hr, ⟨f, hf, rfl⟩ | ⟨-, -, rfl⟩ | ⟨-, -, rfl⟩⟩ := dispatch_cases hu
    · refine ⟨.modified Request.Calm.refl rfl fun r' hr' => ?_, rfl, rfl, rfl, rfl, rfl, hd, he⟩
      rw [← some.inj (hr.symm.trans hr')]
      exact hf.toCalm
    · exact ⟨.same Request.Calm.refl rfl, rfl, rfl, rfl, rfl, rfl, hd, he⟩
    · exact ⟨.same Request.Calm.refl rfl, rfl, rfl, rfl, rfl, rfl, hd, he⟩
  | graphDone id n =>
    obtain ⟨hw, rfl⟩ := when_eq_some h
    obtain ⟨hd, he⟩ := hleave hw rfl nofun
    refine ⟨.modified Request.Calm.refl rfl fun r _ => ?_, rfl, rfl, rfl, rfl, rfl, hd, he⟩
    have hcalm := (Request.completeGraphRequest_finalizes n r).toCalm
    exact ⟨hcalm.kind, hcalm.queued, hcalm.acknowledged, hcalm.cancelled⟩
  | schedule id accepted =>
    obtain ⟨hw, rfl⟩ := when_eq_some h
    obtain ⟨hd, he⟩ := hleave hw rfl nofun
    cases accepted with
    | true => exact ⟨.same Request.Calm.refl rfl, rfl, rfl, rfl, rfl, rfl, hd, he⟩
    | false =>
      exact ⟨.modified Request.Calm.refl rfl fun r _ =>
          (Request.finalizeGenerationError_finalizes _ _ r).toCalm,
        rfl, rfl, rfl, rfl, rfl, hd, he⟩
  | activate id | reap | reaped =>
    obtain ⟨hw, rfl⟩ := when_eq_some h
    obtain ⟨hd, he⟩ := hleave hw rfl nofun
    exact ⟨.same Request.Calm.refl rfl, rfl, rfl, rfl, rfl, rfl, hd, he⟩
  | release id =>
    obtain ⟨hw, rfl⟩ := when_eq_some h
    obtain ⟨hd, he⟩ := hleave hw rfl nofun
    exact ⟨.modified Request.Calm.refl rfl fun r _ => ⟨rfl, rfl, rfl, fun h => h⟩,
      rfl, rfl, rfl, rfl, rfl, hd, he⟩
  | finish id outcome =>
    obtain ⟨hw, rfl⟩ := when_eq_some h
    exact ⟨.modified Request.Calm.refl rfl fun r _ => (Request.outcome_finalizes outcome r).toCalm,
      rfl, rfl, rfl, rfl, rfl, fun _ h => h, fun h => h⟩
  | markFinished id =>
    obtain ⟨hw, rfl⟩ := when_eq_some h
    obtain ⟨hd, he⟩ := hleave hw.1 rfl nofun
    exact ⟨.modified Request.Calm.refl rfl fun r _ => ⟨rfl, rfl, rfl, fun h => h⟩,
      rfl, rfl, rfl, rfl, rfl, hd, he⟩
  | finalize id outcome =>
    obtain ⟨hw, rfl⟩ := when_eq_some h
    obtain ⟨hd, he⟩ := hleave hw rfl nofun
    exact ⟨.modified Request.Calm.refl rfl fun r _ => (Request.outcome_finalizes outcome r).toCalm,
      rfl, rfl, rfl, rfl, rfl, hd, he⟩
  | sweep =>
    obtain ⟨hw, rfl⟩ := when_eq_some h
    refine ⟨⟨_, fun id => mapRequests_get s _ id, fun id r _ => ?_⟩, rfl, rfl, rfl, rfl, rfl,
      fun _ h => h, fun h => h⟩
    split
    · exact (Request.finalizeGenerationError_finalizes _ _ r).toCalm
    · exact Request.Calm.refl r
  | reapRelease id =>
    simp only [EngineState.step] at h
    split at h
    · rename_i first rest hw
      obtain ⟨-, rfl⟩ := when_eq_some h
      obtain ⟨hd, he⟩ := hleave hw rfl nofun
      exact ⟨.modified Request.Calm.refl rfl fun r _ => ⟨rfl, rfl, rfl, fun h => h⟩,
      rfl, rfl, rfl, rfl, rfl, hd, he⟩
    · cases h
  | throw =>
    obtain ⟨hw, rfl⟩ := when_eq_some h
    refine ⟨.same Request.Calm.refl rfl, rfl, rfl, rfl, rfl, rfl, fun i hi => ?_, fun _ => rfl⟩
    unfold EngineState.CanThrow at hw
    split at hw
    · rename_i heq
      rw [heq] at hi
      cases hi
    · rename_i heq
      rw [heq] at hi
      cases hi
    · rename_i heq
      rw [heq] at hi
      cases hi
    · exact absurd hw id
  | exitLoop =>
    obtain ⟨hw, rfl⟩ := when_eq_some h
    obtain ⟨hd, -⟩ := hleave hw.1 rfl nofun
    exact ⟨.same Request.Calm.refl rfl, rfl, rfl, rfl, rfl, rfl, hd, fun _ => rfl⟩
  | _ => exact absurd hquiet id

end Frames

/-! ### Looking for a note -/

/-- What looking for a note about `id` does. -/
structure Consumed (s t : EngineState) (id : Nat) : Prop where
  requests : Changes Request.Calm s t
  sub : ∀ x ∈ t.pendingCancellations, x ∈ s.pendingCancellations
  keep : ∀ x ∈ s.pendingCancellations, x ≠ id → x ∈ t.pendingCancellations
  cancelled : id ∈ s.pendingCancellations → ∀ r, t.requests[id]? = some r → r.cancelled = true
  submitting : t.submitting = s.submitting
  status : t.status = s.status
  shutdown : t.shutdown = s.shutdown
  active : t.activeRequests = s.activeRequests

theorem consumed (s : EngineState) (id : Nat) :
    Consumed s (s.consumePendingCancellation id) id := by
  unfold EngineState.consumePendingCancellation
  by_cases hnote : id ∈ s.pendingCancellations
  · rw [if_pos hnote]
    refine ⟨.modified Request.Calm.refl rfl fun r _ => Request.cancel_calm r, fun x hx => ?_,
      fun x hx hne => ?_, fun _ r hr => ?_, rfl, rfl, rfl, rfl⟩
    · exact (mem_filter.mp hx).1
    · exact mem_filter.mpr ⟨hx, decide_eq_true hne⟩
    obtain ⟨r', -, rfl⟩ := modifyRequest_cases hr
    rw [if_pos rfl]
    rfl
  rw [if_neg hnote]
  exact ⟨.same Request.Calm.refl rfl, fun _ h => h, fun _ h _ => h, fun h => absurd h hnote,
    rfl, rfl, rfl, rfl⟩

theorem not_mem_consumed (s : EngineState) (id : Nat) :
    id ∉ (s.consumePendingCancellation id).pendingCancellations := by
  unfold EngineState.consumePendingCancellation
  by_cases hnote : id ∈ s.pendingCancellations
  · rw [if_pos hnote]
    intro hmem
    have hne := (mem_filter.mp hmem).2
    simp at hne
  · rwa [if_neg hnote]

theorem consumed_takeCancelled (s : EngineState) (id : Nat) :
    Consumed s (s.takeCancelled id) id := by
  unfold EngineState.takeCancelled
  split
  · rename_i hc
    refine ⟨.same Request.Calm.refl rfl, fun _ h => h, fun _ h _ => h, fun _ r hr => ?_,
      rfl, rfl, rfl, rfl⟩
    rw [hr] at hc
    exact hc
  · exact consumed s id

/-! ### How the threads stand to each other -/

/-- `Shutdown` has waited for the worker. -/
def ShutdownCall.Joined : ShutdownCall → Prop
  | .finalizing _ => True
  | .popping => True
  | .dropping _ => True
  | .clearing => True
  | .returned => True
  | _ => False

/-- `Shutdown` has emptied the queue. -/
def ShutdownCall.Emptied : ShutdownCall → Prop
  | .clearing => True
  | .returned => True
  | _ => False

theorem ShutdownCall.Emptied.joined {c : ShutdownCall} (h : c.Emptied) : c.Joined := by
  cases c <;> trivial

/-- What the status and the queue say about the threads. -/
structure Phases (s : EngineState) : Prop where
  status : s.status = .running ↔ s.shutdown = .notCalled
  submitting : ∀ id, s.submitting = some id →
    s.shutdown = .notCalled ∧ ∃ r, s.requests[id]? = some r ∧ r.queued = false
  joined : s.shutdown.Joined → s.worker = .exited
  emptied : s.shutdown.Emptied → s.pendingRequests.items = []

theorem phases_init (exclusive : Bool) : Phases (.init exclusive) where
  status := ⟨fun _ => rfl, fun _ => rfl⟩
  submitting := fun _ h => nomatch h
  joined := fun h => absurd h id
  emptied := fun _ => rfl

section PhaseSteps

variable {s t : EngineState}

theorem Phases.status_ne (h : Phases s) (hs : s.status ≠ .running) : s.shutdown ≠ .notCalled :=
  fun hcall => hs (h.status.mpr hcall)

/-- `Shutdown` waits for the worker before it touches anything. -/
theorem Phases.not_joined (h : Phases s) (hw : s.worker ≠ .exited) : ¬ s.shutdown.Joined :=
  fun hj => hw (h.joined hj)

/-- A step outside of `Shutdown`. -/
theorem Phases.keep (h : Phases s) (hstatus : t.status = s.status)
    (hshutdown : t.shutdown = s.shutdown) (hsubmitting : t.submitting = s.submitting)
    (hqueued : ∀ (id : Nat) r, s.requests[id]? = some r →
      ∃ r', t.requests[id]? = some r' ∧ r'.queued = r.queued)
    (hjoined : s.shutdown.Joined → s.worker = .exited →
      t.worker = .exited ∧ t.pendingRequests = s.pendingRequests) : Phases t where
  status := by
    rw [hstatus, hshutdown]
    exact h.status
  submitting := by
    intro id hid
    rw [hsubmitting] at hid
    obtain ⟨hcall, r, hr, hnot⟩ := h.submitting id hid
    obtain ⟨r', hr', hsame⟩ := hqueued id r hr
    rw [hshutdown]
    exact ⟨hcall, r', hr', hsame.trans hnot⟩
  joined := by
    rw [hshutdown]
    exact fun hj => (hjoined hj (h.joined hj)).1
  emptied := by
    rw [hshutdown]
    intro hdone
    rw [(hjoined hdone.joined (h.joined hdone.joined)).2]
    exact h.emptied hdone

/-- A step of `Shutdown` after it has begun. -/
theorem Phases.control (h : Phases s) (hcall : s.shutdown ≠ .notCalled)
    (hstatus : t.status ≠ .running) (hcall' : t.shutdown ≠ .notCalled)
    (hsubmitting : t.submitting = s.submitting) (hjoined : t.shutdown.Joined → t.worker = .exited)
    (hemptied : t.shutdown.Emptied → t.pendingRequests.items = []) :
    Phases t where
  status := ⟨fun hrun => absurd hrun hstatus, fun hnot => absurd hnot hcall'⟩
  submitting := by
    intro id hid
    rw [hsubmitting] at hid
    exact absurd (h.submitting id hid).1 hcall
  joined := hjoined
  emptied := hemptied

theorem Phases.frame (h : Phases s) (hf : Frame s t) : Phases t :=
  h.keep hf.status hf.shutdown hf.submitting
    (fun _ _ hr => by
      obtain ⟨r', hr', hcalm⟩ := hf.requests.after hr
      exact ⟨r', hr', hcalm.queued⟩)
    fun _ he => ⟨hf.exited he, hf.items⟩

theorem modified_queued {id : Nat} {f : Request → Request} (hf : ∀ r, (f r).queued = r.queued)
    (ht : t.requests = (s.modifyRequest id f).requests) :
    ∀ (i : Nat) r, s.requests[i]? = some r →
      ∃ r', t.requests[i]? = some r' ∧ r'.queued = r.queued := by
  intro i r hr
  refine ⟨_, by rw [ht, modifyRequest_get, hr, map_some], ?_⟩
  split
  · exact hf r
  · rfl

theorem same_queued (ht : t.requests = s.requests) : ∀ (i : Nat) r, s.requests[i]? = some r →
      ∃ r', t.requests[i]? = some r' ∧ r'.queued = r.queued :=
  fun _ r hr => ⟨r, by rw [ht, hr], rfl⟩

/-- The state of `Shutdown` when one of its later steps begins. -/
theorem Phases.begun (h : Phases s) {c : ShutdownCall} (hc : s.shutdown = c) (hj : c.Joined) :
    s.shutdown ≠ .notCalled ∧ s.worker = .exited ∧ s.status ≠ .running := by
  rw [← hc] at hj
  have hcall : s.shutdown ≠ .notCalled := by
    intro hnot
    rw [hnot] at hj
    exact hj
  exact ⟨hcall, h.joined hj, fun hrun => hcall (h.status.mp hrun)⟩

theorem Phases.recover (h : Phases s) (hs : s.recover = some t) : Phases t := by
  unfold EngineState.recover at hs
  split at hs
  · rename_i id rest hd
    obtain ⟨hcall, hexited, hstatus⟩ := h.begun hd trivial
    cases hs
    exact h.control hcall hstatus nofun rfl (fun _ => hexited) (fun hj => False.elim hj)
  · rename_i hd
    obtain ⟨hcall, hexited, hstatus⟩ := h.begun hd trivial
    cases hs
    exact h.control hcall hstatus nofun rfl (fun _ => hexited) (fun hj => False.elim hj)
  · rename_i hd
    obtain ⟨hcall, hexited, hstatus⟩ := h.begun hd trivial
    split at hs
    · cases hs
      exact h.control hcall hstatus nofun rfl (fun _ => hexited) (fun hj => False.elim hj)
    rename_i q hpop
    cases hs
    exact h.control hcall hstatus nofun rfl (fun _ => hexited) fun _ =>
      PendingQueue.pop_none (q := s.pendingRequests) (by rw [hpop])
  · rename_i id hd
    obtain ⟨hcall, hexited, hstatus⟩ := h.begun hd trivial
    cases hs
    exact h.control hcall hstatus nofun rfl (fun _ => hexited) (fun hj => False.elim hj)
  · rename_i hd
    obtain ⟨hcall, hexited, hstatus⟩ := h.begun hd trivial
    cases hs
    exact h.control hcall hstatus nofun rfl (fun _ => hexited) fun _ => h.emptied (by rw [hd]; trivial)
  · cases hs

/-- **Every step keeps the order of the threads.** -/
theorem Phases.step (h : Phases s) {e : Event} (hs : s.step e = some t) : Phases t := by
  have hbusy : ∀ {w : Worker}, s.worker = w → w ≠ .exited → ∀ {p : Prop},
      s.shutdown.Joined → s.worker = .exited → p := by
    rintro w rfl hne p - hexited
    exact absurd hexited hne
  have hcallOf : ∀ {c : ShutdownCall}, s.shutdown = c → c ≠ .notCalled →
      s.shutdown ≠ .notCalled ∧ s.status ≠ .running := by
    rintro c rfl hne
    exact ⟨hne, fun hrun => hne (h.status.mp hrun)⟩
  cases e with
  | submit kind tier hasTokens =>
    obtain ⟨⟨hrunning, -⟩, rfl⟩ := when_eq_some hs
    refine ⟨h.status, fun id hid => ?_, h.joined, h.emptied⟩
    refine ⟨h.status.mp hrunning, .new kind tier hasTokens, ?_, rfl⟩
    rw [← some.inj hid]
    exact getElem?_concat_length
  | push id =>
    simp only [EngineState.step] at hs
    split at hs
    · cases hs
    obtain ⟨hsub, rfl⟩ := when_eq_some hs
    refine ⟨h.status, fun _ h => (nomatch h), h.joined, ?_⟩
    show s.shutdown.Emptied → _
    rw [(h.submitting id hsub).1]
    exact fun hj => False.elim hj
  | pushFails id =>
    obtain ⟨-, rfl⟩ := when_eq_some hs
    exact ⟨h.status, fun _ h => (nomatch h), h.joined, h.emptied⟩
  | cancel id =>
    cases hs
    by_cases hactive : id ∈ s.activeRequests
    · have ht : s.cancelActive id =
        { s.modifyRequest id fun r => r.cancel.acknowledge with
          cancels := s.cancels ++ [.returned 0] } := if_pos hactive
      rw [ht]
      exact h.keep rfl rfl rfl (modified_queued (f := fun r => r.cancel.acknowledge) (fun _ => rfl) rfl)
        fun _ he => ⟨he, rfl⟩
    · exact h.frame (frame_of_step (e := .cancel id) hactive rfl)
  | record c id =>
    obtain ⟨-, rfl⟩ := when_eq_some hs
    exact h.keep rfl rfl rfl (modified_queued (f := Request.acknowledge) (fun _ => rfl) rfl)
      fun _ he => ⟨he, rfl⟩
  | pop id =>
    obtain ⟨hw, rfl⟩ := when_eq_some hs
    exact h.keep rfl rfl rfl (same_queued rfl) (hbusy hw.1 nofun)
  | popMatching id =>
    obtain ⟨hw, rfl⟩ := when_eq_some hs
    have hc := consumed_takeCancelled s id
    refine h.keep hc.status hc.shutdown hc.submitting (fun i r hr => ?_) (hbusy hw.1 nofun)
    obtain ⟨r', hr', hcalm⟩ := hc.requests.after hr
    exact ⟨r', hr', hcalm.queued⟩
  | checkStatus id =>
    obtain ⟨hw, rfl⟩ := when_eq_some hs
    split
    · exact h.keep rfl rfl rfl (same_queued rfl) (hbusy hw nofun)
    exact h.keep rfl rfl rfl
      (modified_queued (fun r => (Request.stopPending_retires r).queued) rfl) (hbusy hw nofun)
  | consume id =>
    obtain ⟨hw, rfl⟩ := when_eq_some hs
    have hc := consumed s id
    refine h.keep hc.status hc.shutdown hc.submitting (fun i r hr => ?_) (hbusy hw nofun)
    obtain ⟨r', hr', hcalm⟩ := hc.requests.after hr
    exact ⟨r', hr', hcalm.queued⟩
  | shutdown =>
    obtain ⟨⟨-, hnone⟩, rfl⟩ := when_eq_some hs
    refine ⟨⟨nofun, nofun⟩, fun id hid => ?_, fun hj => False.elim hj, fun hj => False.elim hj⟩
    cases hnone.symm.trans hid
  | drained =>
    obtain ⟨⟨hd, -⟩, rfl⟩ := when_eq_some hs
    obtain ⟨hcall, hstatus⟩ := hcallOf hd nofun
    exact h.control hcall hstatus nofun rfl (fun hj => False.elim hj) (fun hj => False.elim hj)
  | timeout =>
    obtain ⟨hd, rfl⟩ := when_eq_some hs
    obtain ⟨hcall, hstatus⟩ := hcallOf hd nofun
    exact h.control hcall hstatus nofun rfl (fun hj => False.elim hj) (fun hj => False.elim hj)
  | stop =>
    obtain ⟨hd, rfl⟩ := when_eq_some hs
    obtain ⟨hcall, hstatus⟩ := hcallOf hd nofun
    exact h.control hcall nofun nofun rfl (fun hj => False.elim hj) (fun hj => False.elim hj)
  | join =>
    obtain ⟨⟨hd, hexited⟩, rfl⟩ := when_eq_some hs
    obtain ⟨hcall, hstatus⟩ := hcallOf hd nofun
    exact h.control hcall hstatus nofun rfl (fun _ => hexited) (fun hj => False.elim hj)
  | recover => exact h.recover hs
  | _ => exact h.frame (frame_of_step (by exact trivial) hs)

end PhaseSteps

end DenseCore.Handover
