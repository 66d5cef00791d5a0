/-
Who holds a request.

A queued request that was not released is held by exactly one place: the queue, the
worker, the active list, or `Shutdown`.  `Ledger` says so, and that a released request
has had its one terminal callback.  Where a request goes from the worker back to the
pool it must have been finalised before; `Roles` says what each place knows about the
requests it holds.
-/
import DenseCore.Proofs.Runtime.Handover

namespace DenseCore.Handover

open Lib List

/-! ### Who holds a request -/

/-- The requests in the worker's hands. -/
def Worker.held : Worker → List Nat
  | .taken id | .removed id | .consuming id | .checked id | .inGraph id | .preparing id
  | .admitted id | .releasing id => [id]
  | .reaping ids => ids
  | .idle | .looking | .finishing _ | .exited => []

/-- The requests that go on to the active list. -/
def Worker.admitting : Worker → List Nat
  | .preparing id | .admitted id => [id]
  | _ => []

/-- The active requests that `Shutdown` has yet to finalise. -/
def ShutdownCall.finals : ShutdownCall → List Nat
  | .finalizing ids => ids
  | _ => []

/-- The requests in the hands of `Shutdown`. -/
def ShutdownCall.held : ShutdownCall → List Nat
  | .finalizing ids => ids
  | .dropping id => [id]
  | _ => []

/-- Whether the worker has still to call back for a request that is marked as finished. -/
def Worker.Late : Worker → Nat → Prop
  | .finishing i, id => i = id
  | .exited, _ => True
  | _, _ => False

/-- What must be true of the requests in the worker's hands. -/
def Worker.Demands : Worker → Nat → Request → Prop
  | .inGraph i, id, r => i = id → r.kind = .graph
  | .releasing i, id, r => i = id → r.Done
  | .reaping ids, id, r => id ∈ ids → r.Done
  | _, _, _ => True

namespace EngineState

/-- The requests that are held somewhere. -/
def holders (s : EngineState) : List Nat :=
  s.pendingRequests.items ++ (s.worker.held ++ (s.activeRequests ++ s.shutdown.held))

/-- The requests that are known not to be graph requests. -/
def decoded (s : EngineState) : List Nat :=
  s.worker.admitting ++ (s.activeRequests ++ s.shutdown.finals)

end EngineState

/-- Where the requests are. -/
structure Ledger (s : EngineState) : Prop where
  nodup : s.holders.Nodup
  holds : ∀ id ∈ s.holders, ∃ r, s.requests[id]? = some r ∧ r.queued = true ∧ r.released = 0
  kept : ∀ (id : Nat) r, s.requests[id]? = some r → r.queued = true → r.released = 0 →
    id ∈ s.holders
  past : ∀ (id : Nat) r, s.requests[id]? = some r →
    r.Marked ∧ (r.released = 0 ∨ r.queued = true ∧ r.released = 1 ∧ r.Done)

/-- What the threads know about them. -/
structure Roles (s : EngineState) : Prop where
  worker : ∀ (id : Nat) r, s.requests[id]? = some r → s.worker.Demands id r
  decoded : ∀ id ∈ s.decoded, ∀ r, s.requests[id]? = some r → r.kind ≠ .graph
  finished : ∀ (id : Nat) r, s.requests[id]? = some r → r.finished = true →
    r.Done ∨ s.worker.Late id
  finishing : ∀ id, s.worker = .finishing id → id ∈ s.activeRequests
  left : s.shutdown.Joined → s.activeRequests = []

/-- The invariant behind the one terminal result. -/
structure TerminalInv (s : EngineState) : Prop extends Phases s, Ledger s, Roles s

/-! ### What a step does to a request -/

namespace Request

/-- What the ledger has of a request. -/
structure Keeps (r r' : Request) : Prop where
  queued : r'.queued = r.queued
  released : r'.released = r.released
  marked : r.Marked → r'.Marked
  done : r.Marked → r.Done → r'.Done

/-- What the threads know of a request. -/
structure Sound (r r' : Request) : Prop where
  kind : r'.kind = r.kind
  done : r.Marked → r.Done → r'.Done
  finished : r.Marked → r'.finished = true → r.finished = true ∨ r'.Done

/-- What most steps do. -/
structure Steady (r r' : Request) : Prop extends Keeps r r', Sound r r'

theorem Keeps.refl (r : Request) : r.Keeps r := ⟨rfl, rfl, id, fun _ h => h⟩

theorem Sound.refl (r : Request) : r.Sound r := ⟨rfl, fun _ h => h, fun _ h => Or.inl h⟩

theorem Steady.refl (r : Request) : r.Steady r := ⟨Keeps.refl r, rfl, fun _ h => Or.inl h⟩

variable {r r' : Request}

theorem Finalizes.steady (h : r.Finalizes r') : r.Steady r' :=
  ⟨⟨h.queued, h.released, h.marked, h.done⟩, h.kind, h.finished⟩

theorem Retires.steady (h : r.Retires r') : r.Steady r' :=
  ⟨⟨h.queued, h.released, fun hm => (h.done hm).1, fun hm _ => (h.done hm).2⟩, h.kind,
    fun hm _ => Or.inr (h.done hm).2⟩

theorem cancel_steady (r : Request) : r.Steady r.cancel :=
  ⟨⟨rfl, rfl, id, fun _ h => h⟩, rfl, fun _ h => Or.inl h⟩

theorem acknowledge_steady (r : Request) : r.Steady r.acknowledge :=
  ⟨⟨rfl, rfl, id, fun _ h => h⟩, rfl, fun _ h => Or.inl h⟩

theorem release_sound (r : Request) : r.Sound r.release :=
  ⟨rfl, fun _ h => h, fun _ h => Or.inl h⟩

theorem enqueue_sound (r : Request) : r.Sound r.enqueue :=
  ⟨rfl, fun _ h => h, fun _ h => Or.inl h⟩

theorem markFinished_keeps (r : Request) : r.Keeps r.markFinished :=
  ⟨rfl, rfl, id, fun _ h => h⟩

/-- What giving a finalised request back to the pool does to it. -/
structure GivesBack (r r' : Request) : Prop extends Sound r r' where
  queued : r'.queued = r.queued
  released : r'.released = r.released + 1
  marked : r'.Marked
  did : r'.Done

theorem release_givesBack (hm : r.Marked) (hd : r.Done) : r.GivesBack r.release :=
  ⟨release_sound r, rfl, rfl, hm, hd⟩

theorem Retires.givesBack (h : r.Retires r') (hm : r.Marked) : r.GivesBack r'.release :=
  ⟨⟨h.kind, fun _ _ => (h.done hm).2, fun _ _ => Or.inr (h.done hm).2⟩, h.queued,
    congrArg (· + 1) h.released, (h.done hm).1, (h.done hm).2⟩

end Request

section Changed

variable {s t : EngineState}

theorem Changes.mono {R R' : Request → Request → Prop} (himp : ∀ r r', R r r' → R' r r')
    (h : Changes R s t) : Changes R' s t := by
  obtain ⟨f, hget, hrel⟩ := h
  exact ⟨f, hget, fun id r hr => himp _ _ (hrel id r hr)⟩

/-! ### The ledger -/

theorem Ledger.move (h : Ledger s) (hreq : Changes Request.Keeps s t)
    (hperm : t.holders.Perm s.holders) : Ledger t where
  nodup := hperm.nodup_iff.mpr h.nodup
  holds := by
    intro id hid
    obtain ⟨r, hr, hqueued, hreleased⟩ := h.holds id (hperm.mem_iff.mp hid)
    obtain ⟨r', hr', hkeeps⟩ := hreq.after hr
    exact ⟨r', hr', hkeeps.queued.trans hqueued, hkeeps.released.trans hreleased⟩
  kept := by
    intro id r' hr' hqueued hreleased
    obtain ⟨r, hr, hkeeps⟩ := hreq.before hr'
    rw [hkeeps.queued] at hqueued
    rw [hkeeps.released] at hreleased
    exact hperm.mem_iff.mpr (h.kept id r hr hqueued hreleased)
  past := by
    intro id r' hr'
    obtain ⟨r, hr, hkeeps⟩ := hreq.before hr'
    obtain ⟨hmarked, hpast⟩ := h.past id r hr
    refine ⟨hkeeps.marked hmarked, ?_⟩
    rw [hkeeps.released, hkeeps.queued]
    exact hpast.imp_right fun ⟨hqueued, hone, hdone⟩ =>
      ⟨hqueued, hone, hkeeps.done hmarked hdone⟩

variable {id : Nat} {w : Worker} {r : Request}

/-- A holder gives its request back to the pool. -/
theorem Ledger.giveBack (h : Ledger s) {f : Request → Request}
    (ht : t.requests = (s.modifyRequest id f).requests)
    (hf : ∀ r, s.requests[id]? = some r → r.GivesBack (f r))
    (hperm : s.holders.Perm (id :: t.holders)) : Ledger t := by
  have hnodup := hperm.nodup_iff.mp h.nodup
  have hrequests : ∀ {i : Nat} {r' : Request}, t.requests[i]? = some r' →
      ∃ r, s.requests[i]? = some r ∧ r' = if i = id then f r else r := by
    intro i r' hr'
    rw [ht] at hr'
    exact modifyRequest_cases hr'
  refine ⟨(nodup_cons.mp hnodup).2, ?_, ?_, ?_⟩
  · intro i hi
    obtain ⟨r, hr, hstate⟩ := h.holds i (hperm.mem_iff.mpr (mem_cons_of_mem _ hi))
    have hne : i ≠ id := by
      rintro rfl
      exact (nodup_cons.mp hnodup).1 hi
    refine ⟨r, ?_, hstate⟩
    rw [ht, modifyRequest_get, hr, Option.map_some, if_neg hne]
  · intro i r' hr' hqueued hreleased
    obtain ⟨r, hr, rfl⟩ := hrequests hr'
    by_cases hid : i = id
    · subst hid
      rw [if_pos rfl, (hf r hr).released] at hreleased
      exact absurd hreleased (Nat.succ_ne_zero _)
    rw [if_neg hid] at hqueued hreleased
    have hmem := hperm.mem_iff.mp (h.kept i r hr hqueued hreleased)
    exact (mem_cons.mp hmem).resolve_left hid
  intro i r' hr'
  obtain ⟨r, hr, rfl⟩ := hrequests hr'
  by_cases hid : i = id
  · subst hid
    rw [if_pos rfl]
    obtain ⟨r₀, hr₀, hqueued, hzero⟩ := h.holds i (hperm.mem_iff.mpr mem_cons_self)
    rw [Option.some.inj (hr₀.symm.trans hr)] at hqueued hzero
    have hgive := hf r hr
    exact ⟨hgive.marked, Or.inr
      ⟨hgive.queued.trans hqueued, by rw [hgive.released, hzero], hgive.did⟩⟩
  rw [if_neg hid]
  exact h.past i r hr

/-! ### The roles -/

theorem demands_of_not_held (h : id ∉ w.held) (r : Request) : w.Demands id r := by
  cases w with
  | inGraph i | releasing i =>
    intro heq
    exact absurd (mem_singleton.mpr heq.symm) h
  | reaping ids => exact fun hid => absurd hid h
  | _ => trivial

theorem demands_sound {r' : Request} (hm : r.Marked)
    (hsound : r.Sound r') (h : w.Demands id r) : w.Demands id r' := by
  cases w with
  | inGraph i => exact fun heq => hsound.kind.trans (h heq)
  | releasing i => exact fun heq => hsound.done hm (h heq)
  | reaping ids => exact fun hid => hsound.done hm (h hid)
  | _ => trivial

theorem Ledger.demands (hl : Ledger s) (hr : Roles s) (hreq : Changes Request.Sound s t)
    (hget : t.requests[id]? = some r) : s.worker.Demands id r := by
  obtain ⟨r₀, hr₀, hsound⟩ := hreq.before hget
  exact demands_sound (hl.past id r₀ hr₀).1 hsound (hr.worker id r₀ hr₀)

theorem Roles.keep (h : Roles s) (hl : Ledger s) (hreq : Changes Request.Sound s t)
    (hworker : ∀ (id : Nat) r, t.requests[id]? = some r → t.worker.Demands id r)
    (hdecoded : ∀ id ∈ t.decoded, id ∈ s.decoded ∨ ∀ r, s.requests[id]? = some r → r.kind ≠ .graph)
    (hlate : ∀ (id : Nat) r, t.requests[id]? = some r → s.worker.Late id →
      r.Done ∨ t.worker.Late id)
    (hfinishing : ∀ id, t.worker = .finishing id → id ∈ t.activeRequests)
    (hleft : t.shutdown.Joined → t.activeRequests = []) : Roles t where
  worker := hworker
  decoded := by
    intro id hid r' hr'
    obtain ⟨r, hr, hsound⟩ := hreq.before hr'
    rw [hsound.kind]
    rcases hdecoded id hid with hold | hkind
    · exact h.decoded id hold r hr
    · exact hkind r hr
  finished := by
    intro id r' hr' hfinished
    obtain ⟨r, hr, hsound⟩ := hreq.before hr'
    have hmarked := (hl.past id r hr).1
    rcases hsound.finished hmarked hfinished with hbefore | hdone
    · rcases h.finished id r hr hbefore with hdone | hl
      · exact Or.inl (hsound.done hmarked hdone)
      · exact hlate id r' hr' hl
    · exact Or.inl hdone
  finishing := hfinishing
  left := hleft

end Changed

theorem terminalInv_init (exclusive : Bool) : TerminalInv (.init exclusive) where
  toPhases := phases_init exclusive
  toLedger := ⟨nodup_nil, fun _ h => (nomatch h), fun _ _ h => (nomatch h), fun _ _ h => (nomatch h)⟩
  toRoles :=
    ⟨fun _ _ h => (nomatch h), fun _ h => (nomatch h), fun _ _ h => (nomatch h), nofun, fun _ => rfl⟩

end DenseCore.Handover
