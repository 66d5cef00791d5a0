/-
The invariant of the worker loop.

The blocks in custody are those in the tables of the requests and those the
waiting groups still hold.  Beside that the invariant says how the two sides see
a sequence: every id the scheduler has is the id of a request; a group no output
has listed has an empty table at the worker and does not run; a group some output
has listed has handed its cached prefix over.

This file has the invariant and what the operations on a single request keep.
-/
import DenseCore.Runtime.Lifecycle
import DenseCore.Proofs.Runtime.Requests

namespace DenseCore

open List

open BlockManager Scheduler

namespace Engine

variable {σ : Type}

/-! ### The tables -/

variable (e : Engine σ)

/-- Every block in a table of the worker. -/
def tables : List Int := e.requests.flatMap (·.blockTable)

/-- The blocks of every table but one. -/
def otherTables (id : Int) : List Int :=
  (e.requests.filter fun r => r.seqId ≠ id).flatMap (·.blockTable)

theorem findRequest_some {e : Engine σ} {id : Int} {r : Request σ}
    (h : e.findRequest id = some r) : r ∈ e.requests ∧ r.seqId = id :=
  ⟨mem_of_find?_eq_some h, by simpa using find?_some h⟩

theorem findRequest_none {e : Engine σ} {id : Int} (h : e.findRequest id = none) :
    ∀ r ∈ e.requests, r.seqId ≠ id := by
  intro r hr
  simpa using find?_eq_none.mp h r hr

theorem tables_split {id : Int} {r : Request σ} : ∀ {rs : List (Request σ)},
    (rs.map (·.seqId)).Nodup → rs.find? (fun r => r.seqId = id) = some r →
      (rs.flatMap (·.blockTable)).Perm
        (r.blockTable ++ (rs.filter fun r => r.seqId ≠ id).flatMap (·.blockTable)) := by
  intro rs
  induction rs with
  | nil => intro _ h; simp at h
  | cons r' rs ih =>
    intro hnodup hfind
    rw [map_cons, nodup_cons] at hnodup
    by_cases heq : r'.seqId = id
    · obtain rfl : r' = r := by simpa [find?_cons, heq] using hfind
      have hrest : rs.filter (fun r => r.seqId ≠ id) = rs := by
        rw [filter_eq_self]
        intro x hx
        simp only [ne_eq, decide_eq_true_eq]
        intro hx'
        exact hnodup.1 (by rw [heq, ← hx']; exact mem_map_of_mem hx)
      rw [filter_cons_of_neg (by simpa using heq), hrest]
      exact Perm.refl _
    rw [find?_cons_of_neg (by simpa using heq)] at hfind
    rw [filter_cons_of_pos (by simpa using heq), flatMap_cons, flatMap_cons]
    exact ((ih hnodup.2 hfind).append_left _).trans (perm_append_comm_assoc _ _ _)

theorem tables_perm {e : Engine σ} (hnodup : (e.requests.map (·.seqId)).Nodup) {id : Int}
    {r : Request σ} (h : e.findRequest id = some r) :
    e.tables.Perm (r.blockTable ++ e.otherTables id) := tables_split hnodup h

section UpdateRequest

variable (e : Engine σ) (id : Int) (f : Request σ → Request σ) (hf : ∀ r, (f r).seqId = r.seqId)

include hf

theorem updateRequest_ids :
    (e.updateRequest id f).requests.map (·.seqId) = e.requests.map (·.seqId) := by
  unfold updateRequest
  rw [map_map]
  refine map_congr_left fun r _ => ?_
  dsimp only [Function.comp]
  split
  · exact hf r
  · rfl

theorem updateRequest_other : (e.updateRequest id f).otherTables id = e.otherTables id := by
  unfold otherTables updateRequest
  dsimp only
  induction e.requests with
  | nil => rfl
  | cons r rs ih =>
    rw [map_cons]
    by_cases heq : r.seqId = id
    · rw [if_pos heq, filter_cons_of_neg (by simp [hf, heq]),
        filter_cons_of_neg (by simpa using heq), ih]
    rw [if_neg heq, filter_cons_of_pos (by simpa using heq),
      filter_cons_of_pos (by simpa using heq), flatMap_cons, flatMap_cons, ih]

theorem updateRequest_find {r : Request σ} (h : e.findRequest id = some r) :
    (e.updateRequest id f).findRequest id = some (f r) := by
  unfold findRequest at h ⊢
  unfold updateRequest
  dsimp only
  generalize e.requests = rs at h ⊢
  induction rs with
  | nil => simp at h
  | cons r' rs ih =>
    rw [map_cons]
    by_cases heq : r'.seqId = id
    · obtain rfl : r' = r := by simpa [find?_cons, heq] using h
      rw [if_pos heq, find?_cons_of_pos (by simp [hf, heq])]
    rw [find?_cons_of_neg (by simpa using heq)] at h
    rw [if_neg heq, find?_cons_of_neg (by simpa using heq)]
    exact ih h

theorem updateRequest_tables (hnodup : (e.requests.map (·.seqId)).Nodup) {r : Request σ}
    (h : e.findRequest id = some r) :
    (e.updateRequest id f).tables.Perm ((f r).blockTable ++ e.otherTables id) := by
  have hnodup' : ((e.updateRequest id f).requests.map (·.seqId)).Nodup := by
    rw [updateRequest_ids e id f hf]; exact hnodup
  have hperm := tables_perm hnodup' (updateRequest_find e id f hf h)
  rwa [updateRequest_other e id f hf] at hperm

end UpdateRequest

theorem updateRequest_absent (id : Int) (f : Request σ → Request σ)
    (h : e.findRequest id = none) : (e.updateRequest id f) = e := by
  unfold updateRequest
  have hsame : (e.requests.map fun r => if r.seqId = id then f r else r) = e.requests := by
    conv_rhs => rw [← map_id e.requests]
    refine map_congr_left fun r hr => ?_
    rw [if_neg (findRequest_none h r hr)]
    rfl
  rw [hsame]

/-! ### The invariant -/

/-- Some output has listed the sequence for prefill. -/
def Seen (id : Int) : Prop := ∃ o ∈ e.log, id ∈ o.prefillSeqIds

/-- The worker has a request for the sequence. -/
def Known (id : Int) : Prop := ∃ r ∈ e.requests, r.seqId = id

/-- The sequence is not one that waits to be listed. -/
def Old (id : Int) : Prop :=
  id < e.scheduler.nextSeqId ∧
    ∀ g ∈ e.scheduler.waitingQueue, ¬ e.Seen g.sequenceId → g.sequenceId ≠ id

/-- The group of the sequence still holds a cached prefix. -/
def HoldsPrefix (id : Int) : Prop :=
  ∃ g ∈ e.scheduler.waitingQueue, g.sequenceId = id ∧ g.sharedBlockIds ≠ []

/-- How scheduler and worker see the sequences. -/
structure Shape (t : ModelTraits σ) (e : Engine σ) : Prop where
  within : Within e.Known (t.prefixCacheAllowed = false) e.scheduler e.scheduler.waitingQueue {}
  requestsNodup : (e.requests.map (·.seqId)).Nodup
  requestsBounded : ∀ r ∈ e.requests, r.seqId < e.scheduler.nextSeqId
  seenBounded : ∀ id, e.Seen id → id < e.scheduler.nextSeqId
  nodup : (e.scheduler.waitingQueue.map (·.sequenceId)).Nodup
  bounded : Bounded e.scheduler
  fresh : ∀ g ∈ e.scheduler.waitingQueue, ¬ e.Seen g.sequenceId → Fresh e.scheduler {} g
  started : ∀ g ∈ e.scheduler.waitingQueue, e.Seen g.sequenceId → Started e.scheduler g
  unserved : ∀ g ∈ e.scheduler.waitingQueue, ¬ e.Seen g.sequenceId →
    ∀ r ∈ e.requests, r.seqId = g.sequenceId → r.blockTable = []
  batched : ∀ a ∈ e.batch, e.Old a.1
  decoded : ∀ o ∈ e.log, ∀ id ∈ o.decodeSeqIds, e.Old id

/-- The invariant of the loop. -/
structure Inv (ok : Prop) (t : ModelTraits σ) (e : Engine σ) : Prop extends Shape t e where
  custody : CustodyUpTo ok e.manager (e.tables ++ sharedOf e.scheduler.waitingQueue)

variable {ok : Prop} {t : ModelTraits σ} {e : Engine σ} {id : Int}

theorem Shape.groupsBounded (h : Shape t e) :
    ∀ g ∈ e.scheduler.waitingQueue, g.sequenceId < e.scheduler.nextSeqId := by
  intro g hg
  obtain ⟨r, hr, hid⟩ := h.within.groups g hg
  rw [← hid]
  exact h.requestsBounded r hr

theorem Shape.old_of_seen (h : Shape t e) (hs : e.Seen id) : e.Old id :=
  ⟨h.seenBounded id hs, fun _ _ hunseen heq => hunseen (heq ▸ hs)⟩

theorem Shape.not_holdsPrefix (h : Shape t e) (hold : e.Old id) : ¬ e.HoldsPrefix id := by
  intro hholds
  obtain ⟨g, hg, heq, hshared⟩ := hholds
  by_cases hs : e.Seen g.sequenceId
  · exact hshared (h.started g hg hs).noShared
  · exact hold.2 g hg hs heq

/-! ### What only touches the manager or one request -/

theorem Shape.setManager (h : Shape t e) (m : BlockManager σ) : Shape t (e.setManager m) where
  within := h.within.of_same rfl rfl
  requestsNodup := h.requestsNodup
  requestsBounded := h.requestsBounded
  seenBounded := h.seenBounded
  nodup := h.nodup
  bounded := ⟨h.bounded.running, h.bounded.swapped, h.bounded.blocks⟩
  fresh := fun g hg hs =>
    let hf := h.fresh g hg hs
    ⟨hf.context, hf.prefixLen, hf.remaining, hf.recorded, hf.notRunning, hf.notSwapped,
      hf.notDecoded, hf.noAllocation, hf.noHit⟩
  started := fun g hg hs => ⟨(h.started g hg hs).noShared, (h.started g hg hs).fits⟩
  unserved := h.unserved
  batched := h.batched
  decoded := h.decoded

theorem updateRequest_mem {f : Request σ → Request σ} {r : Request σ}
    (h : r ∈ (e.updateRequest id f).requests) :
    ∃ r₀ ∈ e.requests, (r₀.seqId = id ∧ r = f r₀) ∨ (r₀.seqId ≠ id ∧ r = r₀) := by
  obtain ⟨r₀, hr₀, heq⟩ := mem_map.mp h
  by_cases hid : r₀.seqId = id
  · rw [if_pos hid] at heq
    exact ⟨r₀, hr₀, Or.inl ⟨hid, heq.symm⟩⟩
  rw [if_neg hid] at heq
  exact ⟨r₀, hr₀, Or.inr ⟨hid, heq.symm⟩⟩

theorem known_of_ids {e e' : Engine σ}
    (h : e'.requests.map (·.seqId) = e.requests.map (·.seqId)) (hk : e.Known id) : e'.Known id := by
  obtain ⟨r, hr, hid⟩ := hk
  have hmem : id ∈ e'.requests.map (·.seqId) := by
    rw [h, ← hid]
    exact mem_map_of_mem hr
  obtain ⟨r', hr', hid'⟩ := mem_map.mp hmem
  exact ⟨r', hr', hid'⟩

theorem Within.mono {K K' : Int → Prop} {off : Prop} {s : Scheduler σ} {gs : List SequenceGroup}
    {o : SchedulerOutput} (h : Within K off s gs o) (hK : ∀ id, K id → K' id) :
    Within K' off s gs o :=
  ⟨fun g hg => hK _ (h.groups g hg), fun _ hx => hK _ (h.running _ hx),
    fun _ hx => hK _ (h.swapped _ hx), fun _ hx => hK _ (h.prefills _ hx),
    fun _ hx => hK _ (h.decodes _ hx), fun _ hx => hK _ (h.preempted _ hx),
    fun _ hx => hK _ (h.swapIns _ hx), fun _ hx => hK _ (h.allocations _ hx),
    fun _ hx => hK _ (h.hits _ hx), h.unshared, h.uncached⟩

theorem Shape.updateRequest (h : Shape t e) {f : Request σ → Request σ}
    (hf : ∀ r, (f r).seqId = r.seqId)
    (htable : e.Old id ∨ ∀ r, r.blockTable = [] → (f r).blockTable = []) :
    Shape t (e.updateRequest id f) := by
  have hids := updateRequest_ids e id f hf
  refine
    { within := Within.mono h.within fun x hx => known_of_ids hids hx
      requestsNodup := by rw [hids]; exact h.requestsNodup
      requestsBounded := ?_
      seenBounded := h.seenBounded
      nodup := h.nodup
      bounded := h.bounded
      fresh := h.fresh
      started := h.started
      unserved := ?_
      batched := h.batched
      decoded := h.decoded }
  · intro r hr
    obtain ⟨r₀, hr₀, ⟨-, rfl⟩ | ⟨-, rfl⟩⟩ := updateRequest_mem hr
    · rw [hf]; exact h.requestsBounded r₀ hr₀
    · exact h.requestsBounded r hr₀
  intro g hg hs r hr hid
  obtain ⟨r₀, hr₀, ⟨heq, rfl⟩ | ⟨-, rfl⟩⟩ := updateRequest_mem hr
  · rw [hf] at hid
    rcases htable with hold | hempty
    · exact absurd (hid.symm.trans heq) (hold.2 g hg hs)
    · exact hempty r₀ (h.unserved g hg hs r₀ hr₀ hid)
  · exact h.unserved g hg hs r hr₀ hid

/-- **The table of one request is traded for another**, by an operation of the
manager that does just that. -/
theorem Inv.retable (h : Inv ok t e) {r : Request σ} (hr : e.findRequest id = some r)
    (f : Request σ → Request σ) (m : BlockManager σ) (hf : ∀ r, (f r).seqId = r.seqId)
    (htable : e.Old id ∨ ∀ r, r.blockTable = [] → (f r).blockTable = [])
    (hop : ∀ rest, Custody e.manager (r.blockTable ++ rest) → Custody m ((f r).blockTable ++ rest)) :
    Inv ok t ((e.setManager m).updateRequest id f) := by
  refine ⟨(h.toShape.setManager m).updateRequest hf htable, ?_⟩
  have hbefore : CustodyUpTo ok e.manager
      (r.blockTable ++ (e.otherTables id ++ sharedOf e.scheduler.waitingQueue)) := by
    refine h.custody.perm ?_
    rw [← append_assoc]
    exact (tables_perm h.requestsNodup hr).symm.append_right _
  refine (hbefore.trade _ _ hop).perm ?_
  rw [← append_assoc]
  exact (updateRequest_tables (e.setManager m) id f hf h.requestsNodup hr).append_right _

theorem Inv.patch (h : Inv ok t e) (id : Int) (f : Request σ → Request σ)
    (hf : ∀ r, (f r).seqId = r.seqId) (htable : ∀ r, (f r).blockTable = r.blockTable) :
    Inv ok t (e.updateRequest id f) := by
  cases hr : e.findRequest id with
  | none => rw [updateRequest_absent e id f hr]; exact h
  | some r =>
    refine h.retable hr f e.manager hf (Or.inr fun r hnil => (htable r).trans hnil) ?_
    intro rest hc
    rw [htable]
    exact hc

theorem Inv.setManager (h : Inv ok t e) {m : BlockManager σ}
    (hop : ∀ held, Custody e.manager held → Custody m held) : Inv ok t (e.setManager m) :=
  ⟨h.toShape.setManager m, h.custody.trade [] [] fun _ hc => hop _ hc⟩

end Engine

end DenseCore
