/-
What each operation of the worker keeps.

A request comes with the blocks of its cached prefix, which its group holds; it
leaves with the blocks of its table.  Retiring a request whose group still holds a
cached prefix is the one operation that loses blocks.
-/
import DenseCore.Proofs.Runtime.EngineShape

namespace DenseCore

open List hiding le_refl lt_irrefl
open Function (update update_of_ne update_self)

open BlockManager Scheduler

namespace Engine

variable {σ : Type} {ok : Prop} {t : ModelTraits σ} {e : Engine σ} {id : Int}

/-! ### Departure -/

theorem Inv.freeRequestBlocks (h : Inv ok t e) : Inv ok t (e.freeRequestBlocks id) := by
  unfold Engine.freeRequestBlocks
  split
  · exact h
  rename_i r hr
  refine h.retable hr _ _ (fun _ => rfl) (Or.inr fun _ _ => rfl) ?_
  intro rest hc
  exact Custody.free r.blockTable hc

theorem freeRequestBlocks_table (e : Engine σ) (id : Int) :
    ∀ r ∈ (e.freeRequestBlocks id).requests, r.seqId = id → r.blockTable = [] := by
  intro r hr hid
  unfold freeRequestBlocks at hr
  split at hr
  · rename_i hnone
    exact absurd hid (findRequest_none hnone r hr)
  obtain ⟨r₀, hr₀, ⟨-, rfl⟩ | ⟨hne, rfl⟩⟩ := updateRequest_mem hr
  · rfl
  · exact absurd hid hne

@[simp] theorem freeRequestBlocks_waitingQueue (e : Engine σ) (id : Int) :
    (e.freeRequestBlocks id).scheduler.waitingQueue = e.scheduler.waitingQueue := by
  unfold freeRequestBlocks
  split <;> rfl

theorem freeRequestBlocks_holdsPrefix (e : Engine σ) (id x : Int) :
    (e.freeRequestBlocks id).HoldsPrefix x ↔ e.HoldsPrefix x := by
  unfold HoldsPrefix
  rw [freeRequestBlocks_waitingQueue]

theorem sharedOf_filter_perm (gs : List SequenceGroup) (id : Int) :
    (sharedOf gs).Perm (sharedOf (gs.filter fun g => g.sequenceId = id) ++
      sharedOf (gs.filter fun g => g.sequenceId ≠ id)) := by
  induction gs with
  | nil => exact Perm.refl _
  | cons g gs ih =>
    by_cases heq : g.sequenceId = id
    · rw [filter_cons_of_pos (by simpa using heq),
        filter_cons_of_neg (by simpa using heq), sharedOf_cons, sharedOf_cons,
        append_assoc]
      exact ih.append_left _
    rw [filter_cons_of_neg (by simpa using heq),
      filter_cons_of_pos (by simpa using heq), sharedOf_cons, sharedOf_cons]
    exact (ih.append_left _).trans (perm_append_comm_assoc _ _ _)

theorem sharedOf_of_not_holdsPrefix (h : ¬ e.HoldsPrefix id) :
    sharedOf (e.scheduler.waitingQueue.filter fun g => g.sequenceId = id) = [] := by
  unfold sharedOf
  rw [flatMap_eq_nil_iff]
  intro g hg
  rw [mem_filter, decide_eq_true_eq] at hg
  by_contra hne
  exact h ⟨g, hg.1, hg.2, hne⟩

/-- A request without blocks leaves, and its group with it. -/
theorem Shape.remove (h : Shape t e) (finished : Bool) : Shape t { e with
      scheduler := e.scheduler.removeRequest id finished
      requests := e.requests.filter fun r => r.seqId ≠ id } := by
  have hoff := removeRequest_off e.scheduler id finished
  have hgroup : ∀ g ∈ (e.scheduler.removeRequest id finished).waitingQueue,
      g ∈ e.scheduler.waitingQueue ∧ g.sequenceId ≠ id := by
    intro g hg
    rw [removeRequest_waitingQueue, mem_filter] at hg
    exact ⟨hg.1, by simpa using hg.2⟩
  have hknown : ∀ x, e.Known x → x ≠ id →
      ∃ r ∈ e.requests.filter fun r => r.seqId ≠ id, r.seqId = x := by
    intro x hx hne
    obtain ⟨r, hr, rfl⟩ := hx
    exact ⟨r, mem_filter.mpr ⟨hr, by simpa using hne⟩, rfl⟩
  have hOld : ∀ x, e.Old x → x < (e.scheduler.removeRequest id finished).nextSeqId ∧
      ∀ g ∈ (e.scheduler.removeRequest id finished).waitingQueue,
        ¬ e.Seen g.sequenceId → g.sequenceId ≠ x := by
    intro x hx
    rw [removeRequest_nextSeqId]
    exact ⟨hx.1, fun g hg => hx.2 g (hgroup g hg).1⟩
  refine
    { within := ?_
      requestsNodup := Nodup.sublist (filter_sublist.map _) h.requestsNodup
      requestsBounded := ?_
      seenBounded := ?_
      nodup := ?_
      bounded := ?_
      fresh := ?_
      started := ?_
      unserved := ?_
      batched := fun a ha => hOld _ (h.batched a ha)
      decoded := fun o ho x hx => hOld _ (h.decoded o ho x hx) }
  · refine ⟨?_, ?_, ?_, by simp, by simp, by simp, by simp, by simp, by simp, ?_, fun _ => rfl⟩
    · intro g hg
      obtain ⟨hold, hne⟩ := hgroup g hg
      exact hknown _ (h.within.groups g hold) hne
    · intro x hx
      rw [removeRequest_runningSeqs, mem_filter] at hx
      exact hknown x (h.within.running x hx.1) (by simpa using hx.2)
    · intro x hx
      rw [removeRequest_swappedSeqs, mem_filter] at hx
      exact hknown x (h.within.swapped x hx.1) (by simpa using hx.2)
    intro huncached g hg
    exact h.within.unshared huncached g (hgroup g hg).1
  · intro r hr
    rw [removeRequest_nextSeqId]
    exact h.requestsBounded r (mem_filter.mp hr).1
  · intro x hx
    rw [removeRequest_nextSeqId]
    exact h.seenBounded x hx
  · rw [removeRequest_waitingQueue]
    exact Nodup.sublist (filter_sublist.map _) h.nodup
  · refine ⟨?_, ?_, ?_⟩
    · intro x hx
      rw [removeRequest_nextSeqId]
      rw [removeRequest_runningSeqs] at hx
      exact h.bounded.running x (mem_filter.mp hx).1
    · intro x hx
      rw [removeRequest_nextSeqId]
      rw [removeRequest_swappedSeqs] at hx
      exact h.bounded.swapped x (mem_filter.mp hx).1
    intro x hx
    rw [removeRequest_nextSeqId] at hx
    by_cases hne : x = id
    · subst hne
      unfold removeRequest cleanupSequenceState
      dsimp only
      split <;> simp
    rw [hoff.blocks x hne]
    exact h.bounded.blocks x hx
  · intro g hg hs
    obtain ⟨hold, hne⟩ := hgroup g hg
    exact (h.fresh g hold hs).off hoff hne
  · intro g hg hs
    obtain ⟨hold, hne⟩ := hgroup g hg
    exact ⟨(h.started g hold hs).noShared, (h.started g hold hs).fits.off hoff hne⟩
  · intro g hg hs r hr hid
    exact h.unserved g (hgroup g hg).1 hs r (mem_filter.mp hr).1 hid

/-- **Retirement** keeps the invariant; it loses what the group still held. -/
theorem Inv.retire (h : Inv ok t e) (completed : Bool) (hholds : ok → ¬ e.HoldsPrefix id) :
    Inv ok t (e.retire id completed) := by
  have hfreed : Inv ok t (e.freeRequestBlocks id) := h.freeRequestBlocks
  have htable := freeRequestBlocks_table e id
  refine ⟨hfreed.toShape.remove completed, ?_⟩
  have htables : (e.retire id completed).tables.Perm (e.freeRequestBlocks id).tables := by
    show ((e.freeRequestBlocks id).otherTables id).Perm _
    cases hr : (e.freeRequestBlocks id).findRequest id with
    | none =>
      unfold otherTables tables
      rw [filter_eq_self.mpr fun r hr' => by simpa using findRequest_none hr r hr']
    | some r =>
      have hsplit := tables_perm hfreed.requestsNodup hr
      obtain ⟨hmem, hid⟩ := findRequest_some hr
      rw [htable r hmem hid] at hsplit
      exact hsplit.symm
  show CustodyUpTo ok ((e.freeRequestBlocks id).scheduler.removeRequest id completed).blockManager _
  rw [removeRequest_blockManager]
  have hcust : CustodyUpTo ok (e.freeRequestBlocks id).manager
      (sharedOf ((e.freeRequestBlocks id).scheduler.waitingQueue.filter fun g =>
          g.sequenceId = id) ++
        ((e.retire id completed).tables ++
          sharedOf (e.retire id completed).scheduler.waitingQueue)) := by
    refine hfreed.custody.perm ?_
    have hqueue : (e.retire id completed).scheduler.waitingQueue =
        (e.freeRequestBlocks id).scheduler.waitingQueue.filter fun g => g.sequenceId ≠ id :=
      removeRequest_waitingQueue _ _ _
    rw [hqueue]
    refine (perm_append_comm_assoc _ _ _).trans ?_
    exact htables.append (sharedOf_filter_perm _ id).symm
  refine hcust.lose fun hok => sharedOf_of_not_holdsPrefix ?_
  rw [freeRequestBlocks_holdsPrefix]
  exact hholds hok

theorem Inv.retire_old (h : Inv ok t e) (hold : e.Old id) (completed : Bool) :
    Inv ok t (e.retire id completed) :=
  h.retire completed fun _ => h.toShape.not_holdsPrefix hold

@[simp] theorem retire_log (e : Engine σ) (id : Int) (completed : Bool) :
    (e.retire id completed).log = e.log := by
  unfold retire freeRequestBlocks
  split <;> rfl

theorem Old.retire {x : Int} {completed : Bool} (hx : e.Old x) : (e.retire id completed).Old x := by
  refine ⟨?_, ?_⟩
  · show x < ((e.freeRequestBlocks id).scheduler.removeRequest id completed).nextSeqId
    rw [removeRequest_nextSeqId]
    unfold Engine.freeRequestBlocks
    split
    · exact hx.1
    · exact hx.1
  intro g hg hs
  have hmem : g ∈ ((e.freeRequestBlocks id).scheduler.removeRequest id completed).waitingQueue := hg
  rw [removeRequest_waitingQueue, freeRequestBlocks_waitingQueue, mem_filter] at hmem
  refine hx.2 g hmem.1 fun hseen => hs ?_
  unfold Seen
  rw [retire_log]
  exact hseen

/-! ### Arrival -/

section

variable {s : Scheduler σ} {g : SequenceGroup} {promptLen : Int} {allow cached : Bool}

theorem Shape.within_arrive (h : Shape t e)
    (hnew : Arrives e.scheduler s g promptLen allow cached) {r : Request σ}
    (hrid : r.seqId = e.scheduler.nextSeqId)
    (huncached : t.prefixCacheAllowed = false → g.sharedBlockIds = []) :
    Within ({ e with scheduler := s, requests := e.requests ++ [r] } : Engine σ).Known
      (t.prefixCacheAllowed = false) s s.waitingQueue {} := by
  have hknown : ∀ x, e.Known x → ∃ r' ∈ e.requests ++ [r], r'.seqId = x := by
    intro x hx
    obtain ⟨r', hr', hid⟩ := hx
    exact ⟨r', mem_append_left _ hr', hid⟩
  refine ⟨?_, ?_, ?_, by simp, by simp, by simp, by simp, by simp, by simp, ?_, fun _ => rfl⟩
  · intro g' hg'
    rcases hnew.mem_queue hg' with hold | rfl
    · exact hknown _ (h.within.groups g' hold)
    · exact ⟨r, by simp, hrid.trans hnew.sequenceId.symm⟩
  · intro x hx
    exact hknown x (h.within.running x (by rwa [← hnew.running]))
  · intro x hx
    exact hknown x (h.within.swapped x (by rwa [← hnew.swapped]))
  intro hoff g' hg'
  rcases hnew.mem_queue hg' with hold | rfl
  · exact h.within.unshared hoff g' hold
  · exact huncached hoff

theorem Shape.requests_arrive (h : Shape t e) {r : Request σ}
    (hrid : r.seqId = e.scheduler.nextSeqId) :
    ((e.requests ++ [r]).map (·.seqId)).Nodup := by
  rw [map_append, nodup_append]
  refine ⟨h.requestsNodup, by simp, ?_⟩
  intro x hx y hy heq
  obtain ⟨r', hr', hid⟩ := mem_map.mp hx
  have hbound := h.requestsBounded r' hr'
  have hy' : y = e.scheduler.nextSeqId := by simpa [hrid] using hy
  omega

theorem Shape.nodup_arrive (h : Shape t e)
    (hnew : Arrives e.scheduler s g promptLen allow cached) :
    (s.waitingQueue.map (·.sequenceId)).Nodup := by
  have hid := hnew.sequenceId
  rw [hnew.queue, map_append, nodup_append]
  refine ⟨h.nodup, by simp, ?_⟩
  intro x hx y hy heq
  obtain ⟨g', hg', hid'⟩ := mem_map.mp hx
  have hbound := h.groupsBounded g' hg'
  have hy' : y = e.scheduler.nextSeqId := by simpa [hid] using hy
  omega

theorem Shape.bounded_arrive (h : Shape t e)
    (hnew : Arrives e.scheduler s g promptLen allow cached) : Bounded s := by
  have hnext := hnew.nextSeqId
  refine ⟨?_, ?_, ?_⟩
  · intro x hx
    have := h.bounded.running x (by rwa [← hnew.running])
    omega
  · intro x hx
    have := h.bounded.swapped x (by rwa [← hnew.swapped])
    omega
  intro x hx
  rw [hnew.blocks]
  refine h.bounded.blocks x ?_
  omega

/-- The new group is fresh, and one that was fresh before still is. -/
theorem Shape.fresh_arrive (h : Shape t e)
    (hnew : Arrives e.scheduler s g promptLen allow cached) (hremaining : 0 < g.numTokensToProcess)
    {g' : SequenceGroup} (hg' : g' ∈ s.waitingQueue) (hs : ¬ e.Seen g'.sequenceId) :
    Fresh s {} g' := by
  rcases hnew.mem_queue hg' with hold | rfl
  · have hne : g'.sequenceId ≠ e.scheduler.nextSeqId := ne_of_lt (h.groupsBounded g' hold)
    have hf := h.fresh g' hold hs
    refine ⟨?_, hf.prefixLen, hf.remaining, by rw [hnew.blocks]; exact hf.recorded,
      by rw [hnew.running]; exact hf.notRunning, by rw [hnew.swapped]; exact hf.notSwapped,
      hf.notDecoded, hf.noAllocation, hf.noHit⟩
    rw [← hf.context]
    unfold getSequenceContextLen
    rw [hnew.context, update_of_ne hne]
  have hid := hnew.sequenceId
  refine ⟨?_, hnew.prefixLen, hremaining, ?_, ?_, ?_, by simp, rfl, rfl⟩
  · unfold getSequenceContextLen
    rw [hnew.context, hid, update_self]
    rfl
  · left
    rw [hnew.blocks, hid, h.bounded.blocks _ (le_refl _)]
    rfl
  · rw [hnew.running, hid]
    intro hmem
    exact absurd (h.bounded.running _ hmem) (lt_irrefl _)
  rw [hnew.swapped, hid]
  intro hmem
  exact absurd (h.bounded.swapped _ hmem) (lt_irrefl _)

/-- Nothing has been said about the id that is given out. -/
theorem Shape.started_arrive (h : Shape t e)
    (hnew : Arrives e.scheduler s g promptLen allow cached)
    {g' : SequenceGroup} (hg' : g' ∈ s.waitingQueue) (hs : e.Seen g'.sequenceId) :
    Started s g' := by
  rcases hnew.mem_queue hg' with hold | rfl
  · have hne : g'.sequenceId ≠ e.scheduler.nextSeqId := ne_of_lt (h.groupsBounded g' hold)
    have hst := h.started g' hold hs
    refine ⟨hst.noShared, ?_⟩
    unfold FitsBudget canChunk
    rw [hnew.config, hnew.allow, update_of_ne hne]
    exact hst.fits
  rw [hnew.sequenceId] at hs
  exact absurd (h.seenBounded _ hs) (lt_irrefl _)

/-- A request arrives with an empty table, and its group with it. -/
theorem Shape.arrive (h : Shape t e)
    (hnew : Arrives e.scheduler s g promptLen allow cached) {r : Request σ}
    (hrid : r.seqId = e.scheduler.nextSeqId) (hrtable : r.blockTable = [])
    (hremaining : 0 < g.numTokensToProcess)
    (huncached : t.prefixCacheAllowed = false → g.sharedBlockIds = []) :
    Shape t { e with scheduler := s, requests := e.requests ++ [r] } := by
  have hnext := hnew.nextSeqId
  have hOld : ∀ x, e.Old x →
      x < s.nextSeqId ∧ ∀ g' ∈ s.waitingQueue, ¬ e.Seen g'.sequenceId → g'.sequenceId ≠ x := by
    intro x hx
    refine ⟨by rw [hnext]; have := hx.1; omega, ?_⟩
    intro g' hg' hs
    rcases hnew.mem_queue hg' with hold | rfl
    · exact hx.2 g' hold hs
    rw [hnew.sequenceId]
    exact ne_of_gt hx.1
  refine
    { within := h.within_arrive hnew hrid huncached
      requestsNodup := h.requests_arrive hrid
      requestsBounded := ?_
      seenBounded := ?_
      nodup := h.nodup_arrive hnew
      bounded := h.bounded_arrive hnew
      fresh := fun _ hg' hs => h.fresh_arrive hnew hremaining hg' hs
      started := fun _ hg' hs => h.started_arrive hnew hg' hs
      unserved := ?_
      batched := fun a ha => hOld _ (h.batched a ha)
      decoded := fun o ho x hx => hOld _ (h.decoded o ho x hx) }
  · intro r' hr'
    show r'.seqId < s.nextSeqId
    rcases mem_append.mp hr' with hold | hlast
    · have := h.requestsBounded r' hold
      omega
    obtain rfl : r' = r := by simpa using hlast
    omega
  · intro x hx
    have := h.seenBounded x hx
    show x < s.nextSeqId
    omega
  intro g' hg' hs r' hr' hid
  rcases mem_append.mp hr' with hold | hlast
  · rcases hnew.mem_queue hg' with hgold | rfl
    · exact h.unserved g' hgold hs r' hold hid
    have := h.requestsBounded r' hold
    have hgid := hnew.sequenceId
    omega
  obtain rfl : r' = r := by simpa using hlast
  exact hrtable

end

/-- **Arrival**: the blocks of the cached prefix come with the group. -/
theorem Inv.submit (h : Inv ok t e) (r : Submission σ) : Inv ok t (e.submit t r) := by
  unfold Engine.submit
  split
  · exact h
  rename_i htokens
  have hpos : 0 < (r.tokens.length : Int) := by
    have := length_pos_iff.mpr htokens
    omega
  rcases addRequest_arrives e.scheduler t.salt r.now r.id r.tokens.length r.priority
    (if t.prefixCacheAllowed then some r.tokens else none) (!r.isEmbedding)
    t.requiresPrefixStateSnapshot r.prefillChunkTokens (t.snapshotValidator r.ssmRuntimeStates)
    with hnone | ⟨hid, g, hnew⟩
  · rw [hnone]
    exact h
  dsimp only
  rw [hid]
  have hrem : 0 < g.numTokensToProcess := by
    have := hnew.remaining
    have := hnew.short hpos
    omega
  refine ⟨h.toShape.arrive hnew rfl rfl hrem ?_, ?_⟩
  · intro hoff
    exact hnew.uncached (by rw [hoff]; rfl)
  have htables : ∀ r' : Request σ, r'.blockTable = [] →
      (e.requests ++ [r']).flatMap (·.blockTable) = e.tables := by
    intro r' hr'
    simp [tables, hr']
  show CustodyUpTo ok _ ((e.requests ++ [_]).flatMap _ ++ sharedOf _)
  rw [htables _ rfl, hnew.queue, sharedOf_append]
  refine (h.custody.trade [] g.sharedBlockIds fun _ hc => hnew.custody _ hc).perm ?_
  rw [← append_assoc, show sharedOf [g] = g.sharedBlockIds by simp [sharedOf]]
  exact perm_append_comm

end Engine

end DenseCore
