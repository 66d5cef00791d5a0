/-
Building a batch, serving the fast path and processing the outcome of a forward
pass: what these keep of the invariant.

All of them work on sequences that have been listed before, so none of them looks
at a group that still holds a cached prefix.  Blocks enter a table by allocation
and are exchanged by copy-on-write; registering a block for the prefix cache moves
no reference.
-/
import DenseCore.Proofs.Runtime.EngineOps
import Mathlib.Data.List.Perm.Basic

namespace DenseCore

open List hiding not_le not_lt

open BlockManager Scheduler

namespace Engine

variable {σ : Type} {ok : Prop} {t : ModelTraits σ} {e : Engine σ} {id : Int}

/-! ### Progress reports -/

/-- A call that moves one known sequence, with its blocks left alone. -/
theorem Inv.reschedule (h : Inv ok t e) {s : Scheduler σ} (hoff : Off e.scheduler s id)
    (hold : e.Old id) (hknown : e.Known id) (hm : s.blockManager = e.manager)
    (hallow : s.seqAllowChunkedPrefill = e.scheduler.seqAllowChunkedPrefill)
    (hids : (s.waitingQueue.map (·.sequenceId)).Sublist
      (e.scheduler.waitingQueue.map (·.sequenceId)))
    (hshared : sharedOf s.waitingQueue = sharedOf e.scheduler.waitingQueue)
    (hgroup : ∀ g' ∈ s.waitingQueue, ∃ g ∈ e.scheduler.waitingQueue,
      g'.sequenceId = g.sequenceId ∧ g'.sharedBlockIds = g.sharedBlockIds ∧
        g'.numTokensToProcess ≤ g.numTokensToProcess ∧ (g.sequenceId ≠ id → g' = g)) :
    Inv ok t { e with scheduler := s } ∧ ∀ x, e.Old x → Old { e with scheduler := s } x := by
  have hunlisted : ∀ g' ∈ s.waitingQueue, ¬ e.Seen g'.sequenceId →
      g' ∈ e.scheduler.waitingQueue ∧ g'.sequenceId ≠ id := by
    intro g' hg' hs
    obtain ⟨g, hg, heq, -, -, hsame⟩ := hgroup g' hg'
    have hne : g.sequenceId ≠ id := hold.2 g hg (by rwa [← heq])
    rw [hsame hne]
    exact ⟨hg, hne⟩
  have hOld : ∀ x, e.Old x →
      x < s.nextSeqId ∧ ∀ g' ∈ s.waitingQueue, ¬ e.Seen g'.sequenceId → g'.sequenceId ≠ x := by
    intro x hx
    rw [hoff.nextSeqId]
    exact ⟨hx.1, fun g' hg' hs => hx.2 g' (hunlisted g' hg' hs).1 hs⟩
  refine ⟨⟨?_, ?_⟩, hOld⟩
  · refine
      { within := ?_
        requestsNodup := h.requestsNodup
        requestsBounded := ?_
        seenBounded := ?_
        nodup := Nodup.sublist hids h.nodup
        bounded := h.bounded.off hoff hold.1
        fresh := ?_
        started := ?_
        unserved := ?_
        batched := fun a ha => hOld _ (h.batched a ha)
        decoded := fun o ho x hx => hOld _ (h.decoded o ho x hx) }
    · refine ⟨?_, ?_, ?_, by simp, by simp, by simp, by simp, by simp, by simp, ?_, fun _ => rfl⟩
      · intro g' hg'
        obtain ⟨g, hg, heq, -⟩ := hgroup g' hg'
        rw [heq]
        exact h.within.groups g hg
      · intro x hx
        rcases hoff.running x hx with hx | rfl
        · exact h.within.running x hx
        · exact hknown
      · intro x hx
        rcases hoff.swapped x hx with hx | rfl
        · exact h.within.swapped x hx
        · exact hknown
      intro huncached g' hg'
      obtain ⟨g, hg, -, heq, -⟩ := hgroup g' hg'
      rw [heq]
      exact h.within.unshared huncached g hg
    · intro r hr
      show r.seqId < s.nextSeqId
      rw [hoff.nextSeqId]
      exact h.requestsBounded r hr
    · intro x hx
      show x < s.nextSeqId
      rw [hoff.nextSeqId]
      exact h.seenBounded x hx
    · intro g' hg' hs
      obtain ⟨hg, hne⟩ := hunlisted g' hg' hs
      exact (h.fresh g' hg hs).off hoff hne
    · intro g' hg' hs
      obtain ⟨g, hg, heq, hsh, hnum, -⟩ := hgroup g' hg'
      have hst := h.started g hg (by rwa [← heq])
      refine ⟨hsh.trans hst.noShared, ?_⟩
      intro hchunk
      have hfits := hst.fits
      unfold FitsBudget canChunk at hfits
      unfold canChunk at hchunk
      rw [hoff.config, hallow, heq] at hchunk
      rw [hoff.config]
      exact hnum.trans (hfits hchunk)
    · intro g' hg' hs
      exact h.unserved g' (hunlisted g' hg' hs).1 hs
  · show CustodyUpTo ok s.blockManager (e.tables ++ sharedOf s.waitingQueue)
    rw [hm, hshared]
    exact h.custody

theorem sharedOf_filter_ne {gs : List SequenceGroup}
    (h : ∀ g ∈ gs, g.sequenceId = id → g.sharedBlockIds = []) :
    sharedOf (gs.filter fun g => g.sequenceId ≠ id) = sharedOf gs := by
  induction gs with
  | nil => rfl
  | cons g gs ih =>
    have hrest := ih fun g' hg' => h g' (mem_cons_of_mem _ hg')
    by_cases heq : g.sequenceId = id
    · rw [filter_cons_of_neg (by simpa using heq), sharedOf_cons, h g (by simp) heq, hrest]
      rfl
    · rw [filter_cons_of_pos (by simpa using heq), sharedOf_cons, sharedOf_cons, hrest]

theorem Inv.onPrefillChunkComplete (h : Inv ok t e) (hold : e.Old id) (hknown : e.Known id)
    (tokens : Int) (finished : Bool) :
    Inv ok t { e with scheduler := e.scheduler.onPrefillChunkComplete id tokens finished } ∧
      ∀ x, e.Old x →
        Old { e with scheduler := e.scheduler.onPrefillChunkComplete id tokens finished } x := by
  have hshared : ∀ g ∈ e.scheduler.waitingQueue, g.sequenceId = id → g.sharedBlockIds = [] := by
    intro g hg heq
    by_contra hne
    exact h.toShape.not_holdsPrefix hold ⟨g, hg, heq, hne⟩
  have hcontext : ∀ x, x ≠ id →
      (e.scheduler.advanceContext id tokens).seqContextLen x = e.scheduler.seqContextLen x :=
    fun x hne => Function.update_of_ne hne _ _
  unfold Scheduler.onPrefillChunkComplete
  dsimp only
  split
  · exact ⟨h, fun _ hx => hx⟩
  rename_i hvalid
  rw [not_or, not_lt, not_le] at hvalid
  split
  · split
    · exact h.reschedule ⟨rfl, rfl, fun x hx => (mem_insert_iff.mp hx).symm,
        fun _ hx => Or.inl hx, hcontext, fun _ _ => rfl, fun _ _ => rfl⟩ hold hknown rfl rfl
        (Sublist.refl _) rfl fun g hg => ⟨g, hg, rfl, rfl, le_rfl, fun _ => rfl⟩
    exact h.reschedule ⟨rfl, rfl, fun _ hx => Or.inl hx, fun _ hx => Or.inl hx, hcontext,
      fun _ _ => rfl, fun _ _ => rfl⟩ hold hknown rfl rfl (Sublist.refl _) rfl
      fun g hg => ⟨g, hg, rfl, rfl, le_rfl, fun _ => rfl⟩
  rename_i remaining hremaining
  split
  · refine h.reschedule ⟨rfl, rfl, fun x hx => (mem_insert_iff.mp hx).symm,
      fun _ hx => Or.inl hx, hcontext, fun _ _ => rfl, fun _ _ => rfl⟩ hold hknown rfl rfl
      (filter_sublist.map _) (sharedOf_filter_ne hshared) ?_
    intro g hg
    exact ⟨g, (mem_filter.mp hg).1, rfl, rfl, le_rfl, fun _ => rfl⟩
  rename_i hunfinished
  rw [not_or] at hunfinished
  refine h.reschedule ⟨rfl, rfl, fun _ hx => Or.inl hx, fun _ hx => Or.inl hx, hcontext,
    fun _ _ => rfl, fun _ _ => rfl⟩ hold hknown rfl rfl ?_ ?_ ?_
  · show ((modifyWaiting id _ e.scheduler.waitingQueue).map _).Sublist _
    rw [modifyWaiting_ids]
    exact fun _ => rfl
  · refine modifyWaiting_shared _ ?_ _
    exact fun _ => rfl
  intro g' hg'
  rcases modifyWaiting_mem hg' with hg | ⟨g, hfind, rfl⟩
  · exact ⟨g', hg, rfl, rfl, le_rfl, fun _ => rfl⟩
  have heq : g.sequenceId = id := by simpa using find?_some hfind
  refine ⟨g, mem_of_find?_eq_some hfind, rfl, rfl, ?_, fun hne => absurd heq hne⟩
  obtain rfl : g.numTokensToProcess = remaining := by
    unfold waitingRemaining at hremaining
    rw [show (e.scheduler.advanceContext id tokens).waitingQueue.find?
      (fun g => g.sequenceId = id) = some g from hfind] at hremaining
    simpa using hremaining
  dsimp only
  omega

theorem Inv.onDecodeStepComplete (h : Inv ok t e) (hold : e.Old id) (hknown : e.Known id)
    (tokens : Int) :
    Inv ok t { e with scheduler := e.scheduler.onDecodeStepComplete id tokens } ∧
      ∀ x, e.Old x → Old { e with scheduler := e.scheduler.onDecodeStepComplete id tokens } x := by
  unfold Scheduler.onDecodeStepComplete
  dsimp only
  split
  · exact ⟨h, fun _ hx => hx⟩
  exact h.reschedule ⟨rfl, rfl, fun x hx => (mem_insert_iff.mp hx).symm,
    fun _ hx => Or.inl hx, fun x hne => Function.update_of_ne hne _ _, fun _ _ => rfl,
    fun _ _ => rfl⟩ hold hknown rfl rfl (Sublist.refl _) rfl
    fun g hg => ⟨g, hg, rfl, rfl, le_rfl, fun _ => rfl⟩

theorem Inv.setPredictedExperts (h : Inv ok t e) (experts : List Int) :
    Inv ok t { e with scheduler := e.scheduler.setPredictedExperts id experts } := by
  unfold Scheduler.setPredictedExperts
  split
  · exact h
  have hids := modifyWaiting_ids id (fun g => { g with predictedExperts := experts })
    (fun _ => rfl) e.scheduler.waitingQueue
  have hmem : ∀ g' ∈ modifyWaiting id (fun g => { g with predictedExperts := experts })
      e.scheduler.waitingQueue, ∃ g ∈ e.scheduler.waitingQueue,
        g' = g ∨ g' = { g with predictedExperts := experts } := by
    intro g' hg'
    rcases modifyWaiting_mem hg' with hg | ⟨g, hfind, heq⟩
    · exact ⟨g', hg, Or.inl rfl⟩
    · exact ⟨g, mem_of_find?_eq_some hfind, Or.inr heq⟩
  have hOld : ∀ x, e.Old x → x < e.scheduler.nextSeqId ∧
      ∀ g' ∈ modifyWaiting id (fun g => { g with predictedExperts := experts })
        e.scheduler.waitingQueue, ¬ e.Seen g'.sequenceId → g'.sequenceId ≠ x := by
    intro x hx
    refine ⟨hx.1, ?_⟩
    intro g' hg' hs
    obtain ⟨g, hg, rfl | rfl⟩ := hmem g' hg'
    · exact hx.2 g' hg hs
    · exact hx.2 g hg hs
  refine ⟨?_, ?_⟩
  · refine
      { within := ?_
        requestsNodup := h.requestsNodup
        requestsBounded := h.requestsBounded
        seenBounded := h.seenBounded
        nodup := by rw [hids]; exact h.nodup
        bounded := ⟨h.bounded.running, h.bounded.swapped, h.bounded.blocks⟩
        fresh := ?_
        started := ?_
        unserved := ?_
        batched := fun a ha => hOld _ (h.batched a ha)
        decoded := fun o ho x hx => hOld _ (h.decoded o ho x hx) }
    · refine ⟨?_, h.within.running, h.within.swapped, by simp, by simp, by simp, by simp, by simp,
        by simp, ?_, fun _ => rfl⟩
      · intro g' hg'
        obtain ⟨g, hg, rfl | rfl⟩ := hmem g' hg'
        · exact h.within.groups g' hg
        · exact h.within.groups g hg
      intro hoff g' hg'
      obtain ⟨g, hg, rfl | rfl⟩ := hmem g' hg'
      · exact h.within.unshared hoff g' hg
      · exact h.within.unshared hoff g hg
    · intro g' hg' hs
      obtain ⟨g, hg, rfl | rfl⟩ := hmem g' hg'
      · have hf := h.fresh g' hg hs
        exact ⟨hf.context, hf.prefixLen, hf.remaining, hf.recorded, hf.notRunning, hf.notSwapped,
          hf.notDecoded, hf.noAllocation, hf.noHit⟩
      have hf := h.fresh g hg hs
      exact ⟨hf.context, hf.prefixLen, hf.remaining, hf.recorded, hf.notRunning, hf.notSwapped,
        hf.notDecoded, hf.noAllocation, hf.noHit⟩
    · intro g' hg' hs
      obtain ⟨g, hg, rfl | rfl⟩ := hmem g' hg'
      · exact ⟨(h.started g' hg hs).noShared, (h.started g' hg hs).fits⟩
      · exact ⟨(h.started g hg hs).noShared, (h.started g hg hs).fits⟩
    intro g' hg' hs
    obtain ⟨g, hg, rfl | rfl⟩ := hmem g' hg'
    · exact h.unserved g' hg hs
    · exact h.unserved g hg hs
  · show CustodyUpTo ok e.manager (e.tables ++ sharedOf (modifyWaiting id _ _))
    rw [modifyWaiting_shared]
    · exact h.custody
    · exact fun _ => rfl

/-! ### Steps that leave the view of the sequences alone -/

/-- The same queue, the same history and the same requests. -/
structure SameView (e e' : Engine σ) : Prop where
  queue : e'.scheduler.waitingQueue = e.scheduler.waitingQueue
  nextSeqId : e'.scheduler.nextSeqId = e.scheduler.nextSeqId
  log : e'.log = e.log
  ids : e'.requests.map (·.seqId) = e.requests.map (·.seqId)

namespace SameView

variable {e e₁ e₂ : Engine σ}

theorem refl (e : Engine σ) : SameView e e := ⟨rfl, rfl, rfl, rfl⟩

theorem trans (h₁ : SameView e e₁) (h₂ : SameView e₁ e₂) : SameView e e₂ :=
  ⟨h₂.queue.trans h₁.queue, h₂.nextSeqId.trans h₁.nextSeqId, h₂.log.trans h₁.log,
    h₂.ids.trans h₁.ids⟩

theorem old (h : SameView e e₁) {x : Int} (hx : e.Old x) : e₁.Old x := by
  unfold Old Seen
  rw [h.queue, h.nextSeqId, h.log]
  exact hx

theorem known (h : SameView e e₁) {x : Int} (hx : e.Known x) : e₁.Known x := known_of_ids h.ids hx

theorem setManager (e : Engine σ) (m : BlockManager σ) : SameView e (e.setManager m) :=
  ⟨rfl, rfl, rfl, rfl⟩

theorem updateRequest (e : Engine σ) (id : Int) (f : Request σ → Request σ)
    (hf : ∀ r, (f r).seqId = r.seqId) : SameView e (e.updateRequest id f) :=
  ⟨rfl, rfl, rfl, updateRequest_ids e id f hf⟩

end SameView

theorem findRequest_of_known (h : e.Known id) : ∃ r, e.findRequest id = some r := by
  obtain ⟨r, hr, hid⟩ := h
  cases hfind : e.findRequest id with
  | some r' => exact ⟨r', rfl⟩
  | none => exact absurd hid (findRequest_none hfind r hr)

theorem known_of_findRequest {r : Request σ} (h : e.findRequest id = some r) : e.Known id :=
  ⟨r, (findRequest_some h).1, (findRequest_some h).2⟩

/-! ### The batch -/

variable {b : Int} {c : AllocChoice} {pair : Option (Int × Int)}

theorem copyOnWrite_none {m m' : BlockManager σ} (h : m.copyOnWrite b c = ((none, pair), m')) :
    ∀ held, Custody m held → Custody m' held := by
  intro held hc
  unfold copyOnWrite at h
  split at h
  · obtain ⟨-, rfl⟩ : _ ∧ m = m' := by simpa using h
    exact hc
  split at h
  · simp at h
  split at h
  · rename_i m₁ hsingle
    obtain ⟨-, rfl⟩ : _ ∧ m₁ = m' := by simpa using h
    have := (hc.allocateSingle c).1
    rwa [hsingle] at this
  · simp at h

theorem copyOnWrite_table {m m' : BlockManager σ} {table : List Int} {k : Nat} {w : Int}
    (hk : table[k]? = some b)
    (h : m.copyOnWrite b c = ((some w, pair), m')) :
    ∀ rest, Custody m (table ++ rest) → Custody m' (table.set k w ++ rest) := by
  intro rest hc
  obtain ⟨hlt, hb⟩ := List.getElem?_eq_some_iff.mp hk
  have hbefore : (table ++ rest).Perm (b :: (table.eraseIdx k ++ rest)) := by
    rw [← hb]
    exact (getElem_cons_eraseIdx_perm hlt).symm.append_right rest
  have hafter : (table.set k w ++ rest).Perm (w :: (table.eraseIdx k ++ rest)) :=
    (set_perm_cons_eraseIdx hlt w).append_right rest
  have hcow := (hc.perm hbefore.symm).copyOnWrite c
  rw [h] at hcow
  exact hcow.perm hafter

theorem Inv.ensureRequestBlockWritable (h : Inv ok t e) (hold : e.Old id) (k : Nat)
    (c : AllocChoice) :
    Inv ok t (e.ensureRequestBlockWritable id k c).2 ∧
      SameView e (e.ensureRequestBlockWritable id k c).2 := by
  unfold Engine.ensureRequestBlockWritable
  split
  · exact ⟨h, SameView.refl e⟩
  rename_i r hr
  split
  · exact ⟨h, SameView.refl e⟩
  rename_i b hb
  split
  · exact ⟨h, SameView.refl e⟩
  split
  · exact ⟨h, SameView.refl e⟩
  split
  · rename_i hcow
    exact ⟨h.setManager (copyOnWrite_none hcow), SameView.setManager e _⟩
  rename_i w pair m hcow
  refine ⟨?_, (SameView.setManager e m).trans (SameView.updateRequest _ _ _ fun _ => rfl)⟩
  refine h.retable hr _ _ (fun _ => rfl) (Or.inl hold) ?_
  exact copyOnWrite_table hb hcow

theorem Inv.ensureBlocksWritable (copy : Nat → AllocChoice) (ks : List Nat) :
    ∀ e : Engine σ, Inv ok t e → e.Old id → Inv ok t (ensureBlocksWritable id copy ks e).2 ∧
        SameView e (ensureBlocksWritable id copy ks e).2 := by
  induction ks with
  | nil => intro e h _; exact ⟨h, SameView.refl e⟩
  | cons k ks ih =>
    intro e h hold
    obtain ⟨hone, hview⟩ := h.ensureRequestBlockWritable hold k (copy k)
    unfold Engine.ensureBlocksWritable
    split
    · rename_i e₁ hres
      rw [hres] at hone hview
      exact ⟨hone, hview⟩
    rename_i e₁ hres
    rw [hres] at hone hview
    obtain ⟨hrest, hviewRest⟩ := ih e₁ hone (hview.old hold)
    exact ⟨hrest, hview.trans hviewRest⟩

theorem Inv.ensureRequestBlocksWritable (h : Inv ok t e) (hold : e.Old id) (start count : Int)
    (copy : Nat → AllocChoice) :
    Inv ok t (e.ensureRequestBlocksWritable id start count copy).2 ∧
      SameView e (e.ensureRequestBlocksWritable id start count copy).2 := by
  unfold Engine.ensureRequestBlocksWritable
  split
  · exact ⟨h, SameView.refl e⟩
  split
  · exact ⟨h, SameView.refl e⟩
  · exact Inv.ensureBlocksWritable copy _ e h hold

theorem Inv.joinBatch (choice : BuildChoice) (take : Request σ → Int) (b : BatchBuild σ)
    (h : Inv ok t b.engine) (hold : b.engine.Old id) :
    Inv ok t (joinBatch choice take b id).engine ∧
      SameView b.engine (joinBatch choice take b id).engine ∧
      ∀ a ∈ (joinBatch choice take b id).entries, a ∈ b.entries ∨ a.1 = id := by
  have hsame : ∀ a ∈ b.entries, a ∈ b.entries ∨ a.1 = id := fun a ha => Or.inl ha
  unfold Engine.joinBatch
  split
  · exact ⟨h, SameView.refl _, hsame⟩
  rename_i r hr
  split
  · exact ⟨h, SameView.refl _, hsame⟩
  split
  · exact ⟨h, SameView.refl _, hsame⟩
  dsimp only
  split
  · exact ⟨h, SameView.refl _, hsame⟩
  obtain ⟨hinv, hview⟩ := h.ensureRequestBlocksWritable hold r.nPast (take r)
    (choice.copy id)
  split
  · rename_i e hres
    rw [hres] at hinv hview
    exact ⟨hinv, hview, hsame⟩
  rename_i e hres
  rw [hres] at hinv hview
  refine ⟨hinv, hview, ?_⟩
  intro a ha
  rcases mem_append.mp ha with hold | hnew
  · exact Or.inl hold
  right
  obtain rfl : a = (id, take r) := by simpa using hnew
  rfl

theorem Inv.joinAll (choice : BuildChoice) (take : Request σ → Int) (ids : List Int) :
    ∀ b : BatchBuild σ, Inv ok t b.engine → (∀ x ∈ ids, b.engine.Old x) →
      Inv ok t (ids.foldl (Engine.joinBatch choice take) b).engine ∧
        SameView b.engine (ids.foldl (Engine.joinBatch choice take) b).engine ∧
        ∀ a ∈ (ids.foldl (Engine.joinBatch choice take) b).entries, a ∈ b.entries ∨ a.1 ∈ ids := by
  induction ids with
  | nil => intro b h _; exact ⟨h, SameView.refl _, fun a ha => Or.inl ha⟩
  | cons id ids ih =>
    intro b h hold
    obtain ⟨hone, hview, hentries⟩ := Inv.joinBatch choice take b h (hold id (by simp))
    obtain ⟨hrest, hviewRest, hentriesRest⟩ := ih _ hone fun x hx =>
      hview.old (hold x (mem_cons_of_mem _ hx))
    refine ⟨hrest, hview.trans hviewRest, ?_⟩
    intro a ha
    rcases hentriesRest a ha with hmid | hin
    · rcases hentries a hmid with hstart | heq
      · exact Or.inl hstart
      · exact Or.inr (by rw [heq]; simp)
    · exact Or.inr (mem_cons_of_mem _ hin)

theorem Inv.setBatch (h : Inv ok t e) {entries : List (Int × Int)}
    (hb : ∀ a ∈ entries, e.Old a.1) : Inv ok t { e with batch := entries } :=
  { h with batched := hb }

/-- **Building a batch** of listed sequences keeps the invariant. -/
theorem Inv.buildBatch (h : Inv ok t e) (choice : BuildChoice) (o : SchedulerOutput)
    (hp : ∀ x ∈ o.prefillSeqIds, e.Old x) (hd : ∀ x ∈ o.decodeSeqIds, e.Old x) :
    Inv ok t (e.buildBatch choice o) := by
  unfold Engine.buildBatch
  obtain ⟨h₁, hv₁, hb₁⟩ := Inv.joinAll choice (prefillTokensToTake o) o.prefillSeqIds ⟨e, [], none⟩
    h hp
  obtain ⟨h₂, hv₂, hb₂⟩ := Inv.joinAll choice (fun _ => 1) o.decodeSeqIds _ h₁
    fun x hx => hv₁.old (hd x hx)
  refine h₂.setBatch ?_
  intro a ha
  refine (hv₁.trans hv₂).old ?_
  rcases hb₂ a ha with hmid | hin
  · rcases hb₁ a hmid with hstart | hin
    · simp at hstart
    · exact hp _ hin
  · exact hd _ hin

end Engine

end DenseCore
