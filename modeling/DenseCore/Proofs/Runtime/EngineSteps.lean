/-
Every step of the worker loop keeps the invariant.

The fast path and the processing of a batch serve one request.  A `Schedule` call
ends with blocks on their way to the worker, and replaying its output puts them
into the tables: every sequence the output names has a request, so each block
arrives.  Swap-in and swap-out then touch listed sequences only.
-/
import DenseCore.Proofs.Runtime.EngineProgress

namespace DenseCore

open List

open BlockManager Scheduler

namespace Engine

variable {σ : Type} {ok : Prop} {t : ModelTraits σ} {e : Engine σ} {id : Int}

/-! ### The fast path -/

theorem probe_custody (t : ModelTraits σ) (m : BlockManager σ) (r : Request σ) :
    ∀ held, Custody m held → Custody (probeReusablePrefixCacheForRequest t m r).2 held := by
  intro held hc
  unfold probeReusablePrefixCacheForRequest
  split
  · exact hc
  · exact Custody.free _ (hc.findLongest _ _ _ _ _)

theorem Inv.appendBlocks (h : Inv ok t e) {r : Request σ} (hr : e.findRequest id = some r)
    (hold : e.Old id) {n : Int} {c : AllocChoice} :
    Inv ok t ((e.setManager (e.manager.allocate n c).2).updateRequest id fun r =>
      { r with blockTable := r.blockTable ++ (e.manager.allocate n c).1 }) := by
  refine h.retable hr _ _ (fun _ => rfl) (Or.inl hold) ?_
  intro rest hc
  refine (hc.allocate n c).1.perm ?_
  rw [← append_assoc]
  exact perm_append_comm.append_right rest

theorem Inv.emptyAllocation (h : Inv ok t e) {n : Int} {c : AllocChoice}
    (hnil : (e.manager.allocate n c).1 = []) :
    Inv ok t (e.setManager (e.manager.allocate n c).2) := by
  refine h.setManager fun held hc => ?_
  have := (hc.allocate n c).1
  rwa [hnil] at this

theorem fastPathOutput_ids (r : Request σ) (tokens : Int) :
    (∀ x ∈ (fastPathOutput r tokens).prefillSeqIds, x = r.seqId) ∧
      ∀ x ∈ (fastPathOutput r tokens).decodeSeqIds, x = r.seqId := by
  unfold fastPathOutput
  split <;> simp

theorem Inv.fastPathServe (h : Inv ok t e) (choice : FastPathChoice) {r : Request σ}
    (hr : e.findRequest r.seqId = some r) (hold : e.Old r.seqId) (tokens : Int) :
    Inv ok t (e.fastPathServe choice r tokens) := by
  obtain ⟨hp, hd⟩ := fastPathOutput_ids r tokens
  have hbuild : ∀ e' : Engine σ, Inv ok t e' → e'.Old r.seqId →
      Inv ok t (e'.buildBatch choice.build (fastPathOutput r tokens)) := by
    intro e' h' hold'
    refine h'.buildBatch _ _ ?_ ?_
    · intro x hx; rw [hp x hx]; exact hold'
    · intro x hx; rw [hd x hx]; exact hold'
  unfold Engine.fastPathServe
  dsimp only
  split
  · exact hbuild e h hold
  split
  · exact hbuild _ (h.appendBlocks hr hold) hold
  rename_i hshort
  exact h.emptyAllocation ((allocate_all_or_nothing _ _ _).resolve_right hshort)

theorem Inv.fastPathStep (h : Inv ok t e) (choice : FastPathChoice) :
    Inv ok t (e.fastPathStep t choice) := by
  unfold Engine.fastPathStep
  split
  · exact h
  rename_i r hfast
  unfold fastPathRequest at hfast
  split at hfast
  · rename_i r' hrequests
    split at hfast
    · rename_i hcond
      obtain rfl : r' = r := by simpa using hfast
      have hr : e.findRequest r'.seqId = some r' := by
        unfold findRequest
        rw [hrequests]
        simp
      have hold : e.Old r'.seqId := by
        refine ⟨h.requestsBounded r' (by rw [hrequests]; simp), ?_⟩
        rw [hcond.2.1]
        simp
      have hprobe : Inv ok t (e.setManager (probeReusablePrefixCacheForRequest t e.manager r').2) :=
        h.setManager (probe_custody t e.manager r')
      dsimp only
      split
      · exact hprobe
      split
      · split
        · exact hprobe
        · exact hprobe.fastPathServe choice hr hold _
      split
      · exact hprobe
      · exact hprobe.fastPathServe choice hr hold _
    · exact absurd hfast (by simp)
  · exact absurd hfast (by simp)

/-! ### After the forward pass -/

theorem registerAll_custody (t : ModelTraits σ) (r : Request σ) (ks : List Nat) :
    ∀ (m : BlockManager σ) (held : List Int), Custody m held →
      Custody (ks.foldl (registerBlock t r) m) held := by
  induction ks with
  | nil => intro m held hc; exact hc
  | cons k ks ih => intro m held hc; exact ih _ _ (hc.register _ _ _ _ _)

theorem Inv.registerCompletedPrefixBlocks (h : Inv ok t e) (id : Int) :
    Inv ok t (e.registerCompletedPrefixBlocks t id) ∧
      SameView e (e.registerCompletedPrefixBlocks t id) := by
  unfold Engine.registerCompletedPrefixBlocks
  split
  · exact ⟨h, SameView.refl e⟩
  rename_i r hr
  split
  · exact ⟨h, SameView.refl e⟩
  refine ⟨?_, (SameView.setManager e _).trans (SameView.updateRequest _ _ _ fun _ => rfl)⟩
  refine Inv.patch ?_ _ _ (fun _ => rfl) (fun _ => rfl)
  exact h.setManager fun held hc => registerAll_custody t r _ _ _ hc

theorem Inv.growTable (id : Int) (grow : Nat → AllocChoice) (n : Nat) : ∀ e : Engine σ, Inv ok t e →
    e.Old id → e.Known id →
      Inv ok t (growTable id grow n e).2 ∧ SameView e (growTable id grow n e).2 := by
  induction n with
  | zero => intro e h _ _; exact ⟨h, SameView.refl e⟩
  | succ n ih =>
    intro e h hold hknown
    unfold Engine.growTable
    split
    · rename_i m hnil
      have hempty := h.emptyAllocation (c := grow n) (n := 1) (by rw [hnil])
      rw [hnil] at hempty
      exact ⟨hempty, SameView.setManager e m⟩
    rename_i b bs m hcons
    obtain ⟨r, hr⟩ := findRequest_of_known hknown
    have happend := h.appendBlocks (n := 1) (c := grow n) hr hold
    have htail : bs = [] := by
      have hlen := (allocate_all_or_nothing e.manager 1 (grow n)).resolve_left
        (by rw [hcons]; simp)
      rw [hcons, length_cons] at hlen
      exact length_eq_zero_iff.mp (by omega)
    rw [hcons, htail] at happend
    have hview : SameView e ((e.setManager m).updateRequest id fun r =>
        { r with blockTable := r.blockTable ++ [b] }) :=
      (SameView.setManager e m).trans (SameView.updateRequest _ _ _ fun _ => rfl)
    obtain ⟨hrest, hviewRest⟩ := ih _ happend (hview.old hold) (hview.known hknown)
    exact ⟨hrest, hview.trans hviewRest⟩

theorem Inv.growForNextToken (h : Inv ok t e) (hold : e.Old id) (grow : Nat → AllocChoice) :
    Inv ok t (e.growForNextToken id grow) := by
  unfold Engine.growForNextToken
  split
  · exact h
  rename_i r hr
  obtain ⟨hgrown, hview⟩ := Inv.growTable id grow
    ((r.nPast + 1 + blockSlots - 1).tdiv blockSlots - r.blockTable.length).toNat e h hold
    (known_of_findRequest hr)
  dsimp only
  split
  · rename_i e₁ hres
    rw [hres] at hgrown
    exact hgrown
  rename_i e₁ hres
  rw [hres] at hgrown hview
  exact hgrown.retire_old (hview.old hold) true

theorem Inv.finishPrefillChunk (h : Inv ok t e) {r : Request σ}
    (hr : e.findRequest r.seqId = some r) (hold : e.Old r.seqId) (processed : Int)
    (res : ForwardResult σ) : Inv ok t (e.finishPrefillChunk t r processed res) := by
  have hknown := known_of_findRequest hr
  have h₁ : Inv ok t (e.updateRequest r.seqId fun r =>
      { r with nPast := r.nPast + processed, ssmRuntimeStates := res.states }) :=
    h.patch _ _ (fun _ => rfl) fun _ => rfl
  have hview₁ : SameView e (e.updateRequest r.seqId fun r =>
      { r with nPast := r.nPast + processed, ssmRuntimeStates := res.states }) :=
    SameView.updateRequest _ _ _ fun _ => rfl
  obtain ⟨h₂, hview₂⟩ := h₁.registerCompletedPrefixBlocks r.seqId
  have hview := hview₁.trans hview₂
  unfold Engine.finishPrefillChunk
  dsimp only
  split
  · exact (h₂.onPrefillChunkComplete (hview.old hold) (hview.known hknown) _ _).1.patch _ _
      (fun _ => rfl) fun _ => rfl
  obtain ⟨h₃, hold₃⟩ := h₂.onPrefillChunkComplete (hview.old hold) (hview.known hknown)
    processed true
  have h₄ := h₃.patch r.seqId
    (fun r => { r with tokens := [res.sampled], isPrefill := false,
                       originalPromptTokensForCache := [] }) (fun _ => rfl) fun _ => rfl
  exact h₄.growForNextToken (hold₃ _ (hview.old hold)) res.grow

theorem Inv.finishDecodeStep (h : Inv ok t e) {r : Request σ}
    (hr : e.findRequest r.seqId = some r) (hold : e.Old r.seqId) (processed : Int)
    (res : ForwardResult σ) : Inv ok t (e.finishDecodeStep t r processed res) := by
  have hknown := known_of_findRequest hr
  have hfinish : ∀ e₂ : Engine σ, Inv ok t e₂ → SameView e e₂ → Inv ok t (Engine.growForNextToken
        { e₂ with scheduler := e₂.scheduler.onDecodeStepComplete r.seqId processed } r.seqId
          res.grow) := by
    intro e₂ h₂ hview
    obtain ⟨h₃, hold₃⟩ := h₂.onDecodeStepComplete (hview.old hold) (hview.known hknown) processed
    exact h₃.growForNextToken (hold₃ _ (hview.old hold)) res.grow
  have h₁ : Inv ok t (e.updateRequest r.seqId fun r =>
      { r with tokens := [res.sampled], nPast := r.nPast + processed,
               ssmRuntimeStates := res.states }) :=
    h.patch _ _ (fun _ => rfl) fun _ => rfl
  have hview₁ : SameView e (e.updateRequest r.seqId fun r =>
      { r with tokens := [res.sampled], nPast := r.nPast + processed,
               ssmRuntimeStates := res.states }) :=
    SameView.updateRequest _ _ _ fun _ => rfl
  unfold Engine.finishDecodeStep
  dsimp only
  split
  · exact hfinish _ h₁ hview₁
  rename_i input _
  have h₂ := h₁.patch r.seqId (fun r =>
    { r with sequenceTokensForPrefixCache := r.sequenceTokensForPrefixCache ++ [input] })
    (fun _ => rfl) fun _ => rfl
  obtain ⟨h₃, hview₃⟩ := h₂.registerCompletedPrefixBlocks r.seqId
  refine hfinish _ h₃ ((hview₁.trans (SameView.updateRequest _ _ _ ?_)).trans hview₃)
  exact fun _ => rfl

/-- **Processing one entry of the batch.** -/
theorem Inv.completeStep (h : Inv ok t e) (res : ForwardResult σ) :
    Inv ok t (e.completeStep t res) := by
  unfold Engine.completeStep
  split
  · exact h
  rename_i seqId processed rest hbatch
  have hrest : Inv ok t { e with batch := rest } :=
    h.setBatch fun a ha => h.batched a (by rw [hbatch]; exact mem_cons_of_mem _ ha)
  have hold : Old { e with batch := rest } seqId := h.batched (seqId, processed) (by simp [hbatch])
  dsimp only
  split
  · exact hrest
  rename_i r hr
  obtain ⟨-, rfl⟩ := findRequest_some hr
  split
  · exact hrest.retire_old hold true
  split
  · exact hrest.finishPrefillChunk hr hold processed res
  · exact hrest.finishDecodeStep hr hold processed res

/-! ### Replaying an output -/

theorem appendAll_tables {α : Type} (key : α → Int) (blocks : α → List Int)
    (f : Engine σ → α → Request σ → Request σ) (hf : ∀ e a r, (f e a r).seqId = r.seqId)
    (hblocks : ∀ e a r, (f e a r).blockTable = r.blockTable ++ blocks a) (l : List α) :
    ∀ e : Engine σ, (e.requests.map (·.seqId)).Nodup → (∀ a ∈ l, e.Known (key a)) →
      let e' := l.foldl (fun e a => e.updateRequest (key a) (f e a)) e
      e'.tables.Perm (l.flatMap blocks ++ e.tables) ∧ SameView e e' ∧ e'.scheduler = e.scheduler ∧
        e'.batch = e.batch := by
  induction l with
  | nil => intro e _ _; exact ⟨Perm.refl _, SameView.refl e, rfl, rfl⟩
  | cons a l ih =>
    intro e hnodup hknown
    have hview : SameView e (e.updateRequest (key a) (f e a)) :=
      SameView.updateRequest e (key a) (f e a) (hf e a)
    obtain ⟨hperm, hviewRest, hsch, hbatch⟩ := ih (e.updateRequest (key a) (f e a))
      (by rw [hview.ids]; exact hnodup)
      fun b hb => hview.known (hknown b (mem_cons_of_mem _ hb))
    obtain ⟨r, hr⟩ := findRequest_of_known (hknown a (by simp))
    have hone : (e.updateRequest (key a) (f e a)).tables.Perm (blocks a ++ e.tables) := by
      refine (updateRequest_tables e (key a) (f e a) (hf e a) hnodup hr).trans ?_
      rw [hblocks]
      refine Perm.trans ?_ ((tables_perm hnodup hr).symm.append_left _)
      rw [← append_assoc]
      exact perm_append_comm.append_right _
    refine ⟨?_, hview.trans hviewRest, hsch, hbatch⟩
    rw [flatMap_cons, append_assoc]
    exact hperm.trans ((hone.append_left _).trans (perm_append_comm_assoc _ _ _))

theorem applyBlockAllocations_tables (hnodup : (e.requests.map (·.seqId)).Nodup)
    (l : List (Int × List Int)) (hknown : ∀ a ∈ l, e.Known a.1) :
    let e' := e.applyBlockAllocations l
    e'.tables.Perm (l.flatMap (·.2) ++ e.tables) ∧ SameView e e' ∧ e'.scheduler = e.scheduler ∧
      e'.batch = e.batch :=
  appendAll_tables (fun a : Int × List Int => a.1) (fun a => a.2)
    (fun _ a r => { r with blockTable := r.blockTable ++ a.2 }) (fun _ _ _ => rfl)
    (fun _ _ _ => rfl) l e hnodup hknown

theorem applyPrefixCacheHits_tables (hnodup : (e.requests.map (·.seqId)).Nodup)
    (l : List PrefixCacheInfo) (hknown : ∀ a ∈ l, e.Known a.seqId)
    (hoff : t.prefixCacheAllowed = false → l = []) :
    let e' := e.applyPrefixCacheHits t l
    e'.tables.Perm (l.flatMap (·.cachedBlockIds) ++ e.tables) ∧ SameView e e' ∧
      e'.scheduler = e.scheduler ∧ e'.batch = e.batch := by
  unfold applyPrefixCacheHits
  split
  · unfold applyPrefixCacheHit
    refine appendAll_tables (fun a => a.seqId) (fun a => a.cachedBlockIds) _ ?_ ?_ l e hnodup hknown
    · exact fun _ _ _ => rfl
    · exact fun _ _ _ => rfl
  rename_i hcache
  rw [hoff (by simpa using hcache)]
  exact ⟨Perm.refl _, SameView.refl e, rfl, rfl⟩

/-- **Steps 4 and 4a**: every block the output carries arrives in a table. -/
theorem applyTables_tables {o : SchedulerOutput} (hnodup : (e.requests.map (·.seqId)).Nodup)
    (hallocs : ∀ a ∈ o.newBlockAllocations, e.Known a.1)
    (hhits : ∀ a ∈ o.prefixCacheHits, e.Known a.seqId)
    (hoff : t.prefixCacheAllowed = false → o.prefixCacheHits = []) :
    (e.applyTables t o).tables.Perm (o.carried ++ e.tables) ∧ SameView e (e.applyTables t o) ∧
      (e.applyTables t o).scheduler = e.scheduler ∧ (e.applyTables t o).batch = e.batch := by
  obtain ⟨hperm, hview, hsch, hbatch⟩ := applyBlockAllocations_tables hnodup _ hallocs
  obtain ⟨hperm', hview', hsch', hbatch'⟩ := applyPrefixCacheHits_tables (t := t)
    (e := e.applyBlockAllocations o.newBlockAllocations) (by rw [hview.ids]; exact hnodup)
    o.prefixCacheHits (fun a ha => hview.known (hhits a ha)) hoff
  refine ⟨?_, hview.trans hview', hsch'.trans hsch, hbatch'.trans hbatch⟩
  unfold applyTables SchedulerOutput.carried
  refine hperm'.trans ((hperm.append_left _).trans ?_)
  rw [append_assoc]
  exact perm_append_comm_assoc _ _ _

theorem Inv.swapIn (h : Inv ok t e) (hold : e.Old id) :
    Inv ok t (e.swapIn id) ∧ ∀ x, e.Old x → (e.swapIn id).Old x := by
  unfold Engine.swapIn
  split
  · exact ⟨h, fun _ hx => hx⟩
  split
  · exact ⟨h, fun _ hx => hx⟩
  split
  · exact ⟨h.retire_old hold false, fun _ hx => hx.retire⟩
  · exact ⟨h.patch _ _ (fun _ => rfl) fun _ => rfl, fun _ hx => hx⟩

theorem Inv.swapInAll (ids : List Int) : ∀ e : Engine σ, Inv ok t e → (∀ x ∈ ids, e.Old x) →
    Inv ok t (ids.foldl Engine.swapIn e) ∧ ∀ x, e.Old x → (ids.foldl Engine.swapIn e).Old x := by
  induction ids with
  | nil => intro e h _; exact ⟨h, fun _ hx => hx⟩
  | cons id ids ih =>
    intro e h hold
    obtain ⟨hone, hkeep⟩ := h.swapIn (hold id (by simp))
    obtain ⟨hrest, hkeepRest⟩ := ih _ hone fun x hx => hkeep x (hold x (mem_cons_of_mem _ hx))
    exact ⟨hrest, fun x hx => hkeepRest x (hkeep x hx)⟩

theorem Inv.swapOut (h : Inv ok t e) (id : Int) :
    Inv ok t (e.swapOut id) ∧ ∀ x, e.Old x → (e.swapOut id).Old x := by
  unfold Engine.swapOut
  split
  · exact ⟨h, fun _ hx => hx⟩
  rename_i r hr
  split
  · exact ⟨h, fun _ hx => hx⟩
  refine ⟨?_, fun _ hx => hx⟩
  refine h.retable hr _ _ (fun _ => rfl) (Or.inr fun _ _ => rfl) ?_
  intro rest hc
  exact Custody.free r.blockTable hc

theorem Inv.swapOutAll (ids : List Int) : ∀ e : Engine σ, Inv ok t e →
    Inv ok t (ids.foldl Engine.swapOut e) ∧ ∀ x, e.Old x → (ids.foldl Engine.swapOut e).Old x := by
  induction ids with
  | nil => intro e h; exact ⟨h, fun _ hx => hx⟩
  | cons id ids ih =>
    intro e h
    obtain ⟨hone, hkeep⟩ := h.swapOut id
    obtain ⟨hrest, hkeepRest⟩ := ih _ hone
    exact ⟨hrest, fun x hx => hkeepRest x (hkeep x hx)⟩

end Engine

end DenseCore
