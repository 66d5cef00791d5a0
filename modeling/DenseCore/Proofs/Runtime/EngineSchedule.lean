/-
A `Schedule` call, the replay of its output, and whole runs of the worker loop.

The invariant of the loop gives the invariant of the passes, the passes keep
theirs, and the replay turns it back into the invariant of the loop.  On the way
stands what the replay makes of one table: the new blocks of the output are
appended first and the cached ones after them.
-/
import DenseCore.Proofs.Runtime.EngineSteps

namespace DenseCore

open List

open BlockManager Scheduler

namespace Scheduler

variable {σ : Type} {s : Scheduler σ} {o : SchedulerOutput}

/-! ### Swapping in -/

/-- A sequence that is swapped in is given blocks. -/
def SwapsInOnBlocks (o : SchedulerOutput) : Prop :=
  ∀ id ∈ o.swapInSeqIds, o.allocatedTo id ≠ []

theorem SwapsInOnBlocks.append {o' : SchedulerOutput} (h : SwapsInOnBlocks o)
    (hids : o'.swapInSeqIds = o.swapInSeqIds)
    (halloc : ∀ id, ∃ more, o'.allocatedTo id = o.allocatedTo id ++ more) : SwapsInOnBlocks o' := by
  intro id hid
  rw [hids] at hid
  obtain ⟨more, heq⟩ := halloc id
  rw [heq]
  exact append_ne_nil_of_left_ne_nil (h id hid) more

theorem Outcome.swapsInOnBlocks {p p' : WaitingPass σ} {g : SequenceGroup} (hout : Outcome p g p')
    (h : SwapsInOnBlocks p.output) : SwapsInOnBlocks p'.output := by
  cases hout with
  | kept _ ho _ => rw [ho]; exact h
  | recorded _ _ ho _ => rw [ho]; exact h
  | ran _ _ ho _ => rw [ho]; exact h
  | dropped _ _ _ ho _ => rw [ho]; exact h
  | scheduled tokens new m _ _ hp =>
    rw [hp]
    refine h.append rfl fun id => ?_
    by_cases heq : id = g.sequenceId
    · subst heq
      exact ⟨new, schedulePrefill_allocatedTo (p.withManager g m) g (p.seqBlocks g) new tokens⟩
    refine ⟨[], ?_⟩
    rw [append_nil]
    exact (schedulePrefill_lists (p.withManager g m) g (p.seqBlocks g) new tokens).allocated id heq

theorem swapInOne_swapsInOnBlocks (choice : ScheduleChoice) (p : SwapInPass σ) (id : Int)
    (h : SwapsInOnBlocks p.output) : SwapsInOnBlocks (swapInOne choice p id).output := by
  unfold swapInOne
  split
  · exact h
  split
  · exact h
  dsimp only
  split
  · exact h
  rename_i hne
  intro x hx
  have halloc : ∀ y, (SwapInPass.takeIn { p with sch := { p.sch with
      blockManager := (p.sch.blockManager.allocate (p.sch.swapInBlocks id)
        (choice.allocSwapped id)).2 } } id
        (p.sch.blockManager.allocate (p.sch.swapInBlocks id)
          (choice.allocSwapped id)).1).output.allocatedTo y =
      p.output.allocatedTo y ++ if id = y then
        (p.sch.blockManager.allocate (p.sch.swapInBlocks id) (choice.allocSwapped id)).1
        else [] := by
    intro y
    unfold SwapInPass.takeIn SchedulerOutput.allocatedTo
    dsimp only
    rw [filter_append, flatMap_append]
    by_cases heq : id = y
    · simp [heq]
    · simp [heq]
  rw [halloc]
  rcases mem_append.mp hx with hold | hnew
  · exact append_ne_nil_of_left_ne_nil (h x hold) _
  obtain rfl : x = id := by simpa using hnew
  rw [if_pos rfl]
  exact append_ne_nil_of_right_ne_nil _ hne

/-- Only a sequence with blocks is swapped in. -/
theorem schedule_swapsInOnBlocks (s : Scheduler σ) (choice : ScheduleChoice) :
    SwapsInOnBlocks (s.schedule choice).2 := by
  have hP : Phases choice fun (_ : Scheduler σ) o => SwapsInOnBlocks o :=
    { notes := fun _ _ _ _ _ h => h
      bucket := fun _ _ _ h => h
      preempt := by
        intro s' h
        unfold preemptSequences
        dsimp only
        split
        · exact h
        split
        · exact h
        · exact h
      swapIn := by
        intro s' o h _
        unfold scheduleSwapped
        dsimp only
        split
        · exact h
        split
        · exact h
        exact List.foldlRecOn (motive := fun p : SwapInPass σ => SwapsInOnBlocks p.output) _ _ h
          fun p hp id _ => swapInOne_swapsInOnBlocks choice p id hp
      decode := by
        intro s' o h _
        obtain ⟨ids, context, reason, hout, -, -⟩ := scheduleRunning_spec s' choice o
        rw [hout]
        exact h
      prefill := by
        intro s' o choose cap h _
        have hloop : SwapsInOnBlocks ((s'.sortedQueue choice.arrangement).foldl
            (WaitingPass.considerGroup (s'.sortedQueue choice.arrangement).length choose)
            { sch := s'
              output := o
              tokensBudget := s'.config.maxNumBatchedTokens - o.totalTokens
              prefillTokenCap := cap
              targetContextLen := o.batchContextLen }).output :=
          List.foldlRecOn (motive := fun p : WaitingPass σ => SwapsInOnBlocks p.output) _ _ h
            fun p hp g _ => (considerGroup_outcome _ choose p g).swapsInOnBlocks hp
        unfold scheduleWaiting
        dsimp only
        split
        · exact hloop
        · exact hloop }
  exact hP.schedule (by intro id hid; simp at hid)

end Scheduler

namespace Engine

variable {σ : Type} {ok : Prop} {t : ModelTraits σ} {e : Engine σ} {id : Int}

/-! ### One table under the replay -/

theorem appendAll_find {α : Type} (key : α → Int) (blocks : α → List Int)
    (f : Engine σ → α → Request σ → Request σ) (hf : ∀ e a r, (f e a r).seqId = r.seqId)
    (hblocks : ∀ e a r, (f e a r).blockTable = r.blockTable ++ blocks a) (l : List α) :
    ∀ (e : Engine σ) (r : Request σ), e.findRequest id = some r →
      ∃ r', (l.foldl (fun e a => e.updateRequest (key a) (f e a)) e).findRequest id = some r' ∧
        r'.blockTable = r.blockTable ++ (l.filter fun a => key a = id).flatMap blocks := by
  induction l with
  | nil => intro e r hr; exact ⟨r, hr, by simp⟩
  | cons a l ih =>
    intro e r hr
    rw [foldl_cons]
    by_cases heq : key a = id
    · subst heq
      obtain ⟨r', hr', htable⟩ := ih _ _ (updateRequest_find e (key a) (f e a) (hf e a) hr)
      refine ⟨r', hr', ?_⟩
      rw [htable, hblocks, filter_cons_of_pos (by simp), flatMap_cons, append_assoc]
    have hother : (e.updateRequest (key a) (f e a)).findRequest id = some r := by
      unfold findRequest at hr ⊢
      unfold updateRequest
      dsimp only
      generalize e.requests = rs at hr ⊢
      induction rs with
      | nil => exact hr
      | cons r₀ rs ihrs =>
        rw [map_cons]
        by_cases hr₀ : r₀.seqId = key a
        · have hne : r₀.seqId ≠ id := fun h => heq (hr₀.symm.trans h)
          rw [find?_cons_of_neg (by simpa using hne)] at hr
          rw [if_pos hr₀, find?_cons_of_neg (by rw [hf]; simpa using hne)]
          exact ihrs hr
        rw [if_neg hr₀]
        by_cases hid : r₀.seqId = id
        · rw [find?_cons_of_pos (by simpa using hid)] at hr ⊢
          exact hr
        rw [find?_cons_of_neg (by simpa using hid)] at hr ⊢
        exact ihrs hr
    obtain ⟨r', hr', htable⟩ := ih _ _ hother
    refine ⟨r', hr', ?_⟩
    rw [htable, filter_cons_of_neg (by simpa using heq)]

/-- **The table of one request after steps 4 and 4a.** -/
theorem applyTables_find (o : SchedulerOutput) {r : Request σ} (hr : e.findRequest id = some r)
    (hoff : t.prefixCacheAllowed = false → o.prefixCacheHits = []) :
    ∃ r', (e.applyTables t o).findRequest id = some r' ∧
      r'.blockTable = r.blockTable ++ (o.allocatedTo id ++ o.cachedFor id) := by
  obtain ⟨r₁, hr₁, htable₁⟩ := appendAll_find (fun a : Int × List Int => a.1) (fun a => a.2)
    (fun (_ : Engine σ) a r => { r with blockTable := r.blockTable ++ a.2 }) (fun _ _ _ => rfl)
    (fun _ _ _ => rfl) o.newBlockAllocations e r hr
  unfold applyTables applyPrefixCacheHits
  split
  · obtain ⟨r₂, hr₂, htable₂⟩ := appendAll_find (fun a : PrefixCacheInfo => a.seqId)
      (fun a => a.cachedBlockIds)
      (fun (e : Engine σ) hit r =>
        { r with
          prefixCacheAllowed := t.prefixCacheAllowed
          blockTable := r.blockTable ++ hit.cachedBlockIds
          nPast := r.nPast + hit.cachedTokens
          tokens :=
            if 0 < hit.cachedTokens ∧ hit.cachedTokens ≤ r.tokens.length then
              r.tokens.drop hit.cachedTokens.toNat
            else r.tokens
          registeredPrefixBlocks :=
            max r.registeredPrefixBlocks (hit.cachedTokens.tdiv blockSlots).toNat
          ssmRuntimeStates := restoredStates t e.manager hit r.ssmRuntimeStates })
      (fun _ _ _ => rfl) (fun _ _ _ => rfl) o.prefixCacheHits _ _ hr₁
    refine ⟨r₂, hr₂, ?_⟩
    rw [htable₂, htable₁, append_assoc]
    rfl
  · rename_i hcache
    refine ⟨r₁, hr₁, ?_⟩
    have hnone : o.cachedFor id = [] := by
      unfold SchedulerOutput.cachedFor
      rw [hoff (by simpa using hcache)]
      rfl
    rw [htable₁, hnone, append_nil]
    rfl

/-! ### The call and its replay -/

/-- No group that holds a cached prefix is one the pass would cancel. -/
def KeepsPrefixes (e : Engine σ) : Prop :=
  ∀ g ∈ e.scheduler.waitingQueue, g.sharedBlockIds ≠ [] → FitsBudget e.scheduler g

theorem Inv.passInv (h : Inv ok t e) (hkeeps : ok → e.KeepsPrefixes) :
    PassInv ok e.Seen e.tables e.scheduler.waitingQueue e.scheduler e.scheduler.waitingQueue {} where
  nodup := h.nodup
  bounded := h.bounded
  groups := h.toShape.groupsBounded
  prefills := by simp
  decodes := by simp
  fresh := fun g hg hs _ => ⟨h.fresh g hg hs, hg⟩
  started := fun g hg hs => h.started g hg (hs.resolve_right (by simp))
  first := by simp
  freed := rfl
  custody := h.custody.perm (by simpa [SchedulerOutput.carried] using perm_append_comm)
  keeps := hkeeps

/-- The engine with the output of a call in its history, before the replay. -/
def scheduled (e : Engine σ) (choice : ScheduleChoice) : Engine σ :=
  { e with
    scheduler := (e.scheduler.schedule choice).1
    log := (e.scheduler.schedule choice).2 :: e.log }

theorem seen_scheduled (e : Engine σ) (choice : ScheduleChoice) (x : Int) :
    (e.scheduled choice).Seen x ↔ e.Seen x ∨ x ∈ (e.scheduler.schedule choice).2.prefillSeqIds := by
  unfold Seen scheduled
  simp only [mem_cons, exists_eq_or_imp]
  exact Or.comm

variable {choice : ScheduleChoice}

theorem Inv.unlisted (h : Inv ok t e) (hkeeps : ok → e.KeepsPrefixes)
    {g : SequenceGroup} (hg : g ∈ (e.scheduled choice).scheduler.waitingQueue)
    (hs : ¬ (e.scheduled choice).Seen g.sequenceId) :
    Fresh (e.scheduled choice).scheduler (e.scheduler.schedule choice).2 g ∧
      g ∈ e.scheduler.waitingQueue ∧ ¬ e.Seen g.sequenceId := by
  rw [seen_scheduled, not_or] at hs
  obtain ⟨hf, hq⟩ := (schedule_inv (h.passInv hkeeps) choice).fresh g hg hs.1 hs.2
  exact ⟨hf, hq, hs.1⟩

theorem Inv.scheduled_old (h : Inv ok t e) (hkeeps : ok → e.KeepsPrefixes) {x : Int}
    (hx : e.Old x) : (e.scheduled choice).Old x := by
  refine ⟨?_, ?_⟩
  · show x < (e.scheduler.schedule choice).1.nextSeqId
    rw [(schedule_frame e.scheduler choice).1]
    exact hx.1
  intro g hg hs
  obtain ⟨-, hq, hunseen⟩ := h.unlisted hkeeps hg hs
  exact hx.2 g hq hunseen

/-- **Schedule and steps 4 and 4a** keep the invariant. -/
theorem Inv.applyTables (h : Inv ok t e) (hkeeps : ok → e.KeepsPrefixes) :
    Inv ok t ((e.scheduled choice).applyTables t (e.scheduler.schedule choice).2) := by
  have hpass := schedule_inv (h.passInv hkeeps) choice
  have hwithin := schedule_within h.within choice
  obtain ⟨hperm, hview, hsch, hbatch⟩ := applyTables_tables (t := t) (e := e.scheduled choice)
    (o := (e.scheduler.schedule choice).2) h.requestsNodup hwithin.allocations hwithin.hits
    hwithin.uncached
  have hnext := (schedule_frame e.scheduler choice).1
  have hold : ∀ x, (e.scheduled choice).Old x →
      Old ((e.scheduled choice).applyTables t (e.scheduler.schedule choice).2) x :=
    fun x hx => hview.old hx
  have hseen : ∀ x, Seen ((e.scheduled choice).applyTables t (e.scheduler.schedule choice).2) x ↔
      (e.scheduled choice).Seen x := by
    intro x
    unfold Seen
    rw [hview.log]
  refine ⟨⟨?_, ?_, ?_, ?_, ?_, ?_, ?_, ?_, ?_, ?_, ?_⟩, ?_⟩
  · rw [hsch]
    have hlater : Within e.Known (t.prefixCacheAllowed = false) (e.scheduler.schedule choice).1
        (e.scheduler.schedule choice).1.waitingQueue {} :=
      ⟨hwithin.groups, hwithin.running, hwithin.swapped, by simp, by simp, by simp, by simp,
        by simp, by simp, hwithin.unshared, fun _ => rfl⟩
    exact Within.mono hlater fun x hx => hview.known hx
  · rw [hview.ids]
    exact h.requestsNodup
  · intro r hr
    rw [hview.nextSeqId]
    obtain ⟨r₀, hr₀, heq⟩ : e.Known r.seqId := known_of_ids hview.ids.symm ⟨r, hr, rfl⟩
    have hbound := h.requestsBounded r₀ hr₀
    show r.seqId < (e.scheduler.schedule choice).1.nextSeqId
    rw [hnext, ← heq]
    exact hbound
  · intro x hx
    rw [hseen, seen_scheduled] at hx
    rw [hview.nextSeqId]
    show x < (e.scheduler.schedule choice).1.nextSeqId
    rcases hx with hx | hx
    · rw [hnext]; exact h.seenBounded x hx
    · exact hpass.prefills x hx
  · rw [hsch]; exact hpass.nodup
  · rw [hsch]; exact hpass.bounded
  · intro g hg hs
    rw [hsch] at hg ⊢
    rw [hseen] at hs
    obtain ⟨hf, -, -⟩ := h.unlisted hkeeps hg hs
    exact ⟨hf.context, hf.prefixLen, hf.remaining, hf.recorded, hf.notRunning, hf.notSwapped,
      by simp, rfl, rfl⟩
  · intro g hg hs
    rw [hsch] at hg ⊢
    rw [hseen, seen_scheduled] at hs
    exact hpass.started g hg hs
  · intro g hg hs r hr hid
    rw [hsch] at hg
    rw [hseen] at hs
    obtain ⟨hf, hq, hunseen⟩ := h.unlisted hkeeps hg hs
    -- Ids are unique, so this request is the one the replay found under the id.
    obtain ⟨r₀, hr₀⟩ := findRequest_of_known (h.within.groups g hq)
    obtain ⟨r₁, hr₁, htable⟩ := applyTables_find (t := t) (e := e.scheduled choice)
      (e.scheduler.schedule choice).2 hr₀ hwithin.uncached
    have hunique : r = r₁ := by
      obtain ⟨hmem₁, hid₁⟩ := findRequest_some hr₁
      have hnodup : (((e.scheduled choice).applyTables t
          (e.scheduler.schedule choice).2).requests.map (·.seqId)).Nodup := by
        rw [hview.ids]; exact h.requestsNodup
      exact inj_on_of_nodup_map hnodup hr hmem₁ (hid.trans hid₁.symm)
    obtain ⟨hmem₀, hid₀⟩ := findRequest_some hr₀
    rw [hunique, htable, hf.noAllocation, hf.noHit, h.unserved g hq hunseen r₀ hmem₀ hid₀]
    rfl
  · intro a ha
    rw [hbatch] at ha
    exact hold _ (h.scheduled_old hkeeps (h.batched a ha))
  · intro o ho x hx
    rw [hview.log] at ho
    rcases mem_cons.mp ho with rfl | hearlier
    · refine hold _ ⟨hpass.decodes x hx, ?_⟩
      intro g hg hs heq
      obtain ⟨hf, -, -⟩ := h.unlisted hkeeps hg hs
      exact hf.notDecoded (heq ▸ hx)
    · exact hold _ (h.scheduled_old hkeeps (h.decoded o hearlier x hx))
  · show CustodyUpTo ok (Engine.applyTables t _ _).scheduler.blockManager _
    rw [hsch]
    refine hpass.custody.perm ?_
    refine (hperm.append_right _).trans ?_
    rw [append_assoc]
    exact perm_append_comm.append_left _

/-- **Schedule and the replay of its output** keep the invariant. -/
theorem Inv.scheduleAndReplay (h : Inv ok t e) (hkeeps : ok → e.KeepsPrefixes) :
    Inv ok t (e.scheduleAndReplay t choice) := by
  have hpass := schedule_inv (h.passInv hkeeps) choice
  have hwithin := schedule_within h.within choice
  have htables : Inv ok t ((e.scheduled choice).applyTables t (e.scheduler.schedule choice).2) :=
    h.applyTables hkeeps
  obtain ⟨-, hview, -, -⟩ := applyTables_tables (t := t) (e := e.scheduled choice)
    (o := (e.scheduler.schedule choice).2) h.requestsNodup hwithin.allocations hwithin.hits
    hwithin.uncached
  have hswapIns : ∀ x ∈ (e.scheduler.schedule choice).2.swapInSeqIds,
      Old ((e.scheduled choice).applyTables t (e.scheduler.schedule choice).2) x := by
    intro x hx
    refine hview.old ⟨?_, ?_⟩
    · obtain ⟨r, hr, rfl⟩ := hwithin.swapIns x hx
      show r.seqId < (e.scheduler.schedule choice).1.nextSeqId
      rw [(schedule_frame e.scheduler choice).1]
      exact h.requestsBounded r hr
    intro g hg hs heq
    obtain ⟨hf, -, -⟩ := h.unlisted hkeeps hg hs
    exact schedule_swapsInOnBlocks e.scheduler choice x hx (heq ▸ hf.noAllocation)
  unfold Engine.scheduleAndReplay replayOutput
  dsimp only
  rw [hpass.freed]
  exact (Inv.swapOutAll _ _ (Inv.swapInAll _ _ htables hswapIns).1).1

/-! ### Runs -/

theorem Inv.buildLatest (h : Inv ok t e) (build : BuildChoice) :
    Inv ok t (e.buildLatest build) := by
  unfold Engine.buildLatest
  split
  · exact h
  rename_i o rest hlog
  refine h.buildBatch build o ?_ ?_
  · intro x hx
    exact h.toShape.old_of_seen ⟨o, by rw [hlog]; simp, hx⟩
  intro x hx
  exact h.decoded o (by rw [hlog]; simp) x hx

/-- The steps under which nothing is lost: no request is retired while its group
holds a cached prefix, and none such is cancelled by the scheduler. -/
def LifeStep.Keeps (e : Engine σ) : LifeStep σ → Prop
  | .retire seqId _ => ¬ e.HoldsPrefix seqId
  | .schedule _ => e.KeepsPrefixes
  | _ => True

/-- **Every step of a request's life keeps the invariant.** -/
theorem Inv.lifeStep (h : Inv ok t e) (step : LifeStep σ) (hkeeps : ok → step.Keeps e) :
    Inv ok t (e.lifeStep t step) := by
  cases step with
  | submit r => exact h.submit r
  | retire seqId completed => exact h.retire completed hkeeps
  | fastPath choice => exact h.fastPathStep choice
  | schedule choice => exact h.scheduleAndReplay hkeeps
  | build build => exact h.buildLatest build
  | complete res => exact h.completeStep res
  | setPredictedExperts seqId experts => exact h.setPredictedExperts experts

theorem init_inv (numBlocks : Nat) (blockSize : Int) (config : SchedulerConfig) :
    Inv ok t (init numBlocks blockSize config : Engine σ) where
  within := ⟨by simp [init, Scheduler.init], by simp [init, Scheduler.init],
    by simp [init, Scheduler.init], by simp, by simp, by simp, by simp, by simp, by simp,
    by simp [init, Scheduler.init], fun _ => rfl⟩
  requestsNodup := by simp [init]
  requestsBounded := by simp [init]
  seenBounded := by simp [init, Seen]
  nodup := by simp [init, Scheduler.init]
  bounded := ⟨by simp [init, Scheduler.init], by simp [init, Scheduler.init], fun _ _ => rfl⟩
  fresh := by simp [init, Scheduler.init]
  started := by simp [init, Scheduler.init]
  unserved := by simp [init, Scheduler.init]
  batched := by simp [init]
  decoded := by simp [init]
  custody := ⟨[], Custody.init numBlocks blockSize, fun _ => rfl⟩

end Engine

end DenseCore
