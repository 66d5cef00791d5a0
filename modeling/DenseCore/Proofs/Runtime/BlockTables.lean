/-
Two tables of one sequence.

The scheduler keeps the blocks of a sequence in the order of its tokens: the
cached prefix, then what the first chunk was given.  The worker builds its own
table by replaying the output, and the replay appends the new blocks before the
cached ones.  The blocks are the same, and the order is the same exactly when
there is no cached prefix: a chunk behind a prefix always needs a block of its
own, and that block cannot be one of the prefix, because the prefix is in custody.
-/
import DenseCore.Proofs.Runtime.EngineSchedule

namespace DenseCore

open List

open BlockManager Scheduler

namespace Engine

variable {σ : Type} {ok : Prop} {t : ModelTraits σ} {e : Engine σ}

/-! ### Runs -/

theorem lifeRun_inv (steps : List (LifeStep σ)) : ∀ e : Engine σ, Inv False t e →
    Inv False t (e.lifeRun t steps) := by
  induction steps with
  | nil => intro e h; exact h
  | cons step steps ih => intro e h; exact ih _ (h.lifeStep step False.elim)

@[simp] theorem swapIn_log (e : Engine σ) (id : Int) : (e.swapIn id).log = e.log := by
  unfold swapIn
  split
  · rfl
  split
  · rfl
  split
  · exact retire_log e id false
  · rfl

@[simp] theorem swapOut_log (e : Engine σ) (id : Int) : (e.swapOut id).log = e.log := by
  unfold swapOut
  split
  · rfl
  · split <;> rfl

theorem foldl_log {α : Type} (f : Engine σ → α → Engine σ) (hf : ∀ e a, (f e a).log = e.log)
    (l : List α) : ∀ e : Engine σ, (l.foldl f e).log = e.log := by
  induction l with
  | nil => intro e; rfl
  | cons a l ih => intro e; exact (ih (f e a)).trans (hf e a)

@[simp] theorem replayOutput_log (e : Engine σ) (o : SchedulerOutput) :
    (e.replayOutput t o).log = e.log := by
  have hallocs : (e.applyBlockAllocations o.newBlockAllocations).log = e.log := by
    refine foldl_log _ ?_ _ _
    exact fun _ _ => rfl
  unfold replayOutput applyTables applyPrefixCacheHits
  dsimp only
  rw [foldl_log _ swapOut_log, foldl_log releaseFreed fun _ _ => rfl, foldl_log _ swapIn_log]
  split
  · exact (foldl_log (applyPrefixCacheHit t) (fun _ _ => rfl) _ _).trans hallocs
  · exact hallocs

theorem step_eq_lifeRun (e : Engine σ) (a : Action σ) :
    ∃ steps, e.step t a = e.lifeRun t steps := by
  cases a with
  | submit r => exact ⟨[.submit r], rfl⟩
  | retire seqId completed => exact ⟨[.retire seqId completed], rfl⟩
  | fastPath choice => exact ⟨[.fastPath choice], rfl⟩
  | complete res => exact ⟨[.complete res], rfl⟩
  | setPredictedExperts seqId experts => exact ⟨[.setPredictedExperts seqId experts], rfl⟩
  | schedule choice build =>
    have hlog : (e.scheduleAndReplay t choice).log =
        (e.scheduler.schedule choice).2 :: e.log := replayOutput_log _ _
    show ∃ steps, ((e.scheduleAndReplay t choice).failUnschedulable
      (e.scheduler.schedule choice).2).buildBatch build (e.scheduler.schedule choice).2 = _
    unfold failUnschedulable
    split
    · refine ⟨[.schedule choice, .retire (e.scheduler.schedule choice).2.diagnosticSeqId false,
        .build build], ?_⟩
      show _ = ((e.scheduleAndReplay t choice).retire _ false).buildLatest build
      unfold buildLatest
      rw [retire_log, hlog]
    refine ⟨[.schedule choice, .build build], ?_⟩
    show _ = (e.scheduleAndReplay t choice).buildLatest build
    unfold buildLatest
    rw [hlog]

/-- **Every run of the loop is a run of the finer steps.** -/
theorem run_eq_lifeRun (acts : List (Action σ)) : ∀ e : Engine σ,
    ∃ steps, e.run t acts = e.lifeRun t steps := by
  induction acts with
  | nil => intro e; exact ⟨[], rfl⟩
  | cons a acts ih =>
    intro e
    obtain ⟨first, hfirst⟩ := step_eq_lifeRun (t := t) e a
    obtain ⟨rest, hrest⟩ := ih (e.step t a)
    refine ⟨first ++ rest, ?_⟩
    unfold run lifeRun at *
    rw [foldl_cons, foldl_append, ← hfirst, hrest]

theorem run_inv (t : ModelTraits σ) (numBlocks : Nat) (blockSize : Int) (config : SchedulerConfig)
    (acts : List (Action σ)) : Inv False t ((init numBlocks blockSize config).run t acts) := by
  obtain ⟨steps, hsteps⟩ := run_eq_lifeRun (t := t) acts (init numBlocks blockSize config)
  rw [hsteps]
  exact lifeRun_inv steps _ (init_inv numBlocks blockSize config)

/-! ### What every run keeps -/

/-- The blocks in a table or in a prefix that waits. -/
def held (e : Engine σ) : List Int := e.tables ++ sharedOf e.scheduler.waitingQueue

/-- **No block is used after it was freed.**  A block has a reference for each of its
places, and one with a place is neither on a free list nor what `Allocate` returns. -/
theorem run_held_safe (t : ModelTraits σ) (numBlocks : Nat) (blockSize : Int)
    (config : SchedulerConfig) (acts : List (Action σ)) (b : Int) :
    let e := (init numBlocks blockSize config).run t acts
    e.held.count b ≤ (e.manager.blocks b).refCount ∧
      (b ∈ e.held → e.manager.InRange b ∧ (∀ shard, b ∉ e.manager.shards shard) ∧
        ∀ n c, b ∉ (e.manager.allocate n c).1) := by
  intro e
  obtain ⟨lost, hcust, -⟩ := (run_inv t numBlocks blockSize config acts).custody
  refine ⟨?_, fun hb => ?_⟩
  · have hcount : e.held.count b ≤ (e.held ++ lost).count b := by simp
    rw [hcust.exact b]
    exact Int.ofNat_le.mpr hcount
  have hmem : b ∈ e.held ++ lost := mem_append_left lost hb
  refine ⟨hcust.inRange b hmem, fun shard hfree => ?_, fun n c hnew => ?_⟩
  · obtain ⟨-, -, hzero, -⟩ := (hcust.wellFormed.partition.mem_iff shard b).mp hfree
    exact absurd hzero (hcust.pos hmem).ne'
  · exact (hcust.allocate n c).2 b hnew hmem

/-- **The worker has exactly one request for each sequence that `Schedule` names.** -/
theorem run_output_known (t : ModelTraits σ) (numBlocks : Nat) (blockSize : Int)
    (config : SchedulerConfig) (acts : List (Action σ)) (choice : ScheduleChoice) :
    let e := (init numBlocks blockSize config).run t acts
    let o := (e.scheduler.schedule choice).2
    (e.requests.map (·.seqId)).Nodup ∧
      o.prefillSeqIds ++ o.decodeSeqIds ++ o.preemptedSeqIds ++ o.swapInSeqIds ++
          o.newBlockAllocations.map Prod.fst ++ o.prefixCacheHits.map (·.seqId) ⊆
        e.requests.map (·.seqId) := by
  intro e o
  have hinv := run_inv t numBlocks blockSize config acts
  have hwithin := schedule_within hinv.within choice
  refine ⟨hinv.requestsNodup, fun id hid => ?_⟩
  have hknown : e.Known id := by
    simp only [mem_append, mem_map] at hid
    obtain ((((h | h) | h) | h) | ⟨a, h, rfl⟩) | ⟨a, h, rfl⟩ := hid
    · exact hwithin.prefills id h
    · exact hwithin.decodes id h
    · exact hwithin.preempted id h
    · exact hwithin.swapIns id h
    · exact hwithin.allocations a h
    · exact hwithin.hits a h
  exact mem_map.mpr hknown

/-! ### The two tables -/

/-- Scheduler and worker have the same table for a sequence the output lists: the
cached prefix of its group, then the blocks the output allocates to it. -/
def TablesAgree (t : ModelTraits σ) (e : Engine σ) (choice : ScheduleChoice) (seqId : Int) : Prop :=
  ∃ g ∈ e.scheduler.waitingQueue,
    ∃ r ∈ ((e.scheduled choice).applyTables t (e.scheduler.schedule choice).2).requests,
      g.sequenceId = seqId ∧ r.seqId = seqId ∧
        r.blockTable = g.sharedBlockIds ++ (e.scheduler.schedule choice).2.allocatedTo seqId ∧
        (e.scheduler.schedule choice).1.seqBlockIds seqId = some r.blockTable

theorem Inv.firstTable (h : Inv False t e) {choice : ScheduleChoice} {seqId : Int}
    (hmem : seqId ∈ (e.scheduler.schedule choice).2.prefillSeqIds) (hfirst : ¬ e.Seen seqId) :
    ∃ g ∈ e.scheduler.waitingQueue,
      ∃ r ∈ ((e.scheduled choice).applyTables t (e.scheduler.schedule choice).2).requests,
        g.sequenceId = seqId ∧ r.seqId = seqId ∧
        r.blockTable = (e.scheduler.schedule choice).2.allocatedTo seqId ++ g.sharedBlockIds ∧
        (e.scheduler.schedule choice).1.seqBlockIds seqId =
          some (g.sharedBlockIds ++ (e.scheduler.schedule choice).2.allocatedTo seqId) ∧
        (g.sharedBlockIds ≠ [] → (e.scheduler.schedule choice).2.allocatedTo seqId ≠ [] ∧
          ∀ b ∈ (e.scheduler.schedule choice).2.allocatedTo seqId, b ∉ g.sharedBlockIds) := by
  have hpass := schedule_inv (h.passInv False.elim) choice
  have hwithin := schedule_within h.within choice
  obtain ⟨g, hg, hid, hblocks, hcached, hdisj⟩ := hpass.first seqId hmem hfirst
  obtain ⟨r₀, hr₀⟩ := findRequest_of_known (h.within.groups g hg)
  obtain ⟨r, hr, htable⟩ := applyTables_find (t := t) (e := e.scheduled choice)
    (e.scheduler.schedule choice).2 hr₀ hwithin.uncached
  obtain ⟨hmem₀, hid₀⟩ := findRequest_some hr₀
  obtain ⟨hmem₁, hid₁⟩ := findRequest_some hr
  have hempty : r₀.blockTable = [] := h.unserved g hg (by rwa [hid]) r₀ hmem₀ hid₀
  refine ⟨g, hg, r, hmem₁, hid, hid₁.trans hid, ?_, hblocks, hdisj⟩
  rw [htable, hempty, hid, hcached, nil_append]

/-- **The tables of a first prefill agree exactly when there is no cached prefix**,
in every state a run of the worker loop reaches and for every `Schedule` call. -/
theorem first_prefill_tables_agree_iff (t : ModelTraits σ) (numBlocks : Nat) (blockSize : Int)
    (config : SchedulerConfig) (steps : List (LifeStep σ)) (choice : ScheduleChoice) (seqId : Int)
    (hmem : seqId ∈ (((init numBlocks blockSize config).lifeRun t steps).scheduler.schedule
      choice).2.prefillSeqIds)
    (hfirst : ¬ ((init numBlocks blockSize config).lifeRun t steps).Seen seqId) :
    TablesAgree t ((init numBlocks blockSize config).lifeRun t steps) choice seqId ↔
      ∀ g ∈ ((init numBlocks blockSize config).lifeRun t steps).scheduler.waitingQueue,
        g.sequenceId = seqId → g.sharedBlockIds = [] := by
  have hinv : Inv False t ((init numBlocks blockSize config).lifeRun t steps) :=
    lifeRun_inv steps _ (init_inv numBlocks blockSize config)
  generalize (init numBlocks blockSize config).lifeRun t steps = e at hmem hfirst hinv ⊢
  obtain ⟨g, hg, r, hr, hid, hrid, htable, hblocks, hdisj⟩ := hinv.firstTable hmem hfirst
  have hunique : ∀ g' ∈ e.scheduler.waitingQueue, g'.sequenceId = seqId → g' = g := fun g' hg' h' =>
    inj_on_of_nodup_map hinv.nodup hg' hg (h'.trans hid.symm)
  refine ⟨?_, ?_⟩
  · intro hagree g' hg' hid'
    obtain rfl := hunique g' hg' hid'
    obtain ⟨g₁, hg₁, r₁, hr₁, hid₁, hrid₁, htable₁, -⟩ := hagree
    obtain rfl := hunique g₁ hg₁ hid₁
    have hsame : r₁ = r := by
      have happlied : Inv False t ((e.scheduled choice).applyTables t
          (e.scheduler.schedule choice).2) := hinv.applyTables False.elim
      exact inj_on_of_nodup_map happlied.requestsNodup hr₁ hr (hrid₁.trans hrid.symm)
    rw [hsame, htable] at htable₁
    by_contra hne
    obtain ⟨hnew, hfresh⟩ := hdisj hne
    -- The first block of the table would be both new and cached.
    obtain ⟨b, new, hnewEq⟩ := exists_cons_of_ne_nil hnew
    obtain ⟨c, cached, hcachedEq⟩ := exists_cons_of_ne_nil hne
    rw [hnewEq, hcachedEq] at htable₁
    have hbc : b = c := by simpa using (List.cons.inj htable₁).1
    exact hfresh b (by rw [hnewEq]; simp) (by rw [hcachedEq, hbc]; simp)
  · intro hnone
    have hempty := hnone g hg hid
    refine ⟨g, hg, r, hr, hid, hrid, ?_, ?_⟩
    · rw [htable, hempty, append_nil, nil_append]
    · rw [hblocks, htable, hempty, append_nil, nil_append]

/-- A prompt of one block and one token. -/
def shortPrompt : List Int32 := (range 17).map fun i => Int32.ofNat (10 + i)

/-- The prompt is served once and its first block registered; it then comes again. -/
def repeatedPrompt : List (LifeStep Unit) :=
  [.submit { tokens := shortPrompt }, .schedule {}, .build {}, .complete { sampled := 5 },
    .retire 1 true, .submit { tokens := shortPrompt }]

theorem single_prompt_tables_agree :
    TablesAgree {} ((init 4 16 {}).lifeRun {} [.submit { tokens := shortPrompt }]
      : Engine Unit) {} 1 := by
  refine (first_prefill_tables_agree_iff {} 4 16 {} [.submit { tokens := shortPrompt }] {} 1
    (by decide +kernel) ?_).mpr (by decide +kernel)
  have hlog : ((init 4 16 {}).lifeRun {} [.submit { tokens := shortPrompt }] : Engine Unit).log =
      [] := by decide +kernel
  unfold Seen
  rw [hlog]
  simp

/-- The second time the worker has the new block before the cached one. -/
theorem repeated_prompt_tables_disagree :
    2 ∈ (((init 4 16 {}).lifeRun {} repeatedPrompt : Engine Unit).scheduler.schedule
      {}).2.prefillSeqIds ∧
    ¬ ((init 4 16 {}).lifeRun {} repeatedPrompt : Engine Unit).Seen 2 ∧
    (((init 4 16 {}).lifeRun {} repeatedPrompt : Engine Unit).scheduler.schedule
      {}).1.seqBlockIds 2 = some [0, 1] ∧
    (((((init 4 16 {}).lifeRun {} repeatedPrompt : Engine Unit).scheduled {}).applyTables {}
      (((init 4 16 {}).lifeRun {} repeatedPrompt : Engine Unit).scheduler.schedule
        {}).2).findRequest 2).map (·.blockTable) = some [1, 0] ∧
    ¬ TablesAgree {} ((init 4 16 {}).lifeRun {} repeatedPrompt : Engine Unit) {} 2 := by
  have hblocks : (((init 4 16 {}).lifeRun {} repeatedPrompt : Engine Unit).scheduler.schedule
      {}).1.seqBlockIds 2 = some [0, 1] := by decide +kernel
  have htables : ((((init 4 16 {}).lifeRun {} repeatedPrompt : Engine Unit).scheduled {}).applyTables
      {} (((init 4 16 {}).lifeRun {} repeatedPrompt : Engine Unit).scheduler.schedule
        {}).2).requests.map (fun r => (r.seqId, r.blockTable)) = [(2, [1, 0])] := by
    decide +kernel
  refine ⟨by decide +kernel, ?_, hblocks, by decide +kernel, ?_⟩
  · have hlog : ∀ o ∈ ((init 4 16 {}).lifeRun {} repeatedPrompt : Engine Unit).log,
        2 ∉ o.prefillSeqIds := by decide +kernel
    intro hs
    obtain ⟨o, ho, hmem⟩ := hs
    exact hlog o ho hmem
  intro hagree
  obtain ⟨g, -, r, hr, -, -, -, hsame⟩ := hagree
  have hmem := mem_map_of_mem (f := fun r : Request Unit => (r.seqId, r.blockTable)) hr
  rw [htables] at hmem
  have hr : r.blockTable = [1, 0] := by simpa using (Prod.mk.inj (mem_singleton.mp hmem)).2
  rw [hblocks, hr] at hsame
  exact absurd hsame (by decide)

end Engine

end DenseCore
