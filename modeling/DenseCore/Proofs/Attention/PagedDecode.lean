/-
No task of the paged decode callback reads ahead of the writes.

`TablesInv` follows the shared block pointer tables as `EpochInv` follows the epochs,
and `OrderInv` turns both into the order of the log.  An execution that starts from
zeroed counters is in order; `ResetPagedDecodeGraphExecutionState` sees to that before
every graph compute.  With several tokens a reader waits for an open epoch, and
whatever finished executions have left will do.
-/
import DenseCore.Proofs.Attention.PagedEpochs

namespace DenseCore.PagedDecode

open List hiding le_trans

open Function (update update_of_ne update_self)

open Lib

variable {c : Call} {t : Nat} {sh : Shared} {pc : Pc} {s : Pool Shared Pc}

/-! ### The shared tables of one execution -/

/-- Task 0 is through with the tables. -/
def Pc.tablesOver : Pc → Bool
  | .takeTables | .readTile _ | .finished => true
  | _ => false

/-- The event reads the cache. -/
def Event.isRead : Event → Bool
  | .readTables _ | .readTile _ _ => true
  | _ => false

/-- The tables are filled for good. -/
def Filled (s : Pool Shared Pc) : Prop :=
  .filledTables 0 ∈ s.shared.log ∧ (s.pc 0).tablesOver = true

/-- One execution that starts with the tables not ready, or that has no other task. -/
structure TablesInv (c : Call) (s : Pool Shared Pc) : Prop where
  legal : ∀ t, Legal c t (s.pc t)
  ready_filled : c.sharesTables = true → s.shared.ud.sharedBlockPtrsReady ≠ 0 → 1 < c.nth → Filled s
  storing : s.pc 0 = .storeReady → .filledTables 0 ∈ s.shared.log
  using_filled : ∀ t, s.pc t = .takeTables ∨ (∃ tile, s.pc t = .readTile tile) →
    c.sharesTables = true → Filled s
  read_filled : ∀ e ∈ s.shared.log, e.isRead = true → c.sharesTables = true → Filled s

theorem tablesInv_enter {ud : PagedAttentionUserData}
    (h : c.sharesTables = true → ud.sharedBlockPtrsReady = 0 ∨ c.nth = 1) :
    TablesInv c (Call.enter ud) where
  legal _ := trivial
  ready_filled hsh hne hlt := by
    have hne' : ud.sharedBlockPtrsReady ≠ 0 := hne
    have hcase := h hsh
    omega
  storing := nofun
  using_filled _ h := by
    rcases h with h | ⟨tile, h⟩
    · cases h
    · cases h
  read_filled _ h := by cases h

/-- What a step has to keep for the tables. Each step below is an instance. -/
theorem TablesInv.move {i : Nat} {sh' : Shared} {pc' : Pc} (h : TablesInv c s)
    (hlegal : Legal c i pc') (hlog : s.shared.log ⊆ sh'.log)
    (hnew : ∀ e ∈ sh'.log, e ∈ s.shared.log ∨ e.isRead = false ∨ (c.sharesTables = true → Filled s))
    (hready : sh'.ud.sharedBlockPtrsReady ≠ 0 → s.shared.ud.sharedBlockPtrsReady ≠ 0 ∨
      Filled ⟨sh', update s.pc i pc'⟩)
    (hover : i = 0 → (s.pc i).tablesOver = true → pc'.tablesOver = true)
    (hstore : i = 0 → pc' = .storeReady → .filledTables 0 ∈ sh'.log)
    (husing : pc' = .takeTables ∨ (∃ tile, pc' = .readTile tile) → c.sharesTables = true →
      Filled s ∨ Filled ⟨sh', update s.pc i pc'⟩) :
    TablesInv c ⟨sh', update s.pc i pc'⟩ := by
  have hfilled : Filled s → Filled ⟨sh', update s.pc i pc'⟩ := by
    intro hf
    refine ⟨hlog hf.1, ?_⟩
    show (update s.pc i pc' 0).tablesOver = true
    by_cases h0 : (0 : Nat) = i
    · subst h0
      rw [update_self]
      exact hover rfl hf.2
    rw [update_of_ne h0]
    exact hf.2
  refine ⟨?_, ?_, ?_, ?_, ?_⟩
  · exact (Function.forall_update_iff s.pc (fun t p => Legal c t p)).mpr
      ⟨hlegal, fun t _ => h.legal t⟩
  · intro hsh hne hlt
    rcases hready hne with hold | hnow
    · exact hfilled (h.ready_filled hsh hold hlt)
    · exact hnow
  · intro hpc
    have hpc' : update s.pc i pc' 0 = .storeReady := hpc
    by_cases h0 : (0 : Nat) = i
    · subst h0
      rw [update_self] at hpc'
      exact hstore rfl hpc'
    rw [update_of_ne h0] at hpc'
    exact hlog (h.storing hpc')
  · refine (Function.forall_update_iff s.pc (fun t p => p = .takeTables ∨
      (∃ tile, p = .readTile tile) → c.sharesTables = true → Filled _)).mpr ⟨?_, ?_⟩
    · intro hpc hsh
      rcases husing hpc hsh with hold | hnow
      · exact hfilled hold
      · exact hnow
    intro t _ hpc hsh
    exact hfilled (h.using_filled t hpc hsh)
  intro e he hr hsh
  rcases hnew e he with hold | hno | hnow
  · exact hfilled (h.read_filled e hold hr hsh)
  · rw [hno] at hr
    cases hr
  · exact hfilled (hnow hsh)

/-- A task in the first phase reads nothing and touches no table. -/
theorem act_first (c : Call) (t : Nat) (sh : Shared) (hr : pc.reading = false) :
    sh.log ⊆ (act c t sh pc).1.log ∧
    (∀ e ∈ (act c t sh pc).1.log, e ∈ sh.log ∨ e.isRead = false) ∧
    (act c t sh pc).1.ud.sharedBlockPtrsReady = sh.ud.sharedBlockPtrsReady ∧
    (act c t sh pc).2 ≠ .storeReady ∧ (act c t sh pc).2 ≠ .takeTables ∧
    (∀ tile, (act c t sh pc).2 ≠ .readTile tile) ∧ pc.tablesOver = false := by
  have hsame : sh.log ⊆ sh.log := List.Subset.refl _
  have hold : ∀ e ∈ sh.log, e ∈ sh.log ∨ e.isRead = false := fun e he => Or.inl he
  have hemit : ∀ e : Event, e.isRead = false → sh.log ⊆ (sh.emit e).log ∧
      (∀ e' ∈ (sh.emit e).log, e' ∈ sh.log ∨ e'.isRead = false) := by
    intro e he
    refine ⟨subset_cons_self _ _, ?_⟩
    intro e' he'
    rcases mem_cons.mp he' with rfl | he'
    · exact Or.inr he
    · exact Or.inl he'
  have hnext : ∀ epoch token, c.nextToken epoch token ≠ .storeReady ∧
      c.nextToken epoch token ≠ .takeTables ∧ ∀ tile, c.nextToken epoch token ≠ .readTile tile := by
    intro epoch token
    unfold Call.nextToken
    split_ifs
    · exact ⟨nofun, nofun, nofun⟩
    · exact ⟨nofun, nofun, nofun⟩
  cases pc with
  | entry =>
    simp only [act]
    split_ifs with h1 h2 h3
    · exact ⟨hsame, hold, rfl, nofun, nofun, nofun, rfl⟩
    · exact ⟨(hemit _ rfl).1, (hemit _ rfl).2, rfl, nofun, nofun, nofun, rfl⟩
    · exact ⟨hsame, hold, rfl, nofun, nofun, nofun, rfl⟩
    unfold Call.firstPhase
    refine ⟨hsame, hold, rfl, ?_⟩
    split <;> (try split_ifs) <;> exact ⟨nofun, nofun, nofun, rfl⟩
  | resetWriters | loadStarted | publish epoch => exact ⟨hsame, hold, rfl, nofun, nofun, nofun, rfl⟩
  | openEpoch =>
    refine ⟨hsame, hold, rfl, ?_⟩
    simp only [act]
    unfold Call.afterOpen
    split
    · exact ⟨nofun, nofun, nofun, rfl⟩
    have hn := hnext ((sh.ud.epochStarted + 1) % epochLimit) t
    exact ⟨hn.1, hn.2.1, hn.2.2, rfl⟩
  | awaitStarted | countWriter epoch | awaitDone epoch =>
    refine ⟨hsame, hold, rfl, ?_⟩
    simp only [act]
    split_ifs <;> exact ⟨nofun, nofun, nofun, rfl⟩
  | loadDone started =>
    refine ⟨hsame, hold, rfl, ?_⟩
    simp only [act]
    split_ifs
    · have hn := hnext started t
      exact ⟨hn.1, hn.2.1, hn.2.2, rfl⟩
    · exact ⟨nofun, nofun, nofun, rfl⟩
  | writeK epoch token => exact ⟨(hemit _ rfl).1, (hemit _ rfl).2, rfl, nofun, nofun, nofun, rfl⟩
  | writeV epoch token =>
    refine ⟨(hemit _ rfl).1, (hemit _ rfl).2, rfl, ?_⟩
    simp only [act]
    unfold Call.afterWrite
    split
    · exact ⟨nofun, nofun, nofun, rfl⟩
    · have hn := hnext epoch (token + c.nth)
      exact ⟨hn.1, hn.2.1, hn.2.2, rfl⟩
    · exact ⟨nofun, nofun, nofun, rfl⟩
  | _ => cases hr

/-- No step of a task breaks the invariant of the shared tables. -/
theorem TablesInv.step (h : TablesInv c s) (i : Nat) : TablesInv c (s.step (act c) i) := by
  have hl := h.legal i
  have hnext : Legal c i (act c i s.shared (s.pc i)).2 := legal_act hl
  show TablesInv c ⟨(act c i s.shared (s.pc i)).1, update s.pc i (act c i s.shared (s.pc i)).2⟩
  by_cases hr : (s.pc i).reading = false
  · obtain ⟨hlog, hnew, hready, hns, hnt, hnr, hto⟩ := act_first c i s.shared hr
    refine h.move hnext hlog ?_ ?_ ?_ ?_ ?_
    · intro e he
      rcases hnew e he with hold | hno
      · exact Or.inl hold
      · exact Or.inr (Or.inl hno)
    · intro hne
      rw [hready] at hne
      exact Or.inl hne
    · intro _ hov
      rw [hto] at hov
      cases hov
    · intro _ hst
      exact absurd hst hns
    intro hus
    rcases hus with hus | ⟨tile, hus⟩
    · exact absurd hus hnt
    · exact absurd hus (hnr tile)
  · -- a new read needs filled tables, and comes only where they are in use
    have hnone : ∀ sh' : Shared, sh'.log = s.shared.log → ∀ e ∈ sh'.log, e ∈ s.shared.log ∨
        e.isRead = false ∨ (c.sharesTables = true → Filled s) := by
      intro sh' hsame e he
      rw [hsame] at he
      exact Or.inl he
    have hquiet : ∀ e : Event, e.isRead = false → ∀ e' ∈ (s.shared.emit e).log,
        e' ∈ s.shared.log ∨ e'.isRead = false ∨ (c.sharesTables = true → Filled s) := by
      intro e hno e' he
      rcases mem_cons.mp he with rfl | he
      · exact Or.inr (Or.inl hno)
      · exact Or.inl he
    have hread : ∀ e : Event, (c.sharesTables = true → Filled s) → ∀ e' ∈ (s.shared.emit e).log,
        e' ∈ s.shared.log ∨ e'.isRead = false ∨ (c.sharesTables = true → Filled s) := by
      intro e hf e' he
      rcases mem_cons.mp he with rfl | he
      · exact Or.inr (Or.inr hf)
      · exact Or.inl he
    have hsub : ∀ e : Event, s.shared.log ⊆ (s.shared.emit e).log :=
      fun e => subset_cons_self e s.shared.log
    have husing := h.using_filled i
    cases hpc : s.pc i with
    | tiles =>
      rw [hpc] at hnext
      simp only [act] at hnext ⊢
      refine h.move hnext (List.Subset.refl _) (hnone _ rfl) (fun hne => Or.inl hne) ?_ ?_ ?_
      · rw [hpc]; intro _; nofun
      · intro _ hst
        split_ifs at hst
      intro hus hsh
      simp only [hsh, if_true] at hus
      split_ifs at hus <;> simp at hus
    | clearTables =>
      rw [hpc] at hnext
      refine h.move hnext (hsub _) (hquiet _ rfl) (fun hne => Or.inl hne) ?_ ?_ ?_
      · rw [hpc]; intro _; nofun
      · intro _; nofun
      · intro hus; simp [act] at hus
    | fillTables =>
      rw [hpc] at hnext hl
      refine h.move hnext (hsub _) (hquiet _ rfl) (fun hne => Or.inl hne) ?_ ?_ ?_
      · rw [hpc]; intro _; nofun
      · intro h0 _
        rw [h0]
        exact mem_cons_self
      · intro hus; simp [act] at hus
    | storeReady =>
      rw [hpc] at hnext hl
      obtain ⟨rfl, -⟩ := hl
      have hf : Filled ⟨(act c 0 s.shared .storeReady).1,
          update s.pc 0 (act c 0 s.shared .storeReady).2⟩ := by
        refine ⟨h.storing hpc, ?_⟩
        show (update s.pc 0 .takeTables 0).tablesOver = true
        rw [update_self]
        rfl
      refine h.move hnext (List.Subset.refl _) (hnone _ rfl) (fun _ => Or.inr hf) ?_ ?_
        (fun _ _ => Or.inr hf)
      · rw [hpc]; intro _; nofun
      · intro _; nofun
    | awaitReady =>
      rw [hpc] at hnext hl
      obtain ⟨hi, h0, hsh⟩ := hl
      refine h.move hnext (List.Subset.refl _) (hnone _ rfl) (fun hne => Or.inl hne)
        (fun h => absurd h h0) (fun h => absurd h h0) ?_
      intro hus _
      simp only [act] at hus
      split_ifs at hus with hrdy
      · simp at hus
      · exact Or.inl (h.ready_filled hsh hrdy (by omega))
    | takeTables =>
      rw [hpc] at hnext
      have hf := husing (Or.inl hpc)
      refine h.move hnext (hsub _) (hread _ hf) (fun hne => Or.inl hne) ?_ ?_
        (fun _ hsh => Or.inl (hf hsh))
      · intro _ _; rfl
      · intro _; nofun
    | readTile tile =>
      rw [hpc] at hnext
      have hf := husing (Or.inr ⟨tile, hpc⟩)
      refine h.move hnext (hsub _) (hread _ hf) (fun hne => Or.inl hne) ?_ ?_
        (fun _ hsh => Or.inl (hf hsh))
      · intro _ _
        simp only [act]
        split_ifs <;> rfl
      intro _
      simp only [act]
      split_ifs <;> nofun
    | finished =>
      rw [hpc] at hnext
      refine h.move hnext (List.Subset.refl _) (hnone _ rfl) (fun hne => Or.inl hne) ?_ ?_ ?_
      · intro _ _; rfl
      · intro _; nofun
      · intro hus; simp [act] at hus
    | _ => rw [hpc] at hr; exact absurd rfl hr

/-! ### The order of the log -/

/-- What the first phase grants the log: a reader's keys and values are there, and no
writer is left once there has been a read. -/
structure KvGate (c : Call) (s : Pool Shared Pc) : Prop where
  reader : ∀ t tile, s.pc t = .readTile tile → c.tokenParallel = false →
    CurrentKvWritten c s.shared.log
  writer : ∀ t epoch token, s.pc t = .writeK epoch token ∨ s.pc t = .writeV epoch token →
    c.tokenParallel = false → ∀ t' tile, .readTile t' tile ∉ s.shared.log

/-- Who has read, and that no read came before the writes. -/
structure OrderInv (c : Call) (s : Pool Shared Pc) : Prop where
  readers : ∀ t tile, .readTile t tile ∈ s.shared.log → t < c.nth ∧ (s.pc t).reading = true
  order : ReadsFollowWrites c s.shared.log

theorem ReadsFollowWrites.cons {log : List Event} {e : Event} (h : ReadsFollowWrites c log)
    (he : e.InOrder c log) : ReadsFollowWrites c (e :: log) := by
  intro e' earlier hsuf
  rcases suffix_cons_iff.mp hsuf with heq | hsuf
  · obtain ⟨rfl, rfl⟩ := List.cons.inj heq
    exact he
  · exact h e' earlier hsuf

/-- A step logs one event at most, and logs it in order. -/
theorem act_log (i : Nat) (ht : TablesInv c s) (hk : KvGate c s) :
    (act c i s.shared (s.pc i)).1.log = s.shared.log ∨
    ∃ e : Event, (act c i s.shared (s.pc i)).1.log = e :: s.shared.log ∧ e.InOrder c s.shared.log ∧
      ∀ t tile, e = .readTile t tile → t = i ∧ i < c.nth ∧ (s.pc i).reading = true := by
  have hl := ht.legal i
  have hunread : c.sharesTables = true → (s.pc 0).tablesOver = false → ∀ t,
      .readTables t ∉ s.shared.log ∧ ∀ tile, .readTile t tile ∉ s.shared.log := by
    intro hsh hno t
    refine ⟨?_, ?_⟩
    · intro hmem
      have hf := ht.read_filled _ hmem rfl hsh
      rw [hf.2] at hno
      cases hno
    intro tile hmem
    have hf := ht.read_filled _ hmem rfl hsh
    rw [hf.2] at hno
    cases hno
  cases hpc : s.pc i with
  | entry =>
    simp only [act]
    split_ifs with h1 h2 h3
    · exact Or.inl rfl
    · exact Or.inr ⟨_, rfl, trivial, nofun⟩
    · exact Or.inl rfl
    · exact Or.inl rfl
  | writeK epoch token =>
    exact Or.inr ⟨_, rfl, hk.writer i epoch token (Or.inl hpc), nofun⟩
  | writeV epoch token =>
    exact Or.inr ⟨_, rfl, hk.writer i epoch token (Or.inr hpc), nofun⟩
  | clearTables | fillTables =>
    rw [hpc] at hl
    obtain ⟨rfl, hsh⟩ := hl
    exact Or.inr ⟨_, rfl, hunread hsh (by rw [hpc]; rfl), nofun⟩
  | takeTables =>
    rw [hpc] at hl
    exact Or.inr ⟨_, rfl, (ht.using_filled i (Or.inl hpc) hl.2).1, nofun⟩
  | readTile tile =>
    rw [hpc] at hl
    refine Or.inr ⟨_, rfl, ⟨hk.reader i tile hpc, ?_⟩, ?_⟩
    · intro hsh
      exact (ht.using_filled i (Or.inr ⟨tile, hpc⟩) hsh).1
    intro t tile' he
    obtain ⟨rfl, -⟩ := Event.readTile.inj he
    exact ⟨rfl, hl, rfl⟩
  | _ => exact Or.inl rfl

theorem OrderInv.step (h : OrderInv c s) (ht : TablesInv c s) (hk : KvGate c s) (i : Nat) :
    OrderInv c (s.step (act c) i) := by
  -- whoever reads stays in the second phase
  have hstays : ∀ t, (s.pc t).reading = true → ((s.step (act c) i).pc t).reading = true := by
    intro t hr
    by_cases hti : t = i
    · subst hti
      rw [Pool.step_pc_self]
      exact (act_reading c t s.shared hr).1
    rw [Pool.step_pc_of_ne s hti]
    exact hr
  rcases act_log i ht hk with hsame | ⟨e, hlog, hord, hread⟩
  · refine ⟨?_, ?_⟩
    · intro t tile hmem
      rw [Pool.step_shared, hsame] at hmem
      have hold := h.readers t tile hmem
      exact ⟨hold.1, hstays t hold.2⟩
    rw [Pool.step_shared, hsame]
    exact h.order
  refine ⟨?_, ?_⟩
  · intro t tile hmem
    rw [Pool.step_shared, hlog] at hmem
    rcases mem_cons.mp hmem with heq | hmem
    · obtain ⟨rfl, hi, hr⟩ := hread t tile heq.symm
      exact ⟨hi, hstays t hr⟩
    have hold := h.readers t tile hmem
    exact ⟨hold.1, hstays t hold.2⟩
  rw [Pool.step_shared, hlog]
  exact h.order.cons hord

/-! ### One execution -/

theorem kvGate_of_epoch {base : Nat} (h : EpochInv c base s) (ho : OrderInv c s)
    (hsafe : c.mode = .barrier ∨ base = 0 ∨ c.nth = 1) : KvGate c s := by
  have hreleased : ∀ t, t < c.nth → (s.pc t).reading = true → Released c s := by
    intro t ht hr
    refine h.done_released (h.reading_done t ht hr ?_)
    rcases hsafe with hb | hb | hb
    · exact Or.inl hb
    · exact Or.inr (Or.inl hb)
    · exact Or.inr (Or.inr (by omega))
  refine ⟨?_, ?_⟩
  · intro t tile hpc _
    have hl := h.legal t
    rw [hpc] at hl
    exact (hreleased t hl (by rw [hpc]; rfl)).1
  intro t epoch token hpc _ t' tile hmem
  obtain ⟨ht', hr'⟩ := ho.readers t' tile hmem
  have hl := h.legal t
  have hover := (hreleased t' ht' hr').2 t
  rcases hpc with hpc | hpc
  · rw [hpc] at hl hover
    cases hover hl.1 hl.2.2.2.2
  rw [hpc] at hl hover
  cases hover hl.1 hl.2.2.2.2

/-- An execution that does not touch the epochs: the inputs do not pass, or there is
nothing to wait for. -/
structure StillInv (c : Call) (base : Nat) (s : Pool Shared Pc) : Prop where
  legal : ∀ t, Legal c t (s.pc t)
  idle : c.present = false ∨ c.inputsOk = false → ∀ t, s.pc t = .entry ∨ s.pc t = .finished
  started_eq : s.shared.ud.epochStarted = base
  done_eq : s.shared.ud.epochDone = base

section Still

variable {base : Nat} (hstill : c.present = false ∨ c.inputsOk = false ∨
  c.mode = .readOnly ∨ c.mode = .tokenParallel)

include hstill in
theorem StillInv.step (h : StillInv c base s) (i : Nat) : StillInv c base (s.step (act c) i) := by
  have hl := h.legal i
  have hud : (act c i s.shared (s.pc i)).1.ud.epochStarted = s.shared.ud.epochStarted ∧
      (act c i s.shared (s.pc i)).1.ud.epochDone = s.shared.ud.epochDone := by
    -- only an open epoch or a published one would change them
    have hillegal : c.mode = .single ∨ c.mode = .barrier →
        s.pc i = .entry ∨ s.pc i = .finished := by
      intro hm
      rcases hstill with hs | hs | hs | hs
      · exact h.idle (Or.inl hs) i
      · exact h.idle (Or.inr hs) i
      · rw [hs] at hm; simp at hm
      · rw [hs] at hm; simp at hm
    cases hpc : s.pc i with
    | entry =>
      simp only [act]
      split_ifs <;> exact ⟨rfl, rfl⟩
    | openEpoch =>
      rw [hpc] at hl hillegal
      have hcase := hillegal hl.2
      simp at hcase
    | publish epoch =>
      rw [hpc] at hl hillegal
      have hcase := hillegal (hl.2.elim Or.inr fun hs => Or.inl hs.1)
      simp at hcase
    | _ => exact ⟨rfl, rfl⟩
  refine ⟨?_, ?_, ?_, ?_⟩
  · exact (Function.forall_update_iff s.pc (fun t p => Legal c t p)).mpr
      ⟨legal_act hl, fun t _ => h.legal t⟩
  · intro hrej
    refine (Function.forall_update_iff s.pc
      (fun _ p => p = .entry ∨ p = .finished)).mpr ⟨?_, fun t _ => h.idle hrej t⟩
    rcases h.idle hrej i with hpc | hpc
    · rw [hpc]
      refine Or.inr ?_
      simp only [act]
      split_ifs with h1 h2 h3
      · rfl
      · rfl
      · rfl
      rcases hrej with hrej | hrej
      · exact absurd (Or.inl hrej) h1
      · exact absurd hrej h2
    rw [hpc]
    exact Or.inr rfl
  · rw [Pool.step_shared, hud.1]
    exact h.started_eq
  · rw [Pool.step_shared, hud.2]
    exact h.done_eq

include hstill in
theorem kvGate_of_still (h : StillInv c base s) : KvGate c s := by
  have hidle : c.present = false ∨ c.inputsOk = false → KvGate c s := by
    intro hrej
    refine ⟨?_, ?_⟩
    · intro t tile hpc
      rcases h.idle hrej t with hi | hi <;> rw [hi] at hpc <;> cases hpc
    intro t epoch token hpc
    rcases h.idle hrej t with hi | hi <;> rw [hi] at hpc <;> simp at hpc
  rcases hstill with hs | hs | hs | hs
  · exact hidle (Or.inl hs)
  · exact hidle (Or.inr hs)
  · refine ⟨?_, ?_⟩
    · intro t tile _ _ hw
      rw [mode_readOnly hs] at hw
      cases hw
    intro t epoch token hpc _
    have hl := h.legal t
    rcases hpc with hpc | hpc
    · rw [hpc] at hl
      exact absurd hs hl.2.2.2.1
    rw [hpc] at hl
    exact absurd hs hl.2.2.2.1
  have htp := (mode_tokenParallel hs).2
  refine ⟨?_, ?_⟩
  · intro t tile _ hno
    rw [htp] at hno
    cases hno
  intro t epoch token _ hno
  rw [htp] at hno
  cases hno

end Still

/-- Either the epochs are followed or they are left alone. -/
theorem mode_cases (c : Call) :
    (c.present = true ∧ c.inputsOk = true ∧ (c.mode = .single ∨ c.mode = .barrier)) ∨
    (c.present = false ∨ c.inputsOk = false ∨ c.mode = .readOnly ∨ c.mode = .tokenParallel) := by
  cases hp : c.present with
  | false => exact Or.inr (Or.inl rfl)
  | true =>
    cases hi : c.inputsOk with
    | false => exact Or.inr (Or.inr (Or.inl rfl))
    | true =>
      cases hm : c.mode with
      | readOnly => exact Or.inr (Or.inr (Or.inr (Or.inl rfl)))
      | tokenParallel => exact Or.inr (Or.inr (Or.inr (Or.inr rfl)))
      | single => exact Or.inl ⟨rfl, rfl, Or.inl rfl⟩
      | barrier => exact Or.inl ⟨rfl, rfl, Or.inr rfl⟩

section Execution

variable {base : Nat} {ud : PagedAttentionUserData} (hs : ud.epochStarted = base)
  (hd : ud.epochDone = base)

include hs hd in
/-- **One execution** keeps the order, whatever the interleaving. -/
theorem execute_ordered (hlim : base + 1 < epochLimit)
    (hsingle : c.qTokens = 1 → base = 0 ∧ ud.sharedBlockPtrsReady = 0 ∨ c.nth = 1)
    (schedule : List Nat) : ReadsFollowWrites c (c.execute ud schedule).shared.log := by
  have ht0 : TablesInv c (Call.enter ud) := by
    refine tablesInv_enter ?_
    intro hsh
    rcases hsingle (sharesTables_single hsh) with h | h
    · exact Or.inl h.2
    · exact Or.inr h
  have ho0 : OrderInv c (Call.enter ud) := by
    refine ⟨?_, ?_⟩
    · intro t tile hmem
      cases hmem
    intro e earlier hsuf
    have hlen := hsuf.length_le
    simp [Call.enter] at hlen
  rcases mode_cases c with ⟨hp, hin, hmode⟩ | hstill
  · have hsafe : c.mode = .barrier ∨ base = 0 ∨ c.nth = 1 := by
      rcases hmode with hm | hm
      · rcases hsingle (mode_single hm).2 with h | h
        · exact Or.inr (Or.inl h.1)
        · exact Or.inr (Or.inr h)
      · exact Or.inl hm
    have hall := Pool.inv_run (fun s => EpochInv c base s ∧ TablesInv c s ∧ OrderInv c s)
      (fun s i h => ⟨h.1.step hp hin hmode hlim i, h.2.1.step i,
        h.2.2.step h.2.1 (kvGate_of_epoch h.1 h.2.2 hsafe) i⟩)
      schedule (Call.enter ud) ⟨epochInv_enter hs hd, ht0, ho0⟩
    exact hall.2.2.order
  have hst0 : StillInv c base (Call.enter ud) :=
    ⟨fun _ => trivial, fun _ _ => Or.inl rfl, hs, hd⟩
  have hall := Pool.inv_run (fun s => StillInv c base s ∧ TablesInv c s ∧ OrderInv c s)
    (fun s i h => ⟨h.1.step hstill i, h.2.1.step i,
      h.2.2.step h.2.1 (kvGate_of_still hstill h.1) i⟩)
    schedule (Call.enter ud) ⟨hst0, ht0, ho0⟩
  exact hall.2.2.order

include hs hd in
theorem execute_epochs (hlim : base + 1 < epochLimit) {schedule : List Nat}
    (hdone : ∀ ith, ith < c.nth → (c.execute ud schedule).pc ith = .finished) :
    (c.execute ud schedule).shared.ud.epochStarted = (c.execute ud schedule).shared.ud.epochDone ∧
    (c.execute ud schedule).shared.ud.epochStarted ≤ base + 1 := by
  rcases mode_cases c with ⟨hp, hin, hmode⟩ | hstill
  · have hinv : EpochInv c base (c.execute ud schedule) :=
      Pool.inv_run (EpochInv c base) (fun s i h => h.step hp hin hmode hlim i) schedule _ (epochInv_enter hs hd)
    have h0 := hdone 0 (nth_pos c)
    have hst := hinv.started_eq
    rw [h0] at hst
    have hdn := hinv.reading_done 0 (nth_pos c) (by rw [h0]; rfl) (Or.inr (Or.inr rfl))
    have hst' : (c.execute ud schedule).shared.ud.epochStarted = base + 1 := hst
    omega
  have hinv : StillInv c base (c.execute ud schedule) :=
    Pool.inv_run (StillInv c base) (fun s i h => h.step hstill i) schedule _
      ⟨fun _ => trivial, fun _ _ => Or.inl rfl, hs, hd⟩
  rw [hinv.started_eq, hinv.done_eq]
  exact ⟨rfl, Nat.le_succ base⟩

end Execution

/-! ### Executions one after another -/

theorem played_epochs {rounds : List Round} {ud : PagedAttentionUserData} (h : Played rounds ud) :
    sinceReset rounds < epochLimit →
      ud.epochStarted = ud.epochDone ∧ ud.epochStarted ≤ sinceReset rounds := by
  induction h with
  | fresh => intro _; exact ⟨rfl, Nat.le_refl 0⟩
  | @next before ud r _ hdone ih =>
    intro hlim
    unfold sinceReset at hlim ⊢
    by_cases hr : r.reset = true
    · rw [if_pos hr] at hlim ⊢
      have hbegin : r.begin ud = ud.resetExecutionState := if_pos hr
      have hs : (r.begin ud).epochStarted = 0 := by rw [hbegin]; rfl
      have hd : (r.begin ud).epochDone = 0 := by rw [hbegin]; rfl
      exact execute_epochs hs hd hlim hdone
    rw [if_neg hr] at hlim ⊢
    have hbegin : r.begin ud = ud := if_neg hr
    obtain ⟨heq, hle⟩ := ih (by omega)
    have hs : (r.begin ud).epochStarted = ud.epochStarted := by rw [hbegin]
    have hd : (r.begin ud).epochDone = ud.epochStarted := by rw [hbegin, heq]
    obtain ⟨heq', hle'⟩ := execute_epochs hs hd (by omega) hdone
    exact ⟨heq', le_trans hle' (Nat.succ_le_succ hle)⟩

/-- An execution whose counters cannot mislead its readers: they are zero, or several
tokens or a single task make do with what earlier executions left. -/
def Round.Covered (r : Round) (before : List Round) : Prop :=
  r.reset = true ∨ before = [] ∨
    (r.call.qTokens ≠ 1 ∨ r.call.nth = 1) ∧ sinceReset before + 1 < epochLimit

/-- **Current keys and values are written before they are read**, in every execution
after any finished ones and under every interleaving, once the worker's reset has come
before it; with several tokens, even without. -/
theorem current_kv_written_before_read {before : List Round} {ud : PagedAttentionUserData}
    (h : Played before ud) (r : Round) (hcov : r.Covered before) :
    ReadsFollowWrites r.call (r.play ud).shared.log := by
  have hone : 0 + 1 < epochLimit := by decide
  by_cases hr : r.reset = true
  · have hbegin : r.begin ud = ud.resetExecutionState := if_pos hr
    have hs : (r.begin ud).epochStarted = 0 := by rw [hbegin]; rfl
    have hd : (r.begin ud).epochDone = 0 := by rw [hbegin]; rfl
    refine execute_ordered hs hd hone ?_ r.schedule
    intro _
    exact Or.inl ⟨rfl, by rw [hbegin]; rfl⟩
  have hbegin : r.begin ud = ud := if_neg hr
  rcases hcov with hr' | hfirst | ⟨hmany, hlim⟩
  · exact absurd hr' hr
  · subst hfirst
    cases h with
    | fresh =>
      have hs : (r.begin {}).epochStarted = 0 := by rw [hbegin]
      have hd : (r.begin {}).epochDone = 0 := by rw [hbegin]
      refine execute_ordered hs hd hone ?_ r.schedule
      intro _
      exact Or.inl ⟨rfl, by rw [hbegin]⟩
  obtain ⟨heq, hle⟩ := played_epochs h (by omega)
  have hs : (r.begin ud).epochStarted = ud.epochStarted := by rw [hbegin]
  have hd : (r.begin ud).epochDone = ud.epochStarted := by rw [hbegin, heq]
  refine execute_ordered hs hd (by omega) ?_ r.schedule
  intro hq
  exact Or.inr (hmany.resolve_left (fun hne => hne hq))

/-- A node with two heads and one token, run by two tasks. -/
def oneTokenCall : Call where
  graphThreads := 2
  nTasks := 2
  q := { ne0 := 1, ne1 := 2, ne2 := 1, nb0 := 4, nb1 := 4 }
  k := { ne0 := 1, ne1 := 1, ne2 := 1, nb0 := 4, nb1 := 4 }
  v := { ne0 := 1, ne1 := 1, ne2 := 1, nb0 := 4, nb1 := 4 }
  dst := { ne0 := 1, ne1 := 2, ne2 := 1, nb0 := 4, nb1 := 4 }
  headDim := 1
  vHeadDimSet := 0
  nHead := 2
  nHeadKvSet := 1
  cacheNHeadKv := 1
  writeCurrentKv := true
  batch := some { numSeqs := 1, tokens := 1, seqId := 1, pos := 1, blockTables := 1, nPast := 1 }
  headTileEnv := none
  simd := true
  cacheType := .f32
  kLayout := { headStrideBytes := 4, slotStrideBytes := 4 }
  vLayout := { headStrideBytes := 4, slotStrideBytes := 4 }
  hasSharedBlockPtrs := true

/-- Task 0 runs through, then task 1. -/
def inTurn (reset : Bool) : Round where
  reset := reset
  call := oneTokenCall
  schedule := replicate 11 0 ++ replicate 7 1

/-- Task 1 runs while task 0 has not begun. -/
def ahead (reset : Bool) : Round where
  reset := reset
  call := oneTokenCall
  schedule := replicate 7 1

theorem played_inTurn (reset : Bool) :
    Played [inTurn reset] ((inTurn reset).play {}).shared.ud := by
  refine Played.next (inTurn reset) Played.fresh ?_
  cases reset <;> decide

theorem current_kv_written_before_read_second :
    Played [inTurn true] ((inTurn true).play {}).shared.ud ∧
    ReadsFollowWrites oneTokenCall ((ahead true).play ((inTurn true).play {}).shared.ud).shared.log :=
  ⟨played_inTurn true,
    current_kv_written_before_read (played_inTurn true) (ahead true) (Or.inl rfl)⟩

/-- Without the reset the second execution finds the first one's counters, and task 1
reads its tile before anything is written. -/
theorem carried_counters_read_ahead : Played [inTurn false] ((inTurn false).play {}).shared.ud ∧
    ¬ ReadsFollowWrites oneTokenCall
      ((ahead false).play ((inTurn false).play {}).shared.ud).shared.log := by
  refine ⟨played_inTurn false, ?_⟩
  intro hord
  have hlog : ((ahead false).play ((inTurn false).play {}).shared.ud).shared.log
      = [.readTile 1 1, .readTables 1] := by decide
  rw [hlog] at hord
  have hkv := (hord (.readTile 1 1) [.readTables 1] (suffix_refl _)).1 (by decide)
  have hmem := (hkv rfl 0 (by decide)).1
  simp at hmem

end DenseCore.PagedDecode
