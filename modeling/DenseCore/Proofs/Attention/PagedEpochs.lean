/-
The epochs of one execution of the paged decode callback.

`Legal` says which task can be at which control point, whatever the counters are.
`EpochInv` follows the two epoch counters through one execution that starts with
`epochStarted = epochDone = base`: task 0 opens the epoch `base + 1`, the writers are
counted, and the epoch is done only when all writes are over.

With one token a reader waits for any epoch at all, so the invariant speaks for it
only if `base` is zero.  With several tokens a reader waits for an epoch that is open.
-/
import DenseCore.Attention.PagedDecode

namespace DenseCore.PagedDecode

open Function (update update_of_ne update_self)

open Lib

variable {c : Call} {t : Nat} {sh : Shared} {pc : Pc} {s : Pool Shared Pc}

/-! ### Modes -/

attribute [local simp] act

theorem nth_pos (c : Call) : 0 < c.nth := by
  unfold Call.nth
  dsimp only
  split_ifs <;> omega

theorem mode_single (h : c.mode = .single) : c.writeCurrentKv = true ∧ c.qTokens = 1 := by
  unfold Call.mode at h
  split_ifs at h with h1 h2 h3
  exact ⟨Bool.eq_true_of_not_eq_false h1, h3⟩

theorem mode_tokenParallel (h : c.mode = .tokenParallel) :
    c.nth = c.qTokens ∧ c.tokenParallel = true := by
  unfold Call.mode at h
  split_ifs at h with h1 h2
  have h2' := h2
  unfold Call.tokenParallel at h2
  rw [Bool.and_eq_true, beq_iff_eq] at h2
  exact ⟨h2.1, h2'⟩

theorem mode_readOnly (h : c.mode = .readOnly) : c.writeCurrentKv = false := by
  unfold Call.mode at h
  split_ifs at h with h1
  exact h1

theorem sharesTables_single (h : c.sharesTables = true) : c.qTokens = 1 := by
  unfold Call.sharesTables at h
  simp only [Bool.and_eq_true, beq_iff_eq] at h
  exact h.1.1

/-! ### Who can be where -/

/-- The control points task `t` can be at. -/
def Legal (c : Call) (t : Nat) : Pc → Prop
  | .entry | .finished => True
  | .resetWriters => t = 0 ∧ c.mode = .barrier
  | .openEpoch => t = 0 ∧ (c.mode = .single ∨ c.mode = .barrier)
  | .awaitStarted => t < c.nth ∧ t ≠ 0 ∧ c.mode = .single
  | .loadStarted | .loadDone _ => t < c.nth ∧ t ≠ 0 ∧ c.mode = .barrier
  | .writeK _ token | .writeV _ token =>
    t < c.nth ∧ token % c.nth = t ∧ token < c.qTokens ∧ c.mode ≠ .readOnly ∧
      (c.mode = .single → t = 0)
  | .countWriter _ => t < c.nth ∧ c.mode = .barrier
  | .publish _ => t < c.nth ∧ (c.mode = .barrier ∨ c.mode = .single ∧ t = 0)
  | .awaitDone _ => t < c.nth ∧ (c.mode = .barrier ∨ c.mode = .single ∧ t ≠ 0)
  | .tiles | .readTile _ => t < c.nth
  | .clearTables | .fillTables | .storeReady => t = 0 ∧ c.sharesTables = true
  | .awaitReady => t < c.nth ∧ t ≠ 0 ∧ c.sharesTables = true
  | .takeTables => t < c.nth ∧ c.sharesTables = true

theorem legal_firstPhase (ht : t < c.nth) : Legal c t (c.firstPhase t) := by
  have h0 := nth_pos c
  unfold Call.firstPhase
  cases hm : c.mode with
  | readOnly => exact ht
  | tokenParallel =>
    have hq := (mode_tokenParallel hm).1
    refine ⟨ht, Nat.mod_eq_of_lt ht, by omega, ?_, ?_⟩
    · rw [hm]; nofun
    · rw [hm]; nofun
  | single =>
    dsimp only
    split_ifs with h
    · exact ⟨h, Or.inl hm⟩
    · exact ⟨ht, h, hm⟩
  | barrier =>
    dsimp only
    split_ifs with h
    · exact ⟨h, hm⟩
    · exact ⟨ht, h, hm⟩

theorem legal_nextToken {epoch token : Nat} (ht : t < c.nth) (hown : token % c.nth = t)
    (hm : c.mode = .barrier) : Legal c t (c.nextToken epoch token) := by
  unfold Call.nextToken
  split_ifs with h
  · refine ⟨ht, hown, h, ?_, ?_⟩
    · rw [hm]; nofun
    · rw [hm]; nofun
  · exact ⟨ht, hm⟩

theorem act_entry (hp : c.present = true) (hi : c.inputsOk = true) (ht : t < c.nth) :
    act c t sh .entry = (sh, c.firstPhase t) := by
  simp only [act]
  have hpart : c.participates t = true := decide_eq_true ht
  rw [if_neg (by rw [hp, hpart]; simp), if_neg (by rw [hi]; simp)]

theorem legal_act (h : Legal c t pc) : Legal c t (act c t sh pc).2 := by
  have h0 := nth_pos c
  cases pc with
  | entry =>
    simp only [act]
    split_ifs with h1 h2 h3
    · trivial
    · trivial
    · trivial
    refine legal_firstPhase ?_
    by_contra hn
    exact h1 (Or.inr (decide_eq_false hn))
  | resetWriters => exact ⟨h.1, Or.inr h.2⟩
  | openEpoch =>
    show Legal c t (c.afterOpen _ t)
    obtain ⟨rfl, hm⟩ := h
    unfold Call.afterOpen
    rcases hm with hm | hm
    · rw [hm]
      have hq := (mode_single hm).2
      refine ⟨h0, Nat.zero_mod _, by omega, ?_, fun _ => rfl⟩
      rw [hm]; nofun
    rw [hm]
    exact legal_nextToken h0 (Nat.zero_mod _) hm
  | awaitStarted =>
    show Legal c t (ite _ _ _)
    split_ifs
    · exact ⟨h.1, Or.inr ⟨h.2.2, h.2.1⟩⟩
    · exact h
  | loadStarted => exact h
  | loadDone started =>
    show Legal c t (ite _ _ _)
    split_ifs
    · exact legal_nextToken h.1 (Nat.mod_eq_of_lt h.1) h.2.2
    · exact h
  | writeK epoch token => exact h
  | writeV epoch token =>
    show Legal c t (c.afterWrite epoch token)
    obtain ⟨ht, hown, -, -, hs⟩ := h
    unfold Call.afterWrite
    cases hm : c.mode with
    | readOnly => exact ht
    | tokenParallel => exact ht
    | single => exact ⟨ht, Or.inr ⟨hm, hs hm⟩⟩
    | barrier => exact legal_nextToken ht (by rw [Nat.add_mod_right]; exact hown) hm
  | countWriter epoch =>
    show Legal c t (ite _ _ _)
    split_ifs
    · exact ⟨h.1, Or.inl h.2⟩
    · exact ⟨h.1, Or.inl h.2⟩
  | publish epoch => exact h.1
  | awaitDone epoch =>
    show Legal c t (ite _ _ _)
    split_ifs
    · exact h
    · exact h.1
  | tiles =>
    show Legal c t (ite _ _ _)
    split_ifs with h1 h2 h3
    · trivial
    · exact ⟨h3, h2⟩
    · exact ⟨h, h3, h2⟩
    · exact h
  | clearTables => exact h
  | fillTables => exact h
  | storeReady => exact ⟨by rw [h.1]; exact h0, h.2⟩
  | awaitReady =>
    show Legal c t (ite _ _ _)
    split_ifs
    · exact h
    · exact ⟨h.1, h.2.2⟩
  | takeTables => exact h.1
  | readTile tile =>
    show Legal c t (ite _ _ _)
    split_ifs
    · exact h
    · trivial
  | finished => trivial

/-! ### The epoch of one execution

An execution works in the epoch after the one it found. It is opened once, and where each task
stands relative to it bounds the counters of the node.
-/

/-- Before the epoch is open. -/
def Pc.early : Pc → Bool
  | .entry | .resetWriters | .openEpoch => true
  | _ => false

/-- The task's writes are over and, at a barrier, counted. -/
def Pc.over : Pc → Bool
  | .entry | .resetWriters | .openEpoch | .awaitStarted | .loadStarted | .loadDone _ | .writeK _ _
  | .writeV _ _ | .countWriter _ => false
  | _ => true

/-- The second phase. -/
def Pc.reading : Pc → Bool
  | .tiles | .clearTables | .fillTables | .storeReady | .awaitReady | .takeTables | .readTile _
  | .finished => true
  | _ => false

/-- Task `t` has written its tokens below `bound`. -/
def Wrote (c : Call) (log : List Event) (t bound : Nat) : Prop :=
  ∀ token, token < bound → token % c.nth = t → .wroteK t token ∈ log ∧ .wroteV t token ∈ log

/-- What a task knows where it is. -/
def TaskOk (c : Call) (base : Nat) (sh : Shared) (t : Nat) : Pc → Prop
  | .loadDone started =>
    started = base ∨ started = base + 1 ∧ sh.ud.epochStarted = base + 1
  | .writeK epoch token =>
    epoch = base + 1 ∧ sh.ud.epochStarted = base + 1 ∧ Wrote c sh.log t token
  | .writeV epoch token =>
    epoch = base + 1 ∧ sh.ud.epochStarted = base + 1 ∧ Wrote c sh.log t token ∧
      .wroteK t token ∈ sh.log
  | .countWriter epoch =>
    epoch = base + 1 ∧ sh.ud.epochStarted = base + 1 ∧ Wrote c sh.log t c.qTokens
  | .publish epoch => epoch = base + 1
  | .awaitDone epoch => c.mode = .barrier ∨ base = 0 → epoch = base + 1
  | _ => True

/-- All writes of the execution are over. -/
def Released (c : Call) (s : Pool Shared Pc) : Prop :=
  CurrentKvWritten c s.shared.log ∧
    ∀ t, t < c.nth → (c.mode = .single → t = 0) → (s.pc t).over = true

/-- One execution from `epochStarted = epochDone = base`, with current keys and values
to write. -/
structure EpochInv (c : Call) (base : Nat) (s : Pool Shared Pc) : Prop where
  legal : ∀ t, Legal c t (s.pc t)
  started_eq : s.shared.ud.epochStarted = if (s.pc 0).early then base else base + 1
  done_eq : s.shared.ud.epochDone = base ∨ s.shared.ud.epochDone = base + 1
  task_ok : ∀ t, t < c.nth → TaskOk c base s.shared t (s.pc t)
  own_written : c.mode = .barrier → ∀ t, t < c.nth → (s.pc t).over = true →
    s.shared.ud.epochStarted = base + 1 ∧ Wrote c s.shared.log t c.qTokens
  writers_eq : c.mode = .barrier → s.pc 0 ≠ .entry → s.pc 0 ≠ .resetWriters →
    s.shared.ud.kvWritersDone = arrived c.nth Pc.over s.pc
  publishing : ∀ t, t < c.nth → ∀ epoch, s.pc t = .publish epoch → Released c s
  done_released : s.shared.ud.epochDone = base + 1 → Released c s
  reading_done : ∀ t, t < c.nth → (s.pc t).reading = true →
    c.mode = .barrier ∨ base = 0 ∨ t = 0 → s.shared.ud.epochDone = base + 1

variable {log : List Event} {base : Nat} {sh' : Shared}

variable {log' : List Event} {i : Nat} {pc' : Pc}

theorem Wrote.mono {bound : Nat} (h : Wrote c log t bound)
    (hsub : log ⊆ log') : Wrote c log' t bound := by
  intro token hlt hown
  have hw := h token hlt hown
  exact ⟨hsub hw.1, hsub hw.2⟩

theorem CurrentKvWritten.mono (h : CurrentKvWritten c log)
    (hsub : log ⊆ log') : CurrentKvWritten c log' := by
  intro hw token hlt
  have hkv := h hw token hlt
  exact ⟨hsub hkv.1, hsub hkv.2⟩

theorem TaskOk.mono (h : TaskOk c base sh t pc) (hsub : sh.log ⊆ sh'.log)
    (hstarted : sh.ud.epochStarted = base + 1 → sh'.ud.epochStarted = base + 1) :
    TaskOk c base sh' t pc := by
  cases pc with
  | loadDone started =>
    rcases h with h | h
    · exact Or.inl h
    · exact Or.inr ⟨h.1, hstarted h.2⟩
  | writeK epoch token | countWriter epoch => exact ⟨h.1, hstarted h.2.1, h.2.2.mono hsub⟩
  | writeV epoch token => exact ⟨h.1, hstarted h.2.1, h.2.2.1.mono hsub, hsub h.2.2.2⟩
  | _ => exact h

theorem currentKvWritten_of_own
    (h : ∀ t, t < c.nth → Wrote c log t c.qTokens) : CurrentKvWritten c log := by
  intro _ token hlt
  exact h _ (Nat.mod_lt _ (nth_pos c)) token hlt rfl

/-- What a step has to keep for the epochs. Each step below is an instance. -/
theorem EpochInv.move (h : EpochInv c base s) (hlegal : Legal c i pc')
    (hlog : s.shared.log ⊆ sh'.log) (hstarted : sh'.ud.epochStarted
      = if (update s.pc i pc' 0).early then base else base + 1)
    (hkeep : s.shared.ud.epochStarted = base + 1 → sh'.ud.epochStarted = base + 1)
    (hdone : sh'.ud.epochDone = s.shared.ud.epochDone ∨
      sh'.ud.epochDone = base + 1 ∧ Released c s) (hover : (s.pc i).over = true → pc'.over = true)
    (htask : i < c.nth → TaskOk c base sh' i pc')
    (hown : i < c.nth → c.mode = .barrier → pc'.over = true →
      sh'.ud.epochStarted = base + 1 ∧ Wrote c sh'.log i c.qTokens)
    (hwriters : c.mode = .barrier → update s.pc i pc' 0 ≠ .entry →
      update s.pc i pc' 0 ≠ .resetWriters →
      sh'.ud.kvWritersDone = arrived c.nth Pc.over (update s.pc i pc'))
    (hpublish : i < c.nth → ∀ epoch, pc' = .publish epoch → Released c ⟨sh', update s.pc i pc'⟩)
    (hreading : i < c.nth → pc'.reading = true → c.mode = .barrier ∨ base = 0 ∨ i = 0 →
      sh'.ud.epochDone = base + 1) :
    EpochInv c base ⟨sh', update s.pc i pc'⟩ := by
  -- Whatever is released stays released.
  have hrel : Released c s → Released c ⟨sh', update s.pc i pc'⟩ := by
    intro hr
    refine ⟨hr.1.mono hlog, ?_⟩
    refine (Function.forall_update_iff s.pc
      (fun t p => t < c.nth → (c.mode = .single → t = 0) → p.over = true)).mpr ⟨?_, ?_⟩
    · intro ht hs
      exact hover (hr.2 i ht hs)
    intro t _ ht hs
    exact hr.2 t ht hs
  have hdone' : s.shared.ud.epochDone = base + 1 → sh'.ud.epochDone = base + 1 := by
    intro hd
    rcases hdone with hsame | hnew
    · rw [hsame, hd]
    · exact hnew.1
  refine ⟨?_, hstarted, ?_, ?_, ?_, hwriters, ?_, ?_, ?_⟩
  · exact (Function.forall_update_iff s.pc (fun t p => Legal c t p)).mpr
      ⟨hlegal, fun t _ => h.legal t⟩
  · rcases hdone with hsame | hnew
    · show sh'.ud.epochDone = base ∨ sh'.ud.epochDone = base + 1
      rw [hsame]
      exact h.done_eq
    · exact Or.inr hnew.1
  · refine (Function.forall_update_iff s.pc
      (fun t p => t < c.nth → TaskOk c base sh' t p)).mpr ⟨htask, ?_⟩
    intro t _ ht
    exact (h.task_ok t ht).mono hlog hkeep
  · intro hm
    refine (Function.forall_update_iff s.pc (fun t p => t < c.nth → p.over = true →
      sh'.ud.epochStarted = base + 1 ∧ Wrote c sh'.log t c.qTokens)).mpr ⟨?_, ?_⟩
    · intro hi
      exact hown hi hm
    intro t _ ht hov
    have ho := h.own_written hm t ht hov
    exact ⟨hkeep ho.1, ho.2.mono hlog⟩
  · refine (Function.forall_update_iff s.pc (fun t p => t < c.nth → ∀ epoch, p = .publish epoch →
      Released c ⟨sh', update s.pc i pc'⟩)).mpr ⟨hpublish, ?_⟩
    intro t _ ht epoch hpc
    exact hrel (h.publishing t ht epoch hpc)
  · intro hd
    rcases hdone with hsame | hnew
    · exact hrel (h.done_released (hsame.symm.trans hd))
    · exact hrel hnew.2
  refine (Function.forall_update_iff s.pc (fun t p => t < c.nth → p.reading = true →
    c.mode = .barrier ∨ base = 0 ∨ t = 0 → sh'.ud.epochDone = base + 1)).mpr ⟨hreading, ?_⟩
  intro t _ ht hr hcase
  exact hdone' (h.reading_done t ht hr hcase)

/-- A step that leaves the counters alone. -/
theorem EpochInv.quiet (h : EpochInv c base s)
    (hlegal : Legal c i pc') (hlog : s.shared.log ⊆ sh'.log)
    (hstarted : sh'.ud.epochStarted = s.shared.ud.epochStarted)
    (hdone : sh'.ud.epochDone = s.shared.ud.epochDone)
    (hwriters : sh'.ud.kvWritersDone = s.shared.ud.kvWritersDone)
    (hearly : i = 0 → pc'.early = (s.pc i).early)
    (hfirst : i = 0 → pc' ≠ .resetWriters → c.mode = .barrier →
      s.pc i ≠ .entry ∧ s.pc i ≠ .resetWriters) (hover : (s.pc i).over = true → pc'.over = true)
    (hcount : i < c.nth → c.mode = .barrier → pc'.over = (s.pc i).over)
    (hpublish : ∀ epoch, pc' ≠ .publish epoch) (htask : i < c.nth → TaskOk c base sh' i pc')
    (hreading : i < c.nth → pc'.reading = true → (s.pc i).reading = true ∨
      (c.mode = .barrier ∨ base = 0 ∨ i = 0 → s.shared.ud.epochDone = base + 1)) :
    EpochInv c base ⟨sh', update s.pc i pc'⟩ := by
  refine h.move hlegal hlog ?_ ?_ (Or.inl hdone) hover htask ?_ ?_ ?_ ?_
  · rw [hstarted, h.started_eq]
    by_cases h0 : (0 : Nat) = i
    · subst h0
      rw [update_self, hearly rfl]
    · rw [update_of_ne h0]
  · intro he
    rw [hstarted, he]
  · intro hi hm hov
    rw [hcount hi hm] at hov
    have ho := h.own_written hm i hi hov
    exact ⟨by rw [hstarted]; exact ho.1, ho.2.mono hlog⟩
  · intro hm hne hnr
    have hsame : arrived c.nth Pc.over (update s.pc i pc') = arrived c.nth Pc.over s.pc := by
      rcases Nat.lt_or_ge i c.nth with hi | hi
      · exact arrived_update_same (hcount hi hm)
      · exact arrived_update_beyond hi
    rw [hwriters, hsame]
    by_cases h0 : (0 : Nat) = i
    · subst h0
      rw [update_self] at hnr
      have hold := hfirst rfl hnr hm
      exact h.writers_eq hm hold.1 hold.2
    rw [update_of_ne h0] at hne hnr
    exact h.writers_eq hm hne hnr
  · intro _ epoch hpc
    exact absurd hpc (hpublish epoch)
  · intro hi hr hcase
    rw [hdone]
    rcases hreading hi hr with hold | hnew
    · exact h.reading_done i hi hold hcase
    · exact hnew hcase

/-! ### Its steps -/

section Steps

variable {base i : Nat} (hp : c.present = true) (hin : c.inputsOk = true)
  (hmode : c.mode = .single ∨ c.mode = .barrier) (hlim : base + 1 < epochLimit)

variable {epoch token : Nat}

theorem taskOk_nextToken (he : epoch = base + 1)
    (hs : sh.ud.epochStarted = base + 1) (hw : Wrote c sh.log t token) :
    TaskOk c base sh t (c.nextToken epoch token) := by
  unfold Call.nextToken
  split_ifs with hlt
  · exact ⟨he, hs, hw⟩
  refine ⟨he, hs, ?_⟩
  intro token' hlt' hown
  exact hw token' (by omega) hown

theorem nextToken_flags (c : Call) (epoch token : Nat) :
    (c.nextToken epoch token).early = false ∧ (c.nextToken epoch token).over = false ∧
    (c.nextToken epoch token).reading = false ∧ (∀ e, c.nextToken epoch token ≠ .publish e) := by
  unfold Call.nextToken
  split_ifs
  · exact ⟨rfl, rfl, rfl, nofun⟩
  · exact ⟨rfl, rfl, rfl, nofun⟩

include hmode in
theorem firstPhase_flags (base t : Nat) (sh : Shared) :
    (c.firstPhase t).over = false ∧ (c.firstPhase t).reading = false ∧
    (∀ e, c.firstPhase t ≠ .publish e) ∧ (t = 0 → (c.firstPhase t).early = true) ∧
    (t = 0 → c.mode = .barrier → c.firstPhase t = .resetWriters) ∧
    TaskOk c base sh t (c.firstPhase t) := by
  unfold Call.firstPhase
  rcases hmode with hm | hm
  · rw [hm]
    dsimp only
    split_ifs with h0
    · exact ⟨rfl, rfl, nofun, fun _ => rfl, fun _ => nofun, trivial⟩
    · exact ⟨rfl, rfl, nofun, fun h => absurd h h0, fun _ => nofun, trivial⟩
  rw [hm]
  dsimp only
  split_ifs with h0
  · exact ⟨rfl, rfl, nofun, fun _ => rfl, fun _ _ => rfl, trivial⟩
  · exact ⟨rfl, rfl, nofun, fun h => absurd h h0, fun h => absurd h h0, trivial⟩

/-- The tokens of a task are `nth` apart. -/
theorem wrote_next {log : List Event} (hown : token % c.nth = t)
    (hw : Wrote c log t token) (hk : .wroteK t token ∈ log) (hv : .wroteV t token ∈ log) :
    Wrote c log t (token + c.nth) := by
  intro token' hlt hown'
  by_cases hle : token' < token
  · exact hw token' hle hown'
  have hsame : token' = token := by
    have h1 := Nat.div_add_mod' token' c.nth
    have h2 := Nat.div_add_mod' token c.nth
    have hle' : token / c.nth ≤ token' / c.nth := Nat.div_le_div_right (by omega)
    have hlt' : token' / c.nth * c.nth < (token / c.nth + 1) * c.nth := by
      rw [Nat.add_mul, Nat.one_mul]
      omega
    have hdiv : token' / c.nth = token / c.nth := by
      have hbelow := Nat.lt_of_mul_lt_mul_right hlt'
      omega
    rw [hdiv] at h1
    omega
  rw [hsame]
  exact ⟨hk, hv⟩

include hmode in
theorem EpochInv.resetWriters (h : EpochInv c base s) (hpc : s.pc 0 = .resetWriters) :
    EpochInv c base ⟨{ s.shared with ud := { s.shared.ud with kvWritersDone := 0 } },
      update s.pc 0 .openEpoch⟩ := by
  have hl := h.legal 0
  rw [hpc] at hl
  have hbase : s.shared.ud.epochStarted = base := by
    rw [h.started_eq, hpc]
    rfl
  refine h.move ⟨rfl, hmode⟩ (List.Subset.refl _) ?_ ?_ (Or.inl rfl) ?_ (fun _ => trivial) ?_ ?_ ?_ ?_
  · rw [update_self]
    exact hbase
  · intro he
    exact he
  · rw [hpc]; nofun
  · intro _ _; nofun
  · intro hm _ _
    symm
    refine arrived_none ((Function.forall_update_iff s.pc
      (fun t p => t < c.nth → p.over = false)).mpr ⟨fun _ => rfl, ?_⟩)
    intro t _ ht
    by_contra hov
    have ho := (h.own_written hm t ht (Bool.eq_true_of_not_eq_false hov)).1
    omega
  · intro _; nofun
  · intro _; nofun

include hmode hlim in
theorem EpochInv.openEpoch (h : EpochInv c base s) (hpc : s.pc 0 = .openEpoch) :
    EpochInv c base (s.step (act c) 0) := by
  have hbase : s.shared.ud.epochStarted = base := by
    rw [h.started_eq, hpc]
    rfl
  have hepoch : (s.shared.ud.epochStarted + 1) % epochLimit = base + 1 := by
    rw [hbase]
    exact Nat.mod_eq_of_lt hlim
  have hlegal : Legal c 0 (c.afterOpen (base + 1) 0) := by
    have hl : Legal c 0 (act c 0 s.shared (s.pc 0)).2 := legal_act (h.legal 0)
    rw [hpc] at hl
    simp only [act] at hl
    rw [hepoch] at hl
    exact hl
  show EpochInv c base ⟨(act c 0 s.shared (s.pc 0)).1, update s.pc 0 (act c 0 s.shared (s.pc 0)).2⟩
  rw [hpc]
  simp only [act]
  rw [hepoch]
  have hflags : (c.afterOpen (base + 1) 0).early = false ∧ (c.afterOpen (base + 1) 0).over = false ∧
      (c.afterOpen (base + 1) 0).reading = false ∧ (∀ e, c.afterOpen (base + 1) 0 ≠ .publish e) ∧
      TaskOk c base { s.shared with ud := { s.shared.ud with epochStarted := base + 1 } } 0
        (c.afterOpen (base + 1) 0) := by
    unfold Call.afterOpen
    rcases hmode with hm | hm
    · rw [hm]
      exact ⟨rfl, rfl, rfl, nofun, rfl, rfl, fun token hlt => absurd hlt (Nat.not_lt_zero token)⟩
    rw [hm]
    obtain ⟨he, ho, hr, hpub⟩ := nextToken_flags c (base + 1) 0
    exact ⟨he, ho, hr, hpub, taskOk_nextToken rfl rfl fun token hlt =>
      absurd hlt (Nat.not_lt_zero token)⟩
  obtain ⟨hea, hov, hrd, hpub, hok⟩ := hflags
  refine h.move hlegal (List.Subset.refl _) ?_ ?_ (Or.inl rfl) ?_ (fun _ => hok) ?_ ?_ ?_ ?_
  · rw [update_self, hea]
    rfl
  · intro _; rfl
  · rw [hpc]; nofun
  · rw [hov]; intro _ _; nofun
  · intro hm _ _
    rw [arrived_update_same (by rw [hov, hpc]; rfl)]
    exact h.writers_eq hm (by rw [hpc]; nofun) (by rw [hpc]; nofun)
  · intro _ epoch he
    exact absurd he (hpub epoch)
  · rw [hrd]; intro _; nofun

theorem EpochInv.countWriter (h : EpochInv c base s) (hpc : s.pc i = .countWriter epoch) :
    EpochInv c base (s.step (act c) i) := by
  have hl := h.legal i
  rw [hpc] at hl
  obtain ⟨hi, hm⟩ := hl
  obtain ⟨he, hs, hw⟩ : TaskOk c base s.shared i (.countWriter epoch) := by
    rw [← hpc]
    exact h.task_ok i hi
  show EpochInv c base ⟨(act c i s.shared (s.pc i)).1, update s.pc i (act c i s.shared (s.pc i)).2⟩
  rw [hpc]
  simp only [act]
  -- both outcomes are beyond the writes
  obtain ⟨pc', hpc', hov, hearly, hcases⟩ : ∃ pc' : Pc,
      (if s.shared.ud.kvWritersDone + 1 = c.nth then .publish epoch else .awaitDone epoch) = pc' ∧
      pc'.over = true ∧ pc'.early = false ∧
      (pc' = .awaitDone epoch ∨ pc' = .publish epoch ∧ s.shared.ud.kvWritersDone + 1 = c.nth) := by
    split_ifs with hlast
    · exact ⟨_, rfl, rfl, rfl, Or.inr ⟨rfl, hlast⟩⟩
    · exact ⟨_, rfl, rfl, rfl, Or.inl rfl⟩
  rw [hpc']
  have hopen : (s.pc 0).early = false := by
    by_contra hea
    have hst := h.started_eq
    rw [Bool.eq_true_of_not_eq_false hea] at hst
    rw [if_pos rfl] at hst
    omega
  have hcount : s.shared.ud.kvWritersDone + 1 = arrived c.nth Pc.over (update s.pc i pc') := by
    rw [arrived_update_new hi (by rw [hpc]; rfl) hov, h.writers_eq hm]
    · intro h0; rw [h0] at hopen; cases hopen
    · intro h0; rw [h0] at hopen; cases hopen
  have hlegal : Legal c i pc' := by
    rcases hcases with rfl | ⟨rfl, -⟩
    · exact ⟨hi, Or.inl hm⟩
    · exact ⟨hi, Or.inl hm⟩
  refine h.move hlegal (List.Subset.refl _) ?_ ?_ (Or.inl rfl) ?_ ?_ ?_ ?_ ?_ ?_
  · show s.shared.ud.epochStarted = _
    by_cases h0 : (0 : Nat) = i
    · subst h0
      rw [update_self, hearly, hs]
      rfl
    rw [update_of_ne h0]
    exact h.started_eq
  · intro hs'; exact hs'
  · intro _; exact hov
  · intro _
    rcases hcases with rfl | ⟨rfl, -⟩
    · exact fun _ => he
    · exact he
  · intro _ _ _
    exact ⟨hs, hw⟩
  · intro _ _ _
    exact hcount
  · intro _ epoch' hpub
    have hlast : s.shared.ud.kvWritersDone + 1 = c.nth := by
      rcases hcases with rfl | ⟨-, hlast⟩
      · cases hpub
      · exact hlast
    have hall : ∀ t, t < c.nth → (update s.pc i pc' t).over = true := by
      intro t ht
      exact all_of_arrived (hcount.symm.trans hlast) ht
    refine ⟨currentKvWritten_of_own ?_, fun t ht _ => hall t ht⟩
    intro t ht
    by_cases hti : t = i
    · rw [hti]
      exact hw
    have hov' := hall t ht
    rw [update_of_ne hti] at hov'
    exact (h.own_written hm t ht hov').2
  · intro _ hr
    rcases hcases with rfl | ⟨rfl, -⟩
    · cases hr
    · cases hr

include hmode in
theorem EpochInv.writeV (h : EpochInv c base s)
    (hpc : s.pc i = .writeV epoch token) : EpochInv c base (s.step (act c) i) := by
  have hnext : Legal c i (act c i s.shared (s.pc i)).2 := legal_act (h.legal i)
  have hl := h.legal i
  rw [hpc] at hl
  obtain ⟨hi, hown, hlt, -, hzero⟩ := hl
  obtain ⟨he, hs, hw, hk⟩ : TaskOk c base s.shared i (.writeV epoch token) := by
    rw [← hpc]
    exact h.task_ok i hi
  show EpochInv c base ⟨(act c i s.shared (s.pc i)).1, update s.pc i (act c i s.shared (s.pc i)).2⟩
  rw [hpc] at hnext ⊢
  simp only [act] at hnext ⊢
  have hsub : s.shared.log ⊆ (s.shared.emit (.wroteV i token)).log := List.subset_cons_self _ _
  have hk' : .wroteK i token ∈ (s.shared.emit (.wroteV i token)).log := hsub hk
  have hv' : .wroteV i token ∈ (s.shared.emit (.wroteV i token)).log := List.mem_cons_self
  rcases hmode with hm | hm
  · have hafter : c.afterWrite epoch token = .publish epoch := by
      unfold Call.afterWrite
      rw [hm]
    rw [hafter] at hnext ⊢
    have hi0 := hzero hm
    refine h.move hnext hsub ?_ (fun hs' => hs') (Or.inl rfl) ?_ (fun _ => he) ?_ ?_ ?_ ?_
    · subst hi0
      rw [update_self]
      exact hs
    · intro _; rfl
    · intro _ hb; rw [hm] at hb; cases hb
    · intro hb; rw [hm] at hb; cases hb
    · intro _ _ _
      have hq := (mode_single hm).2
      refine ⟨?_, ?_⟩
      · intro _ token' hlt'
        have hsame : token' = token := by omega
        rw [hsame, hown]
        exact ⟨hk', hv'⟩
      intro t _ ht0
      show (update s.pc i (.publish epoch) t).over = true
      rw [ht0 hm, hi0, update_self]
      rfl
    · intro _ hr; cases hr
  · have hafter : c.afterWrite epoch token = c.nextToken epoch (token + c.nth) := by
      unfold Call.afterWrite
      rw [hm]
    rw [hafter] at hnext ⊢
    obtain ⟨hea, hov, hrd, hpub⟩ := nextToken_flags c epoch (token + c.nth)
    refine h.quiet hnext hsub rfl rfl rfl ?_ ?_ ?_ ?_ hpub ?_ ?_
    · intro _
      rw [hpc, hea]
      rfl
    · intro _ _ _
      rw [hpc]
      exact ⟨nofun, nofun⟩
    · rw [hpc]; nofun
    · intro _ _
      rw [hpc, hov]
      rfl
    · intro _
      exact taskOk_nextToken he hs (wrote_next hown (hw.mono hsub) hk' hv')
    · rw [hrd]; nofun

theorem EpochInv.publish (h : EpochInv c base s) (hpc : s.pc i = .publish epoch) :
    EpochInv c base (s.step (act c) i) := by
  have hl := h.legal i
  rw [hpc] at hl
  have hi := hl.1
  have he : epoch = base + 1 := by
    have hok := h.task_ok i hi
    rw [hpc] at hok
    exact hok
  show EpochInv c base ⟨(act c i s.shared (s.pc i)).1, update s.pc i (act c i s.shared (s.pc i)).2⟩
  rw [hpc]
  simp only [act]
  refine h.move hi (List.Subset.refl _) ?_ (fun hs => hs)
    (Or.inr ⟨he, h.publishing i hi epoch hpc⟩) ?_ (fun _ => trivial) ?_ ?_ ?_ ?_
  · show s.shared.ud.epochStarted = _
    rw [h.started_eq]
    by_cases h0 : (0 : Nat) = i
    · subst h0
      rw [update_self, hpc]
      rfl
    · rw [update_of_ne h0]
  · intro _; rfl
  · intro _ hm _
    exact h.own_written hm i hi (by rw [hpc]; rfl)
  · intro hm hne hnr
    rw [arrived_update_same (by rw [hpc]; rfl)]
    by_cases h0 : (0 : Nat) = i
    · subst h0
      exact h.writers_eq hm (by rw [hpc]; nofun) (by rw [hpc]; nofun)
    rw [update_of_ne h0] at hne hnr
    exact h.writers_eq hm hne hnr
  · intro _; nofun
  intro _ _ _
  exact he

/-- The second phase touches none of the counters of the first. -/
theorem act_reading (c : Call) (t : Nat) (sh : Shared) (hr : pc.reading = true) :
    (act c t sh pc).2.reading = true ∧ sh.log ⊆ (act c t sh pc).1.log ∧
    (act c t sh pc).1.ud.epochStarted = sh.ud.epochStarted ∧
    (act c t sh pc).1.ud.epochDone = sh.ud.epochDone ∧
    (act c t sh pc).1.ud.kvWritersDone = sh.ud.kvWritersDone := by
  have hkeep : ∀ e : Event, sh.log ⊆ (sh.emit e).log := fun e => List.subset_cons_self e sh.log
  have hsame : sh.log ⊆ sh.log := List.Subset.refl _
  cases pc with
  | tiles | awaitReady =>
    refine ⟨?_, hsame, rfl, rfl, rfl⟩
    simp only [act]
    split_ifs <;> rfl
  | clearTables | fillTables | takeTables => exact ⟨rfl, hkeep _, rfl, rfl, rfl⟩
  | storeReady | finished => exact ⟨rfl, hsame, rfl, rfl, rfl⟩
  | readTile tile =>
    refine ⟨?_, hkeep _, rfl, rfl, rfl⟩
    simp only [act]
    split_ifs <;> rfl
  | _ => cases hr

theorem flags_of_reading (c : Call) (base t : Nat) (sh : Shared) (hr : pc.reading = true) :
    pc.over = true ∧ pc.early = false ∧ (∀ e, pc ≠ .publish e) ∧ TaskOk c base sh t pc := by
  cases pc with
  | tiles | clearTables | fillTables | storeReady | awaitReady | takeTables | readTile | finished =>
    exact ⟨rfl, rfl, nofun, trivial⟩
  | _ => cases hr

theorem EpochInv.second (h : EpochInv c base s) (hr : (s.pc i).reading = true) :
    EpochInv c base (s.step (act c) i) := by
  obtain ⟨hr', hlog, hs, hd, hw⟩ := act_reading c i s.shared hr
  obtain ⟨hov, hea, -, -⟩ := flags_of_reading c base i s.shared hr
  obtain ⟨hov', hea', hpub', hok⟩ := flags_of_reading c base i (act c i s.shared (s.pc i)).1 hr'
  refine h.quiet (legal_act (h.legal i)) hlog hs hd hw ?_ ?_ ?_ ?_ hpub' (fun _ => hok) ?_
  · intro _; rw [hea, hea']
  · intro _ _ _
    refine ⟨?_, ?_⟩
    · intro he; rw [he] at hr; cases hr
    · intro he; rw [he] at hr; cases hr
  · intro _; exact hov'
  · intro _ _; rw [hov, hov']
  · intro _ _; exact Or.inl hr

include hp hin hmode in
/-- A task enters the first phase; tasks that do not take part return. -/
theorem EpochInv.entry (h : EpochInv c base s) (hpc : s.pc i = .entry) :
    EpochInv c base (s.step (act c) i) := by
  have hnext : Legal c i (act c i s.shared (s.pc i)).2 := legal_act (h.legal i)
  show EpochInv c base ⟨(act c i s.shared (s.pc i)).1, update s.pc i (act c i s.shared (s.pc i)).2⟩
  rw [hpc] at hnext ⊢
  rcases Nat.lt_or_ge i c.nth with hi | hi
  · rw [act_entry hp hin hi] at hnext ⊢
    obtain ⟨hov, hrd, hpub, hearly, hfirst, hok⟩ := firstPhase_flags hmode base i s.shared
    refine h.quiet hnext (List.Subset.refl _) rfl rfl rfl ?_ ?_ ?_ ?_ hpub (fun _ => hok) ?_
    · intro h0
      rw [hpc, hearly h0]
      rfl
    · intro h0 hne hm
      exact absurd (hfirst h0 hm) hne
    · rw [hpc]; nofun
    · intro _ _
      rw [hpc, hov]
      rfl
    · rw [hrd]; nofun
  · have hpart : c.participates i = false := decide_eq_false (by omega)
    have hact : act c i s.shared .entry = (s.shared, .finished) := by
      simp only [act]
      rw [if_pos (Or.inr hpart)]
    rw [hact]
    have h0 := nth_pos c
    refine h.quiet trivial (List.Subset.refl _) rfl rfl rfl ?_ ?_ ?_ ?_ nofun ?_ ?_
    all_goals intros; first | omega | rfl

theorem EpochInv.awaitStarted (h : EpochInv c base s) (hpc : s.pc i = .awaitStarted) :
    EpochInv c base (s.step (act c) i) := by
  have hnext : Legal c i (act c i s.shared (s.pc i)).2 := legal_act (h.legal i)
  have hl := h.legal i
  show EpochInv c base ⟨(act c i s.shared (s.pc i)).1, update s.pc i (act c i s.shared (s.pc i)).2⟩
  rw [hpc] at hnext hl ⊢
  simp only [act] at hnext ⊢
  obtain ⟨hi, h0, hm⟩ := hl
  split_ifs at hnext ⊢ with hne
  · refine h.quiet hnext (List.Subset.refl _) rfl rfl rfl (fun h => absurd h h0)
      (fun h => absurd h h0) ?_ ?_ nofun ?_ ?_
    · intro _; rfl
    · intro _ hb; rw [hm] at hb; cases hb
    · intro _ hb
      have hbase : base = 0 := by
        rcases hb with hb | hb
        · rw [hm] at hb; cases hb
        · exact hb
      have hstarted := h.started_eq
      split_ifs at hstarted with hearly
      · omega
      · exact hstarted
    · intro _; nofun
  · refine h.quiet hnext (List.Subset.refl _) rfl rfl rfl (fun h => absurd h h0)
      (fun h => absurd h h0) ?_ ?_ nofun (fun _ => trivial) ?_
    · rw [hpc]; nofun
    · intro _ _; rw [hpc]
    · intro _; nofun

theorem EpochInv.loadDone {started : Nat} (h : EpochInv c base s)
    (hpc : s.pc i = .loadDone started) :
    EpochInv c base (s.step (act c) i) := by
  have hnext : Legal c i (act c i s.shared (s.pc i)).2 := legal_act (h.legal i)
  have hl := h.legal i
  have htask : i < c.nth → TaskOk c base s.shared i (s.pc i) := fun hi => h.task_ok i hi
  show EpochInv c base ⟨(act c i s.shared (s.pc i)).1, update s.pc i (act c i s.shared (s.pc i)).2⟩
  rw [hpc] at hnext hl htask ⊢
  simp only [act] at hnext ⊢
  obtain ⟨hi, h0, hm⟩ := hl
  have hst : started = base ∨ started = base + 1 ∧ s.shared.ud.epochStarted = base + 1 := htask hi
  split_ifs at hnext ⊢ with hlt
  · have hopen : started = base + 1 ∧ s.shared.ud.epochStarted = base + 1 := by
      have hd := h.done_eq
      rcases hst with hst | hst
      · omega
      · exact hst
    obtain ⟨hea, hov, hrd, hpub⟩ := nextToken_flags c started i
    refine h.quiet hnext (List.Subset.refl _) rfl rfl rfl (fun h => absurd h h0)
      (fun h => absurd h h0) ?_ ?_ hpub ?_ ?_
    · rw [hpc]; nofun
    · intro _ _; rw [hpc, hov]; rfl
    · intro _
      refine taskOk_nextToken hopen.1 hopen.2 ?_
      -- its own index is its first token
      intro token hlt' hown
      have hle := Nat.mod_le token c.nth
      omega
    · rw [hrd]; nofun
  · refine h.quiet hnext (List.Subset.refl _) rfl rfl rfl (fun h => absurd h h0)
      (fun h => absurd h h0) ?_ ?_ nofun (fun _ => trivial) ?_
    · rw [hpc]; nofun
    · intro _ _; rw [hpc]; rfl
    · intro _; nofun

theorem EpochInv.awaitDone (h : EpochInv c base s) (hpc : s.pc i = .awaitDone epoch) :
    EpochInv c base (s.step (act c) i) := by
  have hnext : Legal c i (act c i s.shared (s.pc i)).2 := legal_act (h.legal i)
  have hl := h.legal i
  have htask : i < c.nth → TaskOk c base s.shared i (s.pc i) := fun hi => h.task_ok i hi
  show EpochInv c base ⟨(act c i s.shared (s.pc i)).1, update s.pc i (act c i s.shared (s.pc i)).2⟩
  rw [hpc] at hnext hl htask ⊢
  simp only [act] at hnext ⊢
  obtain ⟨hi, hm⟩ := hl
  have hepoch : c.mode = .barrier ∨ base = 0 → epoch = base + 1 := htask hi
  split_ifs at hnext ⊢ with hlt
  · refine h.quiet hnext (List.Subset.refl _) rfl rfl rfl ?_ ?_ ?_ ?_ nofun (fun _ => hepoch) ?_
    · intro _; rw [hpc]
    · intro _ _ _; rw [hpc]; exact ⟨nofun, nofun⟩
    · intro _; rfl
    · intro _ _; rw [hpc]
    · intro _; nofun
  refine h.quiet hnext (List.Subset.refl _) rfl rfl rfl ?_ ?_ ?_ ?_ nofun (fun _ => trivial) ?_
  · intro _; rw [hpc]; rfl
  · intro _ _ _; rw [hpc]; exact ⟨nofun, nofun⟩
  · intro _; rfl
  · intro _ _; rw [hpc]; rfl
  intro _ _
  refine Or.inr ?_
  intro hcase
  have hd := h.done_eq
  have he : epoch = base + 1 := by
    rcases hcase with hb | hb | hb
    · exact hepoch (Or.inl hb)
    · exact hepoch (Or.inr hb)
    rcases hm with hm | hm
    · exact hepoch (Or.inl hm)
    · exact absurd hb hm.2
  omega

include hp hin hmode hlim in
/-- No step of a task breaks the invariant of the epochs. -/
theorem EpochInv.step (h : EpochInv c base s) (i : Nat) : EpochInv c base (s.step (act c) i) := by
  have hl := h.legal i
  have hnext : Legal c i (act c i s.shared (s.pc i)).2 := legal_act hl
  cases hpc : s.pc i with
  | entry => exact h.entry hp hin hmode hpc
  | resetWriters =>
    rw [hpc] at hl
    obtain ⟨rfl, -⟩ := hl
    have hreset := h.resetWriters hmode hpc
    unfold Pool.step
    rw [hpc]
    exact hreset
  | openEpoch =>
    rw [hpc] at hl
    obtain ⟨rfl, -⟩ := hl
    exact h.openEpoch hmode hlim hpc
  | awaitStarted => exact h.awaitStarted hpc
  | loadStarted =>
    unfold Pool.step
    rw [hpc] at hnext hl ⊢
    obtain ⟨hi, h0, hm⟩ := hl
    refine h.quiet hnext (List.Subset.refl _) rfl rfl rfl (fun h => absurd h h0)
      (fun h => absurd h h0) ?_ ?_ nofun ?_ ?_
    · rw [hpc]; nofun
    · intro _ _; rw [hpc]; rfl
    · intro _
      show s.shared.ud.epochStarted = base ∨ _
      have hstarted := h.started_eq
      split_ifs at hstarted with hearly
      · exact Or.inl hstarted
      · exact Or.inr ⟨hstarted, hstarted⟩
    · intro _; nofun
  | loadDone started => exact h.loadDone hpc
  | writeK epoch token =>
    have htask : i < c.nth → TaskOk c base s.shared i (s.pc i) := fun hi => h.task_ok i hi
    unfold Pool.step
    rw [hpc] at hnext htask ⊢
    have hsub : s.shared.log ⊆ (s.shared.emit (.wroteK i token)).log := List.subset_cons_self _ _
    refine h.quiet hnext hsub rfl rfl rfl ?_ ?_ ?_ ?_ nofun ?_ ?_
    · intro _; rw [hpc]; rfl
    · intro _ _ _; rw [hpc]; exact ⟨nofun, nofun⟩
    · rw [hpc]; nofun
    · intro _ _; rw [hpc]; rfl
    · intro hi
      obtain ⟨he, hs, hw⟩ := htask hi
      exact ⟨he, hs, hw.mono hsub, List.mem_cons_self⟩
    · intro _; nofun
  | writeV epoch token => exact h.writeV hmode hpc
  | countWriter epoch => exact h.countWriter hpc
  | publish epoch => exact h.publish hpc
  | awaitDone epoch => exact h.awaitDone hpc
  | tiles | clearTables | fillTables | storeReady | awaitReady | takeTables | readTile tile
  | finished => exact h.second (by rw [hpc]; rfl)

end Steps

theorem epochInv_enter {ud : PagedAttentionUserData} (hs : ud.epochStarted = base)
    (hd : ud.epochDone = base) : EpochInv c base (Call.enter ud) where
  legal _ := trivial
  started_eq := hs
  done_eq := Or.inl hd
  task_ok _ _ := trivial
  own_written _ _ _ := nofun
  writers_eq _ h := absurd rfl h
  publishing _ _ _ := nofun
  done_released h := by
    have h' : ud.epochDone = base + 1 := h
    omega
  reading_done _ _ := nofun

end DenseCore.PagedDecode
