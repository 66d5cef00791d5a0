/-
The fused decode operators at the convolution.

The convolution runs once: by task 0, or by the last task to be counted, which finds
the whole input projection.  `Stage` follows it from the gathering of the tasks to the
stamp of its result.  A task is past the convolution only when it is done, which is what
its wait is for, as long as the stamp it waits for was not there before.
-/
import DenseCore.Proofs.Ssm.FusedFront

namespace DenseCore.FusedDecode

open Function (update update_of_ne update_self)

open Lib Ssm

variable {K Q W P : Type} [CommSemiring K]

/-! ### The stages of an execution -/

/-- At the convolution. -/
def Pc.busy : Pc → Bool
  | .convolve | .publishY => true
  | _ => false

/-- Past the convolution. -/
def Pc.back : Pc → Bool
  | .chooseOut | .lookupOut | .publishOut | .outGemv | .rowWise | .finished | .await .out _
  | .gaveUp .out => true
  | _ => false

/-- The task that runs the convolution has been chosen. -/
def Launched (n : Node K W) (e : Exec K) (s : Pool (Shared K Q P) Pc) : Prop :=
  match n.op with
  | .out => s.pc 0 ≠ .entry
  | .inout => arrived e.taskCount Pc.counted s.pc = e.taskCount

/-- The convolution has been run, from the states to `after`, and quantised as `q`. -/
structure Done (n : Node K W) (e : Exec K) (after : ConvStates K) (q : Q)
    (s : Pool (Shared K Q P) Pc) : Prop where
  launched : Launched n e s
  states_eq : s.shared.states = after
  yQ8_eq : s.shared.yQ8 = q
  not_busy : ∀ t, t < e.taskCount → (s.pc t).busy = false

/-- How far the convolution of an execution is. -/
inductive Stage (n : Node K W) (e : Exec K) (before after : ConvStates K) (q : Q)
    (s : Pool (Shared K Q P) Pc) : Prop
  | gathering (hl : ¬ Launched n e s) (hst : s.shared.states = before)
      (hy : 1 < e.taskCount → s.shared.yStamp ≠ stamp n e)
      (hno : ∀ t, t < e.taskCount → (s.pc t).busy = false ∧ (s.pc t).back = false)
  | convolving (j : Nat) (hj : j < e.taskCount) (hl : Launched n e s) (hpc : s.pc j = .convolve)
      (hst : s.shared.states = before) (hy : 1 < e.taskCount → s.shared.yStamp ≠ stamp n e)
      (hno : ∀ t, t < e.taskCount → t ≠ j → (s.pc t).busy = false ∧ (s.pc t).back = false)
  | publishing (j : Nat) (hj : j < e.taskCount) (hl : Launched n e s) (hpc : s.pc j = .publishY)
      (hst : s.shared.states = after) (hq : s.shared.yQ8 = q)
      (hy : 1 < e.taskCount → s.shared.yStamp ≠ stamp n e)
      (hno : ∀ t, t < e.taskCount → t ≠ j → (s.pc t).busy = false ∧ (s.pc t).back = false)
  | done (h : Done n e after q s)

section Stages

variable {kn : Kernels K Q W P} {n : Node K W} {e : Exec K} {before after : ConvStates K} {q : Q}
  {s : Pool (Shared K Q P) Pc} {i : Nat} {sh' : Shared K Q P} {pc' : Pc}

omit [CommSemiring K] in
theorem launched_update (hout : n.op = .out → i = 0 → (pc' = .entry ↔ s.pc i = .entry))
    (hin : n.op = .inout → i < e.taskCount → pc'.counted = (s.pc i).counted) :
    Launched n e ⟨sh', update s.pc i pc'⟩ ↔ Launched n e s := by
  unfold Launched
  cases hop : n.op with
  | out =>
    show update s.pc i pc' 0 ≠ .entry ↔ s.pc 0 ≠ .entry
    by_cases h0 : (0 : Nat) = i
    · subst h0
      rw [update_self]
      exact not_congr (hout hop rfl)
    · rw [update_of_ne h0]
  | inout =>
    show arrived e.taskCount Pc.counted (update s.pc i pc') = _ ↔ _
    rcases Nat.lt_or_ge i e.taskCount with hi | hi
    · rw [arrived_update_same (hin hop hi)]
    · rw [arrived_update_beyond hi]

omit [CommSemiring K] in
theorem Stage.done_of_back (h : Stage n e before after q s) (hi : i < e.taskCount)
    (hb : (s.pc i).back = true) : Done n e after q s := by
  cases h with
  | gathering _ _ _ hno => rw [(hno i hi).2] at hb; cases hb
  | convolving j _ _ hpc _ _ hno | publishing j _ _ hpc _ _ _ hno =>
    by_cases hij : i = j
    · rw [hij, hpc] at hb; cases hb
    · rw [(hno i hi hij).2] at hb; cases hb
  | done h => exact h

omit [CommSemiring K] in
theorem Stage.done_of_stamp (h : Stage n e before after q s) (hone : 1 < e.taskCount)
    (hst : s.shared.yStamp = stamp n e) : Done n e after q s := by
  cases h with
  | gathering _ _ hy _ => exact absurd hst (hy hone)
  | convolving _ _ _ _ _ hy _ => exact absurd hst (hy hone)
  | publishing _ _ _ _ _ _ hy _ => exact absurd hst (hy hone)
  | done h => exact h

omit [CommSemiring K] in
/-- A step that has no part in the convolution. -/
theorem Stage.plain (h : Stage n e before after q s)
    (hl : Launched n e ⟨sh', update s.pc i pc'⟩ ↔ Launched n e s)
    (hstates : sh'.states = s.shared.states) (hq : sh'.yQ8 = s.shared.yQ8)
    (hy : sh'.yStamp = s.shared.yStamp) (hbusy : i < e.taskCount → (s.pc i).busy = false)
    (hbusy' : i < e.taskCount → pc'.busy = false)
    (hback : i < e.taskCount → pc'.back = true → (s.pc i).back = true ∨ Done n e after q s) :
    Stage n e before after q ⟨sh', update s.pc i pc'⟩ := by
  -- while the convolution is not done, the task is not past it
  have hquiet : i < e.taskCount → (s.pc i).back = false → ¬ Done n e after q s →
      pc'.busy = false ∧ pc'.back = false := by
    intro hi hb hnd
    refine ⟨hbusy' hi, ?_⟩
    by_contra hb'
    rcases hback hi (Bool.eq_true_of_not_eq_false hb') with hold | hd
    · rw [hb] at hold; cases hold
    · exact hnd hd
  cases h with
  | gathering hnl hst hys hno =>
    have hnd : ¬ Done n e after q s := fun hd => hnl hd.launched
    refine .gathering (fun hl' => hnl (hl.mp hl')) (hstates.trans hst) ?_ ?_
    · intro hone
      show sh'.yStamp ≠ _
      rw [hy]
      exact hys hone
    exact (Function.forall_update_iff s.pc
      (fun t p => t < e.taskCount → p.busy = false ∧ p.back = false)).mpr
      ⟨fun hi => hquiet hi (hno i hi).2 hnd, fun t _ => hno t⟩
  | convolving j hj hla hpc hst hys hno =>
    have hij : j ≠ i := by
      intro hij
      have hb := hbusy (hij ▸ hj)
      rw [← hij, hpc] at hb
      cases hb
    have hnd : ¬ Done n e after q s := by
      intro hd
      have hb := hd.not_busy j hj
      rw [hpc] at hb
      cases hb
    refine .convolving j hj (hl.mpr hla) ?_ (hstates.trans hst) ?_ ?_
    · exact (update_of_ne hij _ _).trans hpc
    · intro hone
      show sh'.yStamp ≠ _
      rw [hy]
      exact hys hone
    exact (Function.forall_update_iff s.pc
      (fun t p => t < e.taskCount → t ≠ j → p.busy = false ∧ p.back = false)).mpr
      ⟨fun hi hne => hquiet hi (hno i hi hne).2 hnd, fun t _ => hno t⟩
  | publishing j hj hla hpc hst hqs hys hno =>
    have hij : j ≠ i := by
      intro hij
      have hb := hbusy (hij ▸ hj)
      rw [← hij, hpc] at hb
      cases hb
    have hnd : ¬ Done n e after q s := by
      intro hd
      have hb := hd.not_busy j hj
      rw [hpc] at hb
      cases hb
    refine .publishing j hj (hl.mpr hla) ?_ (hstates.trans hst) (hq.trans hqs) ?_ ?_
    · exact (update_of_ne hij _ _).trans hpc
    · intro hone
      show sh'.yStamp ≠ _
      rw [hy]
      exact hys hone
    exact (Function.forall_update_iff s.pc
      (fun t p => t < e.taskCount → t ≠ j → p.busy = false ∧ p.back = false)).mpr
      ⟨fun hi hne => hquiet hi (hno i hi hne).2 hnd, fun t _ => hno t⟩
  | done hd =>
    refine .done ⟨hl.mpr hd.launched, hstates.trans hd.states_eq, hq.trans hd.yQ8_eq, ?_⟩
    exact (Function.forall_update_iff s.pc (fun t p => t < e.taskCount → p.busy = false)).mpr
      ⟨hbusy', fun t _ => hd.not_busy t⟩

omit [CommSemiring K] in
theorem Stage.launch (h : Stage n e before after q s) (hi : i < e.taskCount)
    (hnl : ¬ Launched n e s)
    (hl : Launched n e ⟨sh', update s.pc i .convolve⟩)
    (hstates : sh'.states = s.shared.states) (hy : sh'.yStamp = s.shared.yStamp) :
    Stage n e before after q ⟨sh', update s.pc i .convolve⟩ := by
  cases h with
  | gathering _ hst hys hno =>
    refine .convolving i hi hl (update_self _ _ _) (hstates.trans hst) ?_ ?_
    · intro hone
      show sh'.yStamp ≠ _
      rw [hy]
      exact hys hone
    exact (Function.forall_update_iff s.pc
      (fun t p => t < e.taskCount → t ≠ i → p.busy = false ∧ p.back = false)).mpr
      ⟨fun _ hne => absurd rfl hne, fun t _ ht _ => hno t ht⟩
  | convolving _ _ hla | publishing _ _ hla => exact absurd hla hnl
  | done hd => exact absurd hd.launched hnl

omit [CommSemiring K] in
theorem Stage.convolve (h : Stage n e before after q s) (hi : i < e.taskCount)
    (hpc : s.pc i = .convolve)
    (hl : Launched n e ⟨sh', update s.pc i .publishY⟩ ↔ Launched n e s)
    (hstates : s.shared.states = before → sh'.states = after ∧ sh'.yQ8 = q)
    (hy : sh'.yStamp = s.shared.yStamp) :
    Stage n e before after q ⟨sh', update s.pc i .publishY⟩ := by
  have hbusy : (s.pc i).busy = true := by rw [hpc]; rfl
  cases h with
  | gathering _ _ _ hno => rw [(hno i hi).1] at hbusy; cases hbusy
  | convolving j hj hla hpcj hst hys hno =>
    have hij : i = j := by
      by_contra hne
      rw [(hno i hi hne).1] at hbusy
      cases hbusy
    obtain ⟨hst', hq'⟩ := hstates hst
    refine .publishing i hi (hl.mpr hla) (update_self _ _ _) hst' hq' ?_ ?_
    · intro hone
      show sh'.yStamp ≠ _
      rw [hy]
      exact hys hone
    exact (Function.forall_update_iff s.pc
      (fun t p => t < e.taskCount → t ≠ i → p.busy = false ∧ p.back = false)).mpr
      ⟨fun _ hne => absurd rfl hne, fun t hne ht _ => hno t ht (hij ▸ hne)⟩
  | publishing j hj _ hpcj _ _ _ hno =>
    by_cases hij : i = j
    · rw [hij, hpcj] at hpc; cases hpc
    · rw [(hno i hi hij).1] at hbusy; cases hbusy
  | done hd => rw [hd.not_busy i hi] at hbusy; cases hbusy

omit [CommSemiring K] in
theorem Stage.publish (h : Stage n e before after q s) (hi : i < e.taskCount)
    (hpc : s.pc i = .publishY)
    (hl : Launched n e ⟨sh', update s.pc i .chooseOut⟩ ↔ Launched n e s)
    (hstates : sh'.states = s.shared.states) (hq : sh'.yQ8 = s.shared.yQ8) :
    Done n e after q ⟨sh', update s.pc i .chooseOut⟩ := by
  have hbusy : (s.pc i).busy = true := by rw [hpc]; rfl
  cases h with
  | gathering _ _ _ hno => rw [(hno i hi).1] at hbusy; cases hbusy
  | convolving j hj _ hpcj _ _ hno =>
    by_cases hij : i = j
    · rw [hij, hpcj] at hpc; cases hpc
    · rw [(hno i hi hij).1] at hbusy; cases hbusy
  | publishing j hj hla hpcj hst hqs _ hno =>
    have hij : i = j := by
      by_contra hne
      rw [(hno i hi hne).1] at hbusy
      cases hbusy
    refine ⟨hl.mpr hla, hstates.trans hst, hq.trans hqs, ?_⟩
    exact (Function.forall_update_iff s.pc (fun t p => t < e.taskCount → p.busy = false)).mpr
      ⟨fun _ => rfl, fun t hne ht => (hno t ht (hij ▸ hne)).1⟩
  | done hd => rw [hd.not_busy i hi] at hbusy; cases hbusy

end Stages

/-! ### The steps of the stages -/

/-- The stage, with what the waits and the input projection guarantee. -/
structure StageInv (n : Node K W) (e : Exec K) (before after : ConvStates K) (q : Q)
    (s : Pool (Shared K Q P) Pc) : Prop where
  stage : Stage n e before after q s
  await_many : ∀ t, t < e.taskCount → ∀ k, s.pc t = .await .y k → 1 < e.taskCount
  never_unpacked : ∀ t, t < e.taskCount → s.pc t ≠ .unpacked

section Steps

variable {kn : Kernels K Q W P} {n : Node K W} {e : Exec K} {before after : ConvStates K} {q : Q}
  {slot : PackedSlot P} {s : Pool (Shared K Q P) Pc} {i : Nat} {sh' : Shared K Q P} {pc' : Pc}

omit [CommSemiring K] in
theorem StageInv.move (h : StageInv n e before after q s)
    (hstage : Stage n e before after q ⟨sh', update s.pc i pc'⟩)
    (hawait : i < e.taskCount → ∀ k, pc' = .await .y k → 1 < e.taskCount)
    (hpacked : i < e.taskCount → pc' ≠ .unpacked) :
    StageInv n e before after q ⟨sh', update s.pc i pc'⟩ := by
  refine ⟨hstage, ?_, ?_⟩
  · exact (Function.forall_update_iff s.pc
      (fun t p => t < e.taskCount → ∀ k, p = .await .y k → 1 < e.taskCount)).mpr
      ⟨hawait, fun t _ => h.await_many t⟩
  exact (Function.forall_update_iff s.pc (fun t p => t < e.taskCount → p ≠ .unpacked)).mpr
    ⟨hpacked, fun t _ => h.never_unpacked t⟩

/-- What the last task to be counted finds is the whole input projection. -/
theorem bcx_of_launched (hok : n.entryOk = true) (hop : n.op = .inout) (hf : FrontInv kn n e slot s)
    (hl : Launched n e s) : s.shared.bcx = refBcx kn n e := by
  have hall : ∀ t, t < e.taskCount → (s.pc t).counted = true := by
    intro t ht
    unfold Launched at hl
    rw [hop] at hl
    exact all_of_arrived hl ht
  have hranks : ∀ t, t < e.taskCount → 7 ≤ (s.pc t).rank := fun t ht => of_decide_eq_true (hall t ht)
  have hrank0 := hranks 0 (taskCount_pos e)
  obtain ⟨-, hzero⟩ := hf.prepared (by omega)
  funext row
  unfold refBcx
  rw [hop]
  dsimp only
  by_cases hrow : row < n.inRows
  · rw [if_pos hrow]
    obtain ⟨t, ht, hlo, hhi⟩ := exists_tile_owner e (inRows_of_entryOk hok hop) hrow
    have hrank := hranks t ht
    exact hf.projected t ht (by omega) row hlo hhi
  rw [if_neg hrow]
  exact hzero row (by omega)

/-- Away from the convolution its data are left alone. -/
theorem act_plain (kn : Kernels K Q W P) (n : Node K W) (e : Exec K) (t : Nat) (sh : Shared K Q P)
    {pc : Pc} (hb : pc.busy = false) (hne : pc ≠ .entry) :
    (act kn n e t sh pc).1.states = sh.states ∧ (act kn n e t sh pc).1.yQ8 = sh.yQ8 ∧
    (act kn n e t sh pc).1.yStamp = sh.yStamp := by
  cases pc with
  | entry => exact absurd rfl hne
  | inGemv | outGemv =>
    simp only [act]
    split <;> exact ⟨rfl, rfl, rfl⟩
  | convolve => cases hb
  | publishY => cases hb
  | _ => exact ⟨rfl, rfl, rfl⟩

/-- How a task moves that does not enter the node, is not counted and does not run the
convolution. -/
structure PlainMove (sh : Shared K Q P) (st : UInt64) (pc pc' : Pc) : Prop where
  not_entry : pc' ≠ .entry
  not_busy : pc'.busy = false
  counted_eq : pc'.counted = pc.counted
  back : pc'.back = true → pc.back = true ∨ ∃ k, pc = .await .y k ∧ sh.yStamp = st
  await_y : ∀ k, pc' = .await .y k → ∃ k', pc = .await .y k'
  unpacked : pc' = .unpacked → pc = .unpacked ∨ pc = .inGemv ∧ sh.inSlot.packed = none

/-- Every step but the first, the busy ones and the count is a plain move. -/
theorem act_plainMove (kn : Kernels K Q W P) (n : Node K W) (e : Exec K) (t : Nat)
    (sh : Shared K Q P)
    {pc : Pc} (hb : pc.busy = false) (hne : pc ≠ .entry) (hnc : pc ≠ .countIn) :
    PlainMove sh (stamp n e) pc (act kn n e t sh pc).2 := by
  cases pc with
  | entry => exact absurd rfl hne
  | countIn => exact absurd rfl hnc
  | convolve => cases hb
  | publishY => cases hb
  | inGemv =>
    simp only [act]
    split
    · rename_i hnone
      exact ⟨nofun, rfl, rfl, nofun, nofun, fun _ => Or.inr ⟨rfl, hnone⟩⟩
    · exact ⟨nofun, rfl, rfl, nofun, nofun, nofun⟩
  | chooseOut =>
    simp only [act]
    split_ifs
    · exact ⟨nofun, rfl, rfl, fun _ => Or.inl rfl, nofun, nofun⟩
    · exact ⟨nofun, rfl, rfl, fun _ => Or.inl rfl, nofun, nofun⟩
    · exact ⟨nofun, rfl, rfl, fun _ => Or.inl rfl, nofun, nofun⟩
  | outGemv =>
    simp only [act]
    split
    · exact ⟨nofun, rfl, rfl, fun _ => Or.inl rfl, nofun, nofun⟩
    cases n.op
    · exact ⟨nofun, rfl, rfl, fun _ => Or.inl rfl, nofun, nofun⟩
    · exact ⟨nofun, rfl, rfl, fun _ => Or.inl rfl, nofun, nofun⟩
  | await w k =>
    simp only [act]
    cases w with
    | ready =>
      split_ifs <;> exact ⟨nofun, rfl, rfl, nofun, nofun, nofun⟩
    | y =>
      split_ifs with hst
      · exact ⟨nofun, rfl, rfl, fun _ => Or.inr ⟨k, rfl, hst⟩, nofun, nofun⟩
      · exact ⟨nofun, rfl, rfl, nofun, nofun, nofun⟩
      · exact ⟨nofun, rfl, rfl, nofun, fun _ _ => ⟨k, rfl⟩, nofun⟩
    | out =>
      split_ifs <;> exact ⟨nofun, rfl, rfl, fun _ => Or.inl rfl, nofun, nofun⟩
  | gaveUp w => exact ⟨nofun, rfl, rfl, fun hb => Or.inl hb, nofun, nofun⟩
  | unpacked => exact ⟨nofun, rfl, rfl, nofun, nofun, fun _ => Or.inl rfl⟩
  | prepare | lookupIn | resetDone | publishReady => exact ⟨nofun, rfl, rfl, nofun, nofun, nofun⟩
  | lookupOut => exact ⟨nofun, rfl, rfl, fun _ => Or.inl rfl, nofun, nofun⟩
  | publishOut => exact ⟨nofun, rfl, rfl, fun _ => Or.inl rfl, nofun, nofun⟩
  | rowWise => exact ⟨nofun, rfl, rfl, fun _ => Or.inl rfl, nofun, nofun⟩
  | finished => exact ⟨nofun, rfl, rfl, fun _ => Or.inl rfl, nofun, nofun⟩

theorem FrontInv.inSlot_found (hf : FrontInv kn n e slot s) (hi : i < e.taskCount)
    (hpc : s.pc i = .inGemv) : s.shared.inSlot = inFound kn n e slot := by
  have hrank0 := hf.begun hi (by rw [hpc]; decide)
  rw [hf.slot_eq, if_neg (by omega)]

section Kept

variable (hok : n.entryOk = true) (hfront : n.op = .inout → FrontInv kn n e slot s ∧
    (inFound kn n e slot).packed = some (kn.repack n.inWeight))

include hfront in
theorem StageInv.plainStep (h : StageInv n e before after q s) (hl : ∀ t, Legal n e t (s.pc t))
    (hb : (s.pc i).busy = false) (hne : s.pc i ≠ .entry) (hnc : s.pc i ≠ .countIn) :
    StageInv n e before after q (s.step (act kn n e) i) := by
  obtain ⟨hst, hq, hy⟩ := act_plain kn n e i s.shared hb hne
  have hmove := act_plainMove kn n e i s.shared hb hne hnc
  refine h.move (h.stage.plain ?_ hst hq hy (fun _ => hb) (fun _ => hmove.not_busy) ?_) ?_ ?_
  · refine launched_update ?_ ?_
    · intro _ _
      exact ⟨fun he => absurd he hmove.not_entry, fun he => absurd he hne⟩
    intro _ _
    exact hmove.counted_eq
  · intro hi hback
    rcases hmove.back hback with hold | ⟨k, hpc, hstamp⟩
    · exact Or.inl hold
    · exact Or.inr (h.stage.done_of_stamp (h.await_many i hi k hpc) hstamp)
  · intro hi k hk
    obtain ⟨k', hk'⟩ := hmove.await_y k hk
    exact h.await_many i hi k' hk'
  intro hi hun
  rcases hmove.unpacked hun with hold | ⟨hpc, hnone⟩
  · exact h.never_unpacked i hi hold
  have hleg := hl i
  rw [hpc] at hleg
  obtain ⟨hf, hfound⟩ := hfront hleg.2
  rw [hf.inSlot_found hi hpc, hfound] at hnone
  cases hnone

include hok in
theorem StageInv.entryStep (h : StageInv n e before after q s) (hpc : s.pc i = .entry) :
    StageInv n e before after q (s.step (act kn n e) i) := by
  have h0 := taskCount_pos e
  unfold Pool.step
  rw [hpc]
  rcases Nat.lt_or_ge i e.taskCount with hi | hi
  · rw [act_entry hok hi]
    unfold Node.start
    cases hop : n.op with
    | out =>
      dsimp only
      split_ifs with hz
      · subst hz
        refine h.move (h.stage.launch hi ?_ ?_ rfl rfl) (fun _ => nofun) (fun _ => nofun)
        · unfold Launched
          rw [hop]
          exact fun hl => hl hpc
        unfold Launched
        rw [hop]
        show update s.pc 0 .convolve 0 ≠ .entry
        rw [update_self]
        nofun
      refine h.move (h.stage.plain ?_ rfl rfl rfl ?_ (fun _ => rfl) (fun _ => nofun)) ?_
        (fun _ => nofun)
      · refine launched_update (fun _ hz' => absurd hz' hz) ?_
        intro hop'
        rw [hop] at hop'
        cases hop'
      · intro _; rw [hpc]; rfl
      intro _ _ _
      omega
    | inout =>
      dsimp only
      have hcount : ∀ pc' : Pc, pc'.counted = false →
          (Launched n e ⟨s.shared, update s.pc i pc'⟩ ↔ Launched n e s) := by
        intro pc' hc
        refine launched_update ?_ ?_
        · intro hop'
          rw [hop] at hop'
          cases hop'
        intro _ _
        rw [hpc, hc]
        rfl
      split_ifs with hz
      · refine h.move (h.stage.plain (hcount _ rfl) rfl rfl rfl ?_ (fun _ => rfl) (fun _ => nofun))
          (fun _ => nofun) (fun _ => nofun)
        intro _; rw [hpc]; rfl
      refine h.move (h.stage.plain (hcount _ rfl) rfl rfl rfl ?_ (fun _ => rfl) (fun _ => nofun))
        (fun _ => nofun) (fun _ => nofun)
      intro _; rw [hpc]; rfl
  · rw [act_entry_skip (Or.inr hi)]
    refine h.move (h.stage.plain ?_ rfl rfl rfl ?_ ?_ ?_) ?_ ?_
    · refine launched_update ?_ ?_
      · intro _ hz
        omega
      intro _ hi'
      omega
    all_goals intro hi'; omega

include hfront in
theorem StageInv.countInStep (h : StageInv n e before after q s) (hl : ∀ t, Legal n e t (s.pc t))
    (hpc : s.pc i = .countIn) : StageInv n e before after q (s.step (act kn n e) i) := by
  have hnext : Legal n e i (act kn n e i s.shared (s.pc i)).2 := legal_act (hl i)
  have hleg := hl i
  rw [hpc] at hleg hnext
  obtain ⟨hi, hop⟩ := hleg
  obtain ⟨hf, -⟩ := hfront hop
  have hrank : (act kn n e i s.shared .countIn).2.rank = 7 := by
    simp only [act]
    split_ifs <;> rfl
  obtain ⟨-, hcount⟩ := hf.countIn hpc hrank hnext
  have hle := arrived_le e.taskCount Pc.counted
    (update s.pc i (act kn n e i s.shared .countIn).2)
  have hrank0 := hf.begun hi (by rw [hpc]; decide)
  have hold : s.shared.inDone = arrived e.taskCount Pc.counted s.pc := hf.inDone_eq (by omega)
  -- the count was short of the number of tasks
  have hnl : ¬ Launched n e s := by
    unfold Launched
    rw [hop]
    show ¬ arrived e.taskCount Pc.counted s.pc = e.taskCount
    omega
  have hl' : Launched n e ⟨(act kn n e i s.shared .countIn).1,
      update s.pc i (act kn n e i s.shared .countIn).2⟩ ↔ s.shared.inDone + 1 = e.taskCount := by
    unfold Launched
    rw [hop]
    show arrived _ _ _ = _ ↔ _
    rw [← hcount]
  unfold Pool.step
  rw [hpc]
  by_cases hlast : s.shared.inDone + 1 = e.taskCount
  · have hact : act kn n e i s.shared .countIn
        = ({ s.shared with inDone := s.shared.inDone + 1 }, .convolve) := by
      simp only [act]
      rw [if_pos hlast]
    rw [hact] at hl' ⊢
    exact h.move (h.stage.launch hi hnl (hl'.mpr hlast) rfl rfl) (fun _ => nofun) (fun _ => nofun)
  have hact : act kn n e i s.shared .countIn
      = ({ s.shared with inDone := s.shared.inDone + 1 }, .await .y 0) := by
    simp only [act]
    rw [if_neg hlast]
  rw [hact] at hl' ⊢
  refine h.move (h.stage.plain ?_ rfl rfl rfl ?_ (fun _ => rfl) (fun _ => nofun)) ?_ (fun _ => nofun)
  · exact ⟨fun hla => absurd (hl'.mp hla) hlast, fun hla => absurd hla hnl⟩
  · intro _; rw [hpc]; rfl
  intro _ _ _
  omega

include hok hfront in
theorem StageInv.convolveStep (h : StageInv n e before after q s) (hl : ∀ t, Legal n e t (s.pc t))
    {y : Nat → K}
    (href : lfm2ShortConvToken n.conv before ⟨e.seqId, refBcx kn n e⟩ (fun _ => 0) 0 n.channels
      = some (after, y))
    (hq : kn.fromFloat ((List.range n.channels).map y) = q) (hpc : s.pc i = .convolve) :
    StageInv n e before after q (s.step (act kn n e) i) := by
  have hleg := hl i
  rw [hpc] at hleg
  obtain ⟨hi, hzero⟩ := hleg
  have hlaunched : Launched n e s := by
    cases h.stage with
    | gathering _ _ _ hno =>
      have hb := (hno i hi).1
      rw [hpc] at hb
      cases hb
    | convolving _ _ hla => exact hla
    | publishing _ _ hla => exact hla
    | done hd => exact hd.launched
  have hinput : convInput n e s.shared = refBcx kn n e := by
    cases hop : n.op with
    | out =>
      unfold convInput refBcx
      rw [hop]
    | inout =>
      have hbcx := bcx_of_launched hok hop (hfront hop).1 hlaunched
      unfold convInput
      rw [hop]
      exact hbcx
  unfold Pool.step
  rw [hpc]
  have hact : act kn n e i s.shared .convolve
      = (convolve kn n e (refBcx kn n e) s.shared, .publishY) := by
    simp only [act]
    rw [hinput]
  rw [hact]
  obtain ⟨r, y', htoken, heq⟩ := convolve_eq kn e (kernel_of_entryOk hok) (refBcx kn n e) s.shared
  refine h.move (h.stage.convolve hi hpc ?_ ?_ ?_) (fun _ => nofun) (fun _ => nofun)
  · refine launched_update ?_ ?_
    · intro _ _
      rw [hpc]
      exact ⟨nofun, nofun⟩
    intro _ _
    rw [hpc]
    rfl
  · intro hst
    rw [hst, href] at htoken
    have hr := Option.some.inj htoken
    show (convolve kn n e (refBcx kn n e) s.shared).states = after ∧
      (convolve kn n e (refBcx kn n e) s.shared).yQ8 = q
    rw [heq, ← hr]
    exact ⟨rfl, hq⟩
  show (convolve kn n e (refBcx kn n e) s.shared).yStamp = s.shared.yStamp
  rw [heq]

include hok hfront in
theorem StageInv.step (h : StageInv n e before after q s) (hl : ∀ t, Legal n e t (s.pc t))
    {y : Nat → K}
    (href : lfm2ShortConvToken n.conv before ⟨e.seqId, refBcx kn n e⟩ (fun _ => 0) 0 n.channels
      = some (after, y))
    (hq : kn.fromFloat ((List.range n.channels).map y) = q) (i : Nat) :
    StageInv n e before after q (s.step (act kn n e) i) := by
  by_cases hentry : s.pc i = .entry
  · exact h.entryStep hok hentry
  by_cases hcount : s.pc i = .countIn
  · exact h.countInStep hfront hl hcount
  by_cases hconv : s.pc i = .convolve
  · exact h.convolveStep hok hfront hl href hq hconv
  by_cases hpub : s.pc i = .publishY
  · have hleg := hl i
    rw [hpub] at hleg
    have hi := hleg.1
    unfold Pool.step
    rw [hpub]
    refine h.move (.done (h.stage.publish hi hpub ?_ rfl rfl)) (fun _ => nofun) (fun _ => nofun)
    refine launched_update ?_ ?_
    · intro _ _
      rw [hpub]
      exact ⟨nofun, nofun⟩
    intro _ _
    rw [hpub]
    rfl
  · refine h.plainStep hfront hl ?_ hentry hcount
    cases hpc : s.pc i with
    | convolve => exact absurd hpc hconv
    | publishY => exact absurd hpc hpub
    | _ => rfl

end Kept

end Steps

end DenseCore.FusedDecode
