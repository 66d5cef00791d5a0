/-
When the fused decode operators complete.

After the convolution every task projects its share of the output rows, all of them
packed or all of them row-wise, since they look at the repacked weight after task 0 has
settled it.  Every row has an owner, and whoever writes a row writes the product.

This needs tasks that wait to wait for this execution: the stamps the user data hold
must not be the execution's own already, no wait may run out, and the operator with the
input projection needs both repacked weights.
-/
import DenseCore.Proofs.Ssm.FusedStages

namespace DenseCore.FusedDecode

open Function (update update_of_ne update_self)

open Lib Ssm

variable {K Q W P : Type} [CommSemiring K]

/-! ### The output projection -/

/-- Task 0 has settled the repacked output projection. -/
def Pc.settled : Pc → Bool
  | .publishOut | .outGemv | .rowWise | .finished => true
  | _ => false

section OutShares

variable (kn : Kernels K Q W P) (n : Node K W) (e : Exec K) (slot : PackedSlot P)

/-- What looking the output projection up finds, where the operator looks. -/
def outFound : PackedSlot P :=
  if n.usesPacked then
    slot.refresh (if e.outLookup then some (kn.repack n.outWeight) else none) n.outProj.data n.outDim
      n.outProj.ne0
  else slot

/-- Whether the tasks share the output by tiles. -/
def viaTiles : Bool := n.usesPacked && (outFound kn n e slot).packed.isSome

/-- The output rows of task `t`. -/
def InShare (t row : Nat) : Prop :=
  if viaTiles kn n e slot then tileStart e n.outDim t * 8 ≤ row ∧ row < tileStart e n.outDim (t + 1) * 8
  else rowStart n e t ≤ row ∧ row < rowStart n e (t + 1)

omit [CommSemiring K] in
theorem exists_owner (hok : n.entryOk = true) {row : Nat} (hrow : row < n.outDim) :
    ∃ t, t < e.taskCount ∧ InShare kn n e slot t row := by
  unfold InShare
  split_ifs with hvia
  · unfold viaTiles at hvia
    rw [Bool.and_eq_true] at hvia
    exact exists_tile_owner e (outDim_of_usesPacked hok hvia.1) hrow
  · exact split_owner_exists (taskCount_pos e) hrow

/-- The output projection of one execution that found `slot` in the user data and has to
project `q`. -/
structure BackInv (q : Q) (s : Pool (Shared K Q P) Pc) : Prop where
  slot_eq : s.shared.outSlot = if (s.pc 0).settled then outFound kn n e slot else slot
  stamp_settled : n.usesPacked = true → 1 < e.taskCount → s.shared.outStamp = stamp n e →
    (s.pc 0).settled = true
  gemv_settled : ∀ t, t < e.taskCount → s.pc t = .outGemv → (s.pc 0).settled = true
  row_wise : ∀ t, t < e.taskCount → s.pc t = .rowWise → viaTiles kn n e slot = false
  shares : ∀ t, t < e.taskCount → s.pc t = .finished → ∀ row, InShare kn n e slot t row →
    s.shared.dst row = kn.vecDot n.outWeight row q

end OutShares

section Back

variable {kn : Kernels K Q W P} {n : Node K W} {e : Exec K} {slot : PackedSlot P} {q : Q}
  {s : Pool (Shared K Q P) Pc} {i : Nat} {sh' : Shared K Q P} {pc' : Pc}

omit [CommSemiring K] in
theorem backInv_enter {sh : Shared K Q P}
    (hstamp : n.usesPacked = true → 1 < e.taskCount → sh.outStamp ≠ stamp n e) :
    BackInv kn n e sh.outSlot q ⟨sh, fun _ => .entry⟩ where
  slot_eq := rfl
  stamp_settled hused hone hst := absurd hst (hstamp hused hone)
  gemv_settled _ _ := nofun
  row_wise _ _ := nofun
  shares _ _ := nofun

omit [CommSemiring K] in
/-- What a step has to keep for the output projection. -/
theorem BackInv.move (h : BackInv kn n e slot q s)
    (hslot : sh'.outSlot = if (update s.pc i pc' 0).settled then outFound kn n e slot else slot)
    (hkeep : i = 0 → (s.pc i).settled = true → pc'.settled = true)
    (hstamp : 1 < e.taskCount → sh'.outStamp = stamp n e →
      s.shared.outStamp = stamp n e ∨ (update s.pc i pc' 0).settled = true)
    (hgemv : i < e.taskCount → pc' = .outGemv → (update s.pc i pc' 0).settled = true)
    (hrows : i < e.taskCount → pc' = .rowWise → viaTiles kn n e slot = false)
    (hdst : ∀ row, sh'.dst row = kn.vecDot n.outWeight row q ∨ sh'.dst row = s.shared.dst row)
    (hshare : i < e.taskCount → pc' = .finished → ∀ row, InShare kn n e slot i row →
      sh'.dst row = kn.vecDot n.outWeight row q) :
    BackInv kn n e slot q ⟨sh', update s.pc i pc'⟩ := by
  have hsettled : (s.pc 0).settled = true → (update s.pc i pc' 0).settled = true := by
    intro hs
    by_cases h0 : (0 : Nat) = i
    · subst h0
      rw [update_self]
      exact hkeep rfl hs
    rw [update_of_ne h0]
    exact hs
  refine ⟨hslot, ?_, ?_, ?_, ?_⟩
  · intro hused hone hst
    rcases hstamp hone hst with hold | hnow
    · exact hsettled (h.stamp_settled hused hone hold)
    · exact hnow
  · exact (Function.forall_update_iff s.pc (fun t p => t < e.taskCount → p = .outGemv →
      (update s.pc i pc' 0).settled = true)).mpr
      ⟨hgemv, fun t _ ht hpc => hsettled (h.gemv_settled t ht hpc)⟩
  · exact (Function.forall_update_iff s.pc (fun t p => t < e.taskCount → p = .rowWise →
      viaTiles kn n e slot = false)).mpr ⟨hrows, fun t _ => h.row_wise t⟩
  refine (Function.forall_update_iff s.pc (fun t p => t < e.taskCount → p = .finished →
    ∀ row, InShare kn n e slot t row → sh'.dst row = kn.vecDot n.outWeight row q)).mpr ⟨hshare, ?_⟩
  intro t _ ht hpc row hin
  rcases hdst row with hnew | hold
  · exact hnew
  rw [hold]
  exact h.shares t ht hpc row hin

omit [CommSemiring K] in
/-- A step that leaves the output projection alone. -/
theorem BackInv.quiet (h : BackInv kn n e slot q s) (hslot : sh'.outSlot = s.shared.outSlot)
    (hstamp : sh'.outStamp = s.shared.outStamp) (hdst : sh'.dst = s.shared.dst)
    (hzero : i = 0 → pc'.settled = (s.pc i).settled)
    (hgemv : i < e.taskCount → pc' = .outGemv → (s.pc 0).settled = true)
    (hrows : i < e.taskCount → pc' ≠ .rowWise)
    (hdone : i < e.taskCount → pc' = .finished → s.pc i = .finished) :
    BackInv kn n e slot q ⟨sh', update s.pc i pc'⟩ := by
  have hsame : (update s.pc i pc' 0).settled = (s.pc 0).settled := by
    by_cases h0 : (0 : Nat) = i
    · subst h0
      rw [update_self]
      exact hzero rfl
    · rw [update_of_ne h0]
  refine h.move ?_ ?_ ?_ ?_ ?_ ?_ ?_
  · rw [hslot, h.slot_eq, hsame]
  · intro h0 hs
    rw [hzero h0]
    exact hs
  · intro _ hst
    rw [hstamp] at hst
    exact Or.inl hst
  · intro hi hpc
    rw [hsame]
    exact hgemv hi hpc
  · intro hi hpc
    exact absurd hpc (hrows hi)
  · intro row
    rw [hdst]
    exact Or.inr rfl
  intro hi hpc row hin
  rw [hdst]
  exact h.shares i hi (hdone hi hpc) row hin

/-- Before the output projection nothing of it is touched. -/
theorem act_front (kn : Kernels K Q W P) (e : Exec K) (t : Nat) (sh : Shared K Q P) {pc : Pc}
    (hok : n.entryOk = true) (ht : t < e.taskCount) (hpc : pc.back = false) :
    (act kn n e t sh pc).1.outSlot = sh.outSlot ∧ (act kn n e t sh pc).1.outStamp = sh.outStamp ∧
    (act kn n e t sh pc).1.dst = sh.dst ∧ (act kn n e t sh pc).2.settled = false ∧
    pc.settled = false := by
  cases pc with
  | entry =>
    rw [act_entry hok ht]
    refine ⟨rfl, rfl, rfl, ?_, rfl⟩
    unfold Node.start
    cases n.op <;> (dsimp only; split_ifs <;> rfl)
  | inGemv =>
    simp only [act]
    split <;> exact ⟨rfl, rfl, rfl, rfl, rfl⟩
  | countIn =>
    refine ⟨rfl, rfl, rfl, ?_, rfl⟩
    simp only [act]
    split_ifs <;> rfl
  | convolve =>
    obtain ⟨r, y, -, heq⟩ := convolve_eq kn e (kernel_of_entryOk hok) (convInput n e sh) sh
    simp only [act]
    rw [heq]
    exact ⟨rfl, rfl, rfl, rfl, rfl⟩
  | await w k =>
    refine ⟨rfl, rfl, rfl, ?_, rfl⟩
    simp only [act]
    cases w with
    | ready => split_ifs <;> rfl
    | y => split_ifs <;> rfl
    | out => cases hpc
  | gaveUp w => exact ⟨rfl, rfl, rfl, rfl, rfl⟩
  | prepare => exact ⟨rfl, rfl, rfl, rfl, rfl⟩
  | lookupIn => exact ⟨rfl, rfl, rfl, rfl, rfl⟩
  | resetDone => exact ⟨rfl, rfl, rfl, rfl, rfl⟩
  | publishReady => exact ⟨rfl, rfl, rfl, rfl, rfl⟩
  | publishY => exact ⟨rfl, rfl, rfl, rfl, rfl⟩
  | unpacked => exact ⟨rfl, rfl, rfl, rfl, rfl⟩
  | _ => cases hpc

theorem BackInv.beyond (h : BackInv kn n e slot q s) (hl : Legal n e i (s.pc i))
    (hi : e.taskCount ≤ i) :
    BackInv kn n e slot q (s.step (act kn n e) i) := by
  have h0 := taskCount_pos e
  have hact : act kn n e i s.shared (s.pc i) = (s.shared, .finished) := by
    cases hpc : s.pc i with
    | entry => exact act_entry_skip (Or.inr hi)
    | finished => rfl
    | await w k | gaveUp w => rw [hpc] at hl; cases w <;> (simp only [Legal] at hl; omega)
    | _ => rw [hpc] at hl; simp only [Legal] at hl; omega
  unfold Pool.step
  rw [hact]
  refine h.quiet rfl rfl rfl ?_ ?_ ?_ ?_
  all_goals intros; omega

section Shares

variable (hagree : kn.Agree)
  (hfound : ∀ p, (outFound kn n e slot).packed = some p → p = kn.repack n.outWeight)
  (hinout : n.op = .inout → (outFound kn n e slot).packed.isSome = true)

include hagree hfound hinout in
/-- A task projects its tiles, or finds that it has to go row by row. -/
theorem BackInv.outGemv (h : BackInv kn n e slot q s) (hl : Legal n e i (s.pc i))
    (hpc : s.pc i = .outGemv) (hq : s.shared.yQ8 = q) :
    BackInv kn n e slot q (s.step (act kn n e) i) := by
  rw [hpc] at hl
  obtain ⟨hi, hused⟩ := hl
  have hset := h.gemv_settled i hi hpc
  have hslot : s.shared.outSlot = outFound kn n e slot := by rw [h.slot_eq, if_pos hset]
  have hset' : ∀ pc' : Pc, pc'.settled = true → (update s.pc i pc' 0).settled = true := by
    intro pc' hs
    by_cases h0 : (0 : Nat) = i
    · subst h0
      rw [update_self]
      exact hs
    rw [update_of_ne h0]
    exact hset
  unfold Pool.step
  rw [hpc]
  cases hp : (outFound kn n e slot).packed with
  | some p =>
    have hvia : viaTiles kn n e slot = true := by
      unfold viaTiles
      rw [hused, hp]
      rfl
    have hact : act kn n e i s.shared .outGemv
        = ({ s.shared with
              dst := runGemv kn p s.shared.yQ8 (tileStart e n.outDim i)
                (tileStart e n.outDim (i + 1)) s.shared.dst }, .finished) := by
      simp only [act]
      rw [hslot, hp]
    rw [hact, hfound p hp, runGemv_repack hagree, hq]
    refine h.move ?_ (fun _ _ => rfl) (fun _ hst => Or.inl hst) (fun _ => nofun) (fun _ => nofun) ?_ ?_
    · rw [hset' .finished rfl, if_pos rfl]
      exact hslot
    · intro row
      dsimp only
      split_ifs
      · exact Or.inl rfl
      · exact Or.inr rfl
    intro _ _ row hin
    unfold InShare at hin
    rw [if_pos hvia] at hin
    exact if_pos hin
  | none =>
    have hop : n.op = .out := by
      cases hop : n.op with
      | out => rfl
      | inout =>
        have hsome := hinout hop
        rw [hp] at hsome
        cases hsome
    have hact : act kn n e i s.shared .outGemv = (s.shared, .rowWise) := by
      simp only [act]
      rw [hslot, hp, hop]
    rw [hact]
    refine h.move ?_ (fun _ _ => rfl) (fun _ hst => Or.inl hst) (fun _ => nofun) ?_
      (fun _ => Or.inr rfl) (fun _ => nofun)
    · rw [hset' .rowWise rfl, if_pos rfl]
      exact hslot
    intro _ _
    unfold viaTiles
    rw [hp, Option.isSome_none, Bool.and_false]

include hagree in
theorem BackInv.rowWise (h : BackInv kn n e slot q s) (hl : Legal n e i (s.pc i))
    (hpc : s.pc i = .rowWise) (hq : s.shared.yQ8 = q) :
    BackInv kn n e slot q (s.step (act kn n e) i) := by
  rw [hpc] at hl
  have hi := hl.1
  have hvia := h.row_wise i hi hpc
  unfold Pool.step
  rw [hpc]
  simp only [act]
  rw [hq]
  refine h.move ?_ (fun _ _ => rfl) (fun _ hst => Or.inl hst) (fun _ => nofun) (fun _ => nofun) ?_ ?_
  · show s.shared.outSlot = _
    rw [h.slot_eq]
    by_cases h0 : (0 : Nat) = i
    · subst h0
      rw [update_self, hpc]
      rfl
    · rw [update_of_ne h0]
  · intro row
    exact runRows_cases hagree q _ _ row s.shared.dst
  intro _ _ row hin
  unfold InShare at hin
  rw [hvia] at hin
  exact runRows_inside hagree q s.shared.dst hin

include hagree hfound hinout in
/-- No step of a task breaks the invariant of the output projection. -/
theorem BackInv.step (hok : n.entryOk = true) (h : BackInv kn n e slot q s)
    (hl : ∀ t, Legal n e t (s.pc t))
    (hq : ∀ t, t < e.taskCount → (s.pc t).back = true → s.shared.yQ8 = q) (i : Nat) :
    BackInv kn n e slot q (s.step (act kn n e) i) := by
  have hleg := hl i
  rcases Nat.lt_or_ge i e.taskCount with hi | hi
  swap
  · exact h.beyond hleg hi
  by_cases hback : (s.pc i).back = false
  · obtain ⟨hslot, hstamp, hdst, hset', hset⟩ := act_front kn e i s.shared hok hi hback
    refine h.quiet hslot hstamp hdst (fun _ => hset'.trans hset.symm) ?_ ?_ ?_
    · intro _ hpc; rw [hpc] at hset'; cases hset'
    · intro _ hpc; rw [hpc] at hset'; cases hset'
    · intro _ hpc; rw [hpc] at hset'; cases hset'
  have hq' := hq i hi (Bool.eq_true_of_not_eq_false hback)
  cases hpc : s.pc i with
  | outGemv => exact h.outGemv hagree hfound hinout hleg hpc hq'
  | rowWise => exact h.rowWise hagree hleg hpc hq'
  | chooseOut =>
    unfold Pool.step
    rw [hpc]
    simp only [act]
    split_ifs with hused hz
    · refine h.quiet rfl rfl rfl ?_ (fun _ => nofun) (fun _ => nofun) (fun _ => nofun)
      intro _; rw [hpc]; rfl
    · refine h.quiet rfl rfl rfl ?_ (fun _ => nofun) (fun _ => nofun) (fun _ => nofun)
      intro _; rw [hpc]; rfl
    have hsame : outFound kn n e slot = slot := if_neg hused
    refine h.move ?_ ?_ (fun _ hst => Or.inl hst) (fun _ => nofun) ?_ (fun _ => Or.inr rfl)
      (fun _ => nofun)
    · have heq := h.slot_eq
      rw [hsame, ite_self] at heq ⊢
      exact heq
    · rw [hpc]; nofun
    intro _ _
    unfold viaTiles
    rw [Bool.eq_false_of_not_eq_true hused, Bool.false_and]
  | lookupOut =>
    rw [hpc] at hleg
    obtain ⟨rfl, hused⟩ := hleg
    have hslot : s.shared.outSlot = slot := by
      have heq := h.slot_eq
      rw [hpc] at heq
      exact heq
    unfold Pool.step
    rw [hpc]
    refine h.move ?_ (fun _ _ => rfl) (fun _ hst => Or.inl hst) (fun _ => nofun) (fun _ => nofun)
      (fun _ => Or.inr rfl) (fun _ => nofun)
    rw [update_self]
    show s.shared.outSlot.refresh _ _ _ _ = outFound kn n e slot
    unfold outFound
    rw [hslot, if_pos hused]
  | publishOut =>
    rw [hpc] at hleg
    obtain ⟨rfl, hused⟩ := hleg
    unfold Pool.step
    rw [hpc]
    have hset : (update s.pc 0 (act kn n e 0 s.shared .publishOut).2 0).settled = true := by
      rw [update_self]
      rfl
    refine h.move ?_ (fun _ _ => rfl) (fun _ _ => Or.inr hset) (fun _ _ => hset) (fun _ => nofun)
      (fun _ => Or.inr rfl) (fun _ => nofun)
    rw [hset, if_pos rfl]
    have heq := h.slot_eq
    rw [hpc] at heq
    exact heq
  | await w k =>
    cases w with
    | ready | y => rw [hpc] at hback; exact absurd rfl hback
    | out =>
      rw [hpc] at hleg
      obtain ⟨-, hne, hused⟩ := hleg
      unfold Pool.step
      rw [hpc]
      simp only [act]
      refine h.quiet rfl rfl rfl (fun hz => absurd hz hne) ?_ ?_ ?_
      · intro _ hgemv
        split_ifs at hgemv with hst
        exact h.stamp_settled hused (by omega) hst
      · intro _
        split_ifs <;> nofun
      intro _
      split_ifs <;> nofun
  | finished =>
    unfold Pool.step
    rw [hpc]
    refine h.quiet rfl rfl rfl ?_ (fun _ => nofun) (fun _ => nofun) (fun _ _ => hpc)
    intro _; rw [hpc]; rfl
  | gaveUp w =>
    unfold Pool.step
    rw [hpc]
    refine h.quiet rfl rfl rfl ?_ (fun _ => nofun) (fun _ => nofun) (fun _ => nofun)
    intro _; rw [hpc]; rfl
  | _ => rw [hpc] at hback; exact absurd rfl hback

end Shares

end Back

/-! ### Executions -/

/-- A slot holds nothing but the repacking of its weight. -/
def PackedSlot.Holds (kn : Kernels K Q W P) (w : W) (slot : PackedSlot P) : Prop :=
  ∀ p, slot.packed = some p → p = kn.repack w

section Slots

variable {kn : Kernels K Q W P} {n : Node K W} {e : Exec K} {w : W} {slot : PackedSlot P}

omit [CommSemiring K] in
theorem PackedSlot.Holds.refresh (h : slot.Holds kn w) (found : Bool) (data : UInt64)
    (rows cols : Nat) :
    (slot.refresh (if found then some (kn.repack w) else none) data rows cols).Holds kn w := by
  unfold PackedSlot.refresh
  split_ifs with hstale hfound
  · intro p hp
    exact (Option.some.inj hp).symm
  · intro p hp
    cases hp
  · exact h

theorem act_slots (t : Nat) (sh : Shared K Q P) (pc : Pc) (hin : sh.inSlot.Holds kn n.inWeight)
    (hout : sh.outSlot.Holds kn n.outWeight) :
    (act kn n e t sh pc).1.inSlot.Holds kn n.inWeight ∧
    (act kn n e t sh pc).1.outSlot.Holds kn n.outWeight := by
  cases pc with
  | entry =>
    by_cases hskip : n.entryOk = false ∨ e.taskCount ≤ t
    · rw [act_entry_skip hskip]
      exact ⟨hin, hout⟩
    rw [not_or, Bool.not_eq_false, Nat.not_le] at hskip
    rw [act_entry hskip.1 hskip.2]
    exact ⟨hin, hout⟩
  | lookupIn => exact ⟨hin.refresh e.inLookup _ _ _, hout⟩
  | lookupOut => exact ⟨hin, hout.refresh e.outLookup _ _ _⟩
  | inGemv | outGemv =>
    simp only [act]
    split <;> exact ⟨hin, hout⟩
  | convolve =>
    simp only [act]
    unfold FusedDecode.convolve
    split
    · exact ⟨hin, hout⟩
    dsimp only
    split <;> exact ⟨hin, hout⟩
  | _ => exact ⟨hin, hout⟩

theorem Served.slots {sh : Shared K Q P} (h : Served kn n sh) :
    sh.inSlot.Holds kn n.inWeight ∧ sh.outSlot.Holds kn n.outWeight := by
  induction h with
  | fresh h =>
    refine ⟨?_, ?_⟩
    · intro p hp
      rw [h.inSlot] at hp
      cases hp
    intro p hp
    rw [h.outSlot] at hp
    cases hp
  | between _ _ _ ih => exact ih
  | @exec sh _ e schedule _ ih =>
    have hrun := Pool.inv_run
      (fun s : Pool (Shared K Q P) Pc =>
        s.shared.inSlot.Holds kn n.inWeight ∧ s.shared.outSlot.Holds kn n.outWeight)
      (fun s i hs => act_slots (e := e) i s.shared (s.pc i) hs.1 hs.2) schedule ⟨sh, fun _ => .entry⟩ ih
    exact hrun

theorem act_faulted (hok : n.entryOk = true) (t : Nat) (sh : Shared K Q P) (pc : Pc) :
    (act kn n e t sh pc).1.faulted = sh.faulted := by
  cases pc with
  | entry =>
    by_cases hskip : n.entryOk = false ∨ e.taskCount ≤ t
    · rw [act_entry_skip hskip]
    rw [not_or, Bool.not_eq_false, Nat.not_le] at hskip
    rw [act_entry hskip.1 hskip.2]
  | inGemv | outGemv =>
    simp only [act]
    split <;> rfl
  | convolve =>
    obtain ⟨r, y, -, heq⟩ := convolve_eq kn e (kernel_of_entryOk hok) (convInput n e sh) sh
    simp only [act]
    rw [heq]
  | _ => rfl

end Slots

/-- When an execution completes: with several tasks, no stamp in the user data is the
execution's own already and no wait runs out; and the operator with the input
projection finds both repacked weights. -/
structure Meets (kn : Kernels K Q W P) (n : Node K W) (e : Exec K) (sh : Shared K Q P)
    (schedule : List Nat) : Prop where
  stamps : 1 < e.taskCount → sh.yStamp ≠ stamp n e ∧
    (n.op = .inout → sh.readyStamp ≠ stamp n e) ∧ (n.usesPacked = true → sh.outStamp ≠ stamp n e)
  waits : ∀ t, t < e.taskCount → ∀ w, (execute kn n e sh schedule).pc t ≠ .gaveUp w
  repacked : n.op = .inout → (inFound kn n e sh.inSlot).packed.isSome = true ∧
    (outFound kn n e sh.outSlot).packed.isSome = true

section Main

variable {kn : Kernels K Q W P} {n : Node K W}

omit [CommSemiring K] in
theorem stageInv_enter {e : Exec K} {sh : Shared K Q P} {after : ConvStates K} {q : Q}
    (hy : 1 < e.taskCount → sh.yStamp ≠ stamp n e) :
    StageInv n e sh.states after q ⟨sh, fun _ => .entry⟩ where
  stage := by
    refine .gathering ?_ rfl hy fun _ _ => ⟨rfl, rfl⟩
    unfold Launched
    cases hop : n.op with
    | out => exact fun hl => hl rfl
    | inout =>
      show ¬ arrived _ _ _ = _
      rw [arrived_none fun _ _ => rfl]
      have h0 := taskCount_pos e
      omega
  await_many _ _ _ := nofun
  never_unpacked _ _ := nofun

/-- Everything an execution keeps. -/
structure ExecInv (kn : Kernels K Q W P) (n : Node K W) (e : Exec K) (sh : Shared K Q P)
    (after : ConvStates K) (q : Q) (s : Pool (Shared K Q P) Pc) : Prop where
  legal : ∀ t, Legal n e t (s.pc t)
  front : n.op = .inout → FrontInv kn n e sh.inSlot s
  stage : StageInv n e sh.states after q s
  back : BackInv kn n e sh.outSlot q s
  faulted_eq : s.shared.faulted = sh.faulted

/-- **The fused operators complete**: when all tasks have returned, the output is the
reference and the sequence's state has advanced exactly once, under every interleaving
and after any executions of the node. -/
theorem fused_decode_completes (hagree : kn.Agree) (hok : n.entryOk = true) {sh : Shared K Q P}
    (hserved : Served kn n sh) (e : Exec K) (schedule : List Nat) (hm : Meets kn n e sh schedule)
    (hret : ∀ t, t < e.taskCount → ((execute kn n e sh schedule).pc t).returned = true) :
    Correct kn n e sh (execute kn n e sh schedule).shared := by
  obtain ⟨hin, hout⟩ := hserved.slots
  have hinFound : n.op = .inout → (inFound kn n e sh.inSlot).packed = some (kn.repack n.inWeight) := by
    intro hop
    obtain ⟨p, hp⟩ := Option.isSome_iff_exists.mp (hm.repacked hop).1
    rw [hp, (hin.refresh e.inLookup _ _ _) p hp]
  have houtFound : ∀ p, (outFound kn n e sh.outSlot).packed = some p → p = kn.repack n.outWeight := by
    unfold outFound
    by_cases hused : n.usesPacked = true
    · rw [if_pos hused]
      exact hout.refresh e.outLookup _ _ _
    rw [if_neg hused]
    exact hout
  obtain ⟨r, -, href, -⟩ := convolve_eq kn e (kernel_of_entryOk hok) (refBcx kn n e) sh
  let q := kn.fromFloat ((List.range n.channels).map r.2)
  have henter : ExecInv kn n e sh r.1 q ⟨sh, fun _ => .entry⟩ :=
    ⟨fun _ => trivial, fun hop => frontInv_enter fun hone => (hm.stamps hone).2.1 hop,
      stageInv_enter fun hone => (hm.stamps hone).1,
      backInv_enter fun hused hone => (hm.stamps hone).2.2 hused, rfl⟩
  have hstep : ∀ s i, ExecInv kn n e sh r.1 q s → ExecInv kn n e sh r.1 q (s.step (act kn n e) i) := by
    intro s i h
    refine ⟨?_, ?_, ?_, ?_, ?_⟩
    · exact (Function.forall_update_iff s.pc (fun t p => Legal n e t p)).mpr
        ⟨legal_act (h.legal i), fun t _ => h.legal t⟩
    · intro hop
      exact (h.front hop).step hok hop hagree (hinFound hop) i
    · exact h.stage.step hok (fun hop => ⟨h.front hop, hinFound hop⟩) h.legal href rfl i
    · refine h.back.step hagree houtFound (fun hop => (hm.repacked hop).2) hok h.legal ?_ i
      intro t ht hb
      exact (h.stage.stage.done_of_back ht hb).yQ8_eq
    · exact (act_faulted hok i s.shared (s.pc i)).trans h.faulted_eq
  have hfinal : ExecInv kn n e sh r.1 q (execute kn n e sh schedule) :=
    Pool.inv_run _ hstep schedule _ henter
  -- a task that has returned, and neither gave up nor missed its weight, has finished
  have hfinished : ∀ t, t < e.taskCount → (execute kn n e sh schedule).pc t = .finished := by
    intro t ht
    have hr := hret t ht
    cases hpc : (execute kn n e sh schedule).pc t with
    | finished => rfl
    | gaveUp w => exact absurd hpc (hm.waits t ht w)
    | unpacked => exact absurd hpc (hfinal.stage.never_unpacked t ht)
    | _ => rw [hpc] at hr; cases hr
  have hdone : Done n e r.1 q (execute kn n e sh schedule) :=
    hfinal.stage.stage.done_of_back (taskCount_pos e) (by rw [hfinished 0 (taskCount_pos e)]; rfl)
  refine ⟨(r.1, fun row => kn.vecDot n.outWeight row q), ?_, hdone.states_eq, hfinal.faulted_eq, ?_⟩
  · unfold reference
    rw [href]
    rfl
  intro row hrow
  obtain ⟨t, ht, hin⟩ := exists_owner kn n e sh.outSlot hok hrow
  exact hfinal.back.shares t ht (hfinished t ht) row hin

end Main

/-! ### Two nodes -/

/-- Exact arithmetic and weights that are all ones. -/
def onesKernels : Kernels Int (List Int) Unit Unit where
  fromFloat := id
  vecDot := fun _ _ q => q.sum
  vecDotPair := fun _ _ q => (q.sum, q.sum)
  repack := id
  gemv := fun _ _ q => q.sum

theorem onesKernels_agree : onesKernels.Agree := ⟨fun _ _ _ => rfl, fun _ _ _ => rfl⟩

/-- One superblock of channels and two output rows, which go row by row. -/
def smallNode : Node Int Unit where
  op := .out
  input := { type := .f32, ne0 := 768, ne1 := 1, data := 4096 }
  inProj := { type := .q4K, ne0 := 256, ne1 := 768, data := 8192 }
  outProj := { type := .q4K, ne0 := 256, ne1 := 2, data := 12288 }
  dst := { type := .f32, ne0 := 2, ne1 := 1, data := 16384 }
  inWeight := ()
  outWeight := ()
  convWeight := fun _ => 1
  channels := 256
  kernel := 2
  isaSupported := false
  kernelAvailable := false
  rowPairSupported := true

/-- The smallest node with an input projection. -/
def projectedNode : Node Int Unit where
  op := .inout
  input := { type := .f32, ne0 := 256, ne1 := 1, data := 4096 }
  inProj := { type := .q4K, ne0 := 256, ne1 := 768, data := 8192 }
  outProj := { type := .q4K, ne0 := 256, ne1 := 8, data := 12288 }
  dst := { type := .f32, ne0 := 8, ne1 := 1, data := 16384 }
  inWeight := ()
  outWeight := ()
  convWeight := fun _ => 1
  channels := 256
  kernel := 2
  isaSupported := true
  kernelAvailable := true
  rowPairSupported := true

/-- A token at position 7 of sequence 0. -/
def tokenAt (nth : Nat) (lookup : Bool) (x : Int) : Exec Int where
  nth := nth
  seqId := 0
  position := 7
  input := fun _ => x
  inLookup := lookup
  outLookup := lookup

/-- New user data, one sequence with a state of zeros, and an output that holds ones. -/
def newUserData (elems : Nat) : Shared Int (List Int) Unit where
  states := { runtime := fun _ => some { size := elems, get := fun _ => 0 }, fallback := none }
  bcx := fun _ => 0
  inputQ8 := []
  y := fun _ => 0
  yQ8 := []
  readyStamp := 0
  yStamp := 0
  outStamp := 0
  inDone := 0
  inSlot := {}
  outSlot := {}
  dst := fun _ => 1
  faulted := false

theorem served_newUserData (n : Node Int Unit) (elems : Nat) :
    Served onesKernels n (newUserData elems) :=
  .fresh ⟨rfl, rfl, rfl, rfl, rfl, rfl⟩

/-- Task 1 looks once before the stamp is there, and finishes first. -/
def twoTasks : List Nat := [0, 1, 1, 0, 0, 1, 1, 1, 0, 0]

theorem fused_decode_completes_two_tasks :
    Meets onesKernels smallNode (tokenAt 2 false 3) (newUserData 256) twoTasks ∧
    Correct onesKernels smallNode (tokenAt 2 false 3) (newUserData 256)
      (execute onesKernels smallNode (tokenAt 2 false 3) (newUserData 256) twoTasks).shared := by
  have hfinished : ∀ t, t < 2 →
      (execute onesKernels smallNode (tokenAt 2 false 3) (newUserData 256) twoTasks).pc t =
        .finished := by
    decide
  have hm : Meets onesKernels smallNode (tokenAt 2 false 3) (newUserData 256) twoTasks := by
    refine ⟨?_, ?_, ?_⟩
    · intro _
      exact ⟨by decide, by decide, by decide⟩
    · intro t ht w
      rw [hfinished t ht]
      nofun
    · nofun
  refine ⟨hm, fused_decode_completes onesKernels_agree (by decide) (served_newUserData _ _) _ _ hm ?_⟩
  intro t ht
  rw [hfinished t ht]
  rfl

/-- Without room for the repacked weight the operator with the input projection returns
at once: the output keeps its ones where the reference has zeros. -/
theorem unpacked_weight_leaves_output :
    projectedNode.entryOk = true ∧ Served onesKernels projectedNode (newUserData 256) ∧
    (∀ t, t < (tokenAt 1 false 0).taskCount →
      ((execute onesKernels projectedNode (tokenAt 1 false 0) (newUserData 256)
        [0, 0, 0, 0, 0, 0]).pc t).returned = true) ∧
    ¬ Correct onesKernels projectedNode (tokenAt 1 false 0) (newUserData 256)
      (execute onesKernels projectedNode (tokenAt 1 false 0) (newUserData 256)
        [0, 0, 0, 0, 0, 0]).shared := by
  refine ⟨by decide, served_newUserData _ _, by decide, ?_⟩
  rintro ⟨r, href, -, -, hdst⟩
  have hone : r.2 0 = 1 := (hdst 0 (by decide)).symm
  -- the projection of zeros is zero, and so is everything after it
  have hbcx : refBcx onesKernels projectedNode (tokenAt 1 false 0) = fun _ => 0 := by
    funext row
    show (if _ then ((List.range 256).map fun _ => (0 : Int)).sum else 0) = 0
    rw [List.map_const', List.sum_replicate, nsmul_zero, ite_self]
  let tok : Ssm.Token Int := ⟨0, fun _ => 0⟩
  have htoken := lfm2ShortConvToken_eq projectedNode.conv (by decide) (fun _ => 0) 0 256
    (show (newUserData 256).states.at tok.seqId = some { size := 256, get := fun _ => 0 } from rfl)
    (by decide)
  have hzero : (List.range 256).map (written (fun _ => 0) 0 256
      ((lfm2Mixer projectedNode.conv).output { size := 256, get := fun _ => 0 } tok))
      = (List.range 256).map fun _ => (0 : Int) := by
    refine List.map_congr_left ?_
    intro c _
    unfold written Mixer.output lfm2Mixer
    dsimp only
    rw [zero_mul, ite_self]
  unfold reference at href
  rw [hbcx] at href
  have hr : r.2 0 = ((List.range 256).map (written (fun _ => 0) 0 256
      ((lfm2Mixer projectedNode.conv).output { size := 256, get := fun _ => 0 } tok))).sum := by
    have hread : lfm2ShortConvToken projectedNode.conv (newUserData 256).states
        ⟨(tokenAt 1 false 0).seqId, fun _ => 0⟩ (fun _ => 0) 0 projectedNode.channels = some _ := htoken
    rw [hread] at href
    rw [← Option.some.inj href]
    rfl
  rw [hr, hzero, List.map_const', List.sum_replicate, nsmul_zero] at hone
  cases hone

end DenseCore.FusedDecode
