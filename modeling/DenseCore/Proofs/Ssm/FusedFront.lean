/-
The fused decode operators up to the convolution.

What the work between two atomics computes comes first: the packed and the row-wise
projection write the rows of their range and nothing wrong anywhere else, and the
convolution is that of the operator that is not fused.  Then the tasks: task 0 prepares
the input projection, the others wait for its stamp, each projects its share of rows
and is counted, and the last one to be counted finds the whole projection.
-/
import DenseCore.Ssm.FusedDecode
import DenseCore.Proofs.Ssm.ConvInvariance

namespace DenseCore.FusedDecode

open Function (update update_of_ne update_self)

open Lib Ssm

variable {K Q W P : Type}

/-! ### The work between two atomics -/

section Work

variable {kn : Kernels K Q W P} {n : Node K W} {e : Exec K}

attribute [local simp] act

theorem rowSingles_apply (q : Q) (count : Nat) : ∀ (row : Nat) (output : Nat → K) (r : Nat),
    rowSingles kn n q row count output r
      = if row ≤ r ∧ r < row + count then kn.vecDot n.outWeight r q else output r := by
  induction count with
  | zero =>
    intro row output r
    rw [if_neg (by omega)]
    rfl
  | succ count ih =>
    intro row output r
    show rowSingles kn n q (row + 1) count (update output row _) r = _
    rw [ih]
    by_cases hr : r = row
    · rw [if_neg (by omega), if_pos (by omega), hr, update_self]
    rw [update_of_ne hr]
    by_cases hin : row ≤ r ∧ r < row + (count + 1)
    · rw [if_pos hin, if_pos (by omega)]
    · rw [if_neg hin, if_neg (by omega)]

theorem rowPairs_apply (hagree : kn.Agree) (q : Q) (count : Nat) :
    ∀ (row : Nat) (output : Nat → K) (r : Nat),
    rowPairs kn n q row count output r
      = if row ≤ r ∧ r < row + 2 * count then kn.vecDot n.outWeight r q else output r := by
  induction count with
  | zero =>
    intro row output r
    rw [if_neg (by omega)]
    rfl
  | succ count ih =>
    intro row output r
    show rowPairs kn n q (row + 2) count (update (update output row
      (kn.vecDotPair n.outWeight row q).1) (row + 1) (kn.vecDotPair n.outWeight row q).2) r = _
    rw [ih, hagree.pair_eq]
    by_cases hr : r = row + 1
    · rw [if_neg (by omega), if_pos (by omega), hr, update_self]
    rw [update_of_ne hr]
    by_cases hr' : r = row
    · rw [if_neg (by omega), if_pos (by omega), hr', update_self]
    rw [update_of_ne hr']
    by_cases hin : row ≤ r ∧ r < row + 2 * (count + 1)
    · rw [if_pos hin, if_pos (by omega)]
    · rw [if_neg hin, if_neg (by omega)]

theorem runRows_inside (hagree : kn.Agree) (q : Q) {first last r : Nat} (output : Nat → K)
    (hr : first ≤ r ∧ r < last) :
    runRows kn n q first last output r = kn.vecDot n.outWeight r q := by
  unfold runRows
  split_ifs with hpair hodd
  · dsimp only
    rw [rowSingles_apply, rowPairs_apply hagree]
    by_cases hsingle : first + 1 + 2 * ((last - (first + 1)) / 2) ≤ r ∧
        r < first + 1 + 2 * ((last - (first + 1)) / 2)
          + (last - (first + 1 + 2 * ((last - (first + 1)) / 2)))
    · rw [if_pos hsingle]
    rw [if_neg hsingle]
    by_cases hin : first + 1 ≤ r ∧ r < first + 1 + 2 * ((last - (first + 1)) / 2)
    · rw [if_pos hin]
    have hfirst : r = first := by omega
    rw [if_neg hin, hfirst, update_self]
  · dsimp only
    rw [rowSingles_apply, rowPairs_apply hagree]
    by_cases hsingle : first + 2 * ((last - first) / 2) ≤ r ∧
        r < first + 2 * ((last - first) / 2) + (last - (first + 2 * ((last - first) / 2)))
    · rw [if_pos hsingle]
    · rw [if_neg hsingle, if_pos (by omega)]
  · rw [rowSingles_apply, if_pos (by omega)]

/-- Wherever it writes, it writes the product. -/
theorem runRows_cases (hagree : kn.Agree) (q : Q) (first last r : Nat) (output : Nat → K) :
    runRows kn n q first last output r = kn.vecDot n.outWeight r q ∨
    runRows kn n q first last output r = output r := by
  unfold runRows
  split_ifs with hpair hodd
  · dsimp only
    rw [rowSingles_apply, rowPairs_apply hagree]
    split_ifs
    · exact Or.inl rfl
    · exact Or.inl rfl
    by_cases hr : r = first
    · rw [hr, update_self]
      exact Or.inl rfl
    rw [update_of_ne hr]
    exact Or.inr rfl
  · dsimp only
    rw [rowSingles_apply, rowPairs_apply hagree]
    split_ifs
    · exact Or.inl rfl
    · exact Or.inl rfl
    · exact Or.inr rfl
  rw [rowSingles_apply]
  split_ifs
  · exact Or.inl rfl
  · exact Or.inr rfl

theorem runGemv_repack (hagree : kn.Agree) (w : W) (q : Q) (first last : Nat) (output : Nat → K) :
    runGemv kn (kn.repack w) q first last output
      = fun row => if first * 8 ≤ row ∧ row < last * 8 then kn.vecDot w row q else output row := by
  funext row
  unfold runGemv
  rw [hagree.gemv_eq]

/-- The fused convolution is the one of `cb_lfm2_shortconv`, and changes nothing else. -/
theorem convolve_eq [CommSemiring K] (kn : Kernels K Q W P) (e : Exec K) (hk : 1 < n.kernel)
    (bcx : Nat → K) (sh : Shared K Q P) :
    ∃ (r : ConvStates K × (Nat → K)) (y : Nat → K),
      lfm2ShortConvToken n.conv sh.states ⟨e.seqId, bcx⟩ (fun _ => 0) 0 n.channels = some r ∧
      convolve kn n e bcx sh
        = { sh with states := r.1, y := y,
                    yQ8 := kn.fromFloat ((List.range n.channels).map r.2) } := by
  have hrows : ∀ (f g : Nat → K), (∀ c, c < n.channels → f c = g c) →
      (List.range n.channels).map f = (List.range n.channels).map g := by
    intro f g h
    refine List.map_congr_left ?_
    intro c hc
    exact h c (List.mem_range.mp hc)
  cases hres : n.conv.resolveState sh.states e.seqId with
  | none =>
    refine ⟨(sh.states, mapChannels (fun _ => 0) (fun _ => 0) 0 n.channels),
      mapChannels (fun _ => 0) sh.y 0 n.channels, ?_, ?_⟩
    · unfold lfm2ShortConvToken
      simp only [hres]
      rfl
    unfold convolve
    simp only [hres]
    congr 2
    refine hrows _ _ ?_
    intro c hc
    unfold mapChannels
    rw [if_pos ⟨Nat.zero_le c, hc⟩, if_pos ⟨Nat.zero_le c, hc⟩]
  | some tgt =>
    -- the state resolves to a vector that is long enough
    obtain ⟨b, hb, hfit, rfl⟩ : ∃ b, sh.states.at e.seqId = some b ∧
        n.channels * (n.kernel - 1) ≤ b.size ∧ tgt = .runtime e.seqId.toNat := by
      unfold Lfm2ShortConvUserData.resolveState at hres
      split at hres
      · rename_i b hb
        split_ifs at hres with hfit
        exact ⟨b, hb, hfit, (Option.some.inj hres).symm⟩
      · cases hres
    let tok : Ssm.Token K := ⟨e.seqId, bcx⟩
    have htoken := lfm2ShortConvToken_eq n.conv hk (fun _ => 0) 0 n.channels
      (show sh.states.at tok.seqId = some b from hb) hfit
    have hstep : lfm2ShortConvStep n.channels n.kernel bcx (fun i => bcx (n.channels + i))
        (fun i => bcx (2 * n.channels + i)) n.convWeight b sh.y
        = some (advanced b (n.kernel - 1) 0 n.channels ((lfm2Mixer n.conv).sample tok),
          written sh.y 0 n.channels ((lfm2Mixer n.conv).output b tok)) := by
      obtain ⟨hist, hhist, hpos⟩ : ∃ hist, n.kernel = hist + 1 ∧ 0 < hist :=
        ⟨n.kernel - 1, by omega, by omega⟩
      rw [hhist, Nat.add_sub_cancel] at hfit
      have hkernel : n.conv.kernel - 1 = hist := by
        show n.kernel - 1 = hist
        omega
      unfold Mixer.output lfm2Mixer
      rw [hkernel, hhist, lfm2ShortConvStep_eq b hpos hfit]
      rfl
    refine ⟨_, written sh.y 0 n.channels ((lfm2Mixer n.conv).output b tok), htoken, ?_⟩
    unfold convolve
    simp only [hres, buffer_of_at hb, Option.bind_eq_bind, Option.bind_some, hstep]
    congr 2
    refine hrows _ _ ?_
    intro c hc
    unfold written
    rw [if_pos ⟨Nat.zero_le c, hc⟩]
    exact (if_pos ⟨Nat.zero_le c, hc⟩).symm

end Work

/-! ### What the checks give -/

section Checks

variable {n : Node K W} (hok : n.entryOk = true)

include hok in
theorem kernel_of_entryOk : 1 < n.kernel := by
  unfold Node.entryOk at hok
  split at hok
  all_goals
    simp only [Bool.and_eq_true, decide_eq_true_eq] at hok
    tauto

include hok in
theorem inRows_of_entryOk (hop : n.op = .inout) : n.inRows % 8 = 0 := by
  unfold Node.entryOk at hok
  rw [hop] at hok
  simp only [Bool.and_eq_true, beq_iff_eq] at hok
  tauto

include hok in
theorem outDim_of_usesPacked (hused : n.usesPacked = true) : n.outDim % 8 = 0 := by
  cases hop : n.op with
  | out =>
    unfold Node.usesPacked at hused
    rw [hop] at hused
    simp only [Bool.and_eq_true, beq_iff_eq] at hused
    exact hused.1.1.1
  | inout =>
    unfold Node.entryOk at hok
    rw [hop] at hok
    simp only [Bool.and_eq_true, beq_iff_eq] at hok
    tauto

end Checks

theorem taskCount_pos (e : Exec K) :
    0 < e.taskCount := Nat.lt_of_lt_of_le Nat.one_pos (Nat.le_max_left 1 e.nth)

theorem exists_tile_owner (e : Exec K) {rows row : Nat} (hrows : rows % 8 = 0) (hrow : row < rows) :
    ∃ t, t < e.taskCount ∧ tileStart e rows t * 8 ≤ row ∧ row < tileStart e rows (t + 1) * 8 := by
  obtain ⟨t, ht, hlo, hhi⟩ := split_owner_exists (n := e.taskCount) (c := row / 8)
    (taskCount_pos e) (show row / 8 < rows / 8 by omega)
  have hlo' : tileStart e rows t ≤ row / 8 := hlo
  have hhi' : row / 8 < tileStart e rows (t + 1) := hhi
  exact ⟨t, ht, by omega, by omega⟩

theorem tileStart_le (e : Exec K) (rows : Nat) {t : Nat} (ht : t < e.taskCount) :
    tileStart e rows (t + 1) * 8 ≤ rows := by
  have hle : tileStart e rows (t + 1) ≤ rows / 8 := splitStart_le (rows / 8) (show t + 1 ≤ _ from ht)
  omega

/-! ### Who can be where -/

/-- The control points task `t` can be at. -/
def Legal (n : Node K W) (e : Exec K) (t : Nat) : Pc → Prop
  | .entry | .finished => True
  | .prepare | .lookupIn | .resetDone | .publishReady => t = 0 ∧ n.op = .inout
  | .inGemv | .countIn | .unpacked => t < e.taskCount ∧ n.op = .inout
  | .convolve | .publishY => t < e.taskCount ∧ (n.op = .out → t = 0)
  | .chooseOut => t < e.taskCount
  | .lookupOut | .publishOut => t = 0 ∧ n.usesPacked = true
  | .outGemv => t < e.taskCount ∧ n.usesPacked = true
  | .rowWise => t < e.taskCount ∧ n.op = .out
  | .await .ready _ | .gaveUp .ready => t < e.taskCount ∧ t ≠ 0 ∧ n.op = .inout
  | .await .y _ | .gaveUp .y => t < e.taskCount ∧ (n.op = .out → t ≠ 0)
  | .await .out _ | .gaveUp .out => t < e.taskCount ∧ t ≠ 0 ∧ n.usesPacked = true

theorem usesPacked_inout {n : Node K W} (hop : n.op = .inout) : n.usesPacked = true := by
  unfold Node.usesPacked
  rw [hop]

section Legality

variable [CommSemiring K] {kn : Kernels K Q W P} {n : Node K W} {e : Exec K} {t : Nat}
  {sh : Shared K Q P} {pc : Pc}

omit [CommSemiring K] in
theorem legal_await {w : Wait} {spinCount : Nat} (h : Legal n e t (.await w spinCount)) :
    Legal n e t w.next ∧ Legal n e t (.gaveUp w) ∧ Legal n e t (.await w (spinCount + 1)) := by
  cases w with
  | ready | out => exact ⟨⟨h.1, h.2.2⟩, h, h⟩
  | y => exact ⟨h.1, h, h⟩

/-- Where a task of the node begins. -/
def Node.start (n : Node K W) (t : Nat) : Pc :=
  match n.op with
  | .out => if t = 0 then .convolve else .await .y 0
  | .inout => if t = 0 then .prepare else .await .ready 0

theorem act_entry (hok : n.entryOk = true) (ht : t < e.taskCount) :
    act kn n e t sh .entry = (sh, n.start t) := by
  simp only [act]
  rw [if_neg (by rw [hok]; simp; exact ht)]
  unfold Node.start
  cases n.op with
  | out => rfl
  | inout => rfl

theorem act_entry_skip (hskip : n.entryOk = false ∨ e.taskCount ≤ t) :
    act kn n e t sh .entry = (sh, .finished) := by
  simp only [act]
  rw [if_pos hskip]

omit [CommSemiring K] in
theorem legal_start (ht : t < e.taskCount) : Legal n e t (n.start t) := by
  unfold Node.start
  cases hop : n.op with
  | out =>
    dsimp only
    split_ifs with ht0
    · exact ⟨ht, fun _ => ht0⟩
    · exact ⟨ht, fun _ => ht0⟩
  | inout =>
    dsimp only
    split_ifs with ht0
    · exact ⟨ht0, hop⟩
    · exact ⟨ht, ht0, hop⟩

theorem legal_act (h : Legal n e t pc) : Legal n e t (act kn n e t sh pc).2 := by
  have h0 := taskCount_pos e
  cases pc with
  | entry =>
    by_cases hskip : n.entryOk = false ∨ e.taskCount ≤ t
    · rw [act_entry_skip hskip]
      trivial
    rw [not_or, Bool.not_eq_false] at hskip
    have ht : t < e.taskCount := by omega
    rw [act_entry hskip.1 ht]
    exact legal_start ht
  | prepare => exact h
  | lookupIn => exact h
  | resetDone => exact h
  | publishReady | publishOut => exact ⟨by rw [h.1]; exact h0, h.2⟩
  | inGemv =>
    simp only [act]
    split
    · exact h
    · exact h
  | countIn =>
    simp only [act]
    have hnot : n.op ≠ .out := by rw [h.2]; nofun
    split_ifs
    · exact ⟨h.1, fun hop => absurd hop hnot⟩
    · exact ⟨h.1, fun hop => absurd hop hnot⟩
  | convolve => exact h
  | publishY => exact h.1
  | chooseOut =>
    simp only [act]
    split_ifs with hused ht0
    · exact ⟨ht0, hused⟩
    · exact ⟨h, ht0, hused⟩
    refine ⟨h, ?_⟩
    cases hop : n.op with
    | out => rfl
    | inout => exact absurd (usesPacked_inout hop) hused
  | lookupOut => exact h
  | outGemv =>
    simp only [act]
    split
    · trivial
    cases hop : n.op with
    | out => exact ⟨h.1, hop⟩
    | inout => trivial
  | rowWise => trivial
  | await w spinCount =>
    obtain ⟨hnext, hgave, hmore⟩ := legal_await h
    simp only [act]
    split_ifs
    · exact hnext
    · exact hgave
    · exact hmore
  | finished => trivial
  | gaveUp w => exact h
  | unpacked => exact h

end Legality

/-! ### The input projection

The first task prepares the row and publishes it, and the others wait for that. The count of those
that have arrived ends the projection.
-/

/-- How far a task is with the input projection. -/
def Pc.rank : Pc → Nat
  | .entry => 0
  | .prepare | .await .ready _ | .gaveUp .ready => 1
  | .lookupIn => 2
  | .resetDone => 3
  | .publishReady => 4
  | .inGemv | .unpacked => 5
  | .countIn => 6
  | _ => 7

/-- Counted as done with the input projection. -/
def Pc.counted (pc : Pc) : Bool := decide (7 ≤ pc.rank)

/-- The quantised input. -/
def inputQ (kn : Kernels K Q W P) (n : Node K W) (e : Exec K) : Q :=
  kn.fromFloat ((List.range n.input.ne0).map e.input)

/-- What looking the input projection up finds. -/
def inFound (kn : Kernels K Q W P) (n : Node K W) (e : Exec K) (slot : PackedSlot P) : PackedSlot P :=
  slot.refresh (if e.inLookup then some (kn.repack n.inWeight) else none) n.inProj.data n.inRows
    n.input.ne0

/-- The input projection of one execution that found `slot` in the user data. -/
structure FrontInv [CommSemiring K] (kn : Kernels K Q W P) (n : Node K W) (e : Exec K)
    (slot : PackedSlot P) (s : Pool (Shared K Q P) Pc) : Prop where
  legal : ∀ t, Legal n e t (s.pc t)
  unready : (s.pc 0).rank < 5 → (1 < e.taskCount → s.shared.readyStamp ≠ stamp n e) ∧
    ∀ t, t < e.taskCount → t ≠ 0 → (s.pc t).rank < 5
  prepared : 2 ≤ (s.pc 0).rank → s.shared.inputQ8 = inputQ kn n e ∧
    ∀ row, n.inRows ≤ row → s.shared.bcx row = 0
  slot_eq : s.shared.inSlot = if (s.pc 0).rank < 3 then slot else inFound kn n e slot
  inDone_eq : 4 ≤ (s.pc 0).rank → s.shared.inDone = arrived e.taskCount Pc.counted s.pc
  projected : ∀ t, t < e.taskCount → 6 ≤ (s.pc t).rank → ∀ row,
    tileStart e n.inRows t * 8 ≤ row → row < tileStart e n.inRows (t + 1) * 8 →
    s.shared.bcx row = kn.vecDot n.inWeight row (inputQ kn n e)

section Front

variable [CommSemiring K] {kn : Kernels K Q W P} {n : Node K W} {e : Exec K} {slot : PackedSlot P}
  {s : Pool (Shared K Q P) Pc} {i : Nat}

theorem frontInv_enter {sh : Shared K Q P} (hready : 1 < e.taskCount → sh.readyStamp ≠ stamp n e) :
    FrontInv kn n e sh.inSlot ⟨sh, fun _ => .entry⟩ where
  legal _ := trivial
  unready _ := ⟨hready, fun _ _ _ => Nat.succ_pos 4⟩
  prepared h := absurd h (show ¬ 2 ≤ Pc.entry.rank by decide)
  slot_eq := rfl
  inDone_eq h := absurd h (show ¬ 4 ≤ Pc.entry.rank by decide)
  projected _ _ h := absurd h (show ¬ 6 ≤ Pc.entry.rank by decide)

variable {sh' : Shared K Q P} {pc' : Pc}

/-- A step that leaves the input, the slot and the counters alone. -/
theorem FrontInv.quiet (h : FrontInv kn n e slot s)
    (hlegal : Legal n e i pc') (hbcx : sh'.bcx = s.shared.bcx)
    (hin : sh'.inputQ8 = s.shared.inputQ8) (hslot : sh'.inSlot = s.shared.inSlot)
    (hdone : sh'.inDone = s.shared.inDone) (hready : sh'.readyStamp = s.shared.readyStamp)
    (hzero : i = 0 → pc'.rank = (s.pc i).rank ∨ (s.pc i).rank < 2 ∧ pc'.rank < 2)
    (hlate : i < e.taskCount → i ≠ 0 → 5 ≤ pc'.rank → 5 ≤ (s.pc i).rank ∨ 5 ≤ (s.pc 0).rank)
    (hmore : i < e.taskCount → 6 ≤ pc'.rank → 6 ≤ (s.pc i).rank)
    (hcount : i < e.taskCount → pc'.counted = (s.pc i).counted) :
    FrontInv kn n e slot ⟨sh', update s.pc i pc'⟩ := by
  -- what task 0 has reached is what it had reached
  have hrank : ∀ k, 2 ≤ k → (k ≤ (update s.pc i pc' 0).rank ↔ k ≤ (s.pc 0).rank) := by
    intro k hk
    by_cases h0 : (0 : Nat) = i
    · subst h0
      rw [update_self]
      rcases hzero rfl with hsame | hlow
      · rw [hsame]
      · omega
    · rw [update_of_ne h0]
  refine ⟨?_, ?_, ?_, ?_, ?_, ?_⟩
  · exact (Function.forall_update_iff s.pc (fun t p => Legal n e t p)).mpr
      ⟨hlegal, fun t _ => h.legal t⟩
  · intro hlt
    have hlt' : (s.pc 0).rank < 5 := by
      have hiff := hrank 5 (by omega)
      have hlt'' : (update s.pc i pc' 0).rank < 5 := hlt
      omega
    obtain ⟨hst, hall⟩ := h.unready hlt'
    refine ⟨fun hone => by rw [show _ = _ from hready]; exact hst hone, ?_⟩
    refine (Function.forall_update_iff s.pc
      (fun t p => t < e.taskCount → t ≠ 0 → p.rank < 5)).mpr ⟨?_, fun t _ => hall t⟩
    intro hi hi0
    by_contra hge
    rcases hlate hi hi0 (by omega) with hold | hold
    · have hnot := hall i hi hi0
      omega
    · omega
  · intro hge
    obtain ⟨h1, h2⟩ := h.prepared ((hrank 2 (by omega)).mp hge)
    refine ⟨by rw [show _ = _ from hin]; exact h1, ?_⟩
    intro row hrow
    show sh'.bcx row = 0
    rw [hbcx]
    exact h2 row hrow
  · show sh'.inSlot = if (update s.pc i pc' 0).rank < 3 then slot else inFound kn n e slot
    rw [hslot, h.slot_eq]
    have hiff := hrank 3 (by omega)
    by_cases hlow : (s.pc 0).rank < 3
    · rw [if_pos hlow, if_pos (by omega)]
    · rw [if_neg hlow, if_neg (by omega)]
  · intro hge
    show sh'.inDone = arrived e.taskCount Pc.counted (update s.pc i pc')
    have hsame : arrived e.taskCount Pc.counted (update s.pc i pc')
        = arrived e.taskCount Pc.counted s.pc := by
      rcases Nat.lt_or_ge i e.taskCount with hi | hi
      · exact arrived_update_same (hcount hi)
      · exact arrived_update_beyond hi
    rw [hdone, hsame]
    exact h.inDone_eq ((hrank 4 (by omega)).mp hge)
  · refine (Function.forall_update_iff s.pc (fun t p => t < e.taskCount → 6 ≤ p.rank → ∀ row,
      tileStart e n.inRows t * 8 ≤ row → row < tileStart e n.inRows (t + 1) * 8 →
      sh'.bcx row = kn.vecDot n.inWeight row (inputQ kn n e))).mpr ⟨?_, ?_⟩
    · intro hi hge row hlo hhi
      rw [hbcx]
      exact h.projected i hi (hmore hi hge) row hlo hhi
    intro t _ ht hge row hlo hhi
    rw [hbcx]
    exact h.projected t ht hge row hlo hhi

/-- A step of the first task while it still prepares. -/
theorem FrontInv.preparing (h : FrontInv kn n e slot s)
    (hlow : (s.pc 0).rank < 5) (hlow' : pc'.rank < 5) (hlegal : Legal n e 0 pc')
    (hready : sh'.readyStamp = s.shared.readyStamp)
    (hprepared : 2 ≤ pc'.rank → sh'.inputQ8 = inputQ kn n e ∧ ∀ row, n.inRows ≤ row → sh'.bcx row = 0)
    (hslot : sh'.inSlot = if pc'.rank < 3 then slot else inFound kn n e slot)
    (hdone : 4 ≤ pc'.rank → sh'.inDone = 0) :
    FrontInv kn n e slot ⟨sh', update s.pc 0 pc'⟩ := by
  obtain ⟨hst, hall⟩ := h.unready hlow
  have hself : update s.pc 0 pc' 0 = pc' := update_self _ _ _
  have hranks : ∀ t, t < e.taskCount → (update s.pc 0 pc' t).rank < 5 :=
    (Function.forall_update_iff s.pc (fun t p => t < e.taskCount → p.rank < 5)).mpr
      ⟨fun _ => hlow', fun t ht0 ht => hall t ht ht0⟩
  refine ⟨?_, ?_, ?_, ?_, ?_, ?_⟩
  · exact (Function.forall_update_iff s.pc (fun t p => Legal n e t p)).mpr
      ⟨hlegal, fun t _ => h.legal t⟩
  · intro _
    refine ⟨?_, fun t ht _ => hranks t ht⟩
    intro hone
    show sh'.readyStamp ≠ stamp n e
    rw [hready]
    exact hst hone
  · intro hge
    exact hprepared (by rw [← hself]; exact hge)
  · show sh'.inSlot = if (update s.pc 0 pc' 0).rank < 3 then slot else inFound kn n e slot
    rw [hself]
    exact hslot
  · intro hge
    show sh'.inDone = arrived e.taskCount Pc.counted (update s.pc 0 pc')
    rw [hdone (by rw [← hself]; exact hge)]
    symm
    refine arrived_none ?_
    intro t ht
    have hrank := hranks t ht
    exact decide_eq_false (by omega)
  intro t ht hge
  have hrank := hranks t ht
  have hge' : 6 ≤ (update s.pc 0 pc' t).rank := hge
  omega

theorem FrontInv.publishReady (h : FrontInv kn n e slot s) (hpc : s.pc 0 = .publishReady) :
    FrontInv kn n e slot (s.step (act kn n e) 0) := by
  have hl := h.legal 0
  have hprep := h.prepared
  have hslot := h.slot_eq
  have hdone := h.inDone_eq
  rw [hpc] at hl hprep hslot hdone
  unfold Pool.step
  rw [hpc]
  have hself : update s.pc 0 Pc.inGemv 0 = .inGemv := update_self _ _ _
  have h0 := taskCount_pos e
  refine ⟨?_, ?_, ?_, ?_, ?_, ?_⟩
  · refine (Function.forall_update_iff s.pc (fun t p => Legal n e t p)).mpr
      ⟨⟨h0, hl.2⟩, fun t _ => h.legal t⟩
  · intro hlt
    have hlt' : (update s.pc 0 Pc.inGemv 0).rank < 5 := hlt
    rw [hself] at hlt'
    exact absurd hlt' (by decide)
  · intro _
    exact hprep (by decide)
  · show s.shared.inSlot
      = if (update s.pc 0 .inGemv 0).rank < 3 then slot else inFound kn n e slot
    rw [hself]
    exact hslot
  · intro _
    show s.shared.inDone = arrived e.taskCount Pc.counted (update s.pc 0 .inGemv)
    rw [arrived_update_same (by rw [hpc]; rfl)]
    exact hdone (by decide)
  refine (Function.forall_update_iff s.pc (fun t p => t < e.taskCount → 6 ≤ p.rank → ∀ row,
    tileStart e n.inRows t * 8 ≤ row → row < tileStart e n.inRows (t + 1) * 8 →
    s.shared.bcx row = kn.vecDot n.inWeight row (inputQ kn n e))).mpr ⟨?_, ?_⟩
  · intro _ hge
    exact absurd hge (show ¬ 6 ≤ Pc.inGemv.rank by decide)
  intro t _ ht hge
  exact h.projected t ht hge

theorem FrontInv.begun (h : FrontInv kn n e slot s) (hi : i < e.taskCount)
    (hrank : 5 ≤ (s.pc i).rank) :
    5 ≤ (s.pc 0).rank := by
  by_contra hlt
  obtain ⟨-, hall⟩ := h.unready (by omega)
  by_cases h0 : i = 0
  · rw [h0] at hrank
    exact hlt hrank
  have hnot := hall i hi h0
  omega

/-- A task projects its rows. -/
theorem FrontInv.inGemv (hagree : kn.Agree)
    (hfound : (inFound kn n e slot).packed = some (kn.repack n.inWeight))
    (h : FrontInv kn n e slot s) (hpc : s.pc i = .inGemv) :
    FrontInv kn n e slot (s.step (act kn n e) i) := by
  have hl := h.legal i
  rw [hpc] at hl
  obtain ⟨hi, hop⟩ := hl
  have hrank0 := h.begun hi (by rw [hpc]; decide)
  have hslot : s.shared.inSlot.packed = some (kn.repack n.inWeight) := by
    rw [h.slot_eq, if_neg (by omega), hfound]
  obtain ⟨hin, hzero⟩ := h.prepared (by omega)
  have hact : act kn n e i s.shared .inGemv
      = ({ s.shared with
            bcx := runGemv kn (kn.repack n.inWeight) s.shared.inputQ8 (tileStart e n.inRows i)
              (tileStart e n.inRows (i + 1)) s.shared.bcx }, .countIn) := by
    simp only [act]
    rw [hslot]
  unfold Pool.step
  rw [hpc, hact, runGemv_repack hagree, hin]
  have hself : (update s.pc i Pc.countIn 0).rank = (s.pc 0).rank ∨
      5 ≤ (update s.pc i Pc.countIn 0).rank ∧ 5 ≤ (s.pc 0).rank := by
    by_cases h0 : (0 : Nat) = i
    · subst h0
      rw [update_self]
      exact Or.inr ⟨by decide, hrank0⟩
    rw [update_of_ne h0]
    exact Or.inl rfl
  have hge5 : 5 ≤ (update s.pc i Pc.countIn 0).rank := by omega
  refine ⟨?_, ?_, ?_, ?_, ?_, ?_⟩
  · refine (Function.forall_update_iff s.pc (fun t p => Legal n e t p)).mpr
      ⟨⟨hi, hop⟩, fun t _ => h.legal t⟩
  · intro hlt
    have hlt' : (update s.pc i Pc.countIn 0).rank < 5 := hlt
    omega
  · intro _
    refine ⟨hin, ?_⟩
    intro row hrow
    have hle := tileStart_le e n.inRows hi
    show (if _ then _ else _) = _
    rw [if_neg (by omega)]
    exact hzero row hrow
  · show s.shared.inSlot = if (update s.pc i .countIn 0).rank < 3 then slot else inFound kn n e slot
    rw [if_neg (by omega), h.slot_eq, if_neg (by omega)]
  · intro _
    show s.shared.inDone = arrived e.taskCount Pc.counted (update s.pc i .countIn)
    rw [arrived_update_same (by rw [hpc]; rfl)]
    exact h.inDone_eq (by omega)
  refine (Function.forall_update_iff s.pc (fun t p => t < e.taskCount → 6 ≤ p.rank → ∀ row,
    tileStart e n.inRows t * 8 ≤ row → row < tileStart e n.inRows (t + 1) * 8 →
    (if tileStart e n.inRows i * 8 ≤ row ∧ row < tileStart e n.inRows (i + 1) * 8
      then kn.vecDot n.inWeight row (inputQ kn n e) else s.shared.bcx row)
      = kn.vecDot n.inWeight row (inputQ kn n e))).mpr ⟨?_, ?_⟩
  · intro _ _ row hlo hhi
    rw [if_pos ⟨hlo, hhi⟩]
  intro t _ ht hge row hlo hhi
  split_ifs
  · rfl
  · exact h.projected t ht hge row hlo hhi

theorem FrontInv.countIn (h : FrontInv kn n e slot s) (hpc : s.pc i = .countIn)
    (hrank' : pc'.rank = 7) (hlegal : Legal n e i pc') :
    FrontInv kn n e slot ⟨{ s.shared with inDone := s.shared.inDone + 1 }, update s.pc i pc'⟩ ∧
    s.shared.inDone + 1 = arrived e.taskCount Pc.counted (update s.pc i pc') := by
  have hl := h.legal i
  rw [hpc] at hl
  obtain ⟨hi, hop⟩ := hl
  have hrank0 := h.begun hi (by rw [hpc]; decide)
  have hge5 : 5 ≤ (update s.pc i pc' 0).rank := by
    by_cases h0 : (0 : Nat) = i
    · subst h0
      rw [update_self]
      omega
    rw [update_of_ne h0]
    exact hrank0
  have hcount : s.shared.inDone + 1 = arrived e.taskCount Pc.counted (update s.pc i pc') := by
    have hold : (s.pc i).counted = false := by rw [hpc]; rfl
    have hnew : pc'.counted = true := decide_eq_true (by omega)
    rw [arrived_update_new hi hold hnew, h.inDone_eq (by omega)]
  refine ⟨⟨?_, ?_, ?_, ?_, ?_, ?_⟩, hcount⟩
  · refine (Function.forall_update_iff s.pc (fun t p => Legal n e t p)).mpr
      ⟨hlegal, fun t _ => h.legal t⟩
  · intro hlt
    have hlt' : (update s.pc i pc' 0).rank < 5 := hlt
    omega
  · intro _
    exact h.prepared (by omega)
  · show s.shared.inSlot = if (update s.pc i pc' 0).rank < 3 then slot else inFound kn n e slot
    rw [if_neg (by omega), h.slot_eq, if_neg (by omega)]
  · intro _
    exact hcount
  refine (Function.forall_update_iff s.pc (fun t p => t < e.taskCount → 6 ≤ p.rank → ∀ row,
    tileStart e n.inRows t * 8 ≤ row → row < tileStart e n.inRows (t + 1) * 8 →
    s.shared.bcx row = kn.vecDot n.inWeight row (inputQ kn n e))).mpr ⟨?_, ?_⟩
  · intro _ _
    exact h.projected i hi (by rw [hpc]; decide)
  intro t _ ht hge
  exact h.projected t ht hge

theorem act_late (kn : Kernels K Q W P) (e : Exec K) (t : Nat) (sh : Shared K Q P) {pc : Pc}
    (hk : 1 < n.kernel) (hrank : pc.rank = 7) :
    (act kn n e t sh pc).2.rank = 7 ∧ (act kn n e t sh pc).1.bcx = sh.bcx ∧
    (act kn n e t sh pc).1.inputQ8 = sh.inputQ8 ∧ (act kn n e t sh pc).1.inSlot = sh.inSlot ∧
    (act kn n e t sh pc).1.inDone = sh.inDone ∧ (act kn n e t sh pc).1.readyStamp = sh.readyStamp := by
  cases pc with
  | convolve =>
    obtain ⟨r, y, -, heq⟩ := convolve_eq kn e hk (convInput n e sh) sh
    refine ⟨rfl, ?_⟩
    simp only [act]
    rw [heq]
    exact ⟨rfl, rfl, rfl, rfl, rfl⟩
  | publishY | lookupOut | publishOut | rowWise | finished => exact ⟨rfl, rfl, rfl, rfl, rfl, rfl⟩
  | chooseOut =>
    refine ⟨?_, rfl, rfl, rfl, rfl, rfl⟩
    simp only [act]
    split_ifs <;> rfl
  | outGemv =>
    simp only [act]
    split
    · exact ⟨rfl, rfl, rfl, rfl, rfl, rfl⟩
    refine ⟨?_, rfl, rfl, rfl, rfl, rfl⟩
    cases n.op <;> rfl
  | await w spinCount =>
    refine ⟨?_, rfl, rfl, rfl, rfl, rfl⟩
    simp only [act]
    cases w with
    | ready => exact absurd hrank (show ¬ (Pc.await .ready spinCount).rank = 7 from by nofun)
    | y => split_ifs <;> rfl
    | out => split_ifs <;> rfl
  | gaveUp w => exact ⟨hrank, rfl, rfl, rfl, rfl, rfl⟩
  | _ => exact absurd hrank (by decide)

section Step

variable (hok : n.entryOk = true) (hop : n.op = .inout)

include hok in
theorem FrontInv.late (h : FrontInv kn n e slot s) (hrank : (s.pc i).rank = 7) :
    FrontInv kn n e slot (s.step (act kn n e) i) := by
  obtain ⟨hrank', hbcx, hin, hslot, hdone, hready⟩ :=
    act_late kn e i s.shared (kernel_of_entryOk hok) hrank
  refine h.quiet (legal_act (h.legal i)) hbcx hin hslot hdone hready ?_ ?_ ?_ ?_
  · intro _
    exact Or.inl (hrank'.trans hrank.symm)
  · intro _ _ _
    exact Or.inl (by omega)
  · intro _ _
    omega
  intro _
  unfold Pc.counted
  rw [hrank', hrank]

include hok hop in
/-- No step of a task breaks the invariant of the input projection. -/
theorem FrontInv.step (hagree : kn.Agree)
    (hfound : (inFound kn n e slot).packed = some (kn.repack n.inWeight))
    (h : FrontInv kn n e slot s) (i : Nat) : FrontInv kn n e slot (s.step (act kn n e) i) := by
  have hl := h.legal i
  have hnext : Legal n e i (act kn n e i s.shared (s.pc i)).2 := legal_act hl
  cases hpc : s.pc i with
  | entry =>
    have h0 := taskCount_pos e
    unfold Pool.step
    rw [hpc] at hnext ⊢
    rcases Nat.lt_or_ge i e.taskCount with hi | hi
    · rw [act_entry hok hi] at hnext ⊢
      have hstart : (n.start i).rank = 1 := by
        unfold Node.start
        rw [hop]
        dsimp only
        split_ifs <;> rfl
      refine h.quiet hnext rfl rfl rfl rfl rfl ?_ ?_ ?_ ?_
      · intro _
        rw [hpc, hstart]
        exact Or.inr ⟨by decide, by decide⟩
      · intro _ _ hge
        rw [hstart] at hge
        omega
      · intro _ hge
        rw [hstart] at hge
        omega
      intro _
      unfold Pc.counted
      rw [hpc, hstart]
      rfl
    · rw [act_entry_skip (Or.inr hi)]
      refine h.quiet trivial rfl rfl rfl rfl rfl ?_ ?_ ?_ ?_
      all_goals omega
  | prepare =>
    rw [hpc] at hl hnext
    obtain ⟨rfl, -⟩ := hl
    unfold Pool.step
    rw [hpc]
    have hslot := h.slot_eq
    rw [hpc] at hslot
    exact h.preparing (by rw [hpc]; decide) (show Pc.lookupIn.rank < 5 by decide) hnext rfl
      (fun _ => ⟨rfl, fun _ _ => rfl⟩) hslot
      (fun hge => absurd hge (show ¬ 4 ≤ Pc.lookupIn.rank by decide))
  | lookupIn =>
    rw [hpc] at hl hnext
    obtain ⟨rfl, -⟩ := hl
    unfold Pool.step
    rw [hpc]
    have hslot : s.shared.inSlot = slot := by
      have heq := h.slot_eq
      rw [hpc] at heq
      exact heq
    refine h.preparing (by rw [hpc]; decide) (show Pc.resetDone.rank < 5 by decide) hnext rfl
      (fun _ => h.prepared (by rw [hpc]; decide)) ?_
      (fun hge => absurd hge (show ¬ 4 ≤ Pc.resetDone.rank by decide))
    show s.shared.inSlot.refresh _ _ _ _ = inFound kn n e slot
    rw [hslot]
    rfl
  | resetDone =>
    rw [hpc] at hl hnext
    obtain ⟨rfl, -⟩ := hl
    unfold Pool.step
    rw [hpc]
    have hslot := h.slot_eq
    rw [hpc] at hslot
    exact h.preparing (by rw [hpc]; decide) (show Pc.publishReady.rank < 5 by decide) hnext rfl
      (fun _ => h.prepared (by rw [hpc]; decide)) hslot (fun _ => rfl)
  | publishReady =>
    rw [hpc] at hl
    obtain ⟨rfl, -⟩ := hl
    exact h.publishReady hpc
  | inGemv => exact h.inGemv hagree hfound hpc
  | countIn =>
    unfold Pool.step
    rw [hpc] at hnext ⊢
    refine (h.countIn hpc ?_ hnext).1
    simp only [act]
    split_ifs <;> rfl
  | await w spinCount =>
    cases w with
    | ready =>
      unfold Pool.step
      rw [hpc] at hnext hl ⊢
      obtain ⟨hi, h0, -⟩ := hl
      simp only [act] at hnext ⊢
      refine h.quiet hnext rfl rfl rfl rfl rfl (fun hz => absurd hz h0) ?_ ?_ ?_
      · intro _ _ hge
        split_ifs at hge with hst
        · refine Or.inr ?_
          by_contra hlt
          exact (h.unready (by omega)).1 (by omega) hst
        · exact absurd hge (show ¬ 5 ≤ (Pc.gaveUp .ready).rank by decide)
        · exact absurd hge (show ¬ 5 ≤ 1 by decide)
      · intro _ hge
        split_ifs at hge
        · exact absurd hge (show ¬ 6 ≤ Pc.inGemv.rank by decide)
        · exact absurd hge (show ¬ 6 ≤ (Pc.gaveUp .ready).rank by decide)
        · exact absurd hge (show ¬ 6 ≤ 1 by decide)
      intro _
      rw [hpc]
      split_ifs <;> rfl
    | y | out => exact h.late hok (by rw [hpc]; rfl)
  | gaveUp w | unpacked =>
    unfold Pool.step
    rw [hpc] at hnext ⊢
    refine h.quiet hnext rfl rfl rfl rfl rfl ?_ ?_ ?_ ?_
    · intro _; rw [hpc]; exact Or.inl rfl
    · intro _ _ hge; rw [hpc]; exact Or.inl hge
    · intro _ hge; rw [hpc]; exact hge
    · intro _; rw [hpc]; rfl
  | _ => exact h.late hok (by rw [hpc]; rfl)

end Step

end Front

end DenseCore.FusedDecode
