/-
What the convolution kernels do to a state vector.

Three loops compute the same thing: the unrolled one for four taps, the generic
one, and the gated one of the short convolution.  Each is brought to one form.  The
output of a channel is the filter's answer to the new sample over that channel's
row of the state, and the state after it is `advanced`: the rows of the channels
worked on are shifted by one sample and nothing else changes.

All of it needs at least two taps.  With one tap there is no history, the index of
the newest stored sample is below zero, and the generic kernel faults.
-/
import Mathlib.Algebra.BigOperators.Intervals
import Mathlib.Tactic.Ring
import DenseCore.Ssm.Conv
import DenseCore.Lib.CausalConv

namespace DenseCore.Ssm

open Function (update update_of_ne update_self)

open Lib

variable {K : Type}

variable (b : Buffer K)

/-- The row of a channel. -/
def rowOf (hist c : Nat) : Nat → K := fun j => b.get (c * hist + j)

/-- The vector after the channels `lo ≤ c < hi` have taken a sample each. -/
def advanced (hist lo hi : Nat) (sample : Nat → K) : Buffer K where
  size := b.size
  get := fun i =>
    if lo ≤ i / hist ∧ i / hist < hi
    then shift hist (rowOf b hist (i / hist)) (sample (i / hist)) (i % hist) else b.get i

theorem advanced_empty (hist lo : Nat) (sample : Nat → K) : advanced b hist lo lo sample = b := by
  ext i
  · rfl
  show (if _ then _ else _) = _
  rw [if_neg (by omega)]

variable {hist j lo hi : Nat}

private theorem div_row (c : Nat) (hj : j < hist) : (c * hist + j) / hist = c :=
  Nat.div_eq_of_lt_le (by omega) (by rw [Nat.succ_mul]; omega)

private theorem mod_row (c : Nat) (hj : j < hist) : (c * hist + j) % hist = j := by
  rw [Nat.add_comm, Nat.add_mul_mod_self_right, Nat.mod_eq_of_lt hj]

theorem rowOf_advanced (lo hi c : Nat) (sample : Nat → K) (hj : j < hist) :
    rowOf (advanced b hist lo hi sample) hist c j
      = if lo ≤ c ∧ c < hi then shift hist (rowOf b hist c) (sample c) j else rowOf b hist c j := by
  show (if _ then _ else _) = _
  rw [div_row c hj, mod_row c hj]
  rfl

/-- One more channel. -/
theorem advanced_succ (hist : Nat) (hle : lo ≤ hi) (sample : Nat → K) :
    advanced (advanced b hist lo hi sample) hist hi (hi + 1) sample
      = advanced b hist lo (hi + 1) sample := by
  ext i
  · rfl
  show (if _ then _ else (if _ then _ else _)) = (if _ then _ else _)
  by_cases hnew : hi ≤ i / hist ∧ i / hist < hi + 1
  · rw [if_pos hnew, if_pos (by omega)]
    refine shift_congr _ _ fun k hk => ?_
    rw [rowOf_advanced b lo hi _ sample hk, if_neg (by omega)]
  rw [if_neg hnew]
  by_cases hold : lo ≤ i / hist ∧ i / hist < hi
  · rw [if_pos hold, if_pos (by omega)]
  · rw [if_neg hold, if_neg (by omega)]

/-! ### The two inner loops -/

private theorem cast_add (a b : Nat) : (a : Int) + (b : Int) = ((a + b : Nat) : Int) := by
  push_cast
  rfl

/-- The history of a channel moves on by the sample. -/
theorem slide_eq {c : Nat} (hpos : 0 < hist) (hsize : (c + 1) * hist ≤ b.size) (sample : Nat → K) :
    slide b (c * hist) hist (sample c) = some (advanced b hist c (c + 1) sample) := by
  rw [Nat.succ_mul] at hsize
  -- After `k` moves the first `k` entries of the row hold their right neighbours.
  let moved : Nat → Buffer K := fun k =>
    { b with get := fun i => if c * hist ≤ i ∧ i < c * hist + k then b.get (i + 1) else b.get i }
  have hloop : (List.range (hist - 1)).foldlM
      (fun b (j : Nat) => b.move (((c * hist : Nat) : Int) + (j : Int))
        (((c * hist : Nat) : Int) + (j : Int) + 1)) b = some (moved (hist - 1)) := by
    have hzero : moved 0 = b := by
      ext i
      · rfl
      show (if _ then _ else _) = _
      rw [if_neg (by omega)]
    rw [← hzero]
    refine foldlM_range_eq moved (hist - 1) fun k hk => ?_
    have hsrc : ((c * hist : Nat) : Int) + (k : Int) + 1 = ((c * hist + k + 1 : Nat) : Int) := by
      push_cast
      rfl
    rw [hsrc, cast_add, Buffer.move_eq_some]
    · congr 1
      ext i
      · rfl
      show update (moved k).get (c * hist + k) ((moved k).get (c * hist + k + 1)) i
        = (moved (k + 1)).get i
      by_cases hi : i = c * hist + k
      · subst hi
        rw [update_self]
        show (if _ then _ else _) = (if _ then _ else _)
        rw [if_neg (by omega), if_pos (by omega)]
      rw [update_of_ne hi]
      show (if _ then _ else _) = (if _ then _ else _)
      by_cases hin : c * hist ≤ i ∧ i < c * hist + k
      · rw [if_pos hin, if_pos (by omega)]
      · rw [if_neg hin, if_neg (by omega)]
    · show c * hist + k < b.size
      omega
    · show c * hist + k + 1 < b.size
      omega
  unfold slide
  rw [hloop]
  have hlast : ((c * hist : Nat) : Int) + (hist : Int) - 1 = ((c * hist + (hist - 1) : Nat) : Int) := by
    omega
  show (moved (hist - 1)).store _ (sample c) = _
  rw [hlast, Buffer.store_eq_some]
  · congr 1
    ext i
    · rfl
    show update (moved (hist - 1)).get (c * hist + (hist - 1)) (sample c) i
      = (if _ then _ else _)
    by_cases hrow : c ≤ i / hist ∧ i / hist < c + 1
    · have hc : i / hist = c := by omega
      have hi : i = c * hist + i % hist := by
        rw [← hc, Nat.mul_comm]
        exact (Nat.div_add_mod i hist).symm
      have hmod : i % hist < hist := Nat.mod_lt _ hpos
      rw [if_pos hrow, hc]
      unfold shift
      by_cases hend : i % hist + 1 < hist
      · rw [if_pos hend, update_of_ne (by omega)]
        show (if _ then _ else _) = _
        rw [if_pos (by omega)]
        show b.get (i + 1) = b.get (c * hist + (i % hist + 1))
        congr 1
        omega
      have hat : i = c * hist + (hist - 1) := by omega
      rw [if_neg hend, ← hat, update_self]
    · rw [if_neg hrow]
      have hout : ¬ (c * hist ≤ i ∧ i < c * hist + hist) := by
        intro hin
        have hdiv : i / hist = c :=
          Nat.div_eq_of_lt_le hin.1 (by rw [Nat.succ_mul]; exact hin.2)
        omega
      rw [update_of_ne (by omega)]
      show (if _ then _ else _) = _
      rw [if_neg (by omega)]
  · show c * hist + (hist - 1) < b.size
    omega

theorem slide_advanced (hpos : 0 < hist) (hle : lo ≤ hi)
    (hsize : (hi + 1) * hist ≤ b.size) (sample : Nat → K) :
    slide (advanced b hist lo hi sample) (hi * hist) hist (sample hi)
      = some (advanced b hist lo (hi + 1) sample) := by
  have hsize' : (hi + 1) * hist ≤ (advanced b hist lo hi sample).size := hsize
  rw [slide_eq _ hpos hsize', advanced_succ b hist hle]

theorem slide_no_history (x : K) : slide b 0 0 x = none := by
  show b.store (((0 : Nat) : Int) + ((0 : Nat) : Int) - 1) x = none
  exact Buffer.store_neg b (by decide) x

/-! ### The kernels -/

/-- The taps of a channel. -/
def taps (weight : Nat → K) (kernel c : Nat) : Nat → K := fun k => weight (c * kernel + k)

/-- An output row with the channels `lo ≤ c < hi` written. -/
def written (out : Nat → K) (lo hi : Nat) (f : Nat → K) : Nat → K :=
  fun c => if lo ≤ c ∧ c < hi then f c else out c

theorem written_empty (out : Nat → K) (lo : Nat) (f : Nat → K) : written out lo lo f = out := by
  funext c
  show (if _ then _ else _) = _
  rw [if_neg (by omega)]

theorem written_succ (out : Nat → K) (hle : lo ≤ hi) (f : Nat → K) :
    update (written out lo hi f) hi (f hi) = written out lo (hi + 1) f := by
  funext c
  by_cases hc : c = hi
  · subst hc
    rw [update_self]
    show _ = (if _ then _ else _)
    rw [if_pos (by omega)]
  rw [update_of_ne hc]
  show (if _ then _ else _) = (if _ then _ else _)
  by_cases hin : lo ≤ c ∧ c < hi
  · rw [if_pos hin, if_pos (by omega)]
  · rw [if_neg hin, if_neg (by omega)]

theorem slide_three (base : Nat) (x : K) : slide b base 3 x = (do
      let b ← b.move (base : Int) ((base : Int) + 1)
      let b ← b.move ((base : Int) + 1) ((base : Int) + 2)
      b.store ((base : Int) + 2) x) := by
  have h1 : ((base : Int) + ((0 : Nat) : Int)) = base := by omega
  have h2 : ((base : Int) + ((1 : Nat) : Int)) = base + 1 := by omega
  have h3 : ((base : Int) + 1 + 1) = base + 2 := by omega
  have h4 : ((base : Int) + ((3 : Nat) : Int) - 1) = base + 2 := by omega
  unfold slide
  rw [h4]
  simp only [Nat.add_one_sub_one, List.range_succ, List.range_zero, List.nil_append,
    List.cons_append, List.foldlM_cons, List.foldlM_nil, bind_pure, h1, h2, h3, bind_assoc]

variable [CommSemiring K]

theorem dotHistory_eq {base : Nat} (hsize : base + hist ≤ b.size) (w : Nat → K) (acc : K) :
    dotHistory b base hist w acc
      = some (acc + ∑ k ∈ Finset.range hist, b.get (base + k) * w k) := by
  unfold dotHistory
  have hzero : acc = acc + ∑ k ∈ Finset.range 0, b.get (base + k) * w k := by simp
  conv_lhs => rw [hzero]
  refine foldlM_range_eq (fun n => acc + ∑ k ∈ Finset.range n, b.get (base + k) * w k) hist
    fun k hk => ?_
  rw [cast_add, Buffer.load_eq_some b (by omega), Finset.sum_range_succ, ← add_assoc]
  rfl

/-- The answers of all channels to one token. -/
def answers (weight : Nat → K) (hist : Nat) (b : Buffer K) (sample : Nat → K) (c : Nat) : K :=
  tap hist (taps weight (hist + 1) c) (rowOf b hist c) (sample c)

theorem conv4Channel_eq_slide (input w out : Nat → K) {base : Nat}
    (hsize : base + 3 ≤ b.size) (wBase c ci : Nat) :
    conv4Channel input w base wBase c ci (b, out) = (slide b base 3 (input ci)).map fun b' =>
          (b', update out c
            (tap 3 (fun k => w (wBase + k)) (fun k => b.get (base + k)) (input ci))) := by
  have h0 : b.load (base : Int) = some (b.get base) := Buffer.load_eq_some b (by omega)
  have h1 : b.load ((base : Int) + 1) = some (b.get (base + 1)) :=
    Buffer.load_eq_some b (i := base + 1) (by omega)
  have h2 : b.load ((base : Int) + 2) = some (b.get (base + 2)) :=
    Buffer.load_eq_some b (i := base + 2) (by omega)
  rw [slide_three]
  unfold conv4Channel tap
  simp only [h0, h1, h2, Option.bind_eq_bind, Option.bind_some, Finset.sum_range_succ,
    Finset.sum_range_zero, zero_add, Nat.add_zero, Option.pure_def, Option.map_eq_bind,
    Function.comp_def, Option.bind_assoc]

theorem conv4_loop (first n : Nat) (hsize : (first + n) * 3 ≤ b.size)
    (sample weight out : Nat → K) :
    (List.range n).foldlM (fun s (ci : Nat) => conv4Channel (fun ci => sample (first + ci))
          (fun x => weight (first * 4 + x)) (first * 3 + ci * 3) (ci * 4) (first + ci) ci s) (b, out)
      = some (advanced b 3 first (first + n) sample,
          written out first (first + n) (answers weight 3 b sample)) := by
  have hloop := foldlM_range_eq
    (f := fun s (ci : Nat) => conv4Channel (fun ci => sample (first + ci))
      (fun x => weight (first * 4 + x)) (first * 3 + ci * 3) (ci * 4) (first + ci) ci s)
    (fun k => (advanced b 3 first (first + k) sample,
      written out first (first + k) (answers weight 3 b sample))) n ?_
  · rw [Nat.add_zero, advanced_empty, written_empty] at hloop
    exact hloop
  intro k hk
  have hbase : first * 3 + k * 3 = (first + k) * 3 := by omega
  have hin : (first + k) * 3 + 3 ≤ (advanced b 3 first (first + k) sample).size := by
    show _ ≤ b.size
    omega
  rw [hbase, conv4Channel_eq_slide _ _ _ _ hin,
    slide_advanced b (by decide) (Nat.le_add_right first k) (by omega), Option.map_some]
  -- The channel's own row has not been touched yet.
  have hrow : ∀ j, j < 3 → rowOf (advanced b 3 first (first + k) sample) 3 (first + k) j
      = rowOf b 3 (first + k) j := by
    intro j hj
    rw [rowOf_advanced b first (first + k) (first + k) sample hj, if_neg (by omega)]
  have hanswer : tap 3 (fun j => weight (first * 4 + (k * 4 + j)))
        (rowOf (advanced b 3 first (first + k) sample) 3 (first + k)) (sample (first + k))
      = answers weight 3 b sample (first + k) := by
    unfold answers taps
    rw [tap_congr _ hrow]
    congr 1
    funext j
    congr 1
    omega
  congr 2
  rw [← Nat.add_assoc, ← written_succ out (Nat.le_add_right first k), ← hanswer]
  rfl

theorem generic_loops (hpos : 0 < hist) (first n : Nat)
    (hsize : (first + n) * hist ≤ b.size) (sample weight out : Nat → K) :
    (List.range n).foldlM (fun out (ci : Nat) => do
          let s ← dotHistory b (first * hist + ci * hist) hist
            (fun k => weight (first * (hist + 1) + (ci * (hist + 1) + k))) 0
          pure (update out (first + ci)
            (s + sample (first + ci) * weight (first * (hist + 1) + (ci * (hist + 1) + hist))))) out
        = some (written out first (first + n) (answers weight hist b sample)) ∧
      (List.range n).foldlM
        (fun b (ci : Nat) => slide b (first * hist + ci * hist) hist (sample (first + ci))) b
        = some (advanced b hist first (first + n) sample) := by
  have hbound : ∀ k, k < n → (first + k + 1) * hist ≤ b.size := fun k hk =>
    le_trans (Nat.mul_le_mul_right hist (by omega)) hsize
  have hbase : ∀ k, first * hist + k * hist = (first + k) * hist := fun k => by ring
  refine ⟨?_, ?_⟩
  · have hloop := foldlM_range_eq
      (f := fun out (ci : Nat) => do
        let s ← dotHistory b (first * hist + ci * hist) hist
          (fun k => weight (first * (hist + 1) + (ci * (hist + 1) + k))) 0
        pure (update out (first + ci)
          (s + sample (first + ci) * weight (first * (hist + 1) + (ci * (hist + 1) + hist)))))
      (fun k => written out first (first + k) (answers weight hist b sample)) n ?_
    · simp only [Nat.add_zero, written_empty] at hloop
      exact hloop
    intro k hk
    have hweight : ∀ j, first * (hist + 1) + (k * (hist + 1) + j)
        = (first + k) * (hist + 1) + j := fun j => by ring
    have hin : (first + k) * hist + hist ≤ b.size := by
      have h := hbound k hk
      rw [Nat.succ_mul] at h
      exact h
    rw [hbase, dotHistory_eq b hin, zero_add]
    simp only [hweight]
    rw [← Nat.add_assoc, ← written_succ out (Nat.le_add_right first k)]
    rfl
  · have hloop := foldlM_range_eq
      (f := fun b (ci : Nat) => slide b (first * hist + ci * hist) hist (sample (first + ci)))
      (fun k => advanced b hist first (first + k) sample) n ?_
    · rw [Nat.add_zero, advanced_empty] at hloop
      exact hloop
    intro k hk
    rw [hbase, slide_advanced b hpos (Nat.le_add_right first k) (hbound k hk)]
    rfl

/-- **The kernel of `cb_ssm_conv1d`.**  The channels from `first` on answer the
token and take its sample, whichever of the two loops runs. -/
theorem ssmConv1dDecode_eq (hpos : 0 < hist) (first n : Nat)
    (hsize : (first + n) * hist ≤ b.size) (sample weight out : Nat → K) :
    ssmConv1dDecode b (first * hist) (fun ci => sample (first + ci))
        (fun x => weight (first * (hist + 1) + x)) out first n (hist + 1)
      = some (advanced b hist first (first + n) sample,
          written out first (first + n) (answers weight hist b sample)) := by
  unfold ssmConv1dDecode
  rw [Nat.add_sub_cancel]
  by_cases hfour : hist + 1 = 4
  · obtain rfl : hist = 3 := by omega
    rw [if_pos rfl]
    exact conv4_loop b first n hsize sample weight out
  obtain ⟨hout, hstate⟩ := generic_loops b hpos first n hsize sample weight out
  rw [if_neg hfour]
  dsimp only
  rw [hout, hstate]
  rfl

theorem ssmConv1dDecode_one_tap {n : Nat} (hn : 0 < n) (input w out : Nat → K)
    (first : Nat) : ssmConv1dDecode b 0 input w out first n 1 = none := by
  have hslides : (List.range n).foldlM
      (fun b (ci : Nat) => slide b (0 + ci * (1 - 1)) (1 - 1) (input ci)) b = none :=
    foldlM_range_none hn (slide_no_history b (input 0))
  unfold ssmConv1dDecode
  rw [if_neg (by decide), hslides]
  exact Option.bind_fun_none _

/-- **The short convolution.** -/
theorem lfm2ShortConvStep_eq (state : Buffer K) {channels : Nat} (hpos : 0 < hist)
    (hsize : channels * hist ≤ state.size) (b c x weight y : Nat → K) :
    lfm2ShortConvStep channels (hist + 1) b c x weight state y
      = some (advanced state hist 0 channels fun ch => b ch * x ch, written y 0 channels fun ch =>
            c ch * answers weight hist state (fun ch => b ch * x ch) ch) := by
  unfold lfm2ShortConvStep
  by_cases hzero : channels = 0
  · subst hzero
    rw [if_pos (Or.inl rfl), advanced_empty, written_empty]
  rw [if_neg (by omega), Nat.add_sub_cancel]
  dsimp only
  have hloop := foldlM_range_eq
    (f := fun s (ch : Nat) => do
      let acc ← dotHistory s.1 (ch * hist) hist (fun j => weight (ch * (hist + 1) + j))
        (b ch * x ch * weight (ch * (hist + 1) + hist))
      let state ← slide s.1 (ch * hist) hist (b ch * x ch)
      pure (state, update s.2 ch (c ch * acc)))
    (fun k => (advanced state hist 0 k fun ch => b ch * x ch,
      written y 0 k fun ch => c ch * answers weight hist state (fun ch => b ch * x ch) ch))
    channels ?_
  · rw [advanced_empty, written_empty] at hloop
    exact hloop
  intro k hk
  have hin : (k + 1) * hist ≤ state.size := le_trans (Nat.mul_le_mul_right hist hk) hsize
  have hin' : k * hist + hist ≤ (advanced state hist 0 k fun ch => b ch * x ch).size := by
    rw [Nat.succ_mul] at hin
    exact hin
  have hslide := slide_advanced state hpos (Nat.zero_le k) hin fun ch => b ch * x ch
  dsimp only at hslide ⊢
  rw [dotHistory_eq _ hin', hslide]
  have hanswer : b k * x k * weight (k * (hist + 1) + hist)
        + ∑ j ∈ Finset.range hist,
          (advanced state hist 0 k fun ch => b ch * x ch).get (k * hist + j)
            * weight (k * (hist + 1) + j)
      = answers weight hist state (fun ch => b ch * x ch) k := by
    unfold answers tap
    rw [add_comm]
    congr 1
    refine Finset.sum_congr rfl fun j hj => ?_
    have hrow := rowOf_advanced state 0 k k (fun ch => b ch * x ch) (Finset.mem_range.mp hj)
    rw [if_neg (by omega)] at hrow
    show rowOf _ hist k j * _ = _
    rw [hrow]
    rfl
  rw [← written_succ y (Nat.zero_le k), ← hanswer]
  rfl

end DenseCore.Ssm
