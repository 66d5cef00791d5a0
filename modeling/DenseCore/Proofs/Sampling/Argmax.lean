/-
The vector argmax resolves ties by lanes.

Both versions are scans that end with the first best element, the scalar one of the array
in its order, the vector one of the lanes one after the other, with the tail behind them.
So they agree unless the maximum occurs again in a lower lane than where it occurs first.
-/
import DenseCore.Sampling.Argmax

namespace DenseCore.Sampler

open List hiding le_antisymm not_le not_lt

open Lib

variable {α : Type} [LinearOrder α]

/-! ### The property -/

variable (data : Int → α)

/-- The lowest index of the maximum. -/
def FirstMaximum (n m : Int) : Prop :=
  (0 ≤ m ∧ m < n) ∧ (∀ i, 0 ≤ i → i < n → data i ≤ data m) ∧ ∀ i, 0 ≤ i → i < m → data i < data m

/-- The two versions return the same, the lowest index of the maximum. -/
def VectorAgrees (n : Int) : Prop :=
  argmaxAVX2 data n = argmaxScalar data n 1 ∧ FirstMaximum data n (argmaxScalar data n 1)

/-- The maximum occurs again in the full blocks, in a lower lane than its first
occurrence. -/
def RepeatsInLowerLane (n : Int) : Prop :=
  ∃ m i, FirstMaximum data n m ∧ m < i ∧ i < 8 * (n / 8) ∧ data i = data m ∧ i % 8 < m % 8

/-! ### Scans over indices -/

/-- A value with its index. -/
def entry (i : Nat) : α × Int := (data i, i)

/-- The value at an index. -/
def valueAt (i : Nat) : α := data i

theorem foldl_better (c : Nat) (l : List Nat) :
    l.foldl (fun best (i : Nat) => better best (data (i : Int), (i : Int))) (entry data c) =
      entry data (l.foldl (keepBest (valueAt data)) c) := by
  have hmap := foldl_keepBest_map Prod.fst (entry data) c l
  rw [foldl_map] at hmap
  exact hmap

variable {n : Int} {blocks i : Nat}

/-- **The scalar scan** takes the indices in their order. -/
theorem argmaxScalar_firstBest (hn : 0 < n) :
    ∃ m : Nat, argmaxScalar data n 1 = m ∧ FirstBest (valueAt data) (range n.toNat) m := by
  refine ⟨(range' 1 (n.toNat - 1)).foldl (keepBest (valueAt data)) 0, ?_, ?_⟩
  · unfold argmaxScalar
    rw [if_neg (not_le.mpr hn)]
    simp only [Int.mul_one]
    exact congrArg Prod.snd (foldl_better data 0 (range' 1 (n.toNat - 1)))
  have hrange : range n.toNat = 0 :: range' 1 (n.toNat - 1) := by
    obtain ⟨k, hk⟩ : ∃ k, n.toNat = k + 1 := ⟨n.toNat - 1, by omega⟩
    rw [hk, range_eq_range', range'_succ]
    rfl
  rw [hrange]
  exact firstBest_foldl _ _ _

/-! ### The lanes -/

/-- The indices a lane sees in the first blocks. -/
def lane (blocks : Nat) (j : Fin 8) : List Nat := (range blocks).map fun b => 8 * b + j

/-- Every lane has the first best of its own, and counts the indices. -/
def LanesAt (blocks : Nat) (l : Lanes α) : Prop :=
  ∀ j, l.curIdx j = (8 * (blocks - 1) + j.val : Nat) ∧
    ∃ r, FirstBest (valueAt data) (lane blocks j) r ∧ (l.max j, l.maxIdx j) = entry data r

theorem lanesAt_load : LanesAt data 1 (Lanes.load data) := by
  intro j
  refine ⟨by simp [Lanes.load], j.val, ?_, rfl⟩
  simpa [lane] using firstBest_singleton (valueAt data) j.val

theorem LanesAt.round {data : Int → α} {l : Lanes α} (h : LanesAt data blocks l)
    (hblocks : 0 < blocks) : LanesAt data (blocks + 1) (l.round data (8 * blocks)) := by
  intro j
  obtain ⟨hcur, r, hr, hentry⟩ := h j
  have hnext : l.curIdx j + 8 = ((8 * blocks + j.val : Nat) : Int) := by
    rw [hcur]
    omega
  refine ⟨by simpa [Lanes.round] using hnext, keepBest (valueAt data) r (8 * blocks + j), ?_, ?_⟩
  · have hsnoc := hr.snoc (8 * blocks + j.val)
    simpa [lane, range_succ] using hsnoc
  obtain ⟨hmax, hidx⟩ := Prod.mk.inj hentry
  by_cases hlt : data r < data ((8 * blocks + j.val : Nat) : Int)
  · simp only [Lanes.round, keepBest, valueAt, entry, hnext, hmax, hlt, decide_true, if_true]
  simp only [Lanes.round, keepBest, valueAt, entry, hmax, hidx, hlt, decide_false, if_false,
    Bool.false_eq_true]

theorem lanesAt_rounds (k : Nat) : LanesAt data (k + 1)
      ((range k).foldl (fun l b => l.round data (8 * (b + 1))) (Lanes.load data)) := by
  induction k with
  | zero => exact lanesAt_load data
  | succ k ih =>
    rw [range_succ, foldl_append]
    exact ih.round (Nat.succ_pos k)

/-- The order in which the vector version prefers equal values. -/
def laneOrder (n : Nat) : List Nat :=
  ((finRange 8).map (lane (n / 8))).flatten ++ range' (8 * (n / 8)) (n % 8)

/-- **The vector scan** takes the lanes one after the other, and then the tail. -/
theorem argmaxAVX2_firstBest (hn : 8 ≤ n) :
    ∃ r : Nat, argmaxAVX2 data n = r ∧ FirstBest (valueAt data) (laneOrder n.toNat) r := by
  obtain ⟨k, hk⟩ : ∃ k, n.toNat / 8 = k + 1 := ⟨n.toNat / 8 - 1, by omega⟩
  have hlanes := lanesAt_rounds data k
  choose _ best hbest hentry using hlanes
  -- the reduction
  have hreduce : FirstBest (valueAt data) ((finRange 8).map best)
      (((finRange 8).tail.map best).foldl (keepBest (valueAt data)) (best 0)) :=
    firstBest_foldl (valueAt data) (best 0) ((finRange 8).tail.map best)
  have hparts : Forall₂ (FirstBest (valueAt data))
      ((finRange 8).map (lane (n.toNat / 8))) ((finRange 8).map best) := by
    rw [forall₂_map_left_iff, forall₂_map_right_iff, hk]
    exact forall₂_same.mpr fun j _ => hbest j
  refine ⟨_, ?_, (hreduce.flatten hparts).foldl _⟩
  have hreduced : Lanes.reduce ((range k).foldl (fun l b => l.round data (8 * (b + 1)))
      (Lanes.load data)) = entry data
        (((finRange 8).tail.map best).foldl (keepBest (valueAt data)) (best 0)) := by
    rw [← foldl_better, foldl_map]
    unfold Lanes.reduce
    simp only [hentry]
    rfl
  unfold argmaxAVX2
  rw [if_neg (by omega), if_neg (not_lt.mpr hn)]
  dsimp only
  rw [hk, Nat.add_sub_cancel, hreduced, foldl_better]
  rfl

/-! ### The order of the lanes -/

/-- Where two indices stand in that order. -/
def Earlier (blocks i j : Nat) : Prop :=
  if j < 8 * blocks then i < 8 * blocks ∧ (i % 8 < j % 8 ∨ i % 8 = j % 8 ∧ i < j) else i < j

theorem mem_lane {j : Fin 8} : i ∈ lane blocks j ↔ i < 8 * blocks ∧ i % 8 = j := by
  unfold lane
  rw [mem_map]
  constructor
  · rintro ⟨b, hb, rfl⟩
    have hlt := mem_range.mp hb
    omega
  rintro ⟨hlt, hmod⟩
  exact ⟨i / 8, mem_range.mpr (by omega), by omega⟩

theorem mem_laneOrder {n : Nat} : i ∈ laneOrder n ↔ i < n := by
  unfold laneOrder
  rw [mem_append, mem_flatten, mem_range'_1]
  constructor
  · rintro (⟨l, hl, hi⟩ | htail)
    · obtain ⟨j, -, rfl⟩ := mem_map.mp hl
      have hlt := (mem_lane.mp hi).1
      omega
    · omega
  intro hlt
  by_cases hfull : i < 8 * (n / 8)
  · have hmod : i % 8 < 8 := Nat.mod_lt i (by decide)
    exact Or.inl ⟨_, mem_map.mpr ⟨⟨i % 8, hmod⟩, mem_finRange _, rfl⟩, mem_lane.mpr ⟨hfull, rfl⟩⟩
  · exact Or.inr (by omega)

/-- The order in which the lanes meet the entries. -/
theorem laneOrder_pairwise (n : Nat) : (laneOrder n).Pairwise (Earlier (n / 8)) := by
  unfold laneOrder
  refine pairwise_append.mpr ⟨pairwise_flatten.mpr ⟨?_, ?_⟩, ?_, ?_⟩
  · -- within a lane
    intro l hl
    obtain ⟨j, -, rfl⟩ := mem_map.mp hl
    unfold lane
    rw [pairwise_map]
    refine pairwise_lt_range.imp_of_mem fun {b c} hb hc hlt => ?_
    have hb := mem_range.mp hb
    have hc := mem_range.mp hc
    unfold Earlier
    rw [if_pos (by omega)]
    omega
  · -- across the lanes
    rw [pairwise_map]
    refine (pairwise_lt_finRange 8).imp fun {j k} hlt x hx y hy => ?_
    obtain ⟨hx, hxj⟩ := mem_lane.mp hx
    obtain ⟨hy, hyk⟩ := mem_lane.mp hy
    unfold Earlier
    rw [if_pos hy]
    omega
  · -- within the tail
    refine (pairwise_lt_range' 1).imp_of_mem fun {i j} _ hj hlt => ?_
    have hj := mem_range'_1.mp hj
    unfold Earlier
    rw [if_neg (by omega)]
    exact hlt
  -- from the lanes to the tail
  intro x hx y hy
  have hy := mem_range'_1.mp hy
  obtain ⟨l, hl, hx⟩ := mem_flatten.mp hx
  obtain ⟨j, -, rfl⟩ := mem_map.mp hl
  have hx := (mem_lane.mp hx).1
  unfold Earlier
  rw [if_neg (by omega)]
  omega

/-! ### The result -/

theorem FirstMaximum.unique {data : Int → α} {m m' : Int} (h : FirstMaximum data n m)
    (h' : FirstMaximum data n m') : m = m' := by
  obtain ⟨⟨hpos, hlt⟩, hmax, hfirst⟩ := h
  obtain ⟨⟨hpos', hlt'⟩, hmax', hfirst'⟩ := h'
  rcases lt_trichotomy m m' with hbefore | heq | hafter
  · exact absurd (hmax m' hpos' hlt') (not_le.mpr (hfirst' m hpos hbefore))
  · exact heq
  · exact absurd (hmax' m hpos hlt) (not_le.mpr (hfirst m' hpos' hafter))

theorem firstMaximum_of_range {data : Int → α} {m : Nat}
    (h : FirstBest (valueAt data) (range n.toNat) m) : FirstMaximum data n m := by
  have hlt := mem_range.mp h.mem
  refine ⟨⟨by omega, by omega⟩, fun i hpos hi => ?_, fun i hpos hi => ?_⟩
  · obtain ⟨k, rfl⟩ := Int.eq_ofNat_of_zero_le hpos
    exact h.le k (mem_range.mpr (by omega))
  obtain ⟨k, rfl⟩ := Int.eq_ofNat_of_zero_le hpos
  have hmem : k ∈ range n.toNat := mem_range.mpr (by omega)
  refine lt_of_le_of_ne (h.le k hmem) fun heq => ?_
  have hbefore := h.before pairwise_lt_range hmem (le_of_eq heq.symm) (by omega)
  omega

/-- **The vector version agrees with the scalar one exactly when the maximum does not occur
again in a lower lane.** -/
theorem argmaxAVX2_agrees_iff (data : Int → α) {n : Int} (hn : 0 < n) :
    VectorAgrees data n ↔ ¬ RepeatsInLowerLane data n := by
  obtain ⟨m, hm, hscalar⟩ := argmaxScalar_firstBest data hn
  have hfirst := firstMaximum_of_range hscalar
  unfold VectorAgrees
  rw [hm]
  by_cases hsmall : n < 8
  · have hsame : argmaxAVX2 data n = m := by
      unfold argmaxAVX2
      rw [if_neg (not_le.mpr hn), if_pos hsmall]
      exact hm
    refine iff_of_true ⟨hsame, hfirst⟩ ?_
    rintro ⟨m', i, ⟨⟨hpos, -⟩, -⟩, hlt, hfull, -⟩
    omega
  obtain ⟨r, hr, hvector⟩ := argmaxAVX2_firstBest data (not_lt.mp hsmall)
  have hrn := mem_laneOrder.mp hvector.mem
  have hmn := mem_range.mp hscalar.mem
  have hblocks : (8 * (n / 8) : Int) = (8 * (n.toNat / 8) : Nat) := by omega
  rw [hr]
  constructor
  · rintro ⟨heq, -⟩ ⟨m', i, hfirst', hlt, hfull, hvalue, hlane⟩
    obtain rfl : m' = m := hfirst'.unique hfirst
    obtain rfl : r = m := Int.ofNat_inj.mp heq
    obtain ⟨k, rfl⟩ := Int.eq_ofNat_of_zero_le (show 0 ≤ i by omega)
    have hbefore := hvector.before (laneOrder_pairwise _) (mem_laneOrder.mpr (by omega))
      (le_of_eq hvalue.symm) (show k ≠ r by omega)
    unfold Earlier at hbefore
    rw [if_pos (by omega)] at hbefore
    omega
  intro hnone
  refine ⟨?_, hfirst⟩
  by_contra hne
  have hvalue : valueAt data m = valueAt data r :=
    le_antisymm (hvector.le m (mem_laneOrder.mpr hmn)) (hscalar.le r (mem_range.mpr hrn))
  have hlater := hscalar.before pairwise_lt_range (mem_range.mpr hrn)
    (le_of_eq hvalue) (by omega)
  have hbefore := hvector.before (laneOrder_pairwise _) (mem_laneOrder.mpr hmn)
    (le_of_eq hvalue.symm) (by omega)
  unfold Earlier at hbefore
  split at hbefore
  · exact hnone ⟨m, r, hfirst, by omega, by omega, hvalue.symm, by omega⟩
  · omega

/-- Distinct values. -/
theorem ascending_agrees : VectorAgrees (fun i => i) 10 := by
  refine (argmaxAVX2_agrees_iff (fun i => i) (by decide)).mpr ?_
  rintro ⟨m, i, ⟨-, hmax, -⟩, hlt, hfull, hvalue, -⟩
  exact absurd hvalue (ne_of_gt hlt)

/-- The maximum at 1 and again at 8: the first lane comes before the second. -/
theorem lower_lane_wins :
    let data : Int → Int := fun i => if i = 1 ∨ i = 8 then 1 else 0
    argmaxScalar data 16 1 = 1 ∧ argmaxAVX2 data 16 = 8 ∧ ¬ VectorAgrees data 16 := by
  intro data
  have hscalar : argmaxScalar data 16 1 = 1 := by decide
  have hvector : argmaxAVX2 data 16 = 8 := by decide
  refine ⟨hscalar, hvector, fun h => ?_⟩
  rw [VectorAgrees, hscalar, hvector] at h
  exact absurd h.1 (by decide)

end DenseCore.Sampler
