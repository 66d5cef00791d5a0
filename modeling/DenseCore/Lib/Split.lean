/-
Sharing out a range evenly.

Task `i` of `n` takes the indices from `total * i / n` to `total * (i + 1) / n`.
Whatever `total` and `n` are, every index has exactly one owner.
-/
import Mathlib.Order.Basic

namespace DenseCore.Lib

/-- The first index of task `i` of `n`. -/
def splitStart (total n i : Nat) : Nat := total * i / n

variable {i j n total c : Nat}

theorem splitStart_mono (total n : Nat) (h : i ≤ j) : splitStart total n i ≤ splitStart total n j :=
  Nat.div_le_div_right (Nat.mul_le_mul_left total h)

theorem splitStart_all (total : Nat) (hn : 0 < n) : splitStart total n n = total :=
  Nat.mul_div_cancel total hn

theorem splitStart_le (total : Nat) (hi : i ≤ n) : splitStart total n i ≤ total := by
  rcases Nat.eq_zero_or_pos n with rfl | hn
  · unfold splitStart
    rw [Nat.div_zero]
    exact Nat.zero_le total
  · exact le_of_le_of_eq (splitStart_mono total n hi) (splitStart_all total hn)

theorem split_owner_unique (hi : splitStart total n i ≤ c)
    (hi' : c < splitStart total n (i + 1)) (hj : splitStart total n j ≤ c)
    (hj' : c < splitStart total n (j + 1)) : i = j := by
  rcases Nat.lt_trichotomy i j with h | h | h
  · have hle := splitStart_mono total n (show _ + 1 ≤ _ from h)
    omega
  · exact h
  have hle := splitStart_mono total n (show _ + 1 ≤ _ from h)
  omega

theorem split_owner_exists (hn : 0 < n) (hc : c < total) :
    ∃ i, i < n ∧ splitStart total n i ≤ c ∧ c < splitStart total n (i + 1) := by
  -- Among the first `k` tasks, as soon as the `k`-th starts beyond `c`.
  have hsearch : ∀ k, c < splitStart total n k →
      ∃ i, i < k ∧ splitStart total n i ≤ c ∧ c < splitStart total n (i + 1) := by
    intro k
    induction k with
    | zero =>
      intro h
      unfold splitStart at h
      rw [Nat.mul_zero, Nat.zero_div] at h
      omega
    | succ k ih =>
      intro h
      by_cases hk : c < splitStart total n k
      · obtain ⟨i, hi, hlo, hhi⟩ := ih hk
        exact ⟨i, by omega, hlo, hhi⟩
      · exact ⟨k, Nat.lt_succ_self k, by omega, h⟩
  exact hsearch n (by rw [splitStart_all total hn]; exact hc)

end DenseCore.Lib
