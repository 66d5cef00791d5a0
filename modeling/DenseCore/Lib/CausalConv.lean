/-
Causal convolution of a stream, one sample at a time.

A filter of `hist + 1` taps keeps the last `hist` samples of its input.  Each new
sample is weighed together with them and then pushed in at the end of the window.
`window` and `response` describe that machine; `extended` is the input with the
stored samples in front, and in terms of it both have closed forms: the response at
time `t` is the sum over the taps of `extended (t + k)`, and the window left behind
holds its last `hist` entries.
-/
import Mathlib.Algebra.BigOperators.Group.Finset.Basic
import Mathlib.Algebra.Ring.Defs

namespace DenseCore.Lib

open List

variable {K : Type*}

/-- The window with a sample pushed in. -/
def shift (hist : Nat) (row : Nat → K) (x : K) : Nat → K :=
  fun j => if j + 1 < hist then row (j + 1) else x

/-- The window after a list of samples. -/
def window (hist : Nat) (row : Nat → K) (xs : List K) : Nat → K := xs.foldl (shift hist) row

variable {hist : Nat}

theorem shift_congr {row row' : Nat → K} (x : K) (j : Nat)
    (h : ∀ k, k < hist → row k = row' k) : shift hist row x j = shift hist row' x j := by
  unfold shift
  split
  · rename_i hj
    exact h _ hj
  · rfl

/-- Only the stored samples matter. -/
theorem window_congr (xs : List K) : ∀ {row row' : Nat → K},
    (∀ k, k < hist → row k = row' k) → ∀ {j : Nat}, j < hist →
    window hist row xs j = window hist row' xs j := by
  induction xs with
  | nil => intro row row' h j hj; exact h j hj
  | cons x xs ih =>
    intro row row' h j hj
    exact ih (fun k _ => shift_congr x k h) hj

variable [Semiring K]

/-- The filter's answer to a sample. -/
def tap (hist : Nat) (w row : Nat → K) (x : K) : K :=
  (∑ k ∈ Finset.range hist, row k * w k) + x * w hist

theorem tap_congr {row row' : Nat → K} (w : Nat → K)
    (h : ∀ j, j < hist → row j = row' j) {x : K} : tap hist w row x = tap hist w row' x := by
  unfold tap
  rw [Finset.sum_congr rfl fun k hk => by rw [h k (Finset.mem_range.mp hk)]]

/-- The answers to a list of samples, in order. -/
def response (hist : Nat) (w : Nat → K) : (Nat → K) → List K → List K
  | _, [] => []
  | row, x :: xs => tap hist w row x :: response hist w (shift hist row x) xs

/-- The stored samples followed by the new ones. -/
def extended (hist : Nat) (row : Nat → K) (xs : List K) (i : Nat) : K :=
  if i < hist then row i else xs.getD (i - hist) 0

theorem response_congr (w : Nat → K) (xs : List K) : ∀ {row row' : Nat → K},
    (∀ k, k < hist → row k = row' k) → response hist w row xs = response hist w row' xs := by
  induction xs with
  | nil => intro row row' _; rfl
  | cons x xs ih =>
    intro row row' h
    rw [response, response, tap_congr w h, ih fun k _ => shift_congr x k h]

theorem extended_shift (row : Nat → K) (x : K) (xs : List K)
    (i : Nat) : extended hist (shift hist row x) xs i = extended hist row (x :: xs) (i + 1) := by
  unfold extended shift
  by_cases h1 : i + 1 < hist
  · rw [if_pos (by omega), if_pos h1, if_pos h1]
  rw [if_neg h1]
  by_cases h2 : i < hist
  · have hi : i + 1 - hist = 0 := by omega
    rw [if_pos h2, if_neg h1, hi, getD_cons_zero]
  have hi : i + 1 - hist = (i - hist) + 1 := by omega
  rw [if_neg h2, if_neg h1, hi, getD_cons_succ]

/-- **The window left behind** holds the last `hist` entries of the extended stream. -/
theorem window_eq_extended (xs : List K) : ∀ (row : Nat → K) {j : Nat}, j < hist →
    window hist row xs j = extended hist row xs (xs.length + j) := by
  induction xs with
  | nil =>
    intro row j hj
    unfold extended
    rw [length_nil, Nat.zero_add, if_pos hj]
    rfl
  | cons x xs ih =>
    intro row j hj
    show window hist (shift hist row x) xs j = _
    rw [ih _ hj, extended_shift, length_cons]
    congr 1
    omega

/-- **The response is the causal convolution** of the extended stream. -/
theorem response_eq_extended (w : Nat → K) (xs : List K) : ∀ row : Nat → K, response hist w row xs
      = (range xs.length).map fun t =>
          ∑ k ∈ Finset.range (hist + 1), extended hist row xs (t + k) * w k := by
  induction xs with
  | nil => intro row; rfl
  | cons x xs ih =>
    intro row
    rw [response, ih, length_cons, range_succ_eq_map, map_cons, map_map]
    congr 1
    · unfold tap
      rw [Finset.sum_range_succ]
      congr 1
      · refine Finset.sum_congr rfl fun k hk => ?_
        unfold extended
        rw [Nat.zero_add, if_pos (Finset.mem_range.mp hk)]
      unfold extended
      rw [Nat.zero_add, if_neg (Nat.lt_irrefl hist), Nat.sub_self, getD_cons_zero]
    refine map_congr_left fun t _ => ?_
    refine Finset.sum_congr rfl fun k _ => ?_
    rw [extended_shift]
    congr 2
    omega

end DenseCore.Lib
