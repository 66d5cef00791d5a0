/-
Softmax averages computed in one pass.

A streaming kernel keeps a reference score, a denominator and an accumulator, all
relative to that reference, and rescales the last two whenever it changes the
reference.  `Tracks` says what they stand for: the exact sums, times the
exponential of minus the reference.  Absorbing more terms under any new reference
keeps it, so how the stream is cut into blocks and which references are chosen
does not matter; the quotient is the plain softmax average of the whole stream.

The exponential is any positive function that turns sums into products.
-/
import Mathlib.Algebra.Order.Field.Basic
import Mathlib.Algebra.BigOperators.Group.List.Lemmas
import Mathlib.Tactic.Ring
import Mathlib.Tactic.FieldSimp

namespace DenseCore.Lib

open List

variable {K ι : Type*} [Field K]

/-- The exact sum of the exponentials of a stream of scores with values. -/
def expSum (E : K → K) (l : List (K × (ι → K))) : K := (l.map fun t => E t.1).sum

/-- The exact weighted sum of the values. -/
def expWeighted (E : K → K) (l : List (K × (ι → K))) (i : ι) : K :=
  (l.map fun t => E t.1 * t.2 i).sum

/-- Reference, denominator and accumulator stand for the terms of a stream. -/
structure Tracks (E : K → K) (ref denom : K) (out : ι → K) (l : List (K × (ι → K))) : Prop where
  denom_eq : denom = E (-ref) * expSum E l
  out_eq : ∀ i, out i = E (-ref) * expWeighted E l i

theorem tracks_nil (E : K → K) (ref : K) : Tracks E ref 0 (fun _ : ι => 0) [] := by
  refine ⟨?_, ?_⟩
  · simp [expSum]
  intro i
  simp [expWeighted]

variable [LinearOrder K]

/-- A positive function that turns sums into products. -/
structure IsExponential (E : K → K) : Prop where
  add : ∀ a b, E (a + b) = E a * E b
  pos : ∀ a, 0 < E a

variable {E : K → K}

section

variable (hE : IsExponential E)

include hE

theorem expSum_shift (ref : K) (l : List (K × (ι → K))) :
    (l.map fun t => E (t.1 - ref)).sum = E (-ref) * expSum E l := by
  unfold expSum
  induction l with
  | nil => simp
  | cons t rest ih =>
    rw [map_cons, sum_cons, map_cons, sum_cons, ih, sub_eq_add_neg, hE.add]
    ring

theorem expWeighted_shift (ref : K) (l : List (K × (ι → K))) (i : ι) :
    (l.map fun t => E (t.1 - ref) * t.2 i).sum = E (-ref) * expWeighted E l i := by
  unfold expWeighted
  induction l with
  | nil => simp
  | cons t rest ih =>
    rw [map_cons, sum_cons, map_cons, sum_cons, ih, sub_eq_add_neg, hE.add]
    ring

/-- Moving the reference multiplies what is tracked by one factor. -/
theorem exp_rebase (ref ref' : K) :
    E (-ref) * E (ref - ref') = E (-ref') := by
  rw [← hE.add]
  congr 1
  ring

/-- **Absorbing a block under any new reference keeps the sums tracked.** -/
theorem Tracks.absorb {ref denom : K} {out : ι → K}
    {l : List (K × (ι → K))} (h : Tracks E ref denom out l) (ref' : K) (l' : List (K × (ι → K))) :
    Tracks E ref' (denom * E (ref - ref') + (l'.map fun t => E (t.1 - ref')).sum)
      (fun i => out i * E (ref - ref') + (l'.map fun t => E (t.1 - ref') * t.2 i).sum)
      (l ++ l') := by
  refine ⟨?_, ?_⟩
  · rw [expSum_shift hE, h.denom_eq]
    calc E (-ref) * expSum E l * E (ref - ref') + E (-ref') * expSum E l'
        = E (-ref) * E (ref - ref') * expSum E l + E (-ref') * expSum E l' := by ring
      _ = E (-ref') * (expSum E l + expSum E l') := by rw [exp_rebase hE]; ring
      _ = E (-ref') * expSum E (l ++ l') := by simp [expSum]
  intro i
  rw [expWeighted_shift hE, h.out_eq]
  calc E (-ref) * expWeighted E l i * E (ref - ref') + E (-ref') * expWeighted E l' i
      = E (-ref) * E (ref - ref') * expWeighted E l i + E (-ref') * expWeighted E l' i := by ring
    _ = E (-ref') * (expWeighted E l i + expWeighted E l' i) := by rw [exp_rebase hE]; ring
    _ = E (-ref') * expWeighted E (l ++ l') i := by simp [expWeighted]

theorem expSum_nonneg [IsStrictOrderedRing K] (l : List (K × (ι → K))) :
    0 ≤ expSum E l := by
  unfold expSum
  induction l with
  | nil => simp
  | cons t rest ih =>
    rw [map_cons, sum_cons]
    exact add_nonneg (hE.pos _).le ih

theorem expSum_pos [IsStrictOrderedRing K]
    {l : List (K × (ι → K))} (hl : l ≠ []) : 0 < expSum E l := by
  cases l with
  | nil => exact absurd rfl hl
  | cons t rest =>
    unfold expSum
    rw [map_cons, sum_cons]
    exact add_pos_of_pos_of_nonneg (hE.pos _) (expSum_nonneg hE rest)

end

end DenseCore.Lib
