/-
Memory with bounds, and loops that may fault.

A buffer knows its size; a load or a store at an index outside it has no result.
Indices are integers, as in code that computes `base + n - 1`, so that an index
below zero is a fault and not a wrapped one.

A counted loop over fallible steps is a `foldlM` over `List.range`.  The rule below
is the usual loop rule: where each step has a result and leads from the state
foreseen before it to the one foreseen after it, the loop has a result and ends in
the state foreseen last.
-/
import Mathlib.Algebra.BigOperators.Group.Finset.Basic
import Mathlib.Algebra.Ring.Defs

namespace DenseCore.Lib

open List

/-- A block of memory. -/
@[ext]
structure Buffer (K : Type*) where
  size : Nat
  get : Nat → K

namespace Buffer

variable {K : Type*}

variable (b : Buffer K)

/-- A read, which fails outside. -/
def load (i : Int) : Option K :=
  if 0 ≤ i ∧ i < b.size then some (b.get i.toNat) else none

/-- A write, which fails outside. -/
def store (i : Int) (x : K) : Option (Buffer K) :=
  if 0 ≤ i ∧ i < b.size then some { b with get := Function.update b.get i.toNat x } else none

/-- `b[dst] = b[src]`. -/
def move (dst src : Int) : Option (Buffer K) := do
  let x ← b.load src
  b.store dst x

theorem load_eq_some {i : Nat} (h : i < b.size) : b.load i = some (b.get i) := by
  unfold load
  rw [if_pos ⟨Int.natCast_nonneg i, by exact_mod_cast h⟩, Int.toNat_natCast]

theorem store_eq_some {i : Nat} (h : i < b.size) (x : K) :
    b.store i x = some { b with get := Function.update b.get i x } := by
  unfold store
  rw [if_pos ⟨Int.natCast_nonneg i, by exact_mod_cast h⟩, Int.toNat_natCast]

theorem store_neg {i : Int} (h : i < 0) (x : K) : b.store i x = none := by
  unfold store
  rw [if_neg (by omega)]

theorem move_eq_some {dst src : Nat} (hd : dst < b.size) (hs : src < b.size) :
    b.move dst src = some { b with get := Function.update b.get dst (b.get src) } := by
  unfold move
  rw [load_eq_some b hs]
  exact store_eq_some b hd _

end Buffer

/-- **The loop rule**, for loops whose state after `k` steps is a function of `k`. -/
theorem foldlM_range_eq {σ : Type*} {f : σ → Nat → Option σ} (g : Nat → σ) (n : Nat)
    (hstep : ∀ k, k < n → f (g k) k = some (g (k + 1))) :
    (range n).foldlM f (g 0) = some (g n) := by
  induction n with
  | zero => rfl
  | succ n ih =>
    rw [range_succ, foldlM_append, ih fun k hk => hstep k (Nat.lt_succ_of_lt hk)]
    simp [hstep n (Nat.lt_succ_self n)]

/-- A loop faults with its first step. -/
theorem foldlM_range_none {σ : Type*} {f : σ → Nat → Option σ} {n : Nat} (hn : 0 < n) {s : σ}
    (h : f s 0 = none) : (range n).foldlM f s = none := by
  obtain ⟨m, rfl⟩ : ∃ m, n = m + 1 := ⟨n - 1, by omega⟩
  rw [range_succ_eq_map, foldlM_cons, h]
  rfl

end DenseCore.Lib
