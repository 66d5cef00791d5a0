/-
Tasks that take turns on a shared state.

Each task is at a control point of its own.  A step belongs to one task: it reads
and writes the shared state and moves that task's control point.  A schedule is the
list of tasks in the order of their steps, so a statement about every schedule is a
statement about every interleaving.  An invariant kept by each task's step holds
after every schedule.  `arrived` counts the tasks that have passed some point, which
is what a barrier counter is compared with.
-/
import Mathlib.Data.Finset.Card

namespace DenseCore.Lib

open Function (update update_of_ne update_self)

variable {σ ρ : Type*}

/-- A shared state and the control point of every task. -/
structure Pool (σ ρ : Type*) where
  shared : σ
  pc : Nat → ρ

namespace Pool

/-- Task `i` takes its next step. -/
def step (act : Nat → σ → ρ → σ × ρ) (s : Pool σ ρ) (i : Nat) : Pool σ ρ where
  shared := (act i s.shared (s.pc i)).1
  pc := update s.pc i (act i s.shared (s.pc i)).2

/-- The tasks step in the order of the schedule. -/
def run (act : Nat → σ → ρ → σ × ρ) (s : Pool σ ρ) (schedule : List Nat) : Pool σ ρ :=
  schedule.foldl (step act) s

variable {act : Nat → σ → ρ → σ × ρ}

@[simp] theorem step_shared (s : Pool σ ρ) (i : Nat) :
    (s.step act i).shared = (act i s.shared (s.pc i)).1 := rfl

@[simp] theorem step_pc_self (s : Pool σ ρ) (i : Nat) :
    (s.step act i).pc i = (act i s.shared (s.pc i)).2 :=
  update_self _ _ _

theorem step_pc_of_ne (s : Pool σ ρ) {i j : Nat} (h : j ≠ i) : (s.step act i).pc j = s.pc j :=
  update_of_ne h _ _

theorem inv_run (Inv : Pool σ ρ → Prop) (hstep : ∀ s i, Inv s → Inv (s.step act i))
    (schedule : List Nat) : ∀ s, Inv s → Inv (s.run act schedule) := by
  induction schedule with
  | nil => intro s hs; exact hs
  | cons i rest ih =>
    intro s hs
    exact ih _ (hstep s i hs)

end Pool

/-! ### Counting arrivals -/

/-- How many of the first `n` tasks are at a control point where `p` holds. -/
def arrived (n : Nat) (p : ρ → Bool) (pc : Nat → ρ) : Nat :=
  ((Finset.range n).filter fun i => p (pc i) = true).card

variable {n i : Nat} {p : ρ → Bool} {pc : Nat → ρ} {x : ρ}

theorem arrived_le (n : Nat) (p : ρ → Bool) (pc : Nat → ρ) : arrived n p pc ≤ n :=
  (Finset.card_filter_le _ _).trans (Finset.card_range n).le

theorem arrived_none (h : ∀ i, i < n → p (pc i) = false) : arrived n p pc = 0 := by
  unfold arrived
  rw [Finset.card_eq_zero, Finset.filter_eq_empty_iff]
  intro i hi
  rw [h i (Finset.mem_range.mp hi)]
  exact Bool.false_ne_true

/-- A move that does not pass the point changes no count. -/
theorem arrived_update_same (h : p x = p (pc i)) :
    arrived n p (update pc i x) = arrived n p pc := by
  unfold arrived
  congr 1
  refine Finset.filter_congr ?_
  intro j _
  by_cases hj : j = i
  · rw [hj, update_self, h]
  · rw [update_of_ne hj]

/-- Tasks beyond the first `n` are not counted. -/
theorem arrived_update_beyond (hi : n ≤ i) : arrived n p (update pc i x) = arrived n p pc := by
  unfold arrived
  congr 1
  refine Finset.filter_congr ?_
  intro j hj
  have hj' := Finset.mem_range.mp hj
  rw [update_of_ne (by omega)]

/-- A task that passes the point is counted once. -/
theorem arrived_update_new (hi : i < n) (hold : p (pc i) = false) (hnew : p x = true) :
    arrived n p (update pc i x) = arrived n p pc + 1 := by
  have hinsert : (Finset.range n).filter (fun j => p (update pc i x j) = true)
      = insert i ((Finset.range n).filter fun j => p (pc j) = true) := by
    ext j
    rw [Finset.mem_insert, Finset.mem_filter, Finset.mem_filter, Finset.mem_range]
    by_cases hj : j = i
    · rw [hj, update_self]
      exact ⟨fun _ => Or.inl rfl, fun _ => ⟨hi, hnew⟩⟩
    rw [update_of_ne hj]
    exact ⟨Or.inr, fun h => h.resolve_left hj⟩
  have hfresh : i ∉ (Finset.range n).filter fun j => p (pc j) = true := by
    intro h
    rw [Finset.mem_filter, hold] at h
    exact Bool.false_ne_true h.2
  unfold arrived
  rw [hinsert, Finset.card_insert_of_notMem hfresh]

/-- When all are counted, all have passed. -/
theorem all_of_arrived (h : arrived n p pc = n) (hi : i < n) : p (pc i) = true := by
  have hall : (Finset.range n).filter (fun j => p (pc j) = true) = Finset.range n := by
    refine Finset.eq_of_subset_of_card_le (Finset.filter_subset _ _) ?_
    rw [Finset.card_range]
    exact h.ge
  have hmem : i ∈ (Finset.range n).filter (fun j => p (pc j) = true) := by
    rw [hall]
    exact Finset.mem_range.mpr hi
  exact (Finset.mem_filter.mp hmem).2

end DenseCore.Lib
