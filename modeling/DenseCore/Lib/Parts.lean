/-
What the parts of a state hold together.

A state with many components, each of which holds a list of things, holds their
concatenation.  Replacing one component replaces its share; up to order nothing
else changes.
-/
import Mathlib.Data.List.Perm.Basic
import Mathlib.Data.List.Dedup

namespace DenseCore.Lib

open List

variable {α β : Type*} {xs : List α} {i : Nat} {x : α}

/-- One component's share, taken out of the whole. -/
theorem flatMap_perm_of_getElem (f : α → List β) (hx : xs[i]? = some x) :
    (xs.flatMap f).Perm (f x ++ (xs.eraseIdx i).flatMap f) := by
  have hperm : xs.Perm (x :: xs.eraseIdx i) := by
    obtain ⟨hlt, hget⟩ := List.getElem?_eq_some_iff.mp hx
    rw [← hget]
    exact (getElem_cons_eraseIdx_perm hlt).symm
  simpa using hperm.flatMap_right f

/-- The share of a component that was replaced. -/
theorem flatMap_set_perm (f : α → List β) (hx : xs[i]? = some x) (y : α) :
    ((xs.set i y).flatMap f).Perm (f y ++ (xs.eraseIdx i).flatMap f) := by
  obtain ⟨hlt, -⟩ := List.getElem?_eq_some_iff.mp hx
  have hset : (xs.set i y)[i]? = some y := by
    rw [getElem?_set_self hlt]
  have hperm := flatMap_perm_of_getElem f hset
  rwa [eraseIdx_set_eq] at hperm

theorem flatMap_append_singleton (f : α → List β) (y : α) :
    (xs ++ [y]).flatMap f = xs.flatMap f ++ f y := by
  simp

/-- A component other than the replaced one is still there. -/
theorem mem_set_of_ne (hx : xs[i]? = some x) {y z : α} (hz : z ∈ xs) (hne : z ≠ x) :
    z ∈ xs.set i y := by
  obtain ⟨j, hj⟩ := mem_iff_getElem?.mp hz
  have hij : i ≠ j := by
    rintro rfl
    exact hne (Option.some.inj (hj.symm.trans hx))
  exact mem_iff_getElem?.mpr ⟨j, by rw [getElem?_set_ne hij, hj]⟩

theorem mem_eraseIdx_of_getElem? {j : Nat} (hx : xs[i]? = some x) (hne : i ≠ j) :
    x ∈ xs.eraseIdx j :=
  mem_eraseIdx_iff_getElem?.mpr ⟨i, hne, hx⟩

theorem mem_set_self (hx : xs[i]? = some x) (y : α) : y ∈ xs.set i y := by
  obtain ⟨hlt, -⟩ := List.getElem?_eq_some_iff.mp hx
  exact mem_set hlt y

theorem countP_set_add (p : α → Bool) (hx : xs[i]? = some x) (y : α) :
    (xs.set i y).countP p + (p x).toNat = xs.countP p + (p y).toNat := by
  obtain ⟨hlt, hget⟩ := List.getElem?_eq_some_iff.mp hx
  have hperm := getElem_cons_eraseIdx_perm hlt
  have hset : i < (xs.set i y).length := by
    rw [length_set]
    exact hlt
  have hperm' := getElem_cons_eraseIdx_perm hset
  rw [getElem_set_self, eraseIdx_set_eq] at hperm'
  rw [← hperm.countP_eq, ← hperm'.countP_eq, countP_cons, countP_cons, hget]
  cases p x <;> cases p y <;> simp

theorem getElem?_append_of_some (hx : xs[i]? = some x) (ys : List α) : (xs ++ ys)[i]? = some x := by
  rw [getElem?_append_left (List.getElem?_eq_some_iff.mp hx).1]
  exact hx

theorem getElem?_concat_cases {y : α} (h : (xs ++ [y])[i]? = some x) :
    xs[i]? = some x ∨ i = xs.length ∧ x = y := by
  by_cases hlt : i < xs.length
  · rw [getElem?_append_left hlt] at h
    exact Or.inl h
  rw [getElem?_append_right (Nat.le_of_not_lt hlt), getElem?_singleton] at h
  split at h
  · rename_i hzero
    exact Or.inr ⟨by omega, (Option.some.inj h).symm⟩
  · cases h

theorem nodup_split [DecidableEq α] {l : List α} (hnodup : l.Nodup) {a : α} (ha : a ∈ l) :
    l.Perm (a :: l.filter (· ≠ a)) := by
  have heq : l.filter (· ≠ a) = l.erase a := by
    rw [hnodup.erase_eq_filter]
    refine filter_congr fun x _ => ?_
    by_cases hx : x = a <;> simp [hx]
  rw [heq]
  exact perm_cons_erase ha

theorem assoc_split [DecidableEq α] {l : List (α × β)} {a : α} {b : β}
    (hkeys : (l.map (·.1)).Nodup) (hin : (a, b) ∈ l) :
    l.Perm ((a, b) :: l.filter (·.1 ≠ a)) := by
  induction l with
  | nil => cases hin
  | cons e rest ih =>
    rw [map_cons, nodup_cons] at hkeys
    rcases mem_cons.mp hin with rfl | hrest
    · have hothers : ∀ e ∈ rest, decide (e.1 ≠ a) = true := by
        intro e he
        refine decide_eq_true fun heq => hkeys.1 ?_
        exact mem_map.mpr ⟨e, he, heq⟩
      rw [filter_cons_of_neg (by simp), filter_eq_self.mpr hothers]
    have hne : e.1 ≠ a := by
      intro heq
      exact hkeys.1 (mem_map.mpr ⟨(a, b), hrest, heq.symm⟩)
    rw [filter_cons_of_pos (by simp [hne])]
    exact ((ih hkeys.2 hrest).cons e).trans (Perm.swap _ _ _)

end DenseCore.Lib
