/-
Tables as lists with distinct keys.

A table whose entries carry their own key is a list in which no key occurs twice.  What
is stored under a key is looked up with `get` and taken out with `without`; the total
weight of the entries goes down by exactly what `get` finds.
-/
import Mathlib.Algebra.Order.Ring.Int
import Mathlib.Algebra.BigOperators.Group.List.Basic
import Mathlib.Data.List.Nodup

namespace DenseCore.Lib.Table

open List

variable {ε κ : Type} [DecidableEq κ] (key : ε → κ)

/-- The entry under a key. -/
def get (k : κ) (l : List ε) : Option ε := l.find? fun e => decide (key e = k)

/-- The entries under other keys. -/
def without (k : κ) (l : List ε) : List ε := l.filter fun e => decide (key e ≠ k)

/-- No key occurs twice. -/
def Distinct (l : List ε) : Prop := (l.map key).Nodup

variable {key} {k : κ} {l : List ε} {e : ε}

theorem mem_without : e ∈ without key k l ↔ e ∈ l ∧ key e ≠ k := by
  simp [without]

theorem get_eq_none : get key k l = none ↔ ∀ e ∈ l, key e ≠ k := by
  simp [get]

theorem get_eq_some (h : get key k l = some e) : e ∈ l ∧ key e = k :=
  ⟨mem_of_find?_eq_some h, by simpa using find?_some h⟩

theorem without_of_absent (h : ∀ e ∈ l, key e ≠ k) : without key k l = l :=
  filter_eq_self.mpr fun e he => decide_eq_true (h e he)

omit [DecidableEq κ] in
theorem Distinct.of_sublist {l' : List ε} (h : Distinct key l) (hsub : Sublist l' l) :
    Distinct key l' := h.sublist (hsub.map key)

theorem Distinct.without (h : Distinct key l) (k : κ) : Distinct key (without key k l) :=
  h.of_sublist filter_sublist

omit [DecidableEq κ] in
theorem Distinct.cons (h : Distinct key l) (hnew : ∀ x ∈ l, key x ≠ key e) :
    Distinct key (e :: l) := by
  refine nodup_cons.mpr ⟨fun hmem => ?_, h⟩
  obtain ⟨x, hx, hkey⟩ := mem_map.mp hmem
  exact hnew x hx hkey

theorem Distinct.get (h : Distinct key l) (he : e ∈ l) : get key (key e) l = some e := by
  induction l with
  | nil => cases he
  | cons x l ih =>
    obtain ⟨hx, hl⟩ := nodup_cons.mp h
    unfold Table.get
    rw [find?_cons]
    rcases mem_cons.mp he with rfl | he
    · rw [decide_eq_true rfl]
    have hne : key x ≠ key e := fun heq => hx (heq ▸ mem_map_of_mem he)
    rw [decide_eq_false hne]
    exact ih hl he

variable (key) in
/-- The weight that is taken out with a key. -/
def weightAt (weight : ε → ℤ) (k : κ) (l : List ε) : ℤ := ((get key k l).map weight).getD 0

theorem Distinct.sum_without (weight : ε → ℤ) (h : Distinct key l) (k : κ) : (l.map weight).sum =
      ((Table.without key k l).map weight).sum + weightAt key weight k l := by
  induction l with
  | nil => rfl
  | cons x l ih =>
    obtain ⟨hx, hl⟩ := nodup_cons.mp h
    by_cases hk : key x = k
    · have habsent : ∀ e ∈ l, key e ≠ k := fun e he heq =>
        hx (hk ▸ heq ▸ mem_map_of_mem he)
      have hget : Table.get key k (x :: l) = some x := by
        unfold Table.get
        rw [find?_cons, decide_eq_true hk]
      have hrest : Table.without key k (x :: l) = l := by
        have hskip : ¬ decide (key x ≠ k) = true := by simp [hk]
        unfold Table.without
        rw [filter_cons, if_neg hskip]
        exact without_of_absent habsent
      rw [weightAt, hget, hrest, map_cons, sum_cons, add_comm]
      rfl
    have hget : Table.get key k (x :: l) = Table.get key k l := by
      unfold Table.get
      rw [find?_cons, decide_eq_false hk]
    have hrest : Table.without key k (x :: l) = x :: Table.without key k l :=
      filter_cons_of_pos (decide_eq_true hk)
    rw [weightAt, hget, hrest, map_cons, map_cons, sum_cons, sum_cons, ih hl, weightAt, add_assoc]

variable (key) in
theorem length_without_lt (he : e ∈ l) : (without key (key e) l).length < l.length :=
  length_filter_lt_length_iff_exists.mpr ⟨e, he, by simp⟩

end DenseCore.Lib.Table
