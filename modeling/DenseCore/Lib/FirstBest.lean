/-
The first of the best elements of a list.

A scan keeps the best element so far and gives it up only for a better one, so of equally
good elements it ends with the first.  A list scanned in parts, each part for its own best
and these for the best among them, is scanned as the parts stand one after the other.
-/
import Mathlib.Order.Lattice
import Mathlib.Data.List.Forall2

namespace DenseCore.Lib

open List hiding le_of_lt le_refl le_trans lt_of_le_of_lt not_le not_lt

variable {α β γ : Type*} [LinearOrder α]

/-- One step of a scan for the largest key. -/
def keepBest (key : β → α) (best x : β) : β := if key best < key x then x else best

/-- `r` is the first of the elements with the largest key. -/
def FirstBest (key : β → α) (l : List β) (r : β) : Prop :=
  ∃ before after, l = before ++ r :: after ∧ (∀ x ∈ before, key x < key r) ∧
    ∀ x ∈ after, key x ≤ key r

variable {key : β → α} {l : List β} {r : β}

theorem FirstBest.mem (h : FirstBest key l r) : r ∈ l := by
  obtain ⟨before, after, rfl, -, -⟩ := h
  exact mem_append_right _ mem_cons_self

theorem FirstBest.le (h : FirstBest key l r) : ∀ x ∈ l, key x ≤ key r := by
  obtain ⟨before, after, rfl, hbefore, hafter⟩ := h
  intro x hx
  rcases mem_append.mp hx with hx | hx
  · exact le_of_lt (hbefore x hx)
  rcases mem_cons.mp hx with rfl | hx
  · exact le_refl _
  · exact hafter x hx

theorem firstBest_singleton (key : β → α) (r : β) : FirstBest key [r] r :=
  ⟨[], [], rfl, fun _ h => absurd h not_mem_nil, fun _ h => absurd h not_mem_nil⟩

theorem FirstBest.snoc (h : FirstBest key l r) (x : β) :
    FirstBest key (l ++ [x]) (keepBest key r x) := by
  have hle := h.le
  obtain ⟨before, after, rfl, hbefore, hafter⟩ := h
  unfold keepBest
  split
  · rename_i hlt
    exact ⟨_, [], rfl, fun y hy => lt_of_le_of_lt (hle y hy) hlt, fun _ h => absurd h not_mem_nil⟩
  rename_i hge
  refine ⟨before, after ++ [x], by rw [append_assoc, cons_append], hbefore, ?_⟩
  intro y hy
  rcases mem_append.mp hy with hy | hy
  · exact hafter y hy
  rw [mem_singleton.mp hy]
  exact not_lt.mp hge

theorem FirstBest.foldl (h : FirstBest key l r) (rest : List β) :
    FirstBest key (l ++ rest) (rest.foldl (keepBest key) r) := by
  induction rest generalizing l r with
  | nil => rwa [append_nil]
  | cons x rest ih =>
    rw [append_cons]
    exact ih (h.snoc x)

/-- **The scan finds the first best.** -/
theorem firstBest_foldl (key : β → α) (c : β) (l : List β) :
    FirstBest key (c :: l) (l.foldl (keepBest key) c) :=
  (firstBest_singleton key c).foldl l

/-- **The first best of the parts' first bests** is that of the parts in their order. -/
theorem FirstBest.flatten {parts : List (List β)} {bests : List β}
    (hparts : Forall₂ (FirstBest key) parts bests) (h : FirstBest key bests r) :
    FirstBest key parts.flatten r := by
  obtain ⟨before, after, rfl, hbefore, hafter⟩ := h
  have hfront := forall₂_take_append parts before (r :: after) hparts
  have hback := forall₂_drop_append parts before (r :: after) hparts
  rw [← take_append_drop before.length parts]
  generalize parts.take before.length = front at hfront ⊢
  generalize parts.drop before.length = back at hback ⊢
  have hbound : ∀ {ps : List (List β)} {bs : List β}, Forall₂ (FirstBest key) ps bs →
      ∀ x ∈ ps.flatten, ∃ b ∈ bs, key x ≤ key b := by
    intro ps bs hps
    induction hps with
    | nil => exact fun x hx => absurd hx not_mem_nil
    | cons hp _ ih =>
      intro x hx
      rcases mem_append.mp hx with hx | hx
      · exact ⟨_, mem_cons_self, hp.le x hx⟩
      obtain ⟨b, hb, hle⟩ := ih x hx
      exact ⟨b, mem_cons_of_mem _ hb, hle⟩
  cases hback with
  | @cons _ _ rest _ hp hrest =>
    obtain ⟨pre, post, rfl, hpre, hpost⟩ := hp
    refine ⟨front.flatten ++ pre, post ++ rest.flatten, by simp, ?_, ?_⟩
    · intro x hx
      rcases mem_append.mp hx with hx | hx
      · obtain ⟨b, hb, hle⟩ := hbound hfront x hx
        exact lt_of_le_of_lt hle (hbefore b hb)
      · exact hpre x hx
    intro x hx
    rcases mem_append.mp hx with hx | hx
    · exact hpost x hx
    obtain ⟨b, hb, hle⟩ := hbound hrest x hx
    exact le_trans hle (hafter b hb)

/-- In a list ordered by `R`, the first best stands before every other best element. -/
theorem FirstBest.before {R : β → β → Prop} (h : FirstBest key l r) (hl : l.Pairwise R) {x : β}
    (hx : x ∈ l) (hbest : key r ≤ key x) (hne : x ≠ r) : R r x := by
  obtain ⟨before, after, rfl, hbefore, -⟩ := h
  rcases mem_append.mp hx with hx | hx
  · exact absurd hbest (not_le.mpr (hbefore x hx))
  have htail := (pairwise_append.mp hl).2.1
  exact (pairwise_cons.mp htail).1 x ((mem_cons.mp hx).resolve_left hne)

/-- A scan of the images is the image of a scan. -/
theorem foldl_keepBest_map (key : β → α) (f : γ → β) (c : γ) (l : List γ) :
    (l.map f).foldl (keepBest key) (f c) = f (l.foldl (keepBest (key ∘ f)) c) := by
  induction l generalizing c with
  | nil => rfl
  | cons x rest ih =>
    rw [map_cons, foldl_cons, foldl_cons, ← ih]
    congr 1
    unfold keepBest
    exact (apply_ite f _ _ _).symm

end DenseCore.Lib
