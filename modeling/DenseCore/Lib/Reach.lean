/-
Invariants along chains of moves.

A component whose operations are long is verified by naming the small moves they
are made of.  An invariant is then proved once per move, and the two rules below
carry it to whole operations and to runs of operations: the first along a chain
of moves, the second along a list of operations each of which is such a chain.
-/
import Mathlib.Logic.Relation

namespace DenseCore.Lib

variable {α ι : Type*} {move : α → α → Prop} {Inv : α → Prop}

theorem inv_of_moves (hmove : ∀ a b, Inv a → move a b → Inv b) {a b : α}
    (hab : Relation.ReflTransGen move a b) (ha : Inv a) : Inv b := by
  induction hab with
  | refl => exact ha
  | tail _ hstep ih => exact hmove _ _ ih hstep

/-- An operation that is a chain of moves wherever the invariant holds keeps the
invariant along every run. -/
theorem inv_of_run {apply : α → ι → α} (hmove : ∀ a b, Inv a → move a b → Inv b)
    (hop : ∀ a i, Inv a → Relation.ReflTransGen move a (apply a i)) (ops : List ι) :
    ∀ a, Inv a → Inv (ops.foldl apply a) := by
  induction ops with
  | nil => intro a ha; exact ha
  | cons i rest ih =>
    intro a ha
    exact ih _ (inv_of_moves hmove (hop a i ha) ha)

theorem moves_of_run {apply : α → ι → α} (hmove : ∀ a b, Inv a → move a b → Inv b)
    (hop : ∀ a i, Inv a → Relation.ReflTransGen move a (apply a i)) (ops : List ι) :
    ∀ a, Inv a → Relation.ReflTransGen move a (ops.foldl apply a) := by
  induction ops with
  | nil => intro a _; exact Relation.ReflTransGen.refl
  | cons i rest ih =>
    intro a ha
    have hstep := hop a i ha
    exact hstep.trans (ih _ (inv_of_moves hmove hstep ha))

end DenseCore.Lib
