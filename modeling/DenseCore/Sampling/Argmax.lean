/-
The largest value of an array.

`ArgmaxScalar` and `ArgmaxAVX2` (`sampler/sampler.cpp`).  The vector version keeps a best
value and its index in each of eight lanes, reduces the lanes in their order and then
looks at the values behind the last full block.  The values are those of a linear order:
there is no NaN among them.
-/
import DenseCore.Lib.FirstBest
import Mathlib.Data.Fin.Basic

namespace DenseCore.Sampler

variable {α : Type} [LinearOrder α]

/-- `if (v > best)`, with the best value and its index. -/
def better (best x : α × Int) : α × Int := if best.1 < x.1 then x else best

variable (data : Int → α)

/-- The scalar loop over a row. -/
def argmaxScalar (n stride : Int) : Int :=
  if n ≤ 0 then -1
  else
    ((List.range' 1 (n.toNat - 1)).foldl
      (fun best (i : Nat) => better best (data (i * stride), (i : Int))) (data 0, 0)).2

/-- `max_vals`, `max_idx` and `cur_idx`. -/
structure Lanes (α : Type) where
  max : Fin 8 → α
  maxIdx : Fin 8 → Int
  curIdx : Fin 8 → Int

/-- The first load. -/
def Lanes.load : Lanes α where
  max j := data j.val
  maxIdx j := j.val
  curIdx j := j.val

/-- The loop body, for the block at `i`. -/
def Lanes.round (l : Lanes α) (i : Nat) : Lanes α :=
  let v : Fin 8 → α := fun j => data (i + j.val : Nat)
  let cmp : Fin 8 → Bool := fun j => l.max j < v j
  let cur : Fin 8 → Int := fun j => l.curIdx j + 8
  { max := fun j => if cmp j then v j else l.max j
    curIdx := cur
    maxIdx := fun j => if cmp j then cur j else l.maxIdx j }

/-- The horizontal reduction. -/
def Lanes.reduce (l : Lanes α) : α × Int :=
  (List.finRange 8).tail.foldl (fun best j => better best (l.max j, l.maxIdx j))
    (l.max 0, l.maxIdx 0)

/-- The blocks begin at 8, 16 and so on, as long as they are full. -/
def argmaxAVX2 (n : Int) : Int :=
  if n ≤ 0 then -1
  else if n < 8 then argmaxScalar data n 1
  else
    let blocks := n.toNat / 8
    let l := (List.range (blocks - 1)).foldl (fun l b => l.round data (8 * (b + 1)))
      (Lanes.load data)
    ((List.range' (8 * blocks) (n.toNat % 8)).foldl
      (fun best (i : Nat) => better best (data (i : Int), (i : Int))) l.reduce).2

end DenseCore.Sampler
