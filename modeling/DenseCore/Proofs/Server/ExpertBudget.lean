/-
The expert budget of the request queue.

The search of `MoEAwareDequeue` passes over requests that would exceed the budget only
once it has settled on one, so the first request with a score is taken whatever it costs,
and without such a request the front of the heap is.  Requests without a cluster are no
exception: their score is 0, and the rule for scores does to them what their own branch
does.  After the first choice the search only moves to requests within the budget, which
is why the choice and what scores above it decide everything.
-/
import DenseCore.Proofs.Server.Queue
import Mathlib.Data.List.TakeWhile

namespace DenseCore.Server.RequestQueue

open Option

open List hiding not_le

variable {ρ : Type}

/-! ### Budget and score -/

/-- With the request the number of distinct active experts stays within `maxExperts`. -/
def WithinBudget (currentExperts : Finset Int) (maxExperts : Int) (req : QueuedRequest ρ) : Prop :=
  ((currentExperts ∪ req.expertCluster.toFinset).card : Int) ≤ maxExperts

instance (currentExperts : Finset Int) (maxExperts : Int) (req : QueuedRequest ρ) :
    Decidable (WithinBudget currentExperts maxExperts req) :=
  inferInstanceAs (Decidable (_ ≤ _))

/-- The count of the code, which takes an expert as often as the cluster names it. -/
def CountedWithin (currentExperts : Finset Int) (maxExperts : Int) (req : QueuedRequest ρ) : Prop :=
  ((currentExperts.card + (overlapOf currentExperts req.expertCluster).2 : Nat) : Int) ≤ maxExperts

instance (currentExperts : Finset Int) (maxExperts : Int) (req : QueuedRequest ρ) :
    Decidable (CountedWithin currentExperts maxExperts req) :=
  inferInstanceAs (Decidable (_ ≤ _))

/-- The score by which the dequeue compares requests. -/
def scoreOf (currentExperts : Finset Int) (req : QueuedRequest ρ) : Int :=
  let overlap := overlapOf currentExperts req.expertCluster
  overlap.1 * 10 - overlap.2

variable {currentExperts : Finset Int} {maxExperts : Int}

theorem CountedWithin.withinBudget {req : QueuedRequest ρ}
    (h : CountedWithin currentExperts maxExperts req) :
    WithinBudget currentExperts maxExperts req := by
  have hnew : (currentExperts ∪ req.expertCluster.toFinset).card ≤
      currentExperts.card + (overlapOf currentExperts req.expertCluster).2 := by
    rw [← Finset.union_sdiff_self_eq_union]
    refine (Finset.card_union_le _ _).trans (Nat.add_le_add_left ?_ _)
    have hsub : req.expertCluster.toFinset \ currentExperts ⊆
        (req.expertCluster.filter (· ∉ currentExperts)).toFinset := by
      intro e he
      simpa [and_comm] using he
    refine (Finset.card_le_card hsub).trans ((toFinset_card_le _).trans ?_)
    exact Nat.le_of_eq (countP_eq_length_filter ..).symm
  unfold CountedWithin at h
  unfold WithinBudget
  omega

/-! ### The search -/

theorem scoreStep_eq {best : Option Nat × Int} (hbest : best.1 = none ↔ best.2 < 0)
    (item : QueuedRequest ρ × Nat) : scoreStep currentExperts maxExperts best item =
      if ¬CountedWithin currentExperts maxExperts item.1 ∧ best.1 ≠ none then best
      else if best.2 < scoreOf currentExperts item.1 then
        (some item.2, scoreOf currentExperts item.1)
      else best := by
  unfold scoreStep
  by_cases hnil : item.1.expertCluster = []
  · have hzero : scoreOf currentExperts item.1 = 0 := by
      unfold scoreOf overlapOf
      rw [hnil]
      rfl
    rw [if_pos hnil, hzero]
    by_cases hnone : best.1 = none
    · rw [if_pos hnone, if_neg fun h => h.2 hnone, if_pos (hbest.mp hnone)]
    have hge : ¬best.2 < 0 := fun h => hnone (hbest.mpr h)
    rw [if_neg hnone, if_neg hge, ite_self]
  rw [if_neg hnil]
  simp only [CountedWithin, not_le]
  rfl

theorem foldl_scoreStep_none {items : List (QueuedRequest ρ × Nat)}
    (h : ∀ x ∈ items, scoreOf currentExperts x.1 < 0) :
    items.foldl (scoreStep currentExperts maxExperts) (none, -1) = (none, -1) := by
  induction items with
  | nil => rfl
  | cons x rest ih =>
    have hx := h x mem_cons_self
    have hstep : scoreStep currentExperts maxExperts (none, -1) x = (none, -1) := by
      rw [scoreStep_eq (iff_of_true rfl (by decide)), if_neg fun h => h.2 rfl]
      exact if_neg (by omega)
    rw [foldl_cons, hstep]
    exact ih fun y hy => h y (mem_cons_of_mem x hy)

/-- **Behind the first choice** the search keeps it, unless a request within the budget has
a higher score; then it ends with such a request. -/
theorem foldl_scoreStep_some (currentExperts : Finset Int) (maxExperts : Int)
    (items : List (QueuedRequest ρ × Nat)) (i : Nat) {s : Int} (hs : 0 ≤ s) :
    (items.foldl (scoreStep currentExperts maxExperts) (some i, s)).1 = some i ∧
        (∀ x ∈ items, CountedWithin currentExperts maxExperts x.1 →
          scoreOf currentExperts x.1 ≤ s) ∨
      ∃ x ∈ items, CountedWithin currentExperts maxExperts x.1 ∧ s < scoreOf currentExperts x.1 ∧
        (items.foldl (scoreStep currentExperts maxExperts) (some i, s)).1 = some x.2 := by
  induction items generalizing i s with
  | nil => exact Or.inl ⟨rfl, fun x hx => absurd hx not_mem_nil⟩
  | cons item rest ih =>
    rw [foldl_cons, scoreStep_eq (iff_of_false (some_ne_none i) (by omega))]
    by_cases hcount : CountedWithin currentExperts maxExperts item.1
    · rw [if_neg fun h => h.1 hcount]
      by_cases hlt : s < scoreOf currentExperts item.1
      · rw [if_pos hlt]
        refine Or.inr ?_
        rcases ih item.2 (Int.le_trans hs (Int.le_of_lt hlt)) with
          ⟨hkept, -⟩ | ⟨x, hx, hxcount, hxlt, hlast⟩
        · exact ⟨item, mem_cons_self, hcount, hlt, hkept⟩
        · exact ⟨x, mem_cons_of_mem item hx, hxcount, Int.lt_trans hlt hxlt, hlast⟩
      rw [if_neg hlt]
      rcases ih i hs with ⟨hkept, hall⟩ | ⟨x, hx, hxcount, hxlt, hlast⟩
      · exact Or.inl ⟨hkept, List.forall_mem_cons.mpr ⟨fun _ => Int.not_lt.mp hlt, hall⟩⟩
      · exact Or.inr ⟨x, mem_cons_of_mem item hx, hxcount, hxlt, hlast⟩
    rw [if_pos ⟨hcount, some_ne_none i⟩]
    rcases ih i hs with ⟨hkept, hall⟩ | ⟨x, hx, hxcount, hxlt, hlast⟩
    · exact Or.inl ⟨hkept, List.forall_mem_cons.mpr ⟨fun h => absurd h hcount, hall⟩⟩
    · exact Or.inr ⟨x, mem_cons_of_mem item hx, hxcount, hxlt, hlast⟩

/-! ### What is returned -/

/-- A request that the scan passes over. -/
def unscored (currentExperts : Finset Int) (req : QueuedRequest ρ) : Bool :=
  scoreOf currentExperts req < 0

/-- The first request with a score is within the budget, or one behind it has a higher score
and counts as within the budget; if none has a score, the front of the heap is within it. -/
def KeepsBudget (currentExperts : Finset Int) (maxExperts : Int)
    (reqs : List (QueuedRequest ρ)) : Prop :=
  match reqs.dropWhile (unscored currentExperts) with
  | [] => ∀ front ∈ reqs.head?, WithinBudget currentExperts maxExperts front
  | choice :: later =>
    WithinBudget currentExperts maxExperts choice ∨
      ∃ req ∈ later, CountedWithin currentExperts maxExperts req ∧
        scoreOf currentExperts choice < scoreOf currentExperts req

theorem moeDequeueSection_fst {q : RequestQueue ρ} (currentExperts : Finset Int)
    (maxExperts : Int) (hclosed : q.closed = false) (hne : q.heap ≠ #[]) :
    ∃ req, (q.moeDequeueSection currentExperts maxExperts).1 = .item req ∧
      q.heap[(bestIndex currentExperts maxExperts q.heap).getD 0]? = some req := by
  have hpos : 0 < q.heap.size := Array.size_pos_iff.mpr hne
  rw [moeDequeueSection, if_neg (by simp [hclosed]), if_neg (by omega)]
  cases hbest : bestIndex currentExperts maxExperts q.heap with
  | none =>
    have hroot := Lib.SliceHeap.pop_root requestLess hne
    have hfront : q.heap[0]? = some q.heap[0] := Array.getElem?_eq_getElem hpos
    refine ⟨q.heap[0], ?_, hfront⟩
    rw [hfront] at hroot
    unfold popHead
    rcases hpop : Lib.SliceHeap.pop requestLess q.heap with ⟨o, rest⟩
    rw [hpop] at hroot
    obtain rfl : o = some q.heap[0] := hroot
    rfl
  | some i =>
    have hlt := bestIndex_lt hbest
    have hget : q.heap[i]? = some q.heap[i] := Array.getElem?_eq_getElem hlt
    exact ⟨q.heap[i], by simp [hget], hget⟩

theorem withinBudget_iff {heap : Array (QueuedRequest ρ)} {req : QueuedRequest ρ}
    (hreq : heap[(bestIndex currentExperts maxExperts heap).getD 0]? = some req) :
    WithinBudget currentExperts maxExperts req ↔
      KeepsBudget currentExperts maxExperts heap.toList := by
  have hsplit := takeWhile_append_dropWhile (p := unscored currentExperts) (l := heap.toList)
  have hskipped : ∀ x ∈ heap.toList.takeWhile (unscored currentExperts),
      scoreOf currentExperts x < 0 := by
    intro x hx
    have hunscored := mem_takeWhile_imp (p := unscored currentExperts) hx
    exact of_decide_eq_true hunscored
  have hchosen : ∀ x ∈ (heap.toList.dropWhile (unscored currentExperts)).head?,
      0 ≤ scoreOf currentExperts x := by
    intro x hx
    have hhead := head?_dropWhile_not (unscored currentExperts) heap.toList
    rw [mem_def.mp hx] at hhead
    exact Int.not_lt.mp (of_decide_eq_false hhead)
  unfold KeepsBudget
  unfold bestIndex at hreq
  rw [← Array.getElem?_toList] at hreq
  generalize heap.toList.takeWhile (unscored currentExperts) = skipped at hsplit hskipped
  generalize heap.toList.dropWhile (unscored currentExperts) = rest at hsplit hchosen ⊢
  rw [← hsplit] at hreq ⊢
  rw [zipIdx_append, foldl_append, foldl_scoreStep_none
    fun x hx => hskipped x.1 (fst_mem_of_mem_zipIdx hx)] at hreq
  cases rest with
  | nil =>
    have hfront : (skipped ++ [])[0]? = some req := hreq
    dsimp only
    rw [head?_eq_getElem?, hfront]
    simp
  | cons choice later =>
    have hchoice : 0 ≤ scoreOf currentExperts choice := hchosen choice rfl
    have hstep : scoreStep currentExperts maxExperts (none, -1)
        (choice, 0 + skipped.length) = (some (0 + skipped.length), scoreOf currentExperts choice) := by
      rw [scoreStep_eq (iff_of_true rfl (by decide)), if_neg fun h => h.2 rfl]
      exact if_pos (Int.lt_of_lt_of_le (by decide) hchoice)
    rw [zipIdx_cons, foldl_cons, hstep] at hreq
    rcases foldl_scoreStep_some currentExperts maxExperts
      (later.zipIdx (0 + skipped.length + 1)) (0 + skipped.length) hchoice with
      ⟨hkept, hall⟩ | ⟨⟨other, i⟩, hother, hcount, hlt, hlast⟩
    · rw [hkept, getD_some, Nat.zero_add, getElem?_append_right (Nat.le_refl _),
        Nat.sub_self, getElem?_cons_zero] at hreq
      cases hreq
      refine ⟨Or.inl, ?_⟩
      rintro (h | ⟨other, hother, hcount, hlt⟩)
      · exact h
      obtain ⟨i, hi⟩ := List.mem_iff_getElem?.mp hother
      have hle := hall (other, 0 + skipped.length + 1 + i)
        (List.mk_add_mem_zipIdx_iff_getElem?.mpr hi) hcount
      exact absurd hlt (Int.not_lt.mpr hle)
    obtain ⟨hge, hget⟩ := List.mk_mem_zipIdx_iff_le_and_getElem?_sub.mp hother
    rw [hlast, getD_some, getElem?_append_right (by omega),
      show i - skipped.length = i - (0 + skipped.length + 1) + 1 by omega,
      getElem?_cons_succ, hget] at hreq
    obtain rfl := some.inj hreq
    exact iff_of_true hcount.withinBudget
      (Or.inr ⟨other, mem_of_getElem? hget, hcount, hlt⟩)

/-- **The budget is kept** by `MoEAwareDequeue` exactly when the queue is closed, no request
keeps it, or the first choice leads to one that does. -/
theorem moeDequeue_withinBudget_iff (q : RequestQueue ρ) (currentExperts : Finset Int)
    (maxExperts : Int) :
    ((∃ req ∈ q.heap, WithinBudget currentExperts maxExperts req) →
        ∀ req, (q.moeDequeueSection currentExperts maxExperts).1 = .item req →
          WithinBudget currentExperts maxExperts req) ↔
      q.closed = true ∨ (∀ req ∈ q.heap, ¬WithinBudget currentExperts maxExperts req) ∨
        KeepsBudget currentExperts maxExperts q.heap.toList := by
  by_cases hclosed : q.closed = true
  · refine iff_of_true (fun _ req hreq => ?_) (Or.inl hclosed)
    rw [moeDequeueSection_closed hclosed] at hreq
    cases hreq
  by_cases hsome : ∃ req ∈ q.heap, WithinBudget currentExperts maxExperts req
  · have hne : q.heap ≠ #[] := by
      rintro hnil
      obtain ⟨req, hreq, -⟩ := hsome
      rw [hnil] at hreq
      exact absurd hreq (Array.not_mem_empty req)
    obtain ⟨req, hitem, hget⟩ := moeDequeueSection_fst currentExperts
      maxExperts (Bool.eq_false_iff.mpr hclosed) hne
    have hkeeps := withinBudget_iff hget
    constructor
    · exact fun h => Or.inr (Or.inr (hkeeps.mp (h hsome req hitem)))
    rintro (h | h | h) - other hother
    · exact absurd h hclosed
    · obtain ⟨r, hr, hwithin⟩ := hsome
      exact absurd hwithin (h r hr)
    rw [hitem] at hother
    cases hother
    exact hkeeps.mpr h
  · exact iff_of_true (fun h => absurd h hsome)
      (Or.inr (Or.inl fun req hreq hwithin => hsome ⟨req, hreq, hwithin⟩))

/-- Expert 1 is active and the budget is two.  The front of the heap shares it and brings two
more, which scores 8; the other request brings one, which scores -1 and is passed over. -/
theorem sharedExpert_over_budget :
    let q : RequestQueue Unit :=
      { newRequestQueue Unit 10 with heap := #[⟨1, 0, [1, 2, 3], ()⟩, ⟨0, 0, [2], ()⟩] }
    (∃ req ∈ q.heap, WithinBudget {1} 2 req) ∧
      (q.moeDequeueSection {1} 2).1 = .item ⟨1, 0, [1, 2, 3], ()⟩ ∧
      ¬WithinBudget {1} 2 (⟨1, 0, [1, 2, 3], ()⟩ : QueuedRequest Unit) := by
  refine ⟨⟨⟨0, 0, [2], ()⟩, by simp, by decide⟩, by decide, by decide⟩

end DenseCore.Server.RequestQueue
