/-
What the critical sections of the queue do.

Every section that takes requests out takes them out of the heap and touches
neither `closed` nor the channel: `Takes` says so, with what was taken.  The heap
operations permute, so this holds for every order on the requests, and for
whatever index the expert search settles on.
-/
import DenseCore.Server.Queue

namespace DenseCore.Server

variable {ρ : Type}

/-- The requests a consumer finds. -/
def Head.taken : Head ρ → List (QueuedRequest ρ)
  | .closed => []
  | .empty => []
  | .item req => [req]

namespace RequestQueue

variable {q : RequestQueue ρ}

/-- The section took `out` from the heap and did nothing else to the queue. -/
structure Takes (q q' : RequestQueue ρ) (out : List (QueuedRequest ρ)) : Prop where
  /-- What is taken and what stays is what was there. -/
  heap : q.heap.toList.Perm (out ++ q'.heap.toList)
  closed : q'.closed = q.closed
  signal : q'.signal = q.signal
  maxSize : q'.maxSize = q.maxSize

theorem Takes.refl (q : RequestQueue ρ) : Takes q q [] :=
  ⟨List.Perm.refl _, rfl, rfl, rfl⟩

theorem Takes.size {q' : RequestQueue ρ} {out : List (QueuedRequest ρ)} (h : Takes q q' out) :
    q.heap.size = out.length + q'.heap.size := by
  simpa using h.heap.length_eq

theorem Takes.ne_empty {q' : RequestQueue ρ} {out : List (QueuedRequest ρ)}
    (h : Takes q q' out) (hne : q'.heap ≠ #[]) : q.heap ≠ #[] := by
  have hsize := h.size
  have hpos : 0 < q'.heap.size := Array.size_pos_iff.mpr hne
  exact Array.size_pos_iff.mp (by omega)

/-- The channel is closed exactly when the queue is. -/
def Consistent (q : RequestQueue ρ) : Prop := q.signal.closed = q.closed

theorem Takes.consistent {q' : RequestQueue ρ} {out : List (QueuedRequest ρ)} (h : Takes q q' out)
    (hq : q.Consistent) : q'.Consistent := by
  show q'.signal.closed = q'.closed
  rw [h.closed, h.signal]
  exact hq

/-! ### Enqueue -/

/-- `Enqueue` either refuses, or pushes the request with its time. -/
theorem enqueueSection_spec (q : RequestQueue ρ) (req : QueuedRequest ρ) (now : Int) :
    let r := q.enqueueSection req now
    (r.2.closed = q.closed ∧ r.2.signal = q.signal) ∧ ((r.1 = none ∧ r.2.heap = q.heap) ∨
        (r.1 = some { req with enqueueTime := now } ∧ q.closed = false ∧
          r.2.heap.toList.Perm ({ req with enqueueTime := now } :: q.heap.toList))) := by
  unfold enqueueSection
  by_cases hc : q.closed = true
  · simp [hc]
  rw [if_neg hc]
  split
  · exact ⟨⟨rfl, rfl⟩, Or.inl ⟨rfl, rfl⟩⟩
  · exact ⟨⟨rfl, rfl⟩, Or.inr ⟨rfl, by simpa using hc, Lib.SliceHeap.push_perm _ _ _⟩⟩

theorem Consistent.enqueueSection (h : q.Consistent) (req : QueuedRequest ρ) (now : Int) :
    (q.enqueueSection req now).2.Consistent := by
  obtain ⟨⟨hclosed, hsignal⟩, -⟩ := q.enqueueSection_spec req now
  show _ = _
  rw [hclosed, hsignal]
  exact h

/-! ### Taking one request -/

theorem popHead_spec (hne : q.heap ≠ #[]) :
    ∃ req, q.popHead.1 = .item req ∧ Takes q q.popHead.2 [req] := by
  obtain ⟨req, hreq, hperm⟩ := Lib.SliceHeap.pop_perm requestLess hne
  unfold popHead
  rcases hpop : Lib.SliceHeap.pop requestLess q.heap with ⟨o, heap⟩
  rw [hpop] at hreq hperm
  obtain rfl : o = some req := hreq
  exact ⟨req, rfl, hperm, rfl, rfl, rfl⟩

theorem dequeueSection_closed (hc : q.closed = true) : q.dequeueSection = (.closed, q) := by
  rw [dequeueSection, if_pos hc]

theorem dequeueSection_empty (hc : q.closed = false) (he : q.heap = #[]) :
    q.dequeueSection = (.empty, q) := by
  simp [dequeueSection, hc, he]

theorem dequeueSection_item (hc : q.closed = false) (hne : q.heap ≠ #[]) :
    ∃ req, q.dequeueSection.1 = .item req ∧ Takes q q.dequeueSection.2 [req] := by
  have hpos : 0 < q.heap.size := Array.size_pos_iff.mpr hne
  rw [dequeueSection, if_neg (by simp [hc]), if_pos hpos]
  exact popHead_spec hne

/-! ### The expert search -/

/-- The search only ever settles on an index it has looked at. -/
theorem foldl_scoreStep_mem (currentExperts : Finset Int) (maxExperts : Int)
    (items : List (QueuedRequest ρ × Nat)) :
    ∀ (best : Option Nat × Int) (i : Nat),
      (items.foldl (scoreStep currentExperts maxExperts) best).1 = some i →
      best.1 = some i ∨ ∃ req, (req, i) ∈ items := by
  induction items with
  | nil => intro best i h; exact Or.inl h
  | cons item rest ih =>
    intro best i h
    rcases ih _ i h with hstep | ⟨req, hreq⟩
    · have hcases : (scoreStep currentExperts maxExperts best item).1 = best.1 ∨
          (scoreStep currentExperts maxExperts best item).1 = some item.2 := by
        unfold scoreStep
        dsimp only
        split
        · split
          · exact Or.inr rfl
          · exact Or.inl rfl
        split
        · exact Or.inl rfl
        split
        · exact Or.inr rfl
        · exact Or.inl rfl
      rcases hcases with hold | hnew
      · exact Or.inl (hold ▸ hstep)
      rw [hnew] at hstep
      cases hstep
      exact Or.inr ⟨item.1, List.mem_cons_self⟩
    · exact Or.inr ⟨req, List.mem_cons_of_mem _ hreq⟩

variable {currentExperts : Finset Int} {maxExperts : Int}

theorem bestIndex_lt {heap : Array (QueuedRequest ρ)} {i : Nat}
    (h : bestIndex currentExperts maxExperts heap = some i) : i < heap.size := by
  rcases foldl_scoreStep_mem currentExperts maxExperts _ _ i h with hnone | ⟨req, hreq⟩
  · exact absurd hnone (by simp)
  have hget := List.mem_zipIdx_iff_getElem?.mp hreq
  have hlt := (List.getElem?_eq_some_iff.mp hget).1
  simpa using hlt

theorem moeDequeueSection_closed
    (hc : q.closed = true) : q.moeDequeueSection currentExperts maxExperts = (.closed, q) := by
  rw [moeDequeueSection, if_pos hc]

theorem moeDequeueSection_empty (hc : q.closed = false) (he : q.heap = #[]) :
    q.moeDequeueSection currentExperts maxExperts = (.empty, q) := by
  simp [moeDequeueSection, hc, he]

/-- With or without a best index, `MoEAwareDequeue` takes one request. -/
theorem moeDequeueSection_item (hc : q.closed = false) (hne : q.heap ≠ #[]) :
    ∃ req, (q.moeDequeueSection currentExperts maxExperts).1 = .item req ∧
      Takes q (q.moeDequeueSection currentExperts maxExperts).2 [req] := by
  have hpos : 0 < q.heap.size := Array.size_pos_iff.mpr hne
  rw [moeDequeueSection, if_neg (by simp [hc]), if_neg (by omega)]
  cases hbest : bestIndex currentExperts maxExperts q.heap with
  | none => exact popHead_spec hne
  | some i =>
    have hlt := bestIndex_lt hbest
    have hget : q.heap[i]? = some q.heap[i] := Array.getElem?_eq_getElem hlt
    refine ⟨q.heap[i], by simp [hget], ?_⟩
    simp only [hget]
    exact ⟨(Lib.SliceHeap.remove_perm requestLess hlt).2, rfl, rfl, rfl⟩

/-! ### TryDequeue, Close and Drain -/

/-- `TryDequeue` returns what it takes. -/
theorem tryDequeue_takes (q : RequestQueue ρ) : Takes q q.tryDequeue.2 q.tryDequeue.1.toList := by
  unfold tryDequeue
  split
  · exact Takes.refl q
  rename_i h
  have hne : q.heap ≠ #[] := by
    intro he
    exact h (Or.inr (by simp [he]))
  obtain ⟨req, hreq, htakes⟩ := popHead_spec hne
  rcases hpop : q.popHead with ⟨head, q₁⟩
  rw [hpop] at hreq htakes
  obtain rfl : head = .item req := hreq
  exact htakes

theorem drainLoop_spec (fuel : Nat) : ∀ heap : Array (QueuedRequest ρ), heap.size ≤ fuel →
      heap.toList.Perm (drainLoop fuel heap).1 ∧ (drainLoop fuel heap).2 = #[] := by
  induction fuel with
  | zero =>
    intro heap hsize
    have he : heap = #[] := Array.size_eq_zero_iff.mp (by omega)
    subst he
    exact ⟨List.Perm.refl _, rfl⟩
  | succ fuel ih =>
    intro heap hsize
    by_cases hne : heap = #[]
    · subst hne
      exact ⟨List.Perm.refl _, rfl⟩
    obtain ⟨req, hreq, hperm⟩ := Lib.SliceHeap.pop_perm requestLess hne
    rcases hpop : Lib.SliceHeap.pop requestLess heap with ⟨o, rest⟩
    rw [hpop] at hreq hperm
    obtain rfl : o = some req := hreq
    have hlen := hperm.length_eq
    obtain ⟨hrest, hempty⟩ := ih rest (by simp at hlen; omega)
    simp only [drainLoop, hpop]
    exact ⟨hperm.trans (hrest.cons req), hempty⟩

/-- `Drain` returns the whole heap. -/
theorem drain_spec (q : RequestQueue ρ) : Takes q q.drain.2 q.drain.1 ∧ q.drain.2.heap = #[] := by
  obtain ⟨hperm, hempty⟩ := drainLoop_spec q.heap.size q.heap (Nat.le_refl _)
  have hheap : q.drain.2.heap = #[] := hempty
  refine ⟨⟨?_, rfl, rfl, rfl⟩, hheap⟩
  rw [hheap, show q.drain.1 = (drainLoop q.heap.size q.heap).1 from rfl]
  simpa using hperm

@[simp] theorem close_closed (q : RequestQueue ρ) : q.close.closed = true := by
  unfold close
  split
  · assumption
  · rfl

@[simp] theorem close_heap (q : RequestQueue ρ) : q.close.heap = q.heap := by
  unfold close
  split <;> rfl

theorem Consistent.close (h : q.Consistent) : q.close.Consistent := by
  unfold RequestQueue.close
  split
  · exact h
  · rfl

end RequestQueue

end DenseCore.Server
