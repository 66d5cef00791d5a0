/-
The best few elements of a list.

In a linear order an element has a rank in a list, the number of elements before
it.  Sorting puts the element of rank `n` at position `n`, so the first `k` of the
sorted list are the elements of rank below `k`.  A heap that is offered the elements
one at a time and gives up its worst when it is full ends with the same elements.
-/
import Mathlib.Data.List.Sort

namespace DenseCore.Lib

open List hiding le_of_lt le_refl lt_trans not_lt

variable {α : Type*} [LinearOrder α]

/-- How many elements come before `c`. -/
def rank (l : List α) (c : α) : Nat := l.countP (· < c)

theorem rank_perm {l l' : List α} (h : l.Perm l') (c : α) : rank l c = rank l' c := h.countP_eq _

theorem rank_eq_zero_iff_forall_le {l : List α} {c : α} : rank l c = 0 ↔ ∀ a ∈ l, c ≤ a := by
  unfold rank
  rw [countP_eq_zero]
  simp

variable {k : Nat}

/-- The first `k` of a sorted list are the elements of rank below `k`. -/
theorem mem_take_iff_rank {l : List α} (hl : l.Pairwise (· < ·)) {c : α} :
    c ∈ l.take k ↔ c ∈ l ∧ rank l c < k := by
  induction l generalizing k with
  | nil => simp
  | cons a rest ih =>
    obtain ⟨hafter, hrest⟩ := pairwise_cons.mp hl
    cases k with
    | zero => simp
    | succ k =>
      rw [take_succ_cons, mem_cons, mem_cons, ih hrest]
      constructor
      · rintro (rfl | ⟨hc, hrank⟩)
        · refine ⟨Or.inl rfl, ?_⟩
          have hzero : rank (c :: rest) c = 0 := by
            rw [rank_eq_zero_iff_forall_le]
            intro b hb
            rcases mem_cons.mp hb with rfl | hb
            · exact le_refl _
            · exact le_of_lt (hafter b hb)
          omega
        refine ⟨Or.inr hc, ?_⟩
        unfold rank at hrank ⊢
        rw [countP_cons]
        split <;> omega
      · rintro ⟨hc, hrank⟩
        rcases hc with rfl | hc
        · exact Or.inl rfl
        refine Or.inr ⟨hc, ?_⟩
        unfold rank at hrank ⊢
        rw [countP_cons_of_pos (by simpa using hafter c hc)] at hrank
        omega

/-- The heap holds the best `k` elements of the list, the worst of them first. -/
structure BestOf (k : Nat) (l heap : List α) : Prop where
  split : ∃ rest, (heap ++ rest).Perm l ∧ ∀ a ∈ heap, ∀ b ∈ rest, a < b
  sorted : heap.Pairwise (· > ·)
  length : heap.length = min k l.length

theorem BestOf.nil (k : Nat) : BestOf k ([] : List α) [] :=
  ⟨⟨[], Perm.refl _, fun a ha => absurd ha not_mem_nil⟩, List.Pairwise.nil, by simp⟩

theorem pairwise_orderedInsert {heap : List α} (hsorted : heap.Pairwise (· > ·)) {c : α}
    (hnew : c ∉ heap) : (heap.orderedInsert (· > ·) c).Pairwise (· > ·) := by
  induction heap with
  | nil => exact pairwise_singleton _ c
  | cons b rest ih =>
    obtain ⟨hb, hrest⟩ := pairwise_cons.mp hsorted
    have hne : c ≠ b := ne_of_not_mem_cons hnew
    have hnew := not_mem_of_not_mem_cons hnew
    rw [orderedInsert_cons]
    split
    · rename_i hgt
      refine pairwise_cons.mpr ⟨?_, hsorted⟩
      intro a ha
      rcases mem_cons.mp ha with rfl | ha
      · exact hgt
      · exact lt_trans (hb a ha) hgt
    rename_i hle
    refine pairwise_cons.mpr ⟨?_, ih hrest hnew⟩
    intro a ha
    rcases mem_cons.mp ((perm_orderedInsert (· > ·) c rest).mem_iff.mp ha) with
      rfl | ha
    · exact lt_of_le_of_ne (not_lt.mp hle) hne
    · exact hb a ha

omit [LinearOrder α] in
theorem perm_snoc {heap rest l : List α} {c : α} (h : (heap ++ rest).Perm l) :
    (c :: heap ++ rest).Perm (l ++ [c]) :=
  (Perm.cons c h).trans (perm_append_singleton c l).symm

theorem BestOf.insert {l heap : List α} (h : BestOf k l heap) {c : α} (hnew : c ∉ l)
    (hroom : heap.length < k) : BestOf k (l ++ [c]) (heap.orderedInsert (· > ·) c) := by
  obtain ⟨rest, hperm, -⟩ := h.split
  have hlength := h.length
  have hsum := hperm.length_eq
  rw [length_append] at hsum
  obtain rfl : rest = [] := length_eq_zero_iff.mp (by omega)
  rw [append_nil] at hperm
  refine ⟨⟨[], ?_, fun a _ b hb => absurd hb not_mem_nil⟩, ?_, ?_⟩
  · rw [append_nil]
    refine (perm_orderedInsert _ c heap).trans ?_
    exact (Perm.cons c hperm).trans (perm_append_singleton c l).symm
  · exact pairwise_orderedInsert h.sorted fun hc => hnew (hperm.mem_iff.mp hc)
  rw [orderedInsert_length, length_append, length_singleton]
  omega

theorem BestOf.replace {l heap : List α} {worst c : α}
    (h : BestOf k l (worst :: heap)) (hnew : c ∉ l) (hfull : k ≤ heap.length + 1)
    (hbetter : c < worst) : BestOf k (l ++ [c]) (heap.orderedInsert (· > ·) c) := by
  obtain ⟨rest, hperm, hsplit⟩ := h.split
  obtain ⟨hworst, hsorted⟩ := pairwise_cons.mp h.sorted
  have hlength := h.length
  rw [length_cons] at hlength
  refine ⟨⟨worst :: rest, ?_, ?_⟩, ?_, ?_⟩
  · have hmove : (heap ++ worst :: rest).Perm (worst :: heap ++ rest) := perm_middle
    refine ((perm_orderedInsert _ c heap).append_right _).trans ?_
    exact perm_snoc (hmove.trans hperm)
  · intro a ha b hb
    have hle : b = worst ∨ b ∈ rest := mem_cons.mp hb
    rcases mem_cons.mp ((perm_orderedInsert (· > ·) c heap).mem_iff.mp ha) with rfl | ha
    · rcases hle with rfl | hb
      · exact hbetter
      · exact lt_trans hbetter (hsplit worst mem_cons_self b hb)
    rcases hle with rfl | hb
    · exact hworst a ha
    · exact hsplit a (mem_cons_of_mem worst ha) b hb
  · refine pairwise_orderedInsert hsorted fun hc => hnew (hperm.mem_iff.mp ?_)
    exact mem_append_left _ (mem_cons_of_mem worst hc)
  rw [orderedInsert_length, length_append, length_singleton]
  omega

theorem BestOf.skip {l heap : List α} (h : BestOf k l heap) {c : α}
    (hfull : k ≤ heap.length) (hworse : ∀ a ∈ heap, a < c) : BestOf k (l ++ [c]) heap := by
  obtain ⟨rest, hperm, hsplit⟩ := h.split
  have hlength := h.length
  refine ⟨⟨c :: rest, ?_, ?_⟩, h.sorted, ?_⟩
  · exact perm_middle.trans (perm_snoc hperm)
  · intro a ha b hb
    rcases mem_cons.mp hb with rfl | hb
    · exact hworse a ha
    · exact hsplit a ha b hb
  rw [length_append, length_singleton]
  omega

/-- **The sorted heap is the beginning of the sorted list.** -/
theorem BestOf.mergeSort_eq {l heap : List α} (h : BestOf k l heap) :
    heap.mergeSort (· ≤ ·) = (l.mergeSort (· ≤ ·)).take k := by
  obtain ⟨rest, hperm, hsplit⟩ := h.split
  have hlength := h.length
  have hsum := hperm.length_eq
  rw [length_append] at hsum
  have hsorted : (heap.mergeSort (· ≤ ·) ++ rest.mergeSort (· ≤ ·)).Pairwise (· ≤ ·) := by
    refine pairwise_append.mpr ⟨pairwise_mergeSort' _ _, pairwise_mergeSort' _ _, ?_⟩
    intro a ha b hb
    exact le_of_lt (hsplit a (mem_mergeSort.mp ha) b (mem_mergeSort.mp hb))
  have hsame : (heap.mergeSort (· ≤ ·) ++ rest.mergeSort (· ≤ ·)).Perm (l.mergeSort (· ≤ ·)) :=
    ((mergeSort_perm heap _).append (mergeSort_perm rest _)).trans
      (hperm.trans (mergeSort_perm l _).symm)
  rw [← hsame.eq_of_pairwise' hsorted (pairwise_mergeSort' _ _)]
  rcases Nat.lt_or_ge l.length k with hlt | hge
  · obtain rfl : rest = [] := length_eq_zero_iff.mp (by omega)
    rw [mergeSort_nil, append_nil, take_of_length_le]
    rw [length_mergeSort]
    omega
  rw [take_left']
  rw [length_mergeSort]
  omega

theorem pairwise_lt_mergeSort {l : List α} (h : l.Nodup) :
    (l.mergeSort (· ≤ ·)).Pairwise (· < ·) := by
  have hsorted : (l.mergeSort (· ≤ ·)).Pairwise (· ≤ ·) := pairwise_mergeSort' _ _
  have hnodup : (l.mergeSort (· ≤ ·)).Nodup := (mergeSort_perm l _).nodup_iff.mpr h
  exact (hsorted.and hnodup).imp fun hab => lt_of_le_of_ne hab.1 hab.2

end DenseCore.Lib
