/-
The standard path's rows and its mask count differently.

With retention disabled the gather puts position `p` of the history in row `p`,
whatever the number of tasks and the order they run in.  The mask, though, numbers
its columns as if only the last `w` positions of the history had been gathered.
For a history no longer than the window the two numberings are the same.  For a
longer one every column is off by the positions the mask believes were dropped,
and the mask then shows the rows `q, …, q + w` in place of the window: the newest
keys, the query's own among them, are hidden.

The paged decode path reads the tail it labels as tail, so it attends the window
in both cases, and the two paths agree exactly on histories that fit.
-/
import Mathlib.Data.Finset.Image
import DenseCore.Attention.Window

namespace DenseCore.Attention

open List

variable {n t nPast r nTokens w pos sinkTokens tableSize : Int} {policy : KVRetentionPolicy}
  {input : GatherInput} {force : Bool}

/-! ### The retention span -/

/-- What a span keeps of a history of `n` tokens: the sinks at its start and the
tail at its end. -/
structure RetentionSpan (span : KVRetentionSpan) (n : Int) : Prop where
  sinkNonneg : 0 ≤ span.sinkKept
  sinkLe : span.sinkKept ≤ span.tailStart
  tailLe : span.tailStart ≤ n
  kept : span.historyKept = span.sinkKept + (n - span.tailStart)

theorem computeKVRetentionSpan_retains (hn : 0 ≤ n) (policy : KVRetentionPolicy) :
    RetentionSpan (computeKVRetentionSpan n policy) n := by
  unfold computeKVRetentionSpan
  split
  · obtain rfl : n = 0 := by omega
    exact ⟨by decide, by decide, by decide, by decide⟩
  split
  · exact ⟨hn, Int.le_refl n, Int.le_refl n, by dsimp only; omega⟩
  have hsink : 0 ≤ clamp policy.sinkTokens 0 n ∧ clamp policy.sinkTokens 0 n ≤ n := by
    unfold clamp
    split <;> omega
  exact ⟨hsink.1, by dsimp only; omega, by dsimp only; omega, by dsimp only; omega⟩

/-! ### The gather -/

/-- The span the gather reads by. -/
def gatherSpan (input : GatherInput) : KVRetentionSpan :=
  match input.hasValidSeq, input.seqNPast with
  | true, some n =>
    computeKVRetentionSpan (max 0 n) (effectivePolicy input.policy input.forceFullHistory)
  | _, _ => {}

/-- What the gather should leave in a row of the history. -/
def historyRow (input : GatherInput) (span : KVRetentionSpan) (r : Int) : RowSource :=
  if input.hasValidSeq = false ∨ span.historyKept ≤ r then .zeroed
  else
    let tokenPos := mapRetainedHistoryIndex span r
    if tokenPos / blockSlots < 0 ∨ input.blockTableSize ≤ tokenPos / blockSlots then .zeroed
    else .cached (tokenPos / blockSlots) (tokenPos % blockSlots)

theorem extendRun_reads (span : KVRetentionSpan) (tEnd t tokenPos b : Int) :
    ∀ (fuel : Nat) (run : Int),
    1 ≤ run → t + run ≤ tEnd →
    (∀ j, 0 ≤ j → j < run → t + j < span.historyKept ∧
      mapRetainedHistoryIndex span (t + j) = tokenPos + j ∧ (tokenPos + j) / blockSlots = b) →
    ∃ run', extendRun span tEnd t tokenPos b fuel run = run' ∧ 1 ≤ run' ∧ t + run' ≤ tEnd ∧
      ∀ j, 0 ≤ j → j < run' → t + j < span.historyKept ∧
        mapRetainedHistoryIndex span (t + j) = tokenPos + j ∧ (tokenPos + j) / blockSlots = b := by
  intro fuel
  induction fuel with
  | zero =>
    intro run h1 h2 h3
    exact ⟨run, rfl, h1, h2, h3⟩
  | succ fuel ih =>
    intro run h1 h2 h3
    unfold extendRun
    split
    · rename_i hin
      dsimp only
      split
      · exact ⟨run, rfl, h1, h2, h3⟩
      rename_i hnext
      split
      · exact ⟨run, rfl, h1, h2, h3⟩
      rename_i hblock
      have hnext' := not_not.mp hnext
      refine ih (run + 1) (by omega) (by omega) fun j hj0 hj => ?_
      by_cases hlast : j = run
      · subst hlast
        exact ⟨hin.2, hnext', hnext' ▸ not_not.mp hblock⟩
      · exact h3 j hj0 (by omega)
    · exact ⟨run, rfl, h1, h2, h3⟩

/-- Each row below the end comes from its place in the history. -/
theorem gatherHistory_row {span : KVRetentionSpan} {tEnd : Int} :
    ∀ (fuel : Nat) (t : Int) (rows : Int → RowSource), tEnd - t ≤ fuel → ∀ r,
      gatherHistory input span tEnd fuel t rows r =
        if t ≤ r ∧ r < tEnd then historyRow input span r else rows r := by
  intro fuel
  induction fuel with
  | zero =>
    intro t rows hfuel r
    rw [if_neg (by omega)]
    rfl
  | succ fuel ih =>
    intro t rows hfuel r
    unfold gatherHistory
    split
    · rw [if_neg (by omega)]
    split
    · -- Past the kept rows, the rest of the task's rows are zeroed.
      rename_i hzero
      unfold fillRows historyRow
      by_cases hr : t ≤ r ∧ r < tEnd
      · rw [if_pos (by omega), if_pos hr, if_pos (hzero.imp_right (by omega))]
      · rw [if_neg (by omega), if_neg hr]
    rename_i hread
    dsimp only
    split
    · rename_i hmissing
      rw [ih _ _ (by omega)]
      unfold fillRows
      by_cases hr : r = t
      · subst hr
        rw [if_neg (by omega), if_pos (by omega), if_pos (by omega)]
        unfold historyRow
        rw [if_neg hread]
        dsimp only
        rw [if_pos hmissing]
      by_cases hlater : t + 1 ≤ r ∧ r < tEnd
      · rw [if_pos hlater, if_pos (by omega)]
      · rw [if_neg hlater, if_neg (by omega), if_neg (by omega)]
    · rename_i hblock
      rw [not_or] at hread hblock
      obtain ⟨run, hrun, h1, hle, hreads⟩ := extendRun_reads span tEnd t
        (mapRetainedHistoryIndex span t) (mapRetainedHistoryIndex span t / blockSlots)
        (tEnd - t).toNat 1 (Int.le_refl 1) (by omega) fun j hj0 hj => by
          obtain rfl : j = 0 := by omega
          rw [Int.add_zero, Int.add_zero]
          exact ⟨by omega, rfl, rfl⟩
      rw [hrun, ih _ _ (by omega)]
      unfold fillRows
      by_cases hlater : t + run ≤ r ∧ r < tEnd
      · rw [if_pos hlater, if_pos (by omega)]
      rw [if_neg hlater]
      by_cases hhere : t ≤ r ∧ r < t + run
      · -- The rows of this read: consecutive slots of one block.
        rw [if_pos hhere, if_pos (by omega)]
        obtain ⟨hkept, hmap, hsame⟩ := hreads (r - t) (by omega) (by omega)
        rw [show t + (r - t) = r by omega] at hkept hmap
        unfold historyRow
        rw [if_neg (not_or.mpr ⟨hread.1, by omega⟩)]
        dsimp only
        rw [hmap, hsame, if_neg (not_or.mpr hblock)]
        congr 1
        unfold blockSlots at hsame ⊢
        omega
      · rw [if_neg hhere, if_neg (by omega)]

variable {total keyPos queryPos p b : Int} {nth : Nat} {s : PagedSpans}

theorem chunk_bounds (htotal : 0 ≤ total) (ith nth : Nat) :
    0 ≤ (chunk total ith nth).1 ∧ (chunk total ith nth).2 ≤ total := by
  unfold chunk
  refine ⟨?_, Int.min_le_right _ _⟩
  refine Int.mul_nonneg (by omega) ?_
  rcases Nat.eq_zero_or_pos nth with hz | hpos
  · subst hz; simp
  · exact Int.ediv_nonneg (by omega) (by omega)

/-- Whether a row or a token is in the share of a task. -/
def InChunk (total : Int) (ith nth : Nat) (r : Int) : Prop :=
  (chunk total ith nth).1 ≤ r ∧ r < (chunk total ith nth).2

instance (total : Int) (ith nth : Nat) (r : Int) : Decidable (InChunk total ith nth r) :=
  inferInstanceAs (Decidable (_ ∧ _))

/-- What one task leaves in the rows of `dst`: its shares of the history and of the
batch, and every other row as it was. -/
theorem kvUpdateAndGather_apply (hown : input.readOnlySharedKv = false) (hN : 0 ≤ input.nTokens)
    (hpast : input.nTotal - input.nTokens = nPast) (hn : 0 ≤ nPast) (nth ith : Nat)
    (rows : Int → RowSource) (r : Int) :
    kvUpdateAndGather input nth rows ith r =
      if InChunk nPast ith nth r then historyRow input (gatherSpan input) r
      else if InChunk input.nTokens ith nth (r - nPast) then .current (r - nPast)
      else rows r := by
  unfold kvUpdateAndGather
  dsimp only
  rw [hpast, if_neg (by omega)]
  simp only [hown, Bool.false_eq_true, if_false, and_true]
  obtain ⟨hlo, hhi⟩ := chunk_bounds hn ith nth
  obtain ⟨hlo', hhi'⟩ := chunk_bounds hN ith nth
  -- The two loops, each on its own rows.
  have hhist : ∀ s : Int, (if 0 < nPast then gatherHistory input (gatherSpan input)
      (chunk nPast ith nth).2 ((chunk nPast ith nth).2 - (chunk nPast ith nth).1).toNat
      (chunk nPast ith nth).1 rows else rows) s
        = if InChunk nPast ith nth s then historyRow input (gatherSpan input) s else rows s := by
    intro s
    split
    · exact gatherHistory_row _ _ _ (by omega) s
    · rw [if_neg (by unfold InChunk; omega)]
  have hcur : ∀ rows₁ : Int → RowSource, (if 0 < input.nTokens then
      fillRows rows₁ (nPast + (chunk input.nTokens ith nth).1)
        ((chunk input.nTokens ith nth).2 - (chunk input.nTokens ith nth).1)
        fun i => .current ((chunk input.nTokens ith nth).1 + i) else rows₁) r
        = if InChunk input.nTokens ith nth (r - nPast) then .current (r - nPast) else rows₁ r := by
    intro rows₁
    by_cases hin : InChunk input.nTokens ith nth (r - nPast)
    · obtain ⟨h1, h2⟩ := id hin
      rw [if_pos hin, if_pos (by omega)]
      unfold fillRows
      rw [if_pos (by omega)]
      refine congrArg RowSource.current ?_
      omega
    have hout := not_and_or.mp hin
    rw [if_neg hin]
    split
    · exact if_neg (by omega)
    · rfl
  refine (hcur _).trans ?_
  by_cases hin : InChunk nPast ith nth r
  · rw [if_pos hin, if_neg (by unfold InChunk at hin ⊢; omega)]
    exact (hhist r).trans (if_pos hin)
  rw [if_neg hin]
  exact if_congr Iff.rfl rfl ((hhist r).trans (if_neg hin))

/-! ### The gather without retention -/

/-- Every position kept: the span of a disabled policy. -/
def fullSpan (n : Int) : KVRetentionSpan := { historyKept := n, sinkKept := n, tailStart := n }

theorem computeKVRetentionSpan_disabled (hn : 0 < n)
    (hoff : policy.enabled = false) : computeKVRetentionSpan n policy = fullSpan n := by
  unfold computeKVRetentionSpan
  rw [if_neg (by omega), if_pos (Or.inl hoff)]
  rfl

theorem mapRetainedHistoryIndex_full (ht : t < n) : mapRetainedHistoryIndex (fullSpan n) t = t := by
  unfold mapRetainedHistoryIndex
  exact if_pos ht

/-- What the gather should leave in a row. -/
def expectedRow (nPast r : Int) : RowSource :=
  if r < nPast then .cached (r / blockSlots) (r % blockSlots) else .current (r - nPast)

theorem expectedRow_position : (expectedRow nPast r).position nPast = some r := by
  unfold expectedRow
  split
  · simp only [RowSource.position, Option.some.injEq]
    unfold blockSlots
    omega
  simp only [RowSource.position, Option.some.injEq]
  omega

/-- The inputs of a gather whose sequence is known, whose table covers the history
and whose retention policy is off. -/
structure FullGather (input : GatherInput) (nPast nTokens : Int) : Prop where
  nPastNonneg : 0 ≤ nPast
  nTokensPos : 0 < nTokens
  batch : input.nTokens = nTokens
  nTotal : input.nTotal = nPast + nTokens
  notShared : input.readOnlySharedKv = false
  retentionOff : input.policy.enabled = false
  validSeq : input.hasValidSeq = true
  seqNPast : input.seqNPast = some nPast
  tableCovers : nPast ≤ input.blockTableSize * blockSlots

theorem effectivePolicy_off (hoff : policy.enabled = false)
    (force : Bool) : (effectivePolicy policy force).enabled = false := by
  unfold effectivePolicy
  split
  · rfl
  · exact hoff

theorem historyRow_full (h : FullGather input nPast nTokens) (h0 : 0 ≤ r) (hr : r < nPast) :
    historyRow input (gatherSpan input) r = expectedRow nPast r := by
  have hspan : gatherSpan input = fullSpan nPast := by
    unfold gatherSpan
    rw [h.validSeq, h.seqNPast]
    dsimp only
    rw [show max 0 nPast = nPast by omega]
    exact computeKVRetentionSpan_disabled (by omega) (effectivePolicy_off h.retentionOff _)
  have hkept : ¬ (input.hasValidSeq = false ∨ (fullSpan nPast).historyKept ≤ r) := by
    rw [h.validSeq]
    simp [fullSpan, hr]
  have htable := h.tableCovers
  unfold historyRow expectedRow
  rw [hspan, if_neg hkept, mapRetainedHistoryIndex_full hr, if_pos hr]
  dsimp only
  rw [if_neg]
  unfold blockSlots at htable ⊢
  omega

theorem kvUpdateAndGather_row
    (h : FullGather input nPast nTokens) (nth ith : Nat) (rows : Int → RowSource) (r : Int) :
    kvUpdateAndGather input nth rows ith r =
      if InChunk nPast ith nth r ∨ InChunk nTokens ith nth (r - nPast)
      then expectedRow nPast r else rows r := by
  have hn := h.nPastNonneg
  have hN : 0 ≤ nTokens := Int.le_of_lt h.nTokensPos
  obtain ⟨hlo, hhi⟩ := chunk_bounds hn ith nth
  obtain ⟨hlo', -⟩ := chunk_bounds hN ith nth
  rw [kvUpdateAndGather_apply h.notShared (h.batch ▸ hN) (by rw [h.nTotal, h.batch]; omega) hn,
    h.batch]
  by_cases hhist : InChunk nPast ith nth r
  · obtain ⟨h1, h2⟩ := id hhist
    rw [if_pos hhist, if_pos (Or.inl hhist), historyRow_full h (by omega) (by omega)]
  rw [if_neg hhist]
  by_cases hcur : InChunk nTokens ith nth (r - nPast)
  · obtain ⟨h1, -⟩ := id hcur
    rw [if_pos hcur, if_pos (Or.inr hcur)]
    unfold expectedRow
    rw [if_neg (by omega)]
  · rw [if_neg hcur, if_neg (not_or.mpr ⟨hhist, hcur⟩)]

theorem exists_chunk (hnth : 0 < nth) (h0 : 0 ≤ r) (hr : r < total) :
    ∃ ith, ith < nth ∧ InChunk total ith nth r := by
  have hnth' : (0 : Int) < nth := by omega
  -- The rows per task, rounded up, are enough for all rows.
  obtain ⟨per, hper⟩ : ∃ per, per = (total + nth - 1) / (nth : Int) := ⟨_, rfl⟩
  have hcover : total ≤ nth * per := by
    have h1 := Int.emod_nonneg (total + nth - 1) (by omega : (nth : Int) ≠ 0)
    have h2 := Int.emod_lt_of_pos (total + nth - 1) hnth'
    have h3 := Int.mul_ediv_add_emod (total + nth - 1) nth
    rw [← hper] at h3
    omega
  have hperpos : 0 < per := by
    by_contra hc
    have : (nth : Int) * per ≤ 0 := Int.mul_nonpos_of_nonneg_of_nonpos (by omega) (by omega)
    omega
  have hq0 : 0 ≤ r / per := Int.ediv_nonneg h0 (by omega)
  have hqlt : r / per < nth := Int.ediv_lt_of_lt_mul hperpos (by omega)
  have hqle : r / per * per ≤ r := Int.ediv_mul_le r (by omega)
  have hqgt : r < r / per * per + per := by
    have := Int.lt_ediv_add_one_mul_self r hperpos
    rw [Int.add_mul, Int.one_mul] at this
    exact this
  refine ⟨(r / per).toNat, by omega, ?_, ?_⟩
  · unfold chunk
    rw [← hper]
    show (((r / per).toNat : Nat) : Int) * per ≤ r
    rw [Int.toNat_of_nonneg hq0]
    exact hqle
  unfold chunk
  rw [← hper]
  show r < min ((((r / per).toNat : Nat) : Int) * per + per) total
  rw [Int.toNat_of_nonneg hq0]
  omega

theorem foldl_gather_row
    (h : FullGather input nPast nTokens) (nth : Nat) (r : Int) (order : List Nat) :
    ∀ rows : Int → RowSource, (rows r = expectedRow nPast r ∨ ∃ ith ∈ order,
        InChunk nPast ith nth r ∨ InChunk nTokens ith nth (r - nPast)) →
      order.foldl (kvUpdateAndGather input nth) rows r = expectedRow nPast r := by
  induction order with
  | nil =>
    intro rows hrow
    rcases hrow with hdone | ⟨ith, hmem, _⟩
    · exact hdone
    · simp at hmem
  | cons i rest ih =>
    intro rows hrow
    refine ih _ ?_
    rw [kvUpdateAndGather_row h]
    by_cases hi : InChunk nPast i nth r ∨ InChunk nTokens i nth (r - nPast)
    · rw [if_pos hi]
      exact Or.inl rfl
    rw [if_neg hi]
    rcases hrow with hdone | ⟨ith, hmem, hown⟩
    · exact Or.inl hdone
    rcases mem_cons.mp hmem with rfl | hmem
    · exact absurd hown hi
    · exact Or.inr ⟨ith, hmem, hown⟩

/-- **Row `p` holds position `p`.**  Without retention, and in whatever order the
tasks run, the gather leaves every position of history and batch in its own row. -/
theorem gatheredRows_position
    (h : FullGather input nPast nTokens) (hnth : 0 < nth) {order : List Nat}
    (horder : ∀ ith, ith < nth → ith ∈ order) (h0 : 0 ≤ r) (hr : r < nPast + nTokens) :
    (gatheredRows input nth order r).position nPast = some r := by
  have hrow : gatheredRows input nth order r = expectedRow nPast r := by
    refine foldl_gather_row h nth r order _ (Or.inr ?_)
    by_cases hhist : r < nPast
    · obtain ⟨ith, hlt, hin⟩ := exists_chunk hnth h0 hhist
      exact ⟨ith, horder ith hlt, Or.inl hin⟩
    obtain ⟨ith, hlt, hin⟩ := exists_chunk hnth
      (by omega : 0 ≤ r - nPast) (by omega : r - nPast < nTokens)
    exact ⟨ith, horder ith hlt, Or.inr hin⟩
  rw [hrow]
  exact expectedRow_position

/-! ### The mask -/

/-- The window a query at `queryPos` should see. -/
def InWindow (w queryPos p : Int) : Prop := queryPos - w ≤ p ∧ p ≤ queryPos

theorem allowsKey_iff (hw : 0 ≤ w) :
    allowsKey w keyPos queryPos = true ↔ InWindow w queryPos keyPos := by
  simp only [allowsKey, InWindow, Bool.and_eq_true, decide_eq_true_eq, Bool.not_eq_true',
    Bool.and_eq_false_iff, decide_eq_false_iff_not]
  omega

theorem clamp_zero {hi : Int} (h : 0 ≤ hi) : clamp 0 0 hi = 0 := by
  unfold clamp
  rw [if_neg (by omega), if_neg (by omega)]

/-- The tail of a history that a window without sinks keeps. -/
def tailSpan (nPast w : Int) : KVRetentionSpan :=
  { historyKept := min nPast w, sinkKept := 0, tailStart := max 0 (nPast - w) }

theorem tailSpan_historyKept (nPast w : Int) : (tailSpan nPast w).historyKept = min nPast w := rfl

theorem mapRetainedHistoryIndex_tail (ht : 0 ≤ t) :
    mapRetainedHistoryIndex (tailSpan nPast w) t = max 0 (nPast - w) + t := by
  unfold mapRetainedHistoryIndex
  rw [if_neg (show ¬ t < (tailSpan nPast w).sinkKept from Int.not_lt.mpr ht)]
  show max 0 (nPast - w) + (t - 0) = _
  omega

theorem maskSpan_eq (hn : 0 ≤ nPast) (hw : 0 ≤ w) : maskSpan 0 nPast w = tailSpan nPast w := by
  unfold maskSpan tailSpan
  simp only [if_pos hw, Int.max_self, clamp_zero hn, KVRetentionSpan.mk.injEq, true_and]
  omega

/-- Without sinks the mask takes row `k` for the position that many places after
the part of the history it believes was dropped. -/
theorem maskKeyPos_eq {k : Int} (hn : 0 ≤ nPast) (hw : 0 ≤ w) (hk : 0 ≤ k) :
    maskKeyPos 0 nPast w k = k + max 0 (nPast - w) := by
  unfold maskKeyPos
  rw [maskSpan_eq hn hw]
  dsimp only
  rw [mapRetainedHistoryIndex_tail hk, tailSpan_historyKept]
  split <;> omega

theorem buildAttentionMaskTensor_entry (hn : 0 ≤ nPast) (ht : 0 < nTokens) (hw : 0 ≤ w) :
    ∃ mask, buildAttentionMaskTensor 0 (nPast + nTokens) nTokens nPast w (-1) = some mask ∧
      ∀ q k, q < nTokens → 0 ≤ k → (mask.entry q k = .zero ↔
        InWindow w (nPast + q) (k + max 0 (nPast - w))) := by
  unfold buildAttentionMaskTensor
  rw [if_neg (by omega)]
  refine ⟨_, rfl, ?_⟩
  intro q k hq hk
  show (if nTokens ≤ q then MaskValue.zero
    else if allowsKey w (maskKeyPos 0 nPast w k) (nPast + q) = true then .zero else .negInf)
      = .zero ↔ _
  rw [if_neg (by omega), maskKeyPos_eq hn hw hk, ← allowsKey_iff hw]
  split
  · rename_i hallow
    simp [hallow]
  rename_i hdeny
  simp [hdeny]

/-! ### The paged decode path -/

/-- What the spans of a decode token come to when the kept history has no gap: the
context is one run of positions that ends with the token's own, and the mask labels
each with itself. -/
structure ContiguousSpans (s : PagedSpans) (w pos : Int) : Prop where
  start : 0 ≤ s.contextStartPos
  kept : 0 ≤ s.retained.historyKept
  own : s.contextStartPos + s.retained.historyKept = pos
  len : s.contextLen = s.retained.historyKept + 1
  maps : ∀ t, 0 ≤ t → t < s.retained.historyKept →
    mapRetainedHistoryIndex s.retained t = s.contextStartPos + t
  mask : 0 ≤ w → s.mask = s.retained

theorem pagedSpans_contiguous (hpos : 0 ≤ pos) (htable : pos < tableSize * blockSlots)
    (hspan : (pagedSpans policy force sinkTokens w pos tableSize).noncontiguous = false) :
    ContiguousSpans (pagedSpans policy force sinkTokens w pos tableSize) w pos := by
  have hmask : 0 ≤ w → (pagedSpans policy force sinkTokens w pos tableSize).mask
      = (pagedSpans policy force sinkTokens w pos tableSize).retained := by
    intro hw
    exact (if_pos hw).symm
  have hret : RetentionSpan (pagedSpans policy force sinkTokens w pos tableSize).retained pos := by
    unfold pagedSpans
    dsimp only
    split
    · exact computeKVRetentionSpan_retains hpos _
    · exact computeKVRetentionSpan_retains hpos _
  obtain ⟨s, hs⟩ : ∃ s, s = pagedSpans policy force sinkTokens w pos tableSize := ⟨_, rfl⟩
  have hgap : s.noncontiguous =
      (decide (s.retained.historyKept < pos) && decide (0 < s.retained.sinkKept)) := by rw [hs]; rfl
  have hstart : s.contextStartPos =
      if decide (s.retained.historyKept < pos) && decide (s.retained.sinkKept = 0)
      then s.retained.tailStart else 0 := by rw [hs]; rfl
  have hlen : s.contextLen = max 1 (min (s.retained.historyKept + 1) (tableSize * blockSlots)) := by
    rw [hs]; rfl
  rw [← hs] at hmask hret hspan ⊢
  obtain ⟨h0, h1, h2, h3⟩ := hret
  rw [hgap, Bool.and_eq_false_iff, decide_eq_false_iff_not, decide_eq_false_iff_not] at hspan
  simp only [Bool.and_eq_true, decide_eq_true_eq] at hstart
  have hends : s.contextStartPos + s.retained.sinkKept = s.retained.tailStart := by
    split at hstart <;> omega
  have hlow : 0 ≤ s.contextStartPos := by
    split at hstart <;> omega
  refine ⟨hlow, by omega, by omega, by omega, ?_, hmask⟩
  intro t ht0 ht
  unfold mapRetainedHistoryIndex
  split
  · split at hstart <;> omega
  · omega

theorem allowsKey_le_iff (hle : keyPos ≤ queryPos) :
    allowsKey w keyPos queryPos = true ↔ (0 ≤ w → queryPos - w ≤ keyPos) := by
  simp only [allowsKey, Bool.and_eq_true, decide_eq_true_eq, Bool.not_eq_true',
    Bool.and_eq_false_iff, decide_eq_false_iff_not]
  omega

theorem scalarAttended_eq (h : ContiguousSpans s w pos) (htable : pos < tableSize * blockSlots) :
    scalarAttended s w pos tableSize =
      ((range s.contextLen.toNat).map fun t : Nat => s.contextStartPos + (t : Int)).filter
        fun p => allowsKey w p pos := by
  obtain ⟨hstart, hkept, hown, hlen, hmaps, hmask⟩ := h
  rw [← filterMap_eq_filter, filterMap_map]
  unfold scalarAttended
  refine filterMap_congr fun t ht => ?_
  rw [mem_range] at ht
  have hread : scalarTokenPos s pos t = s.contextStartPos + t := by
    unfold scalarTokenPos
    split
    · exact hmaps t (by omega) (by omega)
    · omega
  have hlabel : scalarMaskKeyPos s w pos t = s.contextStartPos + t := by
    unfold scalarMaskKeyPos
    split
    · rename_i hw
      rw [hmask hw]
      split
      · exact hmaps t (by omega) (by omega)
      · omega
    · exact hread
  have hin : 0 ≤ (s.contextStartPos + t) / (blockSlots : Int) ∧
      (s.contextStartPos + t) / (blockSlots : Int) < tableSize := by
    unfold blockSlots at htable ⊢
    omega
  dsimp only [Function.comp, Option.guard]
  rw [hread, hlabel]
  exact if_congr (and_iff_left hin) rfl rfl

theorem nodup_positions (start : Int) (n : Nat) :
    ((range n).map fun t : Nat => start + (t : Int)).Nodup := by
  refine Nodup.map ?_ nodup_range
  intro a b hab
  dsimp only at hab
  omega

/-- The positions either path attends: those of the context that the window holds. -/
def Attends (s : PagedSpans) (w pos p : Int) : Prop :=
  s.contextStartPos ≤ p ∧ p ≤ pos ∧ (0 ≤ w → pos - w ≤ p)

theorem mem_scalarAttended (h : ContiguousSpans s w pos) (htable : pos < tableSize * blockSlots) :
    p ∈ scalarAttended s w pos tableSize ↔ Attends s w pos p := by
  have hlen := h.len
  have hown := h.own
  have hkept := h.kept
  rw [scalarAttended_eq h htable, mem_filter, mem_map]
  constructor
  · rintro ⟨⟨t, ht, rfl⟩, hallow⟩
    rw [mem_range] at ht
    have hle : s.contextStartPos + (t : Int) ≤ pos := by omega
    exact ⟨by omega, hle, (allowsKey_le_iff hle).mp hallow⟩
  rintro ⟨hlow, hle, hwin⟩
  refine ⟨⟨(p - s.contextStartPos).toNat, mem_range.mpr (by omega), by omega⟩, ?_⟩
  exact (allowsKey_le_iff hle).mpr hwin

/-- The blocks visited are those that meet the context. -/
theorem mem_hwyBlocks (hstart : 0 ≤ s.contextStartPos) :
    b ∈ hwyBlocks s tableSize ↔ s.contextStartPos / blockSlots ≤ b ∧ b < tableSize ∧
      b * blockSlots < s.contextStartPos + s.contextLen := by
  unfold hwyBlocks
  rw [show max 0 (s.contextStartPos / (blockSlots : Int)) = s.contextStartPos / blockSlots by
    unfold blockSlots; omega]
  generalize s.contextStartPos / (blockSlots : Int) = st
  -- The blocks come in order, so the first one past the context ends the list.
  have hmono : ∀ (n : Nat) (st : Int), b ∈ ((range n).map fun i : Nat => st + (i : Int)).takeWhile
      (fun b => decide (b * (blockSlots : Int) < s.contextStartPos + s.contextLen)) ↔
      st ≤ b ∧ b < st + n ∧ b * blockSlots < s.contextStartPos + s.contextLen := by
    intro n
    induction n with
    | zero =>
      intro st
      simp only [range_zero, map_nil, takeWhile_nil, not_mem_nil, false_iff]
      omega
    | succ n ih =>
      intro st
      have hmap : (range (n + 1)).map (fun i : Nat => st + (i : Int))
          = st :: (range n).map (fun i : Nat => st + 1 + (i : Int)) := by
        rw [range_succ_eq_map, map_cons, map_map]
        congr 1
        · simp
        apply map_congr_left
        intro i _
        simp only [Function.comp]
        push_cast
        omega
      rw [hmap]
      by_cases hfirst : st * (blockSlots : Int) < s.contextStartPos + s.contextLen
      · rw [takeWhile_cons_of_pos (by simpa using hfirst), mem_cons, ih (st + 1)]
        constructor
        · rintro (rfl | ⟨h1, h2, h3⟩)
          · exact ⟨Int.le_refl _, by omega, hfirst⟩
          · exact ⟨by omega, by omega, h3⟩
        rintro ⟨h1, h2, h3⟩
        by_cases hb : b = st
        · exact Or.inl hb
        · exact Or.inr ⟨by omega, by omega, h3⟩
      rw [takeWhile_cons_of_neg (by simpa using hfirst)]
      simp only [not_mem_nil, false_iff]
      unfold blockSlots at hfirst ⊢
      omega
  rw [hmono]
  omega

theorem mem_hwyBlockPositions (hstart : 0 ≤ s.contextStartPos)
    (hb : s.contextStartPos / blockSlots ≤ b) :
    p ∈ hwyBlockPositions s b ↔ p / blockSlots = b ∧ s.contextStartPos ≤ p ∧
      p < s.contextStartPos + s.contextLen := by
  unfold hwyBlockPositions
  rw [mem_map]
  unfold blockSlots at hb ⊢
  constructor
  · rintro ⟨t, ht, rfl⟩
    rw [mem_range] at ht
    split at ht <;> split <;> omega
  rintro ⟨h1, h2, h3⟩
  by_cases hfirst : b = max 0 (s.contextStartPos / ((16 : Nat) : Int))
  · simp only [if_pos hfirst]
    refine ⟨(p - b * 16 - max 0 (s.contextStartPos % ((16 : Nat) : Int))).toNat,
      mem_range.mpr (by omega), by omega⟩
  simp only [if_neg hfirst]
  refine ⟨(p - b * 16).toNat, mem_range.mpr (by omega), by omega⟩

theorem nodup_hwyAttended (hstart : 0 ≤ s.contextStartPos) :
    (hwyAttended s w pos tableSize).Nodup := by
  refine Nodup.filter _ (nodup_flatMap.mpr ⟨?_, ?_⟩)
  · intro b _
    unfold hwyBlockPositions
    refine Nodup.map ?_ nodup_range
    intro i j hij
    dsimp only at hij
    omega
  have hblocks : (hwyBlocks s tableSize).Nodup :=
    (nodup_positions _ _).sublist (takeWhile_sublist _)
  refine hblocks.imp_of_mem ?_
  intro a b ha hb hab
  -- A position is in one block only.
  refine disjoint_left.mpr fun p hpa hpb => hab ?_
  rw [← ((mem_hwyBlockPositions hstart ((mem_hwyBlocks hstart).mp ha).1).mp hpa).1,
    ((mem_hwyBlockPositions hstart ((mem_hwyBlocks hstart).mp hb).1).mp hpb).1]

/-- The positions attended are those of the window. -/
theorem mem_hwyAttended (h : ContiguousSpans s w pos) (htable : pos < tableSize * blockSlots) :
    p ∈ hwyAttended s w pos tableSize ↔ Attends s w pos p := by
  obtain ⟨hstart, hkept, hown, hlen, hmaps, hmask⟩ := h
  have hvisit : p ∈ (hwyBlocks s tableSize).flatMap (hwyBlockPositions s) ↔
      s.contextStartPos ≤ p ∧ p ≤ pos := by
    rw [mem_flatMap]
    constructor
    · rintro ⟨b, hb, hp⟩
      have hp' := (mem_hwyBlockPositions hstart ((mem_hwyBlocks hstart).mp hb).1).mp hp
      omega
    rintro ⟨h1, h2⟩
    have hlow : s.contextStartPos / (blockSlots : Int) ≤ p / blockSlots := by
      unfold blockSlots
      omega
    refine ⟨p / blockSlots, (mem_hwyBlocks hstart).mpr ⟨hlow, ?_, ?_⟩,
      (mem_hwyBlockPositions hstart hlow).mpr ⟨rfl, by omega, by omega⟩⟩
    · unfold blockSlots at htable ⊢
      omega
    unfold blockSlots
    omega
  unfold hwyAttended Attends
  rw [mem_filter, hvisit, and_assoc]
  refine and_congr_right fun h1 => and_congr_right fun h2 => ?_
  -- The kernel's own label of the position is the position.
  have hkey : hwyKeyPos s w pos p = p := by
    unfold hwyKeyPos
    dsimp only
    split
    · rename_i hw
      rw [hmask hw.1]
      split
      · show mapRetainedHistoryIndex s.retained (p - s.contextStartPos) = p
        rw [hmaps _ (by omega) (by omega)]
        omega
      · omega
    · rfl
  rw [hkey, ← allowsKey_le_iff h2]
  simp [show 0 ≤ pos by omega]

theorem computeKVRetentionSpan_window (hn : 0 ≤ nPast) (hw : 0 ≤ w) :
    computeKVRetentionSpan nPast { enabled := true, slidingWindow := w, sinkTokens := 0 }
      = tailSpan nPast w := by
  unfold computeKVRetentionSpan tailSpan
  by_cases hzero : nPast ≤ 0
  · rw [if_pos hzero]
    obtain rfl : nPast = 0 := by omega
    have hmin : min 0 w = 0 := by omega
    have hmax : max 0 (0 - w) = 0 := by omega
    rw [hmin, hmax]
  have hon : ¬ (true = false ∨ w < 0) := by simp [hw]
  rw [if_neg hzero, if_neg hon]
  simp only [clamp_zero hn, KVRetentionSpan.mk.injEq, true_and]
  omega

theorem pagedSpans_window (policy : KVRetentionPolicy) (force : Bool)
    (hn : 0 ≤ nPast) (hw : 0 ≤ w) (htable : nPast < tableSize * blockSlots) :
    ContiguousSpans (pagedSpans policy force 0 w nPast tableSize) w nPast ∧
      (pagedSpans policy force 0 w nPast tableSize).contextStartPos = max 0 (nPast - w) := by
  have hret : (pagedSpans policy force 0 w nPast tableSize).retained = tailSpan nPast w := by
    unfold pagedSpans
    dsimp only
    simp only [if_pos hw, decide_eq_true hw, Int.max_self]
    exact computeKVRetentionSpan_window hn hw
  have hspans : ContiguousSpans (pagedSpans policy force 0 w nPast tableSize) w nPast := by
    refine pagedSpans_contiguous hn htable ?_
    show (_ && decide (0 < (pagedSpans policy force 0 w nPast tableSize).retained.sinkKept)) = false
    rw [hret]
    exact Bool.and_false _
  have hown := hspans.own
  rw [hret, tailSpan_historyKept] at hown
  exact ⟨hspans, by omega⟩

/-- **The paged path attends the window.** -/
theorem pagedAttended_iff {hwyReady : Bool} (hn : 0 ≤ nPast) (hw : 0 ≤ w)
    (htable : nPast < tableSize * blockSlots) (p : Int) :
    p ∈ pagedAttended hwyReady (pagedSpans policy force 0 w nPast tableSize) w nPast tableSize ↔
      0 ≤ p ∧ InWindow w nPast p := by
  obtain ⟨hspans, hstart⟩ := pagedSpans_window policy force hn hw htable
  have hpos : Attends (pagedSpans policy force 0 w nPast tableSize) w nPast p ↔
      0 ≤ p ∧ InWindow w nPast p := by
    unfold Attends InWindow
    omega
  unfold pagedAttended
  split
  · rw [mem_scalarAttended hspans htable, hpos]
  · rw [mem_hwyAttended hspans htable, hpos]

/-! ### Physical slots -/

/-- The positions a decode token should look at: the kept history inside the window,
and its own. -/
def visiblePositions (s : PagedSpans) (w pos : Int) : Finset Int :=
  insert pos (((Finset.range s.retained.historyKept.toNat).image fun t : Nat =>
    mapRetainedHistoryIndex s.retained t).filter fun p => 0 ≤ w → pos - w ≤ p)

/-- Where a position is in the cache. -/
def physicalSlot (blockTable : List Int) (p : Int) : Int × Int :=
  (blockTable.getD (p / blockSlots).toNat 0, p % blockSlots)

theorem mem_visiblePositions (h : ContiguousSpans s w pos) :
    p ∈ visiblePositions s w pos ↔ Attends s w pos p := by
  obtain ⟨hstart, hkept, hown, hlen, hmaps, hmask⟩ := h
  unfold visiblePositions Attends
  rw [Finset.mem_insert, Finset.mem_filter, Finset.mem_image]
  constructor
  · rintro (rfl | ⟨⟨t, ht, rfl⟩, hwin⟩)
    · exact ⟨by omega, Int.le_refl p, fun hw => by omega⟩
    rw [Finset.mem_range] at ht
    rw [hmaps t (by omega) (by omega)] at hwin ⊢
    exact ⟨by omega, by omega, hwin⟩
  rintro ⟨h1, h2, hwin⟩
  by_cases hp : p = pos
  · exact Or.inl hp
  refine Or.inr ⟨⟨(p - s.contextStartPos).toNat, Finset.mem_range.mpr (by omega), ?_⟩, hwin⟩
  rw [hmaps _ (by omega) (by omega)]
  omega

theorem attendedSlots_eq {maxBlocks : Int} {blockTable positions : List Int}
    (hpositions : ∀ p ∈ positions, 0 ≤ p ∧ p < blockTable.length * blockSlots)
    (hids : ∀ blockId ∈ blockTable, 0 ≤ blockId ∧ blockId < maxBlocks) :
    attendedSlots maxBlocks blockTable positions = positions.map (physicalSlot blockTable) := by
  unfold attendedSlots
  rw [← filterMap_eq_map]
  refine filterMap_congr fun p hp => ?_
  obtain ⟨h0, hlt⟩ := hpositions p hp
  have hin : (p / (blockSlots : Int)).toNat < blockTable.length := by
    unfold blockSlots at hlt ⊢
    omega
  obtain ⟨hid0, hid⟩ := hids _ (getElem_mem hin)
  unfold blockPtr physicalSlot
  rw [getElem?_eq_getElem hin]
  simp [hid0, hid, hin]

/-- **Both decode paths attend the same slots.**  Wherever the kept history has no gap,
the slots the scalar path scores are those the kernel scores, with the same
multiplicities, and both are the slots of the kept positions inside the window and of
the token itself, each once. -/
theorem paged_paths_same_slots (policy : KVRetentionPolicy) (force : Bool)
    (sinkTokens w pos maxBlocks : Int) (blockTable : List Int) (hpos : 0 ≤ pos)
    (htable : pos < blockTable.length * blockSlots)
    (hids : ∀ blockId ∈ blockTable, 0 ≤ blockId ∧ blockId < maxBlocks)
    (hspan : (pagedSpans policy force sinkTokens w pos blockTable.length).noncontiguous = false) :
    let s := pagedSpans policy force sinkTokens w pos blockTable.length
    let slots := (visiblePositions s w pos).val.map (physicalSlot blockTable)
    (attendedSlots maxBlocks blockTable (scalarAttended s w pos blockTable.length) :
      Multiset (Int × Int)) = slots ∧
    (attendedSlots maxBlocks blockTable (hwyAttended s w pos blockTable.length) :
      Multiset (Int × Int)) = slots := by
  intro s slots
  have hs : ContiguousSpans s w pos := pagedSpans_contiguous hpos htable hspan
  have hslots : ∀ positions : List Int, positions.Nodup → (∀ p, p ∈ positions ↔ Attends s w pos p) →
      (attendedSlots maxBlocks blockTable positions : Multiset (Int × Int)) = slots := by
    intro positions hnodup hmem
    have hsame : (positions : Multiset Int) = (visiblePositions s w pos).val := by
      refine (Multiset.Nodup.ext (Multiset.coe_nodup.mpr hnodup) (Finset.nodup _)).mpr fun p => ?_
      exact (hmem p).trans (mem_visiblePositions hs).symm
    rw [attendedSlots_eq _ hids, ← Multiset.map_coe, hsame]
    intro p hp
    obtain ⟨h1, h2, -⟩ := (hmem p).mp hp
    have hstart := hs.start
    exact ⟨by omega, by omega⟩
  constructor
  · refine hslots _ ?_ fun p => mem_scalarAttended hs htable
    rw [scalarAttended_eq hs htable]
    exact (nodup_positions _ _).filter _
  · exact hslots _ (nodup_hwyAttended hs.start) fun p => mem_hwyAttended hs htable

/-- A window of three that starts inside the first of two blocks. -/
theorem paged_paths_same_slots_edge :
    let s := pagedSpans {} false 0 3 17 2
    (attendedSlots 8 [5, 2] (hwyAttended s 3 17 2) : Multiset (Int × Int))
      = {(5, 14), (5, 15), (2, 0), (2, 1)} := by
  have h := paged_paths_same_slots {} false 0 3 17 8 [5, 2] (by decide) (by decide) (by decide)
    (by decide)
  exact h.2.trans (by decide)

/-! ### Rows against columns

A row of the mask is a column of the gathered history. The two are the same set of positions
exactly while the window covers the history.
-/

/-- The mask leaves a query exactly the rows whose positions its window holds. -/
def MaskRowShowsWindow (mask : MaskTensor) (rows : Int → RowSource) (nPast nTotal w q : Int) :
    Prop :=
  ∀ r, 0 ≤ r → r < nTotal → (mask.entry q r = .zero ↔
    ∃ p, (rows r).position nPast = some p ∧ InWindow w (nPast + q) p)

/-- The standard path attends a position when an unmasked row holds it. -/
def StandardAttends (mask : MaskTensor) (rows : Int → RowSource) (nPast nTotal q p : Int) : Prop :=
  ∃ r, 0 ≤ r ∧ r < nTotal ∧ mask.entry q r = .zero ∧ (rows r).position nPast = some p

theorem shifted_window_iff {q : Int} (hn : 0 ≤ nPast) (hw : 0 ≤ w) (h0 : 0 ≤ q) (hq : q < nTokens) :
    (∀ r, 0 ≤ r → r < nPast + nTokens →
      (InWindow w (nPast + q) (r + max 0 (nPast - w)) ↔ InWindow w (nPast + q) r)) ↔
      nPast ≤ w := by
  unfold InWindow
  constructor
  · intro hall
    -- The query's own row is the first to be pushed out of the window.
    have hown := hall (nPast + q) (by omega) (by omega)
    by_contra hc
    omega
  intro hle r _ _
  rw [show max 0 (nPast - w) = 0 by omega, Int.add_zero]

/-- **Rows and columns agree exactly on histories that fit the window.**  For every
query of the batch the mask leaves the rows of its window unmasked if and only if
the history is no longer than the window; and for a single query the standard path
then, and only then, attends the positions the paged path attends. -/
theorem standard_mask_matches_gather_iff (input : GatherInput) (nPast nTokens w : Int)
    (h : FullGather input nPast nTokens) (hw : 0 ≤ w) (nth : Nat) (hnth : 0 < nth)
    (order : List Nat) (horder : order.Perm (range nth)) :
    ∃ mask, buildAttentionMaskTensor 0 (nPast + nTokens) nTokens nPast w (-1) = some mask ∧
      (∀ q, 0 ≤ q → q < nTokens →
        (MaskRowShowsWindow mask (gatheredRows input nth order) nPast (nPast + nTokens) w q ↔
          nPast ≤ w)) ∧
      (nTokens = 1 → nPast < input.blockTableSize * blockSlots → ∀ hwyReady : Bool,
        ((∀ p, StandardAttends mask (gatheredRows input nth order) nPast (nPast + 1) 0 p ↔
            p ∈ pagedAttended hwyReady
              (pagedSpans input.policy input.forceFullHistory 0 w nPast input.blockTableSize)
              w nPast input.blockTableSize) ↔
          nPast ≤ w)) := by
  have hn := h.nPastNonneg
  have hall : ∀ ith, ith < nth → ith ∈ order := fun ith hlt =>
    horder.mem_iff.mpr (mem_range.mpr hlt)
  have hrows : ∀ r, 0 ≤ r → r < nPast + nTokens →
      (gatheredRows input nth order r).position nPast = some r :=
    fun r h0 hr => gatheredRows_position h hnth hall h0 hr
  obtain ⟨mask, hmask, hentry⟩ := buildAttentionMaskTensor_entry hn h.nTokensPos hw
  refine ⟨mask, hmask, ?_, ?_⟩
  · intro q h0 hq
    rw [← shifted_window_iff hn hw h0 hq]
    unfold MaskRowShowsWindow
    refine forall_congr' fun r => forall_congr' fun hr0 => forall_congr' fun hr => ?_
    rw [hentry q r hq hr0, hrows r hr0 hr]
    simp
  intro hone htable hwyReady
  subst hone
  have hstd : ∀ p, StandardAttends mask (gatheredRows input nth order) nPast (nPast + 1) 0 p ↔
      0 ≤ p ∧ p < nPast + 1 ∧ InWindow w nPast (p + max 0 (nPast - w)) := by
    intro p
    constructor
    · rintro ⟨r, hr0, hr, hzero, hpos⟩
      rw [hrows r hr0 hr] at hpos
      obtain rfl := Option.some.inj hpos
      have := (hentry 0 r (by omega) hr0).mp hzero
      rw [Int.add_zero] at this
      exact ⟨hr0, hr, this⟩
    rintro ⟨hp0, hp, hwin⟩
    refine ⟨p, hp0, hp, (hentry 0 p (by omega) hp0).mpr ?_, hrows p hp0 hp⟩
    rw [Int.add_zero]
    exact hwin
  constructor
  · intro hagree
    -- The paged path attends the current position; for the standard path to do
    -- so, the current row must not be shifted out of the window.
    have hcur := (hagree nPast).mpr ((pagedAttended_iff hn hw htable nPast).mpr
      ⟨hn, by unfold InWindow; omega⟩)
    have hwin := ((hstd nPast).mp hcur).2.2
    unfold InWindow at hwin
    omega
  intro hle p
  rw [hstd p, pagedAttended_iff hn hw htable p, show max 0 (nPast - w) = 0 by omega, Int.add_zero]
  unfold InWindow
  omega

private def shortInput (nPast : Int) : GatherInput :=
  { nTokens := 1, nTotal := nPast + 1, readOnlySharedKv := false, forceFullHistory := false,
    policy := {}, hasValidSeq := true, seqNPast := some nPast, blockTableSize := 1 }

/-- One past token and a window of two: the mask shows what it should. -/
theorem standard_mask_matches_gather_short :
    ∃ mask, buildAttentionMaskTensor 0 2 1 1 2 (-1) = some mask ∧
      MaskRowShowsWindow mask (gatheredRows (shortInput 1) 1 [0]) 1 2 2 0 := by
  have hfull : FullGather (shortInput 1) 1 1 :=
    ⟨by decide, by decide, rfl, rfl, rfl, rfl, rfl, rfl, by decide⟩
  obtain ⟨mask, hmask, hrows, -⟩ := standard_mask_matches_gather_iff (shortInput 1) 1 1 2 hfull
    (by decide) 1 Nat.one_pos [0] (Perm.refl _)
  exact ⟨mask, hmask, (hrows 0 (by decide) (by decide)).mpr (by decide)⟩

/-- Two past tokens and a window of one: the mask hides the row of the query's own
key, which is in the window. -/
theorem long_history_hides_current_key :
    (buildAttentionMaskTensor 0 3 1 2 1 (-1)).map (fun m => m.entry 0 2) = some .negInf ∧
      ¬ ∃ mask, buildAttentionMaskTensor 0 3 1 2 1 (-1) = some mask ∧
        MaskRowShowsWindow mask (gatheredRows (shortInput 2) 1 [0]) 2 3 1 0 := by
  have hhidden : (buildAttentionMaskTensor 0 3 1 2 1 (-1)).map (fun m => m.entry 0 2)
      = some .negInf := by decide
  refine ⟨hhidden, ?_⟩
  rintro ⟨mask, hmask, hshows⟩
  rw [hmask] at hhidden
  have hown : mask.entry 0 2 = .zero :=
    (hshows 2 (by decide) (by decide)).mpr ⟨2, by decide, by decide, by decide⟩
  rw [Option.map_some, hown] at hhidden
  cases hhidden

end DenseCore.Attention
