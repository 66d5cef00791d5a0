/-
When the merge queue merges like the scans.

The queue's entries hold positions, and a merge moves everything behind it one place to the
left without touching the entries there.  So the queue and the scans go together as long as
nothing two places or more behind a merge can be merged, and the best score is not shared
with the pair behind it.  Then an entry is either stale, or has the score of the pair at its
position; and every pair that can be merged has such an entry.
-/
import DenseCore.Models.MergeQueue
import Mathlib.Data.List.GetD
import Mathlib.Data.List.MinMax

namespace DenseCore.Models

open List hiding le_antisymm le_refl not_le not_lt

open DenseCore.Lib

variable {S : Type} [LinearOrder S]

/-! ### The property -/

/-- The queue returns what the scans return, whichever of equal entries is on top. -/
def QueueAgrees (m : ScoredVocabulary S) (tokens : List Bytes) : Prop :=
  ∀ result, MergeWithPriorityQueue m tokens result ↔ result = mergeByScans m tokens

/-- Different tokens have different scores. -/
def DistinctScores (m : ScoredVocabulary S) : Prop :=
  ∀ a b, m.hasToken a = true → m.hasToken b = true → m.getTokenScore a = m.getTokenScore b → a = b

/-- The pair at a position is a token. -/
def Mergeable (m : ScoredVocabulary S) (tokens : List Bytes) (pos : Nat) : Prop :=
  pos + 1 < tokens.length ∧ m.hasToken (pairAt tokens pos) = true

/-- The score of the pair at a position. -/
def pairScore (m : ScoredVocabulary S) (tokens : List Bytes) (pos : Nat) : S :=
  m.getTokenScore (pairAt tokens pos)

/-- What the scans come to. -/
inductive Scanned (m : ScoredVocabulary S) (start : List Bytes) : List Bytes → Prop
  | start : Scanned m start start
  | merge {tokens : List Bytes} (h : Scanned m start tokens) (hbest : 0 ≤ findBestMerge m tokens) :
      Scanned m start (mergeTokens tokens (findBestMerge m tokens).toNat)

/-- No score is as large as the largest float; and nothing two places or more behind the best
pair can be merged, nor is the pair right behind it the same token. -/
structure Calm (m : ScoredVocabulary S) (tokens : List Bytes) : Prop where
  scores : ∀ pos, Mergeable m tokens pos → pairScore m tokens pos < m.maxScore
  behind : ∀ best : Nat, findBestMerge m tokens = best → ∀ pos, best + 2 ≤ pos →
    ¬ Mergeable m tokens pos
  next : ∀ best : Nat, findBestMerge m tokens = best → Mergeable m tokens (best + 1) →
    pairAt tokens (best + 1) ≠ pairAt tokens best

/-! ### Pairs after a merge -/

variable {tokens : List Bytes} {pos i n : Nat} {m : ScoredVocabulary S} {s : MergeState S}

theorem length_mergeTokens (h : pos + 1 < tokens.length) :
    (mergeTokens tokens pos).length + 1 = tokens.length := by
  unfold mergeTokens
  rw [length_eraseIdx_of_lt (by rwa [length_set]), length_set]
  omega

theorem getD_mergeTokens (h : pos + 1 < tokens.length) (i : Nat) :
    (mergeTokens tokens pos).getD i [] =
      if i < pos then tokens.getD i [] else if i = pos then pairAt tokens pos
      else tokens.getD (i + 1) [] := by
  unfold mergeTokens
  rw [getD_eq_getElem?_getD, getElem?_eraseIdx]
  by_cases hlt : i < pos + 1
  · rw [if_pos hlt, getElem?_set]
    by_cases heq : pos = i
    · rw [if_pos heq, if_pos (by omega), if_neg (by omega), if_pos heq.symm]
      rfl
    · rw [if_neg heq, if_pos (by omega), getD_eq_getElem?_getD]
  rw [if_neg hlt, getElem?_set, if_neg (by omega), if_neg (by omega), if_neg (by omega),
    getD_eq_getElem?_getD]

theorem pairAt_before (h : pos + 1 < tokens.length)
    (hi : i + 1 < pos) : pairAt (mergeTokens tokens pos) i = pairAt tokens i := by
  unfold pairAt
  rw [getD_mergeTokens h, getD_mergeTokens h, if_pos (by omega), if_pos hi]

theorem pairAt_behind (h : pos + 1 < tokens.length)
    (hi : pos < i) : pairAt (mergeTokens tokens pos) i = pairAt tokens (i + 1) := by
  unfold pairAt
  rw [getD_mergeTokens h, getD_mergeTokens h, if_neg (by omega), if_neg (by omega),
    if_neg (by omega), if_neg (by omega)]

omit [LinearOrder S] in
theorem mergeable_behind (h : pos + 1 < tokens.length) (hi : pos < i) :
    Mergeable m (mergeTokens tokens pos) i ↔ Mergeable m tokens (i + 1) := by
  have hlength := length_mergeTokens h
  unfold Mergeable
  rw [pairAt_behind h hi]
  exact and_congr_left fun _ => by omega

omit [LinearOrder S] in
theorem mergeable_before (h : pos + 1 < tokens.length) (hi : i + 1 < pos) :
    Mergeable m (mergeTokens tokens pos) i ↔ Mergeable m tokens i := by
  have hlength := length_mergeTokens h
  unfold Mergeable
  rw [pairAt_before h hi]
  exact and_congr_left fun _ => by omega

/-! ### The scan -/

/-- What a scan over the first positions has found. -/
def Found (m : ScoredVocabulary S) (tokens : List Bytes) (n : Nat) (best : Int × S) : Prop :=
  (best = (-1, m.maxScore) ∧ ∀ pos < n, Mergeable m tokens pos →
      ¬ pairScore m tokens pos < m.maxScore) ∨
    ∃ i : Nat, best = ((i : Int), pairScore m tokens i) ∧ i < n ∧ Mergeable m tokens i ∧
      pairScore m tokens i < m.maxScore ∧
      (∀ pos < n, Mergeable m tokens pos → pairScore m tokens i ≤ pairScore m tokens pos) ∧
      ∀ pos < i, Mergeable m tokens pos → pairScore m tokens i < pairScore m tokens pos

/-- **One position** of the scan. -/
theorem Found.step {best : Int × S} (h : Found m tokens n best) (hn : n + 1 < tokens.length) :
    Found m tokens (n + 1) (if m.hasToken (pairAt tokens n) then
        if pairScore m tokens n < best.2 then ((n : Int), pairScore m tokens n) else best
      else best) := by
  have hlast : ∀ {P : Nat → Prop}, (∀ pos < n, P pos) → P n → ∀ pos < n + 1, P pos := by
    intro P hall hlast pos hpos
    rcases Nat.lt_succ_iff_lt_or_eq.mp hpos with hlt | rfl
    · exact hall pos hlt
    · exact hlast
  by_cases htoken : m.hasToken (pairAt tokens n) = true
  · have hmergeable : Mergeable m tokens n := ⟨hn, htoken⟩
    rw [if_pos htoken]
    rcases h with ⟨rfl, hnone⟩ | ⟨i, rfl, hi, hmi, hmax, hmin, hfirst⟩
    · split
      · rename_i hlt
        refine Or.inr ⟨n, rfl, by omega, hmergeable, hlt, ?_, ?_⟩
        · exact hlast (fun pos hpos hm => (hlt.trans_le (not_lt.mp (hnone pos hpos hm))).le)
            fun _ => le_refl _
        · exact fun pos hpos hm => hlt.trans_le (not_lt.mp (hnone pos hpos hm))
      rename_i hge
      exact Or.inl ⟨rfl, hlast hnone fun _ => hge⟩
    split
    · rename_i hlt
      refine Or.inr ⟨n, rfl, by omega, hmergeable, hlt.trans hmax, ?_, ?_⟩
      · exact hlast (fun pos hpos hm => (hlt.trans_le (hmin pos hpos hm)).le) fun _ => le_refl _
      · exact fun pos hpos hm => hlt.trans_le (hmin pos hpos hm)
    rename_i hge
    exact Or.inr ⟨i, rfl, by omega, hmi, hmax, hlast hmin fun _ => not_lt.mp hge, hfirst⟩
  · have hnot : ¬ Mergeable m tokens n := fun hm => htoken hm.2
    rw [if_neg htoken]
    rcases h with ⟨rfl, hnone⟩ | ⟨i, rfl, hi, hmi, hmax, hmin, hfirst⟩
    · exact Or.inl ⟨rfl, hlast hnone fun hm => absurd hm hnot⟩
    · exact Or.inr ⟨i, rfl, by omega, hmi, hmax, hlast hmin fun hm => absurd hm hnot, hfirst⟩

theorem found_scan (m : ScoredVocabulary S) (tokens : List Bytes) :
    ∃ best, findBestMerge m tokens = best.1 ∧ Found m tokens (tokens.length - 1) best := by
  unfold findBestMerge
  split
  · rename_i hshort
    refine ⟨(-1, m.maxScore), rfl, Or.inl ⟨rfl, fun pos hpos => ?_⟩⟩
    omega
  refine ⟨_, rfl, ?_⟩
  have hscan : ∀ n, n ≤ tokens.length - 1 → Found m tokens n ((range n).foldl
      (fun (best : Int × S) (i : Nat) =>
        let merged := pairAt tokens i
        if m.hasToken merged then
          let score := m.getTokenScore merged
          if score < best.2 then ((i : Int), score) else best
        else best) (-1, m.maxScore)) := by
    intro n hn
    induction n with
    | zero => exact Or.inl ⟨rfl, fun pos hpos => absurd hpos (Nat.not_lt_zero pos)⟩
    | succ n ih =>
      rw [range_succ, foldl_append]
      exact (ih (by omega)).step (by omega)
  exact hscan _ (le_refl _)

theorem not_mergeable_of_neg (hcalm : Calm m tokens) (h : findBestMerge m tokens < 0) (pos : Nat) :
    ¬ Mergeable m tokens pos := by
  obtain ⟨best, heq, hfound⟩ := found_scan m tokens
  intro hm
  rcases hfound with ⟨rfl, hnone⟩ | ⟨i, rfl, -⟩
  · have hlt := hm.1
    exact hnone pos (by omega) hm (hcalm.scores pos hm)
  rw [heq] at h
  exact absurd h (not_lt.mpr (Int.natCast_nonneg i))

theorem best_of_nonneg (h : 0 ≤ findBestMerge m tokens) :
    ∃ i : Nat, findBestMerge m tokens = i ∧ Mergeable m tokens i ∧
      (∀ pos, Mergeable m tokens pos → pairScore m tokens i ≤ pairScore m tokens pos) ∧
      ∀ pos < i, Mergeable m tokens pos → pairScore m tokens i < pairScore m tokens pos := by
  obtain ⟨best, heq, hfound⟩ := found_scan m tokens
  rcases hfound with ⟨rfl, -⟩ | ⟨i, rfl, -, hmi, -, hmin, hfirst⟩
  · rw [heq] at h
    exact absurd (show (0 : Int) ≤ -1 from h) (by decide)
  refine ⟨i, heq, hmi, fun pos hm => hmin pos ?_ hm, hfirst⟩
  have hlt := hm.1
  omega

/-- **A pair with the lowest score is the one that the scan finds.** -/
theorem best_unique (hdistinct : DistinctScores m)
    (hcalm : Calm m tokens) (hpos : Mergeable m tokens pos)
    (hmin : ∀ i, Mergeable m tokens i → pairScore m tokens pos ≤ pairScore m tokens i) :
    findBestMerge m tokens = pos := by
  by_cases hneg : findBestMerge m tokens < 0
  · exact absurd hpos (not_mergeable_of_neg hcalm hneg pos)
  obtain ⟨i, hi, hmi, hbest, hfirst⟩ := best_of_nonneg (not_lt.mp hneg)
  have hscore : pairScore m tokens i = pairScore m tokens pos :=
    le_antisymm (hbest pos hpos) (hmin i hmi)
  have hpair : pairAt tokens i = pairAt tokens pos := hdistinct _ _ hmi.2 hpos.2 hscore
  rcases Nat.lt_trichotomy i pos with hlt | rfl | hgt
  · -- behind the first one
    by_cases hnext : pos = i + 1
    · subst hnext
      exact absurd hpair.symm (hcalm.next i hi hpos)
    · exact absurd hpos (hcalm.behind i hi pos (by omega))
  · exact hi
  · exact absurd hscore (ne_of_lt (hfirst pos hgt hpos))

/-! ### Entries of the queue

An entry is as good as its generation: it is current when neither of its tokens has merged
since, and then its score is that of the pair now.
-/

/-- The entry of a pair, with the generation of its position. -/
def entryAt (m : ScoredVocabulary S) (s : MergeState S) (pos : Nat) : MergePair S :=
  ⟨pairScore m s.tokens pos, pos, s.generation.getD pos 0⟩

omit [LinearOrder S] in
theorem tryAddMerge_fields (m : ScoredVocabulary S) (s : MergeState S) (pos : Nat) :
    (tryAddMerge m s pos).tokens = s.tokens ∧ (tryAddMerge m s pos).generation = s.generation := by
  unfold tryAddMerge
  dsimp only
  split
  · exact ⟨rfl, rfl⟩
  · split <;> exact ⟨rfl, rfl⟩

omit [LinearOrder S] in
theorem mem_tryAddMerge {e : MergePair S} : e ∈ (tryAddMerge m s pos).queue ↔
      e ∈ s.queue ∨ Mergeable m s.tokens pos ∧ e = entryAt m s pos := by
  unfold tryAddMerge Mergeable entryAt pairScore
  dsimp only
  split
  · rename_i hlast
    exact ⟨Or.inl, fun h => h.resolve_right fun h' => by omega⟩
  split
  · rename_i hlast htoken
    rw [mem_append, mem_singleton]
    exact or_congr_right ⟨fun h => ⟨⟨by omega, htoken⟩, h⟩, fun h => h.2⟩
  rename_i htoken
  exact ⟨Or.inl, fun h => h.resolve_right fun h' => htoken h'.1.2⟩

omit [LinearOrder S] in
theorem length_tryAddMerge (m : ScoredVocabulary S) (s : MergeState S) (pos : Nat) :
    (tryAddMerge m s pos).queue.length ≤ s.queue.length + 1 := by
  unfold tryAddMerge
  dsimp only
  split
  · exact Nat.le_succ _
  split
  · exact le_of_eq (by simp)
  · exact Nat.le_succ _

/-- The entry is not stale, and there is a pair to merge at its position. -/
def Live (m : ScoredVocabulary S) (s : MergeState S) (e : MergePair S) : Prop :=
  Mergeable m s.tokens e.position ∧ e.generation = s.generation.getD e.position 0

/-- What holds of the queue. -/
structure QueueInv (m : ScoredVocabulary S) (s : MergeState S) : Prop where
  length : s.generation.length = s.tokens.length
  /-- No entry is ahead of its position. -/
  old : ∀ e ∈ s.queue, e.position < s.tokens.length → e.generation ≤ s.generation.getD e.position 0
  sound : ∀ e ∈ s.queue, Live m s e → e.score = pairScore m s.tokens e.position
  complete : ∀ pos, Mergeable m s.tokens pos →
    ∃ e ∈ s.queue, e.position = pos ∧ e.generation = s.generation.getD pos 0

omit [LinearOrder S] in
theorem mem_foldl_tryAddMerge : ((range n).foldl (tryAddMerge m) s).tokens = s.tokens ∧
      ((range n).foldl (tryAddMerge m) s).generation = s.generation ∧
      ∀ e, e ∈ ((range n).foldl (tryAddMerge m) s).queue ↔
        e ∈ s.queue ∨ ∃ pos < n, Mergeable m s.tokens pos ∧ e = entryAt m s pos := by
  induction n with
  | zero => exact ⟨rfl, rfl, fun e => ⟨Or.inl, fun h => h.resolve_right (by simp)⟩⟩
  | succ n ih =>
    obtain ⟨htokens, hgeneration, hqueue⟩ := ih
    rw [range_succ, foldl_append, foldl_cons, foldl_nil]
    obtain ⟨htokens', hgeneration'⟩ := tryAddMerge_fields m
      ((range n).foldl (tryAddMerge m) s) n
    refine ⟨htokens'.trans htokens, hgeneration'.trans hgeneration, fun e => ?_⟩
    have hentry : entryAt m ((range n).foldl (tryAddMerge m) s) n = entryAt m s n := by
      unfold entryAt
      rw [htokens, hgeneration]
    rw [mem_tryAddMerge, hqueue, htokens, hentry, or_assoc]
    refine or_congr_right ⟨?_, ?_⟩
    · rintro (⟨pos, hpos, h⟩ | h)
      · exact ⟨pos, by omega, h⟩
      · exact ⟨n, by omega, h⟩
    rintro ⟨pos, hpos, h⟩
    rcases Nat.lt_succ_iff_lt_or_eq.mp hpos with hlt | rfl
    · exact Or.inl ⟨pos, hlt, h⟩
    · exact Or.inr h

omit [LinearOrder S] in
theorem startMerge_tokens (m : ScoredVocabulary S) (tokens : List Bytes) :
    (startMerge m tokens).tokens = tokens := mem_foldl_tryAddMerge.1

omit [LinearOrder S] in
theorem startMerge_inv (m : ScoredVocabulary S) (tokens : List Bytes) :
    QueueInv m (startMerge m tokens) := by
  obtain ⟨-, hgeneration, hqueue⟩ := mem_foldl_tryAddMerge (m := m)
    (s := { tokens, generation := replicate tokens.length 0, queue := [] })
    (n := tokens.length - 1)
  have htokens := startMerge_tokens m tokens
  change (startMerge m tokens).generation = _ at hgeneration
  have hentries : ∀ e, e ∈ (startMerge m tokens).queue ↔
      ∃ pos < tokens.length - 1, Mergeable m tokens pos ∧ e = entryAt m (startMerge m tokens) pos := by
    intro e
    unfold entryAt
    rw [htokens, hgeneration]
    exact (hqueue e).trans ⟨fun h => h.resolve_left not_mem_nil, Or.inr⟩
  refine ⟨?_, ?_, ?_, ?_⟩
  · rw [hgeneration, htokens]
    exact length_replicate
  · intro e he _
    obtain ⟨pos, -, -, rfl⟩ := (hentries e).mp he
    exact le_refl _
  · intro e he _
    obtain ⟨pos, -, -, rfl⟩ := (hentries e).mp he
    rfl
  intro pos hm
  rw [htokens] at hm
  have hlt := hm.1
  exact ⟨_, (hentries _).mpr ⟨pos, by omega, hm, rfl⟩, rfl, rfl⟩

/-! ### A merge -/

theorem getD_modify (l : List Nat) (k i : Nat) (hi : i < l.length) :
    (l.modify k (· + 1)).getD i 0 = l.getD i 0 + if i = k then 1 else 0 := by
  rw [getD_eq_getElem?_getD, getElem?_modify, getD_eq_getElem?_getD, getElem?_eq_getElem hi]
  by_cases heq : k = i
  · simp [heq]
  · simp [heq, Ne.symm heq]

theorem getD_take (l : List Nat) (hi : i < n) : (l.take n).getD i 0 = l.getD i 0 := by
  rw [getD_eq_getElem?_getD, getElem?_take, if_pos hi, getD_eq_getElem?_getD]

/-- The generations after a merge. -/
def bumped (generation : List Nat) (tokens : List Bytes) (pos : Nat) : List Nat :=
  let generation := if 0 < pos then generation.modify (pos - 1) (· + 1) else generation
  let generation := generation.modify pos (· + 1)
  if tokens.length < generation.length then generation.take tokens.length else generation

theorem getD_bumped {generation : List Nat}
    (hlength : generation.length = tokens.length + 1) (hi : i < tokens.length) :
    (bumped generation tokens pos).length = tokens.length ∧
      (bumped generation tokens pos).getD i 0 =
        generation.getD i 0 + if i = pos ∨ i + 1 = pos then 1 else 0 := by
  unfold bumped
  dsimp only
  have hfirst : (if 0 < pos then generation.modify (pos - 1) (· + 1) else generation).length =
      generation.length := by
    split
    · exact length_modify _ _ _
    · rfl
  have hlong : tokens.length < ((if 0 < pos then generation.modify (pos - 1) (· + 1)
      else generation).modify pos (· + 1)).length := by
    rw [length_modify, hfirst]
    omega
  rw [if_pos hlong]
  refine ⟨?_, ?_⟩
  · rw [length_take]
    omega
  rw [getD_take _ hi, getD_modify _ _ _ (by omega)]
  by_cases hpos : 0 < pos
  · rw [if_pos hpos, getD_modify _ _ _ (by omega)]
    by_cases hi0 : i = pos
    · rw [if_neg (by omega), if_pos hi0, if_pos (Or.inl hi0)]
    by_cases hi1 : i = pos - 1
    · rw [if_pos hi1, if_neg hi0, if_pos (by omega)]
    · rw [if_neg hi1, if_neg hi0, if_neg (by omega)]
  rw [if_neg hpos]
  by_cases hi0 : i = pos
  · rw [if_pos hi0, if_pos (Or.inl hi0)]
  · rw [if_neg hi0, if_neg (by omega)]

/-- The tokens and generations after a merge, with the queue as it was. -/
def merged (s : MergeState S) (pos : Nat) : MergeState S :=
  ⟨mergeTokens s.tokens pos, bumped s.generation (mergeTokens s.tokens pos) pos, s.queue⟩

omit [LinearOrder S] in
theorem applyMerge_eq (m : ScoredVocabulary S) (s : MergeState S) (pos : Nat) :
    applyMerge m s pos = tryAddMerge m
      (if 0 < pos then tryAddMerge m (merged s pos) (pos - 1) else merged s pos) pos := rfl

omit [LinearOrder S] in
theorem applyMerge_fields (m : ScoredVocabulary S) (s : MergeState S) (pos : Nat) :
    (applyMerge m s pos).tokens = mergeTokens s.tokens pos ∧
      (applyMerge m s pos).generation = bumped s.generation (mergeTokens s.tokens pos) pos := by
  rw [applyMerge_eq]
  obtain ⟨htokens, hgeneration⟩ := tryAddMerge_fields m
    (if 0 < pos then tryAddMerge m (merged s pos) (pos - 1) else merged s pos) pos
  rw [htokens, hgeneration]
  split
  · exact tryAddMerge_fields m (merged s pos) (pos - 1)
  · exact ⟨rfl, rfl⟩

omit [LinearOrder S] in
/-- **The entries after a merge**: those there were, and those of the pairs beside it. -/
theorem mem_applyMerge {e : MergePair S} : e ∈ (applyMerge m s pos).queue ↔ e ∈ s.queue ∨
      ∃ i, (i = pos ∨ i + 1 = pos) ∧ Mergeable m (mergeTokens s.tokens pos) i ∧
        e = entryAt m (merged s pos) i := by
  rw [applyMerge_eq, mem_tryAddMerge]
  by_cases hpos : 0 < pos
  · rw [if_pos hpos, mem_tryAddMerge]
    obtain ⟨htokens, hgeneration⟩ := tryAddMerge_fields m (merged s pos) (pos - 1)
    have hentry : entryAt m (tryAddMerge m (merged s pos) (pos - 1)) pos =
        entryAt m (merged s pos) pos := by
      unfold entryAt
      rw [htokens, hgeneration]
    rw [htokens, hentry, or_assoc]
    refine or_congr_right ⟨?_, ?_⟩
    · rintro (⟨hm, he⟩ | ⟨hm, he⟩)
      · exact ⟨pos - 1, Or.inr (by omega), hm, he⟩
      · exact ⟨pos, Or.inl rfl, hm, he⟩
    rintro ⟨i, rfl | hi, hm, he⟩
    · exact Or.inr ⟨hm, he⟩
    obtain rfl : i = pos - 1 := by omega
    exact Or.inl ⟨hm, he⟩
  · rw [if_neg hpos]
    refine or_congr_right ⟨fun ⟨hm, he⟩ => ⟨pos, Or.inl rfl, hm, he⟩, ?_⟩
    rintro ⟨i, rfl | hi, hm, he⟩
    · exact ⟨hm, he⟩
    · omega

section Merge

variable {m : ScoredVocabulary S} {s : MergeState S} {top : MergePair S}

omit [LinearOrder S] in
theorem live_before (h : QueueInv m s) (hpos : Mergeable m s.tokens top.position)
    (hbehind : ∀ i, top.position + 2 ≤ i → ¬ Mergeable m s.tokens i) {e : MergePair S}
    (he : e ∈ s.queue) (hm : Mergeable m (mergeTokens s.tokens top.position) e.position)
    (hsame : e.generation =
      (bumped s.generation (mergeTokens s.tokens top.position) top.position).getD e.position 0) :
    e.position + 1 < top.position ∧ Live m s e := by
  have hlength := length_mergeTokens hpos.1
  have hlt := hm.1
  have hold := h.old e he (by omega)
  have hbump : (bumped s.generation (mergeTokens s.tokens top.position) top.position).getD
      e.position 0 = s.generation.getD e.position 0 +
        if e.position = top.position ∨ e.position + 1 = top.position then 1 else 0 :=
    (getD_bumped (h.length.trans hlength.symm) (by omega)).2
  rw [hbump] at hsame
  have hbefore : e.position + 1 < top.position := by
    by_contra hnot
    by_cases hbeside : e.position = top.position ∨ e.position + 1 = top.position
    · rw [if_pos hbeside] at hsame
      omega
    have hafter : top.position < e.position := by omega
    exact hbehind (e.position + 1) (by omega) ((mergeable_behind hpos.1 hafter).mp hm)
  refine ⟨hbefore, (mergeable_before hpos.1 hbefore).mp hm, ?_⟩
  rwa [if_neg (by omega), Nat.add_zero] at hsame

/-- **A merge keeps the queue right**, when nothing two places or more behind it could be
merged. -/
theorem QueueInv.merge (h : QueueInv m s) (hpos : Mergeable m s.tokens top.position)
    (hbehind : ∀ i, top.position + 2 ≤ i → ¬ Mergeable m s.tokens i) :
    QueueInv m (applyMerge m { s with queue := s.queue.erase top } top.position) := by
  obtain ⟨htokens, hgeneration⟩ := applyMerge_fields m { s with queue := s.queue.erase top }
    top.position
  dsimp only at htokens hgeneration
  have hlength := length_mergeTokens hpos.1
  have hbump : ∀ i, i < (mergeTokens s.tokens top.position).length →
      (bumped s.generation (mergeTokens s.tokens top.position) top.position).length =
          (mergeTokens s.tokens top.position).length ∧
        (bumped s.generation (mergeTokens s.tokens top.position) top.position).getD i 0 =
          s.generation.getD i 0 + if i = top.position ∨ i + 1 = top.position then 1 else 0 :=
    fun i hi => getD_bumped (h.length.trans hlength.symm) hi
  have hlt := hpos.1
  refine ⟨?_, fun e he hlt' => ?_, fun e he hlive => ?_, fun pos hm => ?_⟩
  · rw [htokens, hgeneration]
    exact (hbump top.position (by omega)).1
  · rw [htokens] at hlt'
    rw [hgeneration]
    rcases mem_applyMerge.mp he with hthere | ⟨i, -, -, rfl⟩
    · have hold := h.old e (mem_of_mem_erase hthere) (by omega)
      rw [(hbump e.position hlt').2]
      omega
    · exact le_refl _
  · rw [htokens]
    obtain ⟨hm, hsame⟩ := hlive
    rw [htokens] at hm
    rw [hgeneration] at hsame
    rcases mem_applyMerge.mp he with hthere | ⟨i, -, -, rfl⟩
    · obtain ⟨hbefore, hlive⟩ := live_before h hpos hbehind (mem_of_mem_erase hthere) hm hsame
      rw [h.sound e (mem_of_mem_erase hthere) hlive]
      unfold pairScore
      rw [pairAt_before hpos.1 hbefore]
    · rfl
  rw [htokens] at hm
  rw [hgeneration]
  have hlt' := hm.1
  by_cases hbeside : pos = top.position ∨ pos + 1 = top.position
  · exact ⟨_, mem_applyMerge.mpr (Or.inr ⟨pos, hbeside, hm, rfl⟩), rfl, rfl⟩
  by_cases hafter : top.position < pos
  · exact absurd ((mergeable_behind hpos.1 hafter).mp hm) (hbehind (pos + 1) (by omega))
  -- a pair that was there before
  obtain ⟨e, he, rfl, hsame⟩ := h.complete pos ((mergeable_before hpos.1 (by omega)).mp hm)
  have hne : e ≠ top := by
    rintro rfl
    exact hbeside (Or.inl rfl)
  refine ⟨e, mem_applyMerge.mpr (Or.inl ((mem_erase_of_ne hne).mpr he)), rfl, ?_⟩
  rw [(hbump e.position (by omega)).2, if_neg hbeside, hsame, Nat.add_zero]

/-- A stale entry is passed over. -/
theorem QueueInv.skip (h : QueueInv m s) (hstale : ¬ Live m s top) :
    QueueInv m { s with queue := s.queue.erase top } := by
  refine ⟨h.length, fun e he => h.old e (mem_of_mem_erase he),
    fun e he => h.sound e (mem_of_mem_erase he), fun pos hm => ?_⟩
  obtain ⟨e, he, rfl, hsame⟩ := h.complete pos hm
  have hne : e ≠ top := by
    rintro rfl
    exact hstale ⟨hm, hsame⟩
  exact ⟨e, (mem_erase_of_ne hne).mpr he, rfl, hsame⟩

/-- **What a round does**: it passes over a stale entry, or merges at a live one. -/
theorem mergeRound_cases (m : ScoredVocabulary S) (s : MergeState S) (top : MergePair S) :
    (¬ Live m s top ∧ mergeRound m s top = { s with queue := s.queue.erase top }) ∨
      (Live m s top ∧ mergeRound m s top =
        applyMerge m { s with queue := s.queue.erase top } top.position) := by
  unfold mergeRound Live Mergeable
  dsimp only
  split
  · rename_i hend
    exact Or.inl ⟨fun h => by have hlt := h.1.1; omega, rfl⟩
  rename_i hinside
  split
  · rename_i hstale
    exact Or.inl ⟨fun h => hstale h.2, rfl⟩
  rename_i hsame
  split
  · rename_i htoken
    exact Or.inr ⟨⟨⟨by omega, htoken⟩, not_not.mp hsame⟩, rfl⟩
  rename_i htoken
  exact Or.inl ⟨fun h => htoken h.1.2, rfl⟩

theorem top_best (hdistinct : DistinctScores m) (h : QueueInv m s) (hcalm : Calm m s.tokens)
    (htop : IsTop s.queue top) (hlive : Live m s top) :
    findBestMerge m s.tokens = top.position := by
  refine best_unique hdistinct hcalm hlive.1 fun i hi => ?_
  obtain ⟨e, he, rfl, hsame⟩ := h.complete i hi
  rw [← h.sound top htop.1 hlive, ← h.sound e he ⟨hi, hsame⟩]
  exact htop.2 e he

end Merge

/-! ### Runs -/

theorem mergeByScans_stop (h : findBestMerge m tokens < 0) : mergeByScans m tokens = tokens := by
  unfold mergeByScans
  cases tokens with
  | nil => rfl
  | cons t rest =>
    rw [length_cons, mergeScans]
    exact if_pos h

theorem mergeByScans_merge {best : Nat} (h : findBestMerge m tokens = best) :
    mergeByScans m tokens = mergeByScans m (mergeTokens tokens best) := by
  obtain ⟨i, hi, hm, -⟩ := best_of_nonneg (show 0 ≤ findBestMerge m tokens by omega)
  obtain rfl : i = best := by omega
  have hlength := length_mergeTokens hm.1
  unfold mergeByScans
  rw [← hlength, mergeScans, if_neg (by omega), h]
  rfl

theorem Scanned.trans {a b c : List Bytes} (h : Scanned m a b)
    (h' : Scanned m b c) : Scanned m a c := by
  induction h' with
  | start => exact h
  | merge _ hbest ih => exact ih.merge hbest

/-- **Every run** of the loop ends with what the scans end with. -/
theorem merges_eq (hdistinct : DistinctScores m)
    {result : List Bytes} (hrun : Merges m s result) (h : QueueInv m s)
    (hcalm : ∀ tokens, Scanned m s.tokens tokens → Calm m tokens) :
    result = mergeByScans m s.tokens := by
  induction hrun with
  | @done s hempty =>
    refine (mergeByScans_stop (not_le.mp fun hbest => ?_)).symm
    obtain ⟨i, -, hm, -⟩ := best_of_nonneg hbest
    obtain ⟨e, he, -⟩ := h.complete i hm
    rw [hempty] at he
    exact absurd he not_mem_nil
  | @round s top result htop _ ih =>
    rcases mergeRound_cases m s top with ⟨hstale, hround⟩ | ⟨hlive, hround⟩
    · rw [hround] at ih
      exact ih (h.skip hstale) hcalm
    have hbest := top_best hdistinct h (hcalm _ Scanned.start) htop hlive
    have htokens := (applyMerge_fields m { s with queue := s.queue.erase top } top.position).1
    rw [hround, htokens] at ih
    rw [mergeByScans_merge hbest]
    refine ih (h.merge hlive.1 ((hcalm _ Scanned.start).behind _ hbest)) fun tokens hscan => ?_
    refine hcalm tokens (Scanned.trans ?_ hscan)
    have hstep : Scanned m s.tokens
        (mergeTokens s.tokens (findBestMerge m s.tokens).toNat) := Scanned.start.merge (by omega)
    rwa [hbest] at hstep

/-- What a round takes away. -/
def mergeMeasure (s : MergeState S) : Nat := 3 * s.tokens.length + s.queue.length

theorem mergeRound_decreases {top : MergePair S}
    (htop : top ∈ s.queue) : mergeMeasure (mergeRound m s top) < mergeMeasure s := by
  have herase := length_erase_of_mem htop
  have hqueue := length_pos_of_mem htop
  unfold mergeMeasure
  rcases mergeRound_cases m s top with ⟨-, hround⟩ | ⟨hlive, hround⟩
  · rw [hround]
    dsimp only
    omega
  have hlength := length_mergeTokens hlive.1.1
  have hadded : (applyMerge m { s with queue := s.queue.erase top } top.position).queue.length ≤
      (s.queue.erase top).length + 2 := by
    rw [applyMerge_eq]
    refine (length_tryAddMerge _ _ _).trans (Nat.succ_le_succ ?_)
    split
    · exact length_tryAddMerge _ _ _
    · exact Nat.le_succ _
  rw [hround, (applyMerge_fields m { s with queue := s.queue.erase top } top.position).1]
  dsimp only
  omega

/-- The loop ends. -/
theorem exists_merges (m : ScoredVocabulary S) (s : MergeState S) :
    ∃ result, Merges m s result := by
  generalize hmeasure : mergeMeasure s = n
  induction n using Nat.strong_induction_on generalizing s with
  | _ n ih =>
    cases hqueue : s.queue with
    | nil => exact ⟨_, Merges.done hqueue⟩
    | cons e rest =>
      obtain ⟨top, htop⟩ : ∃ top, top ∈ s.queue.argmin MergePair.score := by
        cases hmin : s.queue.argmin MergePair.score with
        | none => simp [argmin_eq_none, hqueue] at hmin
        | some top => exact ⟨top, rfl⟩
      have hmem := argmin_mem htop
      have hdecreases := mergeRound_decreases (m := m) hmem
      obtain ⟨result, hrun⟩ := ih _ (by omega) (mergeRound m s top) rfl
      exact ⟨result, Merges.round ⟨hmem, fun e he => le_of_mem_argmin he htop⟩ hrun⟩

/-- **The queue merges like the scans** as long as every pair that is merged has nothing to
merge two places or more behind it. -/
theorem queue_agrees_of_calm {m : ScoredVocabulary S} (hdistinct : DistinctScores m)
    {tokens : List Bytes} (hcalm : ∀ reached, Scanned m tokens reached → Calm m reached) :
    QueueAgrees m tokens := by
  intro result
  unfold MergeWithPriorityQueue
  by_cases hshort : tokens.length < 2
  · have hstop : mergeByScans m tokens = tokens := by
      refine mergeByScans_stop ?_
      unfold findBestMerge
      rw [if_pos hshort]
      decide
    rw [if_pos hshort, hstop]
  rw [if_neg hshort]
  have htokens := startMerge_tokens m tokens
  have hinv := startMerge_inv m tokens
  have hend : ∀ result, Merges m (startMerge m tokens) result → result = mergeByScans m tokens := by
    intro result hrun
    have heq := merges_eq hdistinct hrun hinv (by rwa [htokens])
    rwa [htokens] at heq
  refine ⟨hend result, ?_⟩
  rintro rfl
  obtain ⟨result, hrun⟩ := exists_merges m (startMerge m tokens)
  exact hend result hrun ▸ hrun

/-- Two tokens of two letters, and one of three. -/
def letterPairs : ScoredVocabulary Nat where
  tokenToId := fun token =>
    if token = [97, 98] then some 1
    else if token = [99, 100] then some 2
    else if token = [97, 98, 99] then some 3
    else none
  tokenScores := []
  scoreOfId := id
  maxScore := 1000

theorem letterPairs_distinct : DistinctScores letterPairs := by
  have htokens : ∀ a, letterPairs.hasToken a = true → a = [97, 98] ∧ letterPairs.getTokenScore a = 1 ∨
      a = [99, 100] ∧ letterPairs.getTokenScore a = 2 ∨
      a = [97, 98, 99] ∧ letterPairs.getTokenScore a = 3 := by
    intro a ha
    unfold ScoredVocabulary.hasToken letterPairs at ha
    by_cases h1 : a = [97, 98]
    · subst h1; exact Or.inl ⟨rfl, by decide⟩
    by_cases h2 : a = [99, 100]
    · subst h2; exact Or.inr (Or.inl ⟨rfl, by decide⟩)
    by_cases h3 : a = [97, 98, 99]
    · subst h3; exact Or.inr (Or.inr ⟨rfl, by decide⟩)
    · simp [h1, h2, h3] at ha
  intro a b ha hb hscore
  rcases htokens a ha with ⟨rfl, h⟩ | ⟨rfl, h⟩ | ⟨rfl, h⟩ <;>
    rcases htokens b hb with ⟨rfl, h'⟩ | ⟨rfl, h'⟩ | ⟨rfl, h'⟩ <;>
    first | rfl | (rw [h, h'] at hscore; omega)

/-- `a b c` becomes `ab c` and then `abc`. -/
theorem three_letters_agree : QueueAgrees letterPairs [[97], [98], [99]] := by
  refine queue_agrees_of_calm letterPairs_distinct fun reached hscan => ?_
  have hreached : reached = [[97], [98], [99]] ∨ reached = [[97, 98], [99]] ∨
      reached = [[97, 98, 99]] := by
    induction hscan with
    | start => exact Or.inl rfl
    | merge _ hbest ih =>
      rcases ih with rfl | rfl | rfl
      · exact Or.inr (Or.inl (by decide))
      · exact Or.inr (Or.inr (by decide))
      · exact absurd hbest (by decide)
  have hpairs : reached.length ≤ 3 ∧ (∀ pos < 3, Mergeable letterPairs reached pos →
      pos = 0 ∧ pairScore letterPairs reached pos < letterPairs.maxScore) := by
    unfold Mergeable
    rcases hreached with rfl | rfl | rfl <;> decide
  obtain ⟨hlength, hfirst⟩ := hpairs
  have honly : ∀ pos, Mergeable letterPairs reached pos → pos < 3 := fun pos hm => by
    have hlt := hm.1
    omega
  refine ⟨fun pos hm => (hfirst pos (honly pos hm) hm).2, fun best _ pos hpos hm => ?_,
    fun best _ hm => ?_⟩
  · have hzero := (hfirst pos (honly pos hm) hm).1
    omega
  have hzero := (hfirst _ (honly _ hm) hm).1
  omega

/-- `a b c d`: after `ab` the entry of `cd` is dropped, and `abc` is merged. -/
theorem right_pair_lost :
    MergeWithPriorityQueue letterPairs [[97], [98], [99], [100]] [[97, 98, 99], [100]] ∧
      mergeByScans letterPairs [[97], [98], [99], [100]] = [[97, 98], [99, 100]] ∧
      ¬ QueueAgrees letterPairs [[97], [98], [99], [100]] := by
  have hstart : startMerge letterPairs [[97], [98], [99], [100]] =
      ⟨[[97], [98], [99], [100]], [0, 0, 0, 0], [⟨1, 0, 0⟩, ⟨2, 2, 0⟩]⟩ := by rfl
  have hfirst : mergeRound letterPairs
      ⟨[[97], [98], [99], [100]], [0, 0, 0, 0], [⟨1, 0, 0⟩, ⟨2, 2, 0⟩]⟩ ⟨1, 0, 0⟩ =
      ⟨[[97, 98], [99], [100]], [1, 0, 0], [⟨2, 2, 0⟩, ⟨3, 0, 1⟩]⟩ := by rfl
  have hsecond : mergeRound letterPairs
      ⟨[[97, 98], [99], [100]], [1, 0, 0], [⟨2, 2, 0⟩, ⟨3, 0, 1⟩]⟩ ⟨2, 2, 0⟩ =
      ⟨[[97, 98], [99], [100]], [1, 0, 0], [⟨3, 0, 1⟩]⟩ := by rfl
  have hthird : mergeRound letterPairs ⟨[[97, 98], [99], [100]], [1, 0, 0], [⟨3, 0, 1⟩]⟩
      ⟨3, 0, 1⟩ = ⟨[[97, 98, 99], [100]], [2, 0], []⟩ := by rfl
  have hqueue : MergeWithPriorityQueue letterPairs [[97], [98], [99], [100]]
      [[97, 98, 99], [100]] := by
    unfold MergeWithPriorityQueue
    rw [if_neg (by decide), hstart]
    refine Merges.round (show IsTop _ ⟨1, 0, 0⟩ from ⟨by simp, by simp⟩) ?_
    rw [hfirst]
    refine Merges.round (show IsTop _ ⟨2, 2, 0⟩ from ⟨by simp, by simp⟩) ?_
    rw [hsecond]
    refine Merges.round (show IsTop _ ⟨3, 0, 1⟩ from ⟨by simp, by simp⟩) ?_
    rw [hthird]
    exact Merges.done rfl
  have hscans : mergeByScans letterPairs [[97], [98], [99], [100]] = [[97, 98], [99, 100]] := by
    decide
  refine ⟨hqueue, hscans, fun h => ?_⟩
  have heq := (h _).mp hqueue
  rw [hscans] at heq
  exact absurd heq (by decide)

end DenseCore.Models
