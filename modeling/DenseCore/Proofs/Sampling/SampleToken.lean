/-
What a sampled token respects.

The tokens that a draw can reach form the pool of the row: the best candidate, and
off the greedy paths the candidates that pass `top_k`, `min_p` and `top_p`.  Every
member of the pool can be drawn and nothing else is.  The raw path and the path with
the repetition penalty test both lists of ids.  So does the adjusted logit, but not
with a grammar: the copy of the logits that replaces the test only loses the
disallowed tokens and those the grammar masks, and the allow list is not consulted.
The constraints are respected for every draw if and only if there is no mask or the
allow list has the whole pool.
-/
import DenseCore.Proofs.Sampling.Draw
import Mathlib.Analysis.Complex.Trigonometric

namespace DenseCore.Sampling.SamplingParams

open Option hiding or_assoc

open List hiding le_antisymm le_of_lt le_refl le_trans lt_irrefl lt_of_le_of_lt lt_trans not_lt

open DenseCore.Lib

variable {K : Type} [Field K] [LinearOrder K] [IsStrictOrderedRing K]
variable {p : SamplingParams K} {f : Functions K} {nVocab : Nat} {row : Nat → Option K}

/-! ### What is asked of the token -/

/-- The grammar leaves the token. -/
def unmaskedAt (p : SamplingParams K) (t : Nat) : Bool :=
  match p.grammar, p.vocab with
  | some g, some vocab => g.unmasked (vocab.getD t [])
  | _, _ => true

/-- The token is in the range and meets every constraint. -/
structure Permitted (p : SamplingParams K) (nVocab t : Nat) : Prop where
  inRange : t ∈ p.tokens nVocab
  allowed : p.isAllowed t
  notDisallowed : p.isDisallowed t = false
  unmasked : p.unmaskedAt t

/-- How many candidates are better than `c`. -/
def rankIn (cs : List (SamplingCandidate K)) (c : SamplingCandidate K) : Nat :=
  cs.countP (better · c)

/-- The constraints on the returned token. -/
structure Respects (p : SamplingParams K) (f : Functions K) (nVocab : Nat) (row : Nat → Option K)
    (t : Nat) : Prop where
  permitted : p.Permitted nVocab t
  topK : 0 < p.temperature → 1 < p.topK → p.topK < p.activeVocab nVocab →
    ∃ c ∈ p.finiteCandidates f nVocab row, c.tokenId = t ∧
      (rankIn (p.finiteCandidates f nVocab row) c : Int) < p.topK

/-- Some permitted token has a finite adjusted logit. -/
def HasChoice (p : SamplingParams K) (f : Functions K) (nVocab : Nat) (row : Nat → Option K) : Prop :=
  ∃ t, p.Permitted nVocab t ∧ (p.adjustedLogitAt f row t).isSome

/-- The best candidate is returned without a draw. -/
def isGreedy (p : SamplingParams K) : Bool :=
  p.temperature ≤ 0 || p.topK ≤ 1 && 1 ≤ p.topP && p.minP ≤ 0

/-- The sum of the exponentials. -/
def weight (f : Functions K) (cs : List (SamplingCandidate K)) : K :=
  (cs.map fun c => f.exp c.logit).sum

/-- The candidate passes `top_k`, `min_p` and `top_p`. -/
structure Survives (p : SamplingParams K) (f : Functions K) (k : Nat)
    (finite : List (SamplingCandidate K)) (c : SamplingCandidate K) : Prop where
  topK : rankIn finite c < k
  minP : 0 < p.minP → ∀ u ∈ finite, p.minP * f.exp u.logit ≤ f.exp c.logit
  topP : p.topP < 1 → weight f (finite.filter (better · c)) < p.topP * weight f finite

/-- The pool: the best candidate, and what survives unless the choice is greedy. -/
def InPool (p : SamplingParams K) (f : Functions K) (nVocab : Nat) (row : Nat → Option K)
    (c : SamplingCandidate K) : Prop :=
  c ∈ p.finiteCandidates f nVocab row ∧ (rankIn (p.finiteCandidates f nVocab row) c = 0 ∨
      p.isGreedy = false ∧
        p.Survives f (p.effectiveK (p.activeVocab nVocab)) (p.finiteCandidates f nVocab row) c)

/-! ### The finite candidates -/

omit [Field K] [IsStrictOrderedRing K] in
theorem rankIn_eq (cs : List (SamplingCandidate K)) (c : SamplingCandidate K) :
    rankIn cs c = rank cs c := by
  unfold rankIn rank
  refine countP_congr fun a _ => ?_
  rw [better_iff, decide_eq_true_iff]

omit [Field K] [IsStrictOrderedRing K] in
theorem filter_better (cs : List (SamplingCandidate K)) (c : SamplingCandidate K) :
    cs.filter (better · c) = cs.filter (· < c) := by
  refine filter_congr fun a _ => ?_
  rw [Bool.eq_iff_iff, better_iff, decide_eq_true_iff]

omit [Field K] [IsStrictOrderedRing K] in
theorem mergeSort_better (cs : List (SamplingCandidate K)) :
    cs.mergeSort (fun a b => !better b a) = cs.mergeSort (· ≤ ·) := by
  congr 1
  funext a b
  rw [Bool.eq_iff_iff, Bool.not_eq_true', decide_eq_true_iff, ← not_lt, ← better_iff]
  simp

omit [IsStrictOrderedRing K] in
theorem totalMass_eq_weight (m : K) (cs : List (SamplingCandidate K)) :
    totalMass f m cs = weight f cs * f.exp (-m) := by
  induction cs with
  | nil => simp [totalMass, weight]
  | cons c rest ih =>
    rw [totalMass_cons, mass_eq, ih]
    simp only [weight, map_cons, sum_cons]
    ring

omit [LinearOrder K] [Field K] [IsStrictOrderedRing K] in
theorem pairwise_candidatesOf (logitAt : Nat → Option K) {ts : List Nat}
    (hts : ts.Pairwise (· < ·)) :
    (candidatesOf logitAt ts).Pairwise fun a b => a.tokenId < b.tokenId := by
  induction ts with
  | nil => exact List.Pairwise.nil
  | cons t ts ih =>
    obtain ⟨hlt, hts⟩ := pairwise_cons.mp hts
    rw [candidatesOf_cons]
    cases logitAt t with
    | none => exact ih hts
    | some v =>
      refine pairwise_cons.mpr ⟨fun c hc => ?_, ih hts⟩
      exact hlt c.tokenId (mem_candidatesOf.mp hc).1

omit [IsStrictOrderedRing K] in
theorem nodup_finiteCandidates : (p.finiteCandidates f nVocab row).Nodup := by
  have hpairwise := pairwise_candidatesOf (p.adjustedLogitAt f row) (p.pairwise_tokens nVocab)
  exact hpairwise.imp fun hlt heq => by
    rw [heq] at hlt
    exact lt_irrefl _ hlt

omit [IsStrictOrderedRing K] in
theorem length_finiteCandidates_le :
    (p.finiteCandidates f nVocab row).length ≤ p.activeVocab nVocab := by
  refine le_trans (length_filterMap_le _ _) (le_of_eq ?_)
  unfold tokens
  exact length_range'

variable {c best : SamplingCandidate K} {active : Nat}

omit [IsStrictOrderedRing K] in
theorem permitted_of_mem (hc : c ∈ p.finiteCandidates f nVocab row) :
    c.tokenId ∈ p.tokens nVocab ∧ p.isDisallowed c.tokenId = false ∧ p.unmaskedAt c.tokenId ∧
      (p.requiresWorkingLogits = false → p.isAllowed c.tokenId) := by
  obtain ⟨hrange, hlogit⟩ := mem_candidatesOf.mp hc
  refine ⟨hrange, ?_⟩
  unfold adjustedLogitAt at hlogit
  split at hlogit
  · cases hlogit
  rename_i hfree
  obtain ⟨v, hrow, -⟩ := bind_eq_some_iff.mp hlogit
  unfold workingLogit at hrow
  unfold unmaskedAt
  unfold requiresWorkingLogits at hfree ⊢
  cases hgrammar : p.grammar with
  | none => simp_all
  | some g =>
    cases hvocab : p.vocab with
    | none => simp_all
    | some vocab =>
      rw [hgrammar, hvocab] at hrow
      simp only at hrow
      split at hrow
      · cases hrow
      rename_i hdisallowed
      split at hrow
      · rename_i hunmasked
        exact ⟨by simpa using hdisallowed, hunmasked, by simp⟩
      · cases hrow

/-! ### The kept candidates -/

/-- The best `k` candidates in order. -/
def bestK (finite : List (SamplingCandidate K)) (k : Nat) : List (SamplingCandidate K) :=
  (finite.mergeSort (· ≤ ·)).take k

/-- The candidates that pass `min_p`, relative to the first of them. -/
def likely (p : SamplingParams K) (f : Functions K) (m : K) (cs : List (SamplingCandidate K)) :
    List (SamplingCandidate K) :=
  match cs with
  | [] => []
  | front :: _ => if 0 < p.minP then cs.filter fun c => p.minP * mass f m front ≤ mass f m c else cs

/-- The candidates left for the draw. -/
def kept (p : SamplingParams K) (f : Functions K) (k : Nat) (m : K)
    (finite : List (SamplingCandidate K)) : List (SamplingCandidate K) :=
  let likely := p.likely f m (bestK finite k)
  if p.topP < 1 then cutTopP f m (p.topP * totalMass f m finite) 0 likely else likely

/-- The draw among the kept candidates, or the best one if there are none. -/
def drawFrom (f : Functions K) (m fraction : K) (best : Nat) (cs : List (SamplingCandidate K)) :
    Nat :=
  match cs with
  | [] => best
  | front :: rest => draw f m fraction (front :: rest) front.tokenId

variable {finite : List (SamplingCandidate K)} {k : Nat}

omit [Field K] [IsStrictOrderedRing K] in
theorem pairwise_bestK (hnodup : finite.Nodup) : (bestK finite k).Pairwise (· < ·) :=
  (pairwise_lt_mergeSort hnodup).sublist (take_sublist k _)

omit [Field K] [IsStrictOrderedRing K] in
theorem mem_bestK (hnodup : finite.Nodup) :
    c ∈ bestK finite k ↔ c ∈ finite ∧ rankIn finite c < k := by
  unfold bestK
  rw [mem_take_iff_rank (pairwise_lt_mergeSort hnodup), mem_mergeSort, rankIn_eq,
    rank_perm (mergeSort_perm finite _)]

omit [Field K] [IsStrictOrderedRing K] in
theorem rankIn_eq_zero_iff : rankIn finite c = 0 ↔ ∀ u ∈ finite, c ≤ u := by
  rw [rankIn_eq, rank_eq_zero_iff_forall_le]

omit [Field K] [IsStrictOrderedRing K] in
/-- The best candidate is the first of the best `k`. -/
theorem bestK_eq_cons (hnodup : finite.Nodup) (hbest : finite.min? = some best) (hk : 0 < k) :
    ∃ rest, bestK finite k = best :: rest := by
  obtain ⟨hmem, hle⟩ := min?_eq_some_iff.mp hbest
  have hin : best ∈ bestK finite k := by
    rw [mem_bestK hnodup, rankIn_eq_zero_iff.mpr hle]
    exact ⟨hmem, hk⟩
  have hsorted := pairwise_bestK (k := k) hnodup
  cases hcs : bestK finite k with
  | nil =>
    rw [hcs] at hin
    exact absurd hin not_mem_nil
  | cons front rest =>
    rw [hcs] at hin hsorted
    have hfront : front ∈ finite := by
      have : front ∈ bestK finite k := by
        rw [hcs]
        exact mem_cons_self
      exact ((mem_bestK hnodup).mp this).1
    rcases mem_cons.mp hin with rfl | hrest
    · exact ⟨rest, rfl⟩
    · exact absurd (hle front hfront) (not_le_of_gt ((pairwise_cons.mp hsorted).1 best hrest))

/-- What `min_p` leaves of the best `k`. -/
theorem mem_likely (hnodup : finite.Nodup) (hbest : finite.min? = some best) (hk : 0 < k) (m : K) :
    c ∈ p.likely f m (bestK finite k) ↔ c ∈ finite ∧ rankIn finite c < k ∧
      (0 < p.minP → ∀ u ∈ finite, p.minP * f.exp u.logit ≤ f.exp c.logit) := by
  obtain ⟨rest, hcs⟩ := bestK_eq_cons hnodup hbest hk
  obtain ⟨hmem, hle⟩ := min?_eq_some_iff.mp hbest
  have hscale : 0 < f.exp (-m) := f.exp_pos _
  have hlikely : p.likely f m (bestK finite k) =
      if 0 < p.minP then (bestK finite k).filter fun c => p.minP * mass f m best ≤ mass f m c
      else bestK finite k := by
    rw [hcs]
    rfl
  rw [hlikely]
  by_cases hmin : 0 < p.minP
  · rw [if_pos hmin, mem_filter, mem_bestK hnodup, decide_eq_true_iff, mass_eq, mass_eq,
      ← mul_assoc, mul_le_mul_iff_of_pos_right hscale, and_assoc]
    refine and_congr_right fun _ => and_congr_right fun _ => ?_
    constructor
    · intro hc _ u hu
      have hlogit : f.exp u.logit ≤ f.exp best.logit :=
        f.exp_mono _ _ (logit_le_of_le (hle u hu))
      exact le_trans (mul_le_mul_of_nonneg_left hlogit (le_of_lt hmin)) hc
    intro hc
    exact hc hmin best hmem
  rw [if_neg hmin, mem_bestK hnodup]
  exact and_congr_right fun _ => ⟨fun h => ⟨h, fun hpos => absurd hpos hmin⟩, fun h => h.1⟩

omit [IsStrictOrderedRing K] in
theorem pairwise_likely (hnodup : finite.Nodup) (m : K) :
    (p.likely f m (bestK finite k)).Pairwise (· < ·) := by
  have hsorted := pairwise_bestK (k := k) hnodup
  unfold likely
  split
  · exact List.Pairwise.nil
  split
  · exact hsorted.sublist filter_sublist
  · exact hsorted

theorem mem_likely_of_lt (hnodup : finite.Nodup)
    (hbest : finite.min? = some best) (hk : 0 < k) (m : K) {u : SamplingCandidate K}
    (hc : c ∈ p.likely f m (bestK finite k)) (hu : u ∈ finite) (hlt : u < c) :
    u ∈ p.likely f m (bestK finite k) := by
  obtain ⟨-, hrank, hmin⟩ := (mem_likely hnodup hbest hk m).mp hc
  refine (mem_likely hnodup hbest hk m).mpr ⟨hu, lt_of_le_of_lt ?_ hrank, fun hpos v hv => ?_⟩
  · rw [rankIn_eq, rankIn_eq]
    exact countP_mono_left fun a _ ha => by
      simp only [decide_eq_true_eq] at ha ⊢
      exact lt_trans ha hlt
  · exact le_trans (hmin hpos v hv) (f.exp_mono _ _ (logit_le_of_le (le_of_lt hlt)))

theorem filter_likely_perm (hnodup : finite.Nodup)
    (hbest : finite.min? = some best) (hk : 0 < k) (m : K)
    (hc : c ∈ p.likely f m (bestK finite k)) :
    ((p.likely f m (bestK finite k)).filter (· < c)).Perm (finite.filter (better · c)) := by
  rw [filter_better]
  have hlikely : (p.likely f m (bestK finite k)).Nodup :=
    (pairwise_likely hnodup m).imp fun hlt => ne_of_lt hlt
  refine (perm_ext_iff_of_nodup (hlikely.filter _) (hnodup.filter _)).mpr fun u => ?_
  rw [mem_filter, mem_filter, decide_eq_true_iff]
  constructor
  · rintro ⟨hu, hlt⟩
    exact ⟨((mem_likely hnodup hbest hk m).mp hu).1, hlt⟩
  rintro ⟨hu, hlt⟩
  exact ⟨mem_likely_of_lt hnodup hbest hk m hc hu hlt, hlt⟩

/-- **What is kept**: the likely candidates, up to the cutoff. -/
theorem mem_kept (hnodup : finite.Nodup) (hbest : finite.min? = some best) (hk : 0 < k) (m : K) :
    c ∈ p.kept f k m finite ↔ c ∈ p.likely f m (bestK finite k) ∧ (rankIn finite c = 0 ∨
        (p.topP < 1 → weight f (finite.filter (better · c)) < p.topP * weight f finite)) := by
  have hscale : 0 < f.exp (-m) := f.exp_pos _
  unfold kept
  by_cases htop : p.topP < 1
  · simp only [if_pos htop]
    rw [mem_cutTopP (pairwise_likely hnodup m)]
    refine and_congr_right fun hc => ?_
    have hperm := filter_likely_perm hnodup hbest hk m hc
    have hrank : rank (p.likely f m (bestK finite k)) c = rankIn finite c := by
      unfold rank rankIn
      rw [countP_eq_length_filter, countP_eq_length_filter, hperm.length_eq]
    rw [hrank, totalMass_perm hperm, totalMass_eq_weight, totalMass_eq_weight, zero_add, ← mul_assoc,
      mul_lt_mul_iff_of_pos_right hscale]
    exact or_congr_right ⟨fun h _ => h, fun h => h htop⟩
  simp only [if_neg htop]
  exact ⟨fun h => ⟨h, Or.inr fun hlt => absurd hlt htop⟩, fun h => h.1⟩

theorem survives_of_mem_kept (hnodup : finite.Nodup)
    (hbest : finite.min? = some best) (hk : 0 < k) (m : K) (hc : c ∈ p.kept f k m finite) :
    c ∈ finite ∧ (rankIn finite c = 0 ∨ p.Survives f k finite c) := by
  obtain ⟨hlikely, htop⟩ := (mem_kept hnodup hbest hk m).mp hc
  obtain ⟨hmem, hrank, hmin⟩ := (mem_likely hnodup hbest hk m).mp hlikely
  refine ⟨hmem, ?_⟩
  rcases htop with hzero | htop
  · exact Or.inl hzero
  · exact Or.inr ⟨hrank, hmin, htop⟩

omit [Field K] [IsStrictOrderedRing K] in
theorem eq_best_iff (hbest : finite.min? = some best) (hc : c ∈ finite) :
    rankIn finite c = 0 ↔ c = best := by
  obtain ⟨hmem, hle⟩ := min?_eq_some_iff.mp hbest
  rw [rankIn_eq_zero_iff]
  constructor
  · intro hleast
    exact le_antisymm (hleast best hmem) (hle c hc)
  rintro rfl
  exact hle

theorem mem_kept_of_survives (hnodup : finite.Nodup)
    (hbest : finite.min? = some best) (hk : 0 < k) (m : K)
    (hc : c ∈ finite) (hpool : rankIn finite c = 0 ∨ p.Survives f k finite c) :
    c ∈ p.kept f k m finite ∨ p.kept f k m finite = [] ∧ c = best := by
  obtain ⟨hmem, hle⟩ := min?_eq_some_iff.mp hbest
  rcases hpool with hzero | hsurvives
  · obtain rfl := (eq_best_iff hbest hc).mp hzero
    cases hkept : p.kept f k m finite with
    | nil => exact Or.inr ⟨rfl, rfl⟩
    | cons c' rest =>
      have hc' : c' ∈ p.kept f k m finite := by
        rw [hkept]
        exact mem_cons_self
      obtain ⟨hlikely, -⟩ := (mem_kept hnodup hbest hk m).mp hc'
      have hfirst : c ∈ p.likely f m (bestK finite k) := by
        rcases lt_or_eq_of_le (hle c' (survives_of_mem_kept hnodup hbest hk m hc').1) with
          hlt | rfl
        · exact mem_likely_of_lt hnodup hbest hk m hlikely hmem hlt
        · exact hlikely
      rw [← hkept]
      exact Or.inl ((mem_kept hnodup hbest hk m).mpr ⟨hfirst, Or.inl hzero⟩)
  · refine Or.inl ((mem_kept hnodup hbest hk m).mpr ⟨?_, Or.inr hsurvives.topP⟩)
    exact (mem_likely hnodup hbest hk m).mpr ⟨hc, hsurvives.topK, hsurvives.minP⟩

theorem drawFrom_survives (hnodup : finite.Nodup)
    (hbest : finite.min? = some best) (hk : 0 < k) (m m' fraction : K) :
    ∃ c ∈ finite, (rankIn finite c = 0 ∨ p.Survives f k finite c) ∧
      c.tokenId = drawFrom f m' fraction best.tokenId (p.kept f k m finite) := by
  cases hkept : p.kept f k m finite with
  | nil =>
    have hmem := (min?_eq_some_iff.mp hbest).1
    exact ⟨best, hmem, Or.inl ((eq_best_iff hbest hmem).mpr rfl), rfl⟩
  | cons front rest =>
    obtain ⟨c, hc, ht⟩ := draw_mem (f := f) m' fraction (mem_cons_self (a := front) (l := rest))
    rw [← hkept] at hc
    obtain ⟨hmem, hpool⟩ := survives_of_mem_kept hnodup hbest hk m hc
    exact ⟨c, hmem, hpool, ht⟩

theorem survives_drawFrom (hnodup : finite.Nodup)
    (hbest : finite.min? = some best) (hk : 0 < k) (m m' : K)
    (hc : c ∈ finite) (hpool : rankIn finite c = 0 ∨ p.Survives f k finite c) :
    ∃ fraction, 0 ≤ fraction ∧ fraction < 1 ∧
      drawFrom f m' fraction best.tokenId (p.kept f k m finite) = c.tokenId := by
  rcases mem_kept_of_survives hnodup hbest hk m hc hpool with hkept | ⟨hnone, rfl⟩
  · cases hcs : p.kept f k m finite with
    | nil =>
      rw [hcs] at hkept
      exact absurd hkept not_mem_nil
    | cons front rest =>
      rw [hcs] at hkept
      exact draw_every m' hkept front.tokenId
  rw [hnone]
  exact ⟨0, le_refl _, zero_lt_one, rfl⟩

/-! ### The paths of the sampler

The greedy paths and the draw choose among the same candidates. What is asked of the token
is therefore a property of the list of candidates.
-/

omit [LinearOrder K] [Field K] [IsStrictOrderedRing K] in
theorem effectiveK_pos (p : SamplingParams K) (hactive : 0 < active) : 0 < p.effectiveK active := by
  unfold effectiveK
  split
  · exact hactive
  · omega

omit [Field K] [IsStrictOrderedRing K] in
theorem bestK_of_not_limited (hlength : finite.length ≤ active)
    (hlimited : ¬ p.effectiveK active < active) :
    bestK finite (p.effectiveK active) = finite.mergeSort (· ≤ ·) := by
  unfold bestK
  rw [take_of_length_le]
  rw [length_mergeSort]
  omega

omit [IsStrictOrderedRing K] in
/-- The path with `top_k` alone draws from the kept candidates. -/
theorem sampleTopK_eq (hnodup : finite.Nodup) (hk : 0 < k) (hlimited : k < active)
    (htop : 1 ≤ p.topP) (hmin : p.minP ≤ 0) {s : Pass K} (hs : PassOf f k active finite s)
    (fraction : K) :
    sampleTopK f fraction s =
      drawFrom f s.maxLogit fraction s.bestToken (p.kept f k s.maxLogit finite) := by
  obtain ⟨rest, hcs⟩ := bestK_eq_cons hnodup hs.best hk
  have hheap : s.heap.mergeSort (fun a b => !better b a) = bestK finite k := by
    rw [mergeSort_better, (hs.heap hlimited).mergeSort_eq]
    rfl
  have hkept : p.kept f k s.maxLogit finite = bestK finite k := by
    unfold kept likely
    simp only [if_neg (not_lt.mpr htop), if_neg (not_lt.mpr hmin)]
    split <;> simp_all
  unfold sampleTopK
  rw [hheap, hkept, hcs]
  rfl

/-- So does the path with `top_p` and `min_p`. -/
theorem sampleNucleus_eq (hlength : finite.length ≤ active)
    (hne : finite ≠ []) {s : Pass K} (hs : PassOf f (p.effectiveK active) active finite s)
    (fraction : K) :
    p.sampleNucleus f active fraction finite s = drawFrom f s.maxLogit fraction s.bestToken
        (p.kept f (p.effectiveK active) s.maxLogit finite) := by
  have hsum : (if p.effectiveK active < active then s.sumExp else totalMass f s.maxLogit finite) =
      totalMass f s.maxLogit finite := by
    split
    · exact hs.sum
    · rfl
  have hsorted : (if p.effectiveK active < active then s.heap else finite).mergeSort
      (fun a b => !better b a) = bestK finite (p.effectiveK active) := by
    rw [mergeSort_better]
    split
    · rename_i hlimited
      rw [(hs.heap hlimited).mergeSort_eq]
      rfl
    rename_i hlimited
    exact (bestK_of_not_limited hlength hlimited).symm
  have hpos : ¬ totalMass f s.maxLogit finite ≤ 0 := not_le_of_gt (totalMass_pos hne)
  unfold sampleNucleus
  simp only [hsum, hsorted, if_neg hpos]
  rfl

/-- The raw greedy path is taken. -/
def isRaw (p : SamplingParams K) : Bool :=
  p.temperature ≤ 0 && p.grammar.isNone && !p.hasPenalty

omit [IsStrictOrderedRing K] in
theorem rawLogit_isSome (hraw : p.isRaw) {t : Nat} (hfinite : (p.adjustedLogitAt f row t).isSome) :
    (p.rawLogit row t).isSome := by
  unfold isRaw at hraw
  simp only [Bool.and_eq_true, decide_eq_true_eq, isNone_iff_eq_none,
    Bool.not_eq_true'] at hraw
  obtain ⟨⟨-, hgrammar⟩, -⟩ := hraw
  have hworking : p.requiresWorkingLogits = false := by
    unfold requiresWorkingLogits
    rw [hgrammar]
    rfl
  have hrow : p.workingLogit row t = row t := by
    unfold workingLogit
    rw [hgrammar]
  unfold adjustedLogitAt at hfinite
  rw [hworking, hrow] at hfinite
  split at hfinite
  · simp at hfinite
  rename_i hblocked
  have hfree : p.isFree t = true := by
    unfold isFree
    simpa using hblocked
  obtain ⟨v, hv⟩ := isSome_iff_exists.mp hfinite
  obtain ⟨w, hw, -⟩ := bind_eq_some_iff.mp hv
  unfold rawLogit
  rw [if_pos hfree, hw]
  rfl

omit [IsStrictOrderedRing K] in
theorem permitted_raw (hsorted : p.SortedIds) (hraw : p.isRaw)
    (hchoice : p.HasChoice f nVocab row) :
    p.Permitted nVocab (p.finiteArgmaxRaw nVocab row) := by
  obtain ⟨t, ht, hfinite⟩ := hchoice
  obtain ⟨v, hv⟩ := isSome_iff_exists.mp (rawLogit_isSome hraw hfinite)
  have hmem : ⟨v, t⟩ ∈ candidatesOf (p.rawLogit row) (p.tokens nVocab) :=
    mem_candidatesOf.mpr ⟨ht.inRange, hv⟩
  obtain ⟨b, hb⟩ := isSome_iff_exists.mp (isSome_min?_of_mem hmem)
  rw [finiteArgmaxRaw_eq hsorted, hb]
  show p.Permitted nVocab b.tokenId
  obtain ⟨hrange, hlogit⟩ := mem_candidatesOf.mp (min?_eq_some_iff.mp hb).1
  have hfree : p.isFree b.tokenId = true := by
    unfold rawLogit at hlogit
    split at hlogit
    · assumption
    · cases hlogit
  unfold isFree at hfree
  rw [Bool.and_eq_true, Bool.not_eq_true'] at hfree
  refine ⟨hrange, hfree.2, hfree.1, ?_⟩
  unfold isRaw at hraw
  unfold unmaskedAt
  simp_all

omit [IsStrictOrderedRing K] in
theorem sampleToken_greedy (hsorted : p.SortedIds) (hraw : p.isRaw = false) (hgreedy : p.isGreedy)
    (fraction : K) :
    p.sampleToken f nVocab row fraction = p.finiteArgmaxAdjusted f nVocab row := by
  unfold isRaw at hraw
  unfold isGreedy at hgreedy
  unfold sampleToken
  rw [hraw, hgreedy]
  by_cases honly : p.greedyRepetitionOnly
  · simpa [honly] using greedyRepetition_eq hsorted honly f nVocab row
  · simp [honly]

theorem sampleToken_draw (hgreedy : p.isGreedy = false)
    (hbest : (p.finiteCandidates f nVocab row).min? = some best) (fraction : K) :
    p.sampleToken f nVocab row fraction = drawFrom f best.logit fraction best.tokenId
        (p.kept f (p.effectiveK (p.activeVocab nVocab)) best.logit
          (p.finiteCandidates f nVocab row)) := by
  have hne : p.finiteCandidates f nVocab row ≠ [] := by
    intro hnil
    rw [hnil] at hbest
    cases hbest
  have hnodup : (p.finiteCandidates f nVocab row).Nodup := nodup_finiteCandidates
  have hlength : (p.finiteCandidates f nVocab row).length ≤ p.activeVocab nVocab :=
    length_finiteCandidates_le
  have hactive : 0 < p.activeVocab nVocab := by
    have := length_pos_iff.mpr hne
    omega
  obtain ⟨s, hs, hpass⟩ := foldl_passStep f (p.effectiveK (p.activeVocab nVocab))
    (p.activeVocab nVocab) hne hnodup
  obtain rfl : best = ⟨s.maxLogit, s.bestToken⟩ := some.inj (hbest.symm.trans hpass.best)
  have htemp : ¬ p.temperature ≤ 0 := by
    unfold isGreedy at hgreedy
    simp only [Bool.or_eq_false_iff, decide_eq_false_iff_not] at hgreedy
    exact hgreedy.1
  have hraw : (p.temperature ≤ 0 && p.grammar.isNone && !p.hasPenalty) = false := by simp [htemp]
  have honly : p.greedyRepetitionOnly = false := by simp [greedyRepetitionOnly, htemp]
  unfold isGreedy at hgreedy
  unfold sampleToken
  rw [hraw, honly, hgreedy]
  simp only [Bool.false_eq_true, if_false, hs]
  split
  · rename_i hpath
    simp only [Bool.and_eq_true, decide_eq_true_eq] at hpath
    obtain ⟨⟨hlimited, htop⟩, hmin⟩ := hpath
    exact sampleTopK_eq hnodup (p.effectiveK_pos hactive) hlimited htop hmin hpass fraction
  · exact sampleNucleus_eq hlength hne hpass fraction

/-! ### The constraints -/

omit [IsStrictOrderedRing K] in
theorem finite_of_hasChoice (hchoice : p.HasChoice f nVocab row) :
    ∃ best, (p.finiteCandidates f nVocab row).min? = some best := by
  obtain ⟨t, ht, hfinite⟩ := hchoice
  obtain ⟨v, hv⟩ := isSome_iff_exists.mp hfinite
  have hmem : ⟨v, t⟩ ∈ p.finiteCandidates f nVocab row := mem_candidatesOf.mpr ⟨ht.inRange, hv⟩
  exact isSome_iff_exists.mp (isSome_min?_of_mem hmem)

/-- **Nothing outside the pool is returned.** -/
theorem sampleToken_inPool (hsorted : p.SortedIds) (hraw : p.isRaw = false)
    (hchoice : p.HasChoice f nVocab row) (fraction : K) :
    ∃ c, p.InPool f nVocab row c ∧ c.tokenId = p.sampleToken f nVocab row fraction := by
  obtain ⟨best, hbest⟩ := finite_of_hasChoice hchoice
  have hmem := (min?_eq_some_iff.mp hbest).1
  cases hgreedy : p.isGreedy with
  | true =>
    refine ⟨best, ⟨hmem, Or.inl ((eq_best_iff hbest hmem).mpr rfl)⟩, ?_⟩
    rw [sampleToken_greedy hsorted hraw hgreedy, finiteArgmaxAdjusted_eq, hbest]
    rfl
  | false =>
    have hactive : 0 < p.activeVocab nVocab :=
      lt_of_lt_of_le (length_pos_of_mem hmem) length_finiteCandidates_le
    obtain ⟨c, hc, hpool, ht⟩ := drawFrom_survives (p := p) (f := f) nodup_finiteCandidates hbest
      (p.effectiveK_pos hactive) best.logit best.logit fraction
    rw [sampleToken_draw hgreedy hbest]
    exact ⟨c, ⟨hc, hpool.imp_right fun h => ⟨hgreedy, h⟩⟩, ht⟩

/-- **Every member of the pool is returned by some draw.** -/
theorem inPool_sampleToken (hsorted : p.SortedIds) (hraw : p.isRaw = false)
    (hchoice : p.HasChoice f nVocab row) (hc : p.InPool f nVocab row c) :
    ∃ fraction, 0 ≤ fraction ∧ fraction < 1 ∧ p.sampleToken f nVocab row fraction = c.tokenId := by
  obtain ⟨best, hbest⟩ := finite_of_hasChoice hchoice
  obtain ⟨hmem, hpool⟩ := hc
  cases hgreedy : p.isGreedy with
  | true =>
    have hzero : rankIn (p.finiteCandidates f nVocab row) c = 0 := by
      rcases hpool with hzero | ⟨hfalse, -⟩
      · exact hzero
      rw [hgreedy] at hfalse
      cases hfalse
    refine ⟨0, le_refl _, zero_lt_one, ?_⟩
    rw [sampleToken_greedy hsorted hraw hgreedy, finiteArgmaxAdjusted_eq, hbest,
      (eq_best_iff hbest hmem).mp hzero]
    rfl
  | false =>
    have hactive : 0 < p.activeVocab nVocab :=
      lt_of_lt_of_le (length_pos_of_mem hmem) length_finiteCandidates_le
    obtain ⟨fraction, hlow, hhigh, ht⟩ := survives_drawFrom (p := p) (f := f)
      nodup_finiteCandidates hbest (p.effectiveK_pos hactive) best.logit best.logit hmem
      (hpool.imp_right fun h => h.2)
    refine ⟨fraction, hlow, hhigh, ?_⟩
    rw [sampleToken_draw hgreedy hbest]
    exact ht

omit [IsStrictOrderedRing K] in
theorem respects_of_inPool (hc : p.InPool f nVocab row c)
    (hallowed : p.isAllowed c.tokenId) : p.Respects f nVocab row c.tokenId := by
  obtain ⟨hmem, hpool⟩ := hc
  obtain ⟨hrange, hdisallowed, hunmasked, -⟩ := permitted_of_mem hmem
  refine ⟨⟨hrange, hallowed, hdisallowed, hunmasked⟩, fun _ hone hlimited => ?_⟩
  refine ⟨c, hmem, rfl, ?_⟩
  rcases hpool with hzero | ⟨-, hsurvives⟩
  · rw [hzero]
    omega
  have hrank := hsurvives.topK
  have hk : p.effectiveK (p.activeVocab nVocab) = p.topK.toNat := if_neg (by omega)
  omega

/-- **When the constraints are respected**: for every draw exactly if no mask replaces the
test of the lists, or if the allow list has every token of the pool. -/
theorem sampleToken_respects_iff (hsorted : p.SortedIds) (hchoice : p.HasChoice f nVocab row) :
    (∀ fraction, 0 ≤ fraction → fraction < 1 →
      p.Respects f nVocab row (p.sampleToken f nVocab row fraction)) ↔
        p.grammar = none ∨ p.vocab = none ∨
          ∀ c, p.InPool f nVocab row c → p.isAllowed c.tokenId = true := by
  have hworking : p.requiresWorkingLogits = false ↔ p.grammar = none ∨ p.vocab = none := by
    unfold requiresWorkingLogits
    cases p.grammar <;> cases p.vocab <;> simp
  cases hraw : p.isRaw with
  | true =>
    have hgrammar : p.grammar = none := by
      unfold isRaw at hraw
      simp only [Bool.and_eq_true, isNone_iff_eq_none] at hraw
      exact hraw.1.2
    refine ⟨fun _ => Or.inl hgrammar, fun _ fraction _ _ => ?_⟩
    have hraw' := hraw
    unfold isRaw at hraw'
    unfold sampleToken
    rw [if_pos hraw']
    refine ⟨permitted_raw hsorted hraw hchoice, fun htemp => ?_⟩
    simp only [Bool.and_eq_true, decide_eq_true_eq] at hraw'
    exact absurd htemp (not_lt.mpr hraw'.1.1)
  | false =>
    rw [← or_assoc, ← hworking]
    constructor
    · intro hrespects
      refine Or.inr fun c hc => ?_
      obtain ⟨fraction, hlow, hhigh, ht⟩ := inPool_sampleToken hsorted hraw hchoice hc
      have hallowed := (hrespects fraction hlow hhigh).permitted.allowed
      rwa [ht] at hallowed
    intro hcondition fraction _ _
    obtain ⟨c, hc, ht⟩ := sampleToken_inPool hsorted hraw hchoice fraction
    rw [← ht]
    refine respects_of_inPool hc ?_
    rcases hcondition with hworking | hpool
    · exact (permitted_of_mem hc.1).2.2.2 hworking
    · exact hpool c hc

/-! ### A row of two tokens -/

/-- The exponential and the hyperbolic tangent of the reals. -/
noncomputable def realFunctions : Functions ℝ where
  exp := Real.exp
  tanh := Real.tanh
  exp_pos := Real.exp_pos
  exp_add := Real.exp_add
  exp_mono := fun _ _ h => Real.exp_le_exp.mpr h

/-- Greedy choice at the start of an object, with an allow list for the second token. -/
noncomputable def allowSecond (grammar : Option GrammarConstraint) : SamplingParams ℝ where
  temperature := 0
  topK := 1
  topP := 1
  minP := 0
  repetitionPenalty := 1
  frequencyPenalty := 0
  presencePenalty := 0
  finalLogitSoftcap := 0
  allowedTokenIds := [1]
  grammar := grammar
  vocab := some [[0x7B], [0x20, 0x7B]]

/-- The first token has the larger logit. -/
def twoLogits (t : Nat) : Option ℝ := if t = 0 then some 1 else some 0

theorem sortedIds_allowSecond (grammar : Option GrammarConstraint) :
    (allowSecond grammar).SortedIds :=
  ⟨pairwise_singleton _ _, List.Pairwise.nil⟩

theorem tokens_allowSecond (grammar : Option GrammarConstraint) :
    (allowSecond grammar).tokens 2 = [0, 1] := by
  simp [tokens, activeVocab, range, allowSecond, range']

theorem adjustedLogitAt_masked {t : Nat} (ht : t < 2) :
    (allowSecond (some jsonGrammar)).adjustedLogitAt realFunctions twoLogits t = twoLogits t := by
  have hunmasked : ∀ t < 2,
      jsonGrammar.unmasked (([[0x7B], [0x20, 0x7B]] : List Bytes).getD t []) = true := by decide
  have hrow : (allowSecond (some jsonGrammar)).workingLogit twoLogits t = twoLogits t := by
    have := hunmasked t ht
    simp_all [workingLogit, allowSecond, isDisallowed, binarySearch]
  unfold adjustedLogitAt
  rw [hrow]
  simp [allowSecond, requiresWorkingLogits, penalize, hasPenalty, hasHistory,
    applyFinalLogitSoftcap]

theorem hasChoice_masked :
    (allowSecond (some jsonGrammar)).HasChoice realFunctions 2 twoLogits := by
  refine ⟨1, ⟨?_, rfl, rfl, ?_⟩, ?_⟩
  · rw [tokens_allowSecond]
    decide
  · show jsonGrammar.unmasked [0x20, 0x7B] = true
    decide
  rw [adjustedLogitAt_masked (by omega)]
  rfl

/-- The mask leaves the first token, and the allow list is not consulted. -/
theorem sampleToken_outside_allow_list : (allowSecond (some jsonGrammar)).SortedIds ∧
      (allowSecond (some jsonGrammar)).HasChoice realFunctions 2 twoLogits ∧
        ¬ (allowSecond (some jsonGrammar)).Respects realFunctions 2 twoLogits
          ((allowSecond (some jsonGrammar)).sampleToken realFunctions 2 twoLogits 0) := by
  refine ⟨sortedIds_allowSecond _, hasChoice_masked, fun hrespects => ?_⟩
  have hcandidates : (allowSecond (some jsonGrammar)).finiteCandidates realFunctions 2 twoLogits =
      [⟨1, 0⟩, ⟨0, 1⟩] := by
    rw [finiteCandidates_eq, tokens_allowSecond]
    simp [candidatesOf, adjustedLogitAt_masked, twoLogits]
  have hfirst : (allowSecond (some jsonGrammar)).sampleToken realFunctions 2 twoLogits 0 = 0 := by
    have hless : ¬ (1 : ℝ) < 0 := not_lt.mpr zero_le_one
    unfold sampleToken finiteArgmaxAdjusted
    rw [hcandidates]
    simp [allowSecond, greedyRepetitionOnly, keepBest, hless]
  have hallowed := hrespects.permitted.allowed
  rw [hfirst] at hallowed
  exact absurd hallowed (by decide)

/-- Without a grammar the second token is returned. -/
theorem sampleToken_respects_unmasked : (allowSecond none).Respects realFunctions 2 twoLogits
      ((allowSecond none).sampleToken realFunctions 2 twoLogits 0) := by
  have hchoice : (allowSecond none).HasChoice realFunctions 2 twoLogits := by
    refine ⟨1, ⟨?_, rfl, rfl, rfl⟩, ?_⟩
    · rw [tokens_allowSecond]
      decide
    simp [adjustedLogitAt, allowSecond, requiresWorkingLogits, penalize, hasPenalty, hasHistory,
      isDisallowed, isAllowed, binarySearch, workingLogit, twoLogits]
  exact (sampleToken_respects_iff (sortedIds_allowSecond none) hchoice).mpr (Or.inl rfl) 0
    (le_refl _) zero_lt_one

end DenseCore.Sampling.SamplingParams
