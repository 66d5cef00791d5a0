/-
The candidates of a row, and the greedy choices among them.

Candidates are ordered as the sampler sorts them, the larger logit first and the
smaller id first among equals, so that the best candidate is the least.  The greedy
loops walk along sorted lists of ids instead of searching them.  What lies ahead of a
walk is always the list without its ids below some point already passed, so the walk
finds an id exactly if the list has it, and the loops are searches for the least
candidate.
-/
import DenseCore.Lib.TopK
import DenseCore.Sampling.SampleToken
import Mathlib.Data.Prod.Lex
import Mathlib.Tactic.Linarith

namespace DenseCore.Sampling

open List hiding le_of_lt le_refl lt_trans not_lt

open DenseCore.Lib

variable {K : Type} [LinearOrder K]

/-! ### The order of the candidates -/

/-- Larger logits first, smaller ids first among equals. -/
def SamplingCandidate.key (c : SamplingCandidate K) : Kᵒᵈ ×ₗ ℕ :=
  toLex (OrderDual.toDual c.logit, c.tokenId)

omit [LinearOrder K] in
theorem SamplingCandidate.key_injective : Function.Injective (SamplingCandidate.key (K := K)) := by
  intro a b h
  have hpair := toLex.injective h
  rw [Prod.mk.injEq] at hpair
  obtain ⟨hlogit, hid⟩ := hpair
  cases a
  cases b
  rw [SamplingCandidate.mk.injEq]
  exact ⟨OrderDual.toDual.injective hlogit, hid⟩

instance : LinearOrder (SamplingCandidate K) :=
  LinearOrder.lift' SamplingCandidate.key SamplingCandidate.key_injective

variable {a b : SamplingCandidate K}

theorem candidate_lt_iff :
    a < b ↔ b.logit < a.logit ∨ a.logit = b.logit ∧ a.tokenId < b.tokenId := by
  show a.key < b.key ↔ _
  unfold SamplingCandidate.key
  rw [Prod.Lex.toLex_lt_toLex]
  simp

theorem better_iff : SamplingParams.better a b = true ↔ a < b := by
  rw [candidate_lt_iff]
  unfold SamplingParams.better
  split
  · rename_i heq
    simp [heq]
  rename_i hne
  simp [hne]

theorem logit_le_of_le (h : a ≤ b) : b.logit ≤ a.logit := by
  rcases lt_or_eq_of_le h with hlt | rfl
  · rcases candidate_lt_iff.mp hlt with hlogit | ⟨hlogit, -⟩
    · exact le_of_lt hlogit
    · exact le_of_eq hlogit.symm
  · exact le_refl _

namespace SamplingParams

theorem keepBest_some (b c : SamplingCandidate K) : keepBest (some b) c = some (min b c) := by
  have hiff : (b.logit < c.logit || c.logit = b.logit && c.tokenId < b.tokenId) = true ↔ c < b := by
    rw [candidate_lt_iff]
    simp
  show (if _ then _ else _) = _
  split
  · rename_i hbetter
    rw [min_eq_right (le_of_lt (hiff.mp hbetter))]
  rename_i hworse
  rw [min_eq_left (not_lt.mp fun h => hworse (hiff.mpr h))]

theorem foldl_keepBest (cs : List (SamplingCandidate K)) : cs.foldl keepBest none = cs.min? := by
  have hrun : ∀ (cs : List (SamplingCandidate K)) b,
      cs.foldl keepBest (some b) = some (cs.foldl min b) := by
    intro cs
    induction cs with
    | nil => intro b; rfl
    | cons c rest ih =>
      intro b
      rw [foldl_cons, foldl_cons, keepBest_some, ih]
  cases cs with
  | nil => rfl
  | cons c rest =>
    rw [min?_cons']
    exact hrun rest c

/-! ### Walks along sorted ids -/

/-- A walk that has passed nothing above `t` has `rest` ahead of it. -/
def Ahead (ids : List Int) (t : Nat) (rest : List Int) : Prop :=
  ∃ j : Int, j ≤ t ∧ rest = ids.dropWhile (· < j)

variable {ids rest : List Int} {t t' : Nat} {ts : List Nat}

theorem Ahead.mono (h : Ahead ids t rest) (hle : t ≤ t') : Ahead ids t' rest := by
  obtain ⟨j, hj, hrest⟩ := h
  exact ⟨j, by omega, hrest⟩

theorem Ahead.self (ids : List Int) (t : Nat) : Ahead ids t ids := by
  cases ids with
  | nil => exact ⟨t, le_refl _, rfl⟩
  | cons id rest =>
    refine ⟨min id t, min_le_right _ _, ?_⟩
    rw [dropWhile_cons, if_neg (by simp)]

theorem dropWhile_dropWhile (ids : List Int) {j i : Int} (h : j ≤ i) :
    (ids.dropWhile (· < j)).dropWhile (· < i) = ids.dropWhile (· < i) := by
  induction ids with
  | nil => rfl
  | cons id rest ih =>
    rw [dropWhile_cons, dropWhile_cons]
    by_cases hid : id < j
    · have hi : id < i := by omega
      simp only [hid, hi, decide_true, if_true, ih]
    · simp only [hid, decide_false, Bool.false_eq_true, if_false, dropWhile_cons]

theorem Ahead.dropWhile (h : Ahead ids t rest) :
    rest.dropWhile (· < (t : Int)) = ids.dropWhile (· < (t : Int)) := by
  obtain ⟨j, hj, rfl⟩ := h
  exact dropWhile_dropWhile ids hj

/-- What a walk meets at `i` is `i` as often as the list has it. -/
theorem dropWhile_eq_replicate (hsorted : ids.Pairwise (· ≤ ·)) (i : Int) :
    ids.dropWhile (· < i) = replicate (ids.count i) i ++ ids.dropWhile (· < i + 1) := by
  induction ids with
  | nil => rfl
  | cons id rest ih =>
    obtain ⟨hid, hrest⟩ := pairwise_cons.mp hsorted
    have ih := ih hrest
    rw [dropWhile_cons, dropWhile_cons, count_cons]
    rcases lt_trichotomy id i with hlt | rfl | hgt
    · rw [if_pos (by simpa using hlt), if_neg (by simp; omega), if_pos (by simp; omega)]
      exact ih
    · have hall : rest.dropWhile (· < id) = rest := by
        cases rest with
        | nil => rfl
        | cons next rest =>
          rw [dropWhile_cons, if_neg (by simpa using hid next mem_cons_self)]
      rw [hall] at ih
      rw [if_neg (by simp), if_pos (by simp), if_pos (by simp), replicate_succ, cons_append, ← ih]
    have hzero : rest.count i = 0 := by
      rw [count_eq_zero]
      intro hmem
      have := hid i hmem
      omega
    rw [if_neg (by simp; omega), if_neg (by simp; omega), if_neg (by simp; omega), hzero]
    rfl

/-- Past `i` the walk does not meet `i` again. -/
theorem head_dropWhile_ne (ids : List Int) (i : Int) :
    (ids.dropWhile (· < i + 1)).head? ≠ some i := by
  intro hhead
  have := head?_dropWhile_not (· < i + 1) ids
  rw [hhead] at this
  simp at this

theorem takeWhile_walk (hsorted : ids.Pairwise (· ≤ ·)) (i : Int) :
    (ids.dropWhile (· < i)).takeWhile (· = i) = replicate (ids.count i) i := by
  have hpast := head_dropWhile_ne ids i
  rw [dropWhile_eq_replicate hsorted, takeWhile_append_of_pos (by simp)]
  cases hrest : ids.dropWhile (· < i + 1) with
  | nil => simp
  | cons next rest =>
    rw [hrest] at hpast
    simp only [head?_cons, ne_eq, Option.some.injEq] at hpast
    rw [takeWhile_cons, if_neg (by simpa using hpast), append_nil]

/-- The walk stops in front of an id exactly if the list has it. -/
theorem head_dropWhile_iff (hsorted : ids.Pairwise (· ≤ ·)) (i : Int) :
    (ids.dropWhile (· < i)).head? = some i ↔ i ∈ ids := by
  rw [dropWhile_eq_replicate hsorted, ← count_pos_iff]
  cases ids.count i with
  | zero => simpa using head_dropWhile_ne ids i
  | succ n => simp [replicate_succ]

/-! ### The greedy loops -/

/-- The lists of ids are sorted. -/
structure SortedIds (p : SamplingParams K) : Prop where
  allowed : p.allowedTokenIds.Pairwise (· ≤ ·)
  disallowed : p.disallowedTokenIds.Pairwise (· ≤ ·)

/-- Neither list of ids rules the token out. -/
def isFree (p : SamplingParams K) (t : Nat) : Bool := !p.isDisallowed t && p.isAllowed t

/-- The tokens of `ts` that have a logit. -/
def candidatesOf (logitAt : Nat → Option K) (ts : List Nat) : List (SamplingCandidate K) :=
  ts.filterMap fun t => (logitAt t).map fun v => ⟨v, t⟩

omit [LinearOrder K] in
theorem candidatesOf_cons (logitAt : Nat → Option K) (t : Nat) (ts : List Nat) :
    candidatesOf logitAt (t :: ts) =
      ((logitAt t).map fun v => ⟨v, t⟩).toList ++ candidatesOf logitAt ts := by
  unfold candidatesOf
  rw [filterMap_cons]
  cases logitAt t <;> rfl

omit [LinearOrder K] in
theorem mem_candidatesOf {logitAt : Nat → Option K} {c : SamplingCandidate K} :
    c ∈ candidatesOf logitAt ts ↔ c.tokenId ∈ ts ∧ logitAt c.tokenId = some c.logit := by
  unfold candidatesOf
  rw [mem_filterMap]
  constructor
  · rintro ⟨t, ht, hc⟩
    obtain ⟨v, hv, rfl⟩ := Option.map_eq_some_iff.mp hc
    exact ⟨ht, hv⟩
  rintro ⟨ht, hv⟩
  exact ⟨c.tokenId, ht, by rw [hv]; rfl⟩

variable {p : SamplingParams K} {rest : List Int} {t : Nat}

omit [LinearOrder K] in
theorem blockedAt_fst (hsorted : p.SortedIds) (hahead : Ahead p.disallowedTokenIds t rest) :
    (p.blockedAt rest t).1 = !p.isFree t := by
  unfold blockedAt isFree isAllowed
  split
  · rename_i hany
    split
    · rename_i hnone
      rw [List.isEmpty_iff] at hnone
      simp [isDisallowed, binarySearch, hnone, hany]
    rw [hahead.dropWhile, hany, Bool.true_or, Bool.and_true, Bool.not_not]
    unfold isDisallowed binarySearch
    rw [Bool.eq_iff_iff, decide_eq_true_iff, head_dropWhile_iff hsorted.disallowed,
      contains_iff_mem]
  · simp

omit [LinearOrder K] in
theorem blockedAt_ahead (hahead : Ahead p.disallowedTokenIds t rest) (hle : t ≤ t') :
    Ahead p.disallowedTokenIds t' (p.blockedAt rest t).2 := by
  unfold blockedAt
  split
  · split
    · exact hahead.mono hle
    · exact ⟨t, by omega, hahead.dropWhile⟩
  · exact hahead.mono hle

/-- The logit of a token that is not blocked. -/
def rawLogit (p : SamplingParams K) (row : Nat → Option K) (t : Nat) : Option K :=
  if p.isFree t then row t else none

/-- The loop over the raw row keeps the best of the candidates. -/
theorem argmaxRawLoop_eq (hsorted : p.SortedIds) (row : Nat → Option K)
    (hts : ts.Pairwise (· < ·)) :
    ∀ {rest : List Int} {best : Option (SamplingCandidate K)},
      (∀ t ∈ ts, Ahead p.disallowedTokenIds t rest) →
      (∀ b, best = some b → ∀ t ∈ ts, b.tokenId < t) → p.argmaxRawLoop row ts rest best =
          (candidatesOf (p.rawLogit row) ts).foldl keepBest best := by
  induction ts with
  | nil => intro rest best _ _; rfl
  | cons t ts ih =>
    intro rest best hahead hbest
    obtain ⟨hlt, hts⟩ := pairwise_cons.mp hts
    have hhere := hahead t mem_cons_self
    have hkeep : ∀ t' ∈ ts, Ahead p.disallowedTokenIds t' rest := fun t' ht' =>
      hahead t' (mem_cons_of_mem t ht')
    have hnext : ∀ t' ∈ ts, Ahead p.disallowedTokenIds t' (p.blockedAt rest t).2 :=
      fun t' ht' => blockedAt_ahead hhere (le_of_lt (hlt t' ht'))
    have hold : ∀ b, best = some b → ∀ t' ∈ ts, b.tokenId < t' := fun b hb t' ht' =>
      hbest b hb t' (mem_cons_of_mem t ht')
    rw [candidatesOf_cons, argmaxRawLoop, rawLogit]
    cases hrow : row t with
    | none =>
      simp only [ite_self, Option.map_none, Option.toList_none, nil_append]
      exact ih hts hkeep hold
    | some v =>
      simp only [blockedAt_fst hsorted hhere]
      cases hfree : p.isFree t with
      | false => exact ih hts hnext hold
      | true =>
        cases best with
        | none =>
          exact ih hts hnext fun b hb t' ht' => by
            cases hb
            exact hlt t' ht'
        | some b =>
          have hb : b.tokenId < t := hbest b rfl t mem_cons_self
          have hsame : keepBest (some b) ⟨v, t⟩ = some (if b.logit < v then ⟨v, t⟩ else b) := by
            unfold keepBest
            have hfalse : ¬ t < b.tokenId := by omega
            simp only [hfalse, decide_false, Bool.and_false, Bool.or_false, decide_eq_true_eq]
            split <;> rfl
          show p.argmaxRawLoop row ts _ (some (if b.logit < v then ⟨v, t⟩ else b)) =
            (candidatesOf (p.rawLogit row) ts).foldl keepBest (keepBest (some b) ⟨v, t⟩)
          rw [hsame]
          refine ih hts hnext fun b' hb' t' ht' => ?_
          cases hb'
          split
          · exact hlt t' ht'
          · exact lt_trans hb (hlt t' ht')

section Penalties

variable [Field K]

/-- The logit of a token that is not blocked, after the repetition penalty. -/
def repeatLogit (p : SamplingParams K) (row : Nat → Option K) (t : Nat) : Option K :=
  if p.isFree t then (row t).bind (p.repeatPenalty (p.tokenCount t)) else none

/-- The loop with the repetition penalty keeps the best candidate.  `history` is the
sorted history, and `repeated` what lies ahead in it. -/
theorem greedyRepetitionLoop_eq (hsorted : p.SortedIds) (row : Nat → Option K)
    {history : List Int} (hhistory : history.Pairwise (· ≤ ·)) {ts : List Nat}
    (hts : ts.Pairwise (· < ·)) (hcount : ∀ t ∈ ts, history.count (t : Int) = p.tokenCount t) :
    ∀ {rest repeated : List Int} {best : Option (SamplingCandidate K)},
      (∀ t ∈ ts, Ahead p.disallowedTokenIds t rest) → (∀ t ∈ ts, Ahead history t repeated) →
        p.greedyRepetitionLoop row ts rest repeated best =
          (candidatesOf (p.repeatLogit row) ts).foldl keepBest best := by
  induction ts with
  | nil => intro rest repeated best _ _; rfl
  | cons t ts ih =>
    intro rest repeated best hahead hrepeated
    obtain ⟨hlt, hts⟩ := pairwise_cons.mp hts
    have hcounts : ∀ t' ∈ ts, history.count (t' : Int) = p.tokenCount t' := fun t' ht' =>
      hcount t' (mem_cons_of_mem t ht')
    have hhere := hahead t mem_cons_self
    have hnext : ∀ t' ∈ ts, Ahead p.disallowedTokenIds t' (p.blockedAt rest t).2 :=
      fun t' ht' => blockedAt_ahead hhere (le_of_lt (hlt t' ht'))
    have hkeep : ∀ t' ∈ ts, Ahead history t' repeated := fun t' ht' =>
      hrepeated t' (mem_cons_of_mem t ht')
    have hwalk : repeated.dropWhile (· < (t : Int)) = history.dropWhile (· < (t : Int)) :=
      (hrepeated t mem_cons_self).dropWhile
    rw [candidatesOf_cons, greedyRepetitionLoop, repeatLogit]
    simp only [blockedAt_fst hsorted hhere]
    cases hfree : p.isFree t with
    | false => exact ih hts hcounts hnext hkeep
    | true =>
      cases hrow : row t with
      | none => exact ih hts hcounts hnext hkeep
      | some v =>
        -- the walk has counted the token and stands behind it
        have hlength : ((repeated.dropWhile (· < (t : Int))).takeWhile (· = (t : Int))).length =
            p.tokenCount t := by
          rw [hwalk, takeWhile_walk hhistory, length_replicate]
          exact hcount t mem_cons_self
        have hdrop : (repeated.dropWhile (· < (t : Int))).drop (p.tokenCount t) =
            history.dropWhile (· < (t : Int) + 1) := by
          rw [hwalk, dropWhile_eq_replicate hhistory, hcount t mem_cons_self,
            drop_left' length_replicate]
        have hpast : ∀ t' ∈ ts, Ahead history t' (history.dropWhile (· < (t : Int) + 1)) :=
          fun t' ht' => ⟨(t : Int) + 1, by have := hlt t' ht'; omega, rfl⟩
        simp only [Bool.not_true, Bool.false_eq_true, if_false, if_true, hlength, hdrop,
          Option.bind_some]
        cases hvalue : p.repeatPenalty (p.tokenCount t) v with
        | none | some v => exact ih hts hcounts hnext hpast

end Penalties

/-! ### The greedy paths -/

omit [LinearOrder K] in
theorem pairwise_tokens (p : SamplingParams K) (nVocab : Nat) :
    (p.tokens nVocab).Pairwise (· < ·) := pairwise_lt_range'

omit [LinearOrder K] in
theorem ahead_walkStart (p : SamplingParams K) (nVocab : Nat) :
    ∀ t ∈ p.tokens nVocab, Ahead p.disallowedTokenIds t (p.walkStart nVocab) := by
  intro t ht
  have hle : (p.range nVocab).1 ≤ t := (mem_range'_1.mp ht).1
  exact ⟨(p.range nVocab).1, by omega, rfl⟩

theorem finiteArgmaxRaw_eq (hsorted : p.SortedIds) (nVocab : Nat) (row : Nat → Option K) :
    p.finiteArgmaxRaw nVocab row =
      ((candidatesOf (p.rawLogit row) (p.tokens nVocab)).min?.map (·.tokenId)).getD
        (p.firstAllowedToken nVocab) := by
  unfold finiteArgmaxRaw
  rw [argmaxRawLoop_eq hsorted row (p.pairwise_tokens nVocab) (p.ahead_walkStart nVocab)
    (fun b hb => by cases hb), foldl_keepBest]
  cases (candidatesOf (p.rawLogit row) (p.tokens nVocab)).min? <;> rfl

section Adjusted

variable [Field K]

theorem finiteCandidates_eq (p : SamplingParams K) (f : Functions K) (nVocab : Nat)
    (row : Nat → Option K) :
    p.finiteCandidates f nVocab row = candidatesOf (p.adjustedLogitAt f row) (p.tokens nVocab) := rfl

theorem finiteArgmaxAdjusted_eq (p : SamplingParams K) (f : Functions K) (nVocab : Nat)
    (row : Nat → Option K) :
    p.finiteArgmaxAdjusted f nVocab row =
      ((p.finiteCandidates f nVocab row).min?.map (·.tokenId)).getD
        (p.firstAllowedToken nVocab) := by
  unfold finiteArgmaxAdjusted
  rw [foldl_keepBest]
  cases (p.finiteCandidates f nVocab row).min? <;> rfl

omit [LinearOrder K] [Field K] in
theorem count_repeatedTokens (p : SamplingParams K) (nVocab : Nat) :
    ∀ t ∈ p.tokens nVocab, (p.repeatedTokens nVocab).count (t : Int) = p.tokenCount t := by
  intro t ht
  have hrange := mem_range'_1.mp ht
  unfold activeVocab at hrange
  unfold repeatedTokens tokenCount
  rw [(mergeSort_perm _ _).count_eq, count_filter]
  simp only [Bool.and_eq_true, decide_eq_true_eq]
  omega

theorem greedyRepetition_eq (hsorted : p.SortedIds) (honly : p.greedyRepetitionOnly)
    (f : Functions K) (nVocab : Nat) (row : Nat → Option K) :
    p.greedyRepetition nVocab row = p.finiteArgmaxAdjusted f nVocab row := by
  have hlogit : p.repeatLogit row = p.adjustedLogitAt f row := by
    funext t
    unfold greedyRepetitionOnly at honly
    simp only [Bool.and_eq_true, decide_eq_true_eq, bne_iff_ne, Option.isNone_iff_eq_none] at honly
    obtain ⟨⟨⟨⟨⟨⟨⟨htemp, hgrammar⟩, hhistory⟩, hrep⟩, hfreq⟩, hpres⟩, hcap⟩, -⟩ := honly
    have hworking : p.requiresWorkingLogits = false := by
      unfold requiresWorkingLogits
      rw [hgrammar]
      rfl
    have hrow : p.workingLogit row t = row t := by
      unfold workingLogit
      rw [hgrammar]
    have hpenalize : ∀ v, p.penalize (p.tokenCount t) v = p.repeatPenalty (p.tokenCount t) v := by
      intro v
      cases hcount : p.tokenCount t with
      | zero => simp [penalize, repeatPenalty]
      | succ n => simp [penalize, hasPenalty, hhistory, hrep, hfreq, hpres]
    unfold repeatLogit adjustedLogitAt isFree
    rw [hworking, hrow]
    simp only [hpenalize, applyFinalLogitSoftcap, if_pos hcap, not_lt.mpr htemp, false_and, if_false,
      Option.map_id', Bool.not_false, Bool.true_and]
    cases p.isDisallowed t <;> cases p.isAllowed t <;> rfl
  have hhistory : (p.repeatedTokens nVocab).Pairwise (· ≤ ·) := pairwise_mergeSort' _ _
  unfold greedyRepetition
  rw [finiteArgmaxAdjusted_eq, greedyRepetitionLoop_eq hsorted row hhistory
    (p.pairwise_tokens nVocab) (p.count_repeatedTokens nVocab)
    (p.ahead_walkStart nVocab) (fun t _ => Ahead.self _ t), foldl_keepBest, hlogit,
    ← finiteCandidates_eq]
  cases (p.finiteCandidates f nVocab row).min? <;> rfl

end Adjusted

end SamplingParams

end DenseCore.Sampling
