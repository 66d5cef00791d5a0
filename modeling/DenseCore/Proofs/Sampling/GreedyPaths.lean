/-
The fast greedy paths return what the general one does.

With a temperature of zero, no grammar and no softcap, the adjusted logit of a token that is
not blocked is its logit after the repetition penalty.  The raw path is taken when that
penalty changes nothing; the path with the repetition penalty counts the tokens of the
history along its walk.
-/
import DenseCore.Proofs.Sampling.SampleToken

namespace DenseCore.Sampling.SamplingParams

open DenseCore.Lib

variable {K : Type} [Field K] [LinearOrder K] [IsStrictOrderedRing K]
variable {p : SamplingParams K} {f : Functions K} {nVocab : Nat} {row : Nat → Option K}

/-- The choice is greedy and the logits are those of the row, but for a repetition penalty. -/
structure PlainGreedy (p : SamplingParams K) : Prop where
  temperature : p.temperature ≤ 0
  grammar : p.grammar = none
  frequencyPenalty : p.frequencyPenalty = 0
  presencePenalty : p.presencePenalty = 0
  finalLogitSoftcap : p.finalLogitSoftcap ≤ 0

omit [IsStrictOrderedRing K] in
theorem PlainGreedy.adjustedLogitAt_eq (h : p.PlainGreedy) (t : Nat) : p.adjustedLogitAt f row t =
      if p.isFree t then (row t).bind (p.penalize (p.tokenCount t)) else none := by
  have hworking : p.requiresWorkingLogits = false := by
    unfold requiresWorkingLogits
    rw [h.grammar]
    rfl
  have hrow : p.workingLogit row t = row t := by
    unfold workingLogit
    rw [h.grammar]
  unfold adjustedLogitAt isFree
  rw [hworking, hrow]
  simp only [applyFinalLogitSoftcap, if_pos h.finalLogitSoftcap, not_lt.mpr h.temperature,
    false_and, if_false, Option.map_id', Bool.not_false, Bool.true_and]
  cases p.isDisallowed t <;> cases p.isAllowed t <;> rfl

omit [IsStrictOrderedRing K] in
/-- **The raw path**: no penalty changes a logit. -/
theorem PlainGreedy.finiteArgmaxRaw_eq (h : p.PlainGreedy) (hsorted : p.SortedIds)
    (hpenalty : p.hasPenalty = false) :
    p.finiteArgmaxRaw nVocab row = p.finiteArgmaxAdjusted f nVocab row := by
  have hlogit : p.rawLogit row = p.adjustedLogitAt f row := by
    funext t
    have hpenalize : p.penalize (p.tokenCount t) = some := by
      funext v
      unfold penalize
      rw [hpenalty]
      rfl
    rw [h.adjustedLogitAt_eq, hpenalize, Option.bind_fun_some]
    rfl
  rw [SamplingParams.finiteArgmaxRaw_eq hsorted, finiteArgmaxAdjusted_eq, finiteCandidates_eq,
    hlogit]

omit [IsStrictOrderedRing K] in
/-- **The greedy paths** choose the token that the general greedy loop would choose. -/
theorem greedy_paths_agree (h : p.PlainGreedy) (hsorted : p.SortedIds) (f : Functions K)
    (nVocab : Nat) (row : Nat → Option K) (fraction : K) :
    (p.hasPenalty = false → p.finiteArgmaxRaw nVocab row = p.finiteArgmaxAdjusted f nVocab row) ∧
      (p.greedyRepetitionOnly = true →
        p.greedyRepetition nVocab row = p.finiteArgmaxAdjusted f nVocab row) ∧
      p.sampleToken f nVocab row fraction = p.finiteArgmaxAdjusted f nVocab row := by
  refine ⟨h.finiteArgmaxRaw_eq hsorted, fun honly => greedyRepetition_eq hsorted honly f nVocab row,
    ?_⟩
  have htemp : decide (p.temperature ≤ 0) = true := decide_eq_true h.temperature
  cases hraw : p.isRaw with
  | true =>
    have hpenalty : p.hasPenalty = false := by
      unfold isRaw at hraw
      simp only [Bool.and_eq_true, Bool.not_eq_true'] at hraw
      exact hraw.2
    unfold isRaw at hraw
    unfold sampleToken
    rw [if_pos hraw]
    exact h.finiteArgmaxRaw_eq hsorted hpenalty
  | false =>
    refine sampleToken_greedy hsorted hraw ?_ fraction
    unfold isGreedy
    rw [htemp, Bool.true_or]

section

local instance : Nat.AtLeastTwo 2 := ⟨le_refl 2⟩

/-- Two tokens, of which the history has the better one twice. -/
noncomputable def repeatFirst : SamplingParams ℝ :=
  { allowSecond none with repetitionPenalty := 2, allowedTokenIds := [], tokenHistory := [0, 0, 7] }

end

theorem repeatFirst_agrees : repeatFirst.greedyRepetitionOnly = true ∧
      repeatFirst.greedyRepetition 2 twoLogits =
        repeatFirst.finiteArgmaxAdjusted realFunctions 2 twoLogits := by
  have hplain : repeatFirst.PlainGreedy := ⟨le_refl _, rfl, rfl, rfl, le_refl _⟩
  have hsorted : repeatFirst.SortedIds := ⟨List.Pairwise.nil, List.Pairwise.nil⟩
  have honly : repeatFirst.greedyRepetitionOnly = true := by
    simp [greedyRepetitionOnly, repeatFirst, allowSecond, hasHistory]
  exact ⟨honly, (greedy_paths_agree hplain hsorted realFunctions 2 twoLogits 0).2.1 honly⟩

end DenseCore.Sampling.SamplingParams
