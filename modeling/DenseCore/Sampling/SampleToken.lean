/-
Choosing the next token from a row of logits.

`SampleToken` of `llm/sampling/exec.cpp` in exact arithmetic, over any ordered field:
a logit is a number, or `none` for one that is not finite, and so is what a step of
the arithmetic leaves.  Exponential and hyperbolic tangent come as parameters, with
what is used of them.  The random draw is a fraction of the total mass.  Tests of
masses for being finite always hold here and are left out; tracing and debug output
do not choose the token and are left out as well.
-/
import DenseCore.Sampling.Grammar
import Mathlib.Algebra.Order.Field.Basic
import Mathlib.Data.List.Sort

namespace DenseCore.Sampling

open DenseCore.Lib

variable {K : Type} [Field K] [LinearOrder K] [IsStrictOrderedRing K]

/-- `std::exp` and `std::tanh`. -/
structure Functions (K : Type) [Field K] [LinearOrder K] where
  exp : K → K
  tanh : K → K
  exp_pos : ∀ x, 0 < exp x
  exp_add : ∀ x y, exp (x + y) = exp x * exp y
  exp_mono : ∀ x y, x ≤ y → exp x ≤ exp y

/-- `SamplingParams`.  An absent list is an empty one. -/
structure SamplingParams (K : Type) where
  temperature : K
  topK : Int
  topP : K
  minP : K
  repetitionPenalty : K
  frequencyPenalty : K
  presencePenalty : K
  finalLogitSoftcap : K
  actionTokenStart : Int := 0
  actionTokenCount : Int := 0
  allowedTokenIds : List Int := []
  disallowedTokenIds : List Int := []
  tokenHistory : List Int := []
  grammar : Option GrammarConstraint := none
  vocab : Option (List Bytes) := none
  /-- a debug dump or a trace of the candidates is asked for -/
  traced : Bool := false

/-- A token with its logit. -/
structure SamplingCandidate (K : Type) where
  logit : K
  tokenId : Nat
deriving DecidableEq

namespace SamplingParams

/-! ### The active range -/

variable (p : SamplingParams K) (f : Functions K)

/-- `range_start` and `range_end`. -/
def range (nVocab : Nat) : Nat × Nat :=
  if 0 < p.actionTokenCount ∧ p.grammar.isNone then
    let requestedStart := (max 0 p.actionTokenStart).toNat
    if requestedStart < nVocab then
      (requestedStart, min nVocab (requestedStart + p.actionTokenCount.toNat))
    else (0, nVocab)
  else (0, nVocab)

/-- How many tokens the row is sampled over. -/
def activeVocab (nVocab : Nat) : Nat :=
  (p.range nVocab).2 - (p.range nVocab).1

/-- The tokens of the range, in the order the loops visit them. -/
def tokens (nVocab : Nat) : List Nat :=
  List.range' (p.range nVocab).1 (p.activeVocab nVocab)

/-! ### Allowed and disallowed ids -/

/-- `std::binary_search` on a sorted list. -/
def binarySearch (ids : List Int) (tokenId : Nat) : Bool := ids.contains (tokenId : Int)

/-- The token is on the list of forbidden ones. -/
def isDisallowed (tokenId : Nat) : Bool :=
  binarySearch p.disallowedTokenIds tokenId

/-- The token is on the list of allowed ones, if there is a list. -/
def isAllowed (tokenId : Nat) : Bool :=
  p.allowedTokenIds.isEmpty || binarySearch p.allowedTokenIds tokenId

/-- The last resort when nothing is finite. -/
def firstAllowedToken (nVocab : Nat) : Nat :=
  let tokens := p.tokens nVocab
  let first :=
    if p.allowedTokenIds.isEmpty then tokens.find? fun t => !p.isDisallowed t
    else
      (p.allowedTokenIds.find? fun id =>
        ((p.range nVocab).1 : Int) ≤ id && id < ((p.range nVocab).2 : Int) &&
          !p.isDisallowed id.toNat).map Int.toNat
  match first with
  | some t => t
  | none => (tokens.find? fun t => p.isAllowed t).getD (p.range nVocab).1

/-- Whether a token is blocked.  Without an allow list the sorted disallow list is
walked along with the tokens: `rest` is what lies ahead of the walk. -/
def blockedAt (rest : List Int) (tokenId : Nat) : Bool × List Int :=
  if p.allowedTokenIds.isEmpty then
    if p.disallowedTokenIds.isEmpty then (false, rest)
    else
      let rest := rest.dropWhile (· < (tokenId : Int))
      (rest.head? = some (tokenId : Int), rest)
  else (p.isDisallowed tokenId || !p.isAllowed tokenId, rest)

/-- Where the walk over the disallow list starts. -/
def walkStart (nVocab : Nat) : List Int :=
  p.disallowedTokenIds.dropWhile (· < ((p.range nVocab).1 : Int))

/-! ### Greedy choices -/

/-- Keep the larger of two logits, the smaller id if they are equal. -/
def keepBest (best : Option (SamplingCandidate K)) (c : SamplingCandidate K) :
    Option (SamplingCandidate K) :=
  match best with
  | none => some c
  | some b =>
    if b.logit < c.logit || c.logit = b.logit && c.tokenId < b.tokenId then some c else some b

/-- The loop of `finite_argmax_raw`. -/
def argmaxRawLoop (p : SamplingParams K) (row : Nat → Option K) :
    List Nat → List Int → Option (SamplingCandidate K) → Option (SamplingCandidate K)
  | [], _, best => best
  | t :: ts, rest, best =>
    match row t with
    | none => argmaxRawLoop p row ts rest best
    | some v =>
      let (blocked, rest) := p.blockedAt rest t
      if blocked then argmaxRawLoop p row ts rest best
      else
        match best with
        | none => argmaxRawLoop p row ts rest (some ⟨v, t⟩)
        | some b => argmaxRawLoop p row ts rest (some (if b.logit < v then ⟨v, t⟩ else b))

/-- The first finite logit that is the largest. -/
def finiteArgmaxRaw (nVocab : Nat) (row : Nat → Option K) : Nat :=
  match p.argmaxRawLoop row (p.tokens nVocab) (p.walkStart nVocab) none with
  | some b => b.tokenId
  | none => p.firstAllowedToken nVocab

/-! ### Penalties -/

/-- One repetition: a division by zero is not finite. -/
def repeatOnce (v : K) : Option K :=
  if v < 0 then some (v * p.repetitionPenalty)
  else if p.repetitionPenalty = 0 then none
  else some (v / p.repetitionPenalty)

/-- The repetition penalty, once for every time the token has been there. -/
def repeatPenalty (p : SamplingParams K) : Nat → K → Option K
  | 0, v => some v
  | count + 1, v => (p.repeatOnce v).bind (p.repeatPenalty count)

/-- There is a history to penalise. -/
def hasHistory : Bool := !p.tokenHistory.isEmpty

/-- A penalty changes some logit. -/
def hasPenalty : Bool :=
  p.hasHistory && (p.repetitionPenalty != 1 || p.frequencyPenalty != 0 || p.presencePenalty != 0)

/-- The greedy path that only has a repetition penalty. -/
def greedyRepetitionOnly : Bool :=
  p.temperature ≤ 0 && p.grammar.isNone && p.hasHistory && p.repetitionPenalty != 1 &&
    p.frequencyPenalty = 0 && p.presencePenalty = 0 && p.finalLogitSoftcap ≤ 0 && !p.traced

/-- The tokens of the history that lie in the range, sorted. -/
def repeatedTokens (nVocab : Nat) : List Int :=
  (p.tokenHistory.filter fun t =>
    ((p.range nVocab).1 : Int) ≤ t && t < ((p.range nVocab).2 : Int)).mergeSort

/-- The loop of the greedy repetition path.  `repeated` is what lies ahead in the
sorted history. -/
def greedyRepetitionLoop (p : SamplingParams K) (row : Nat → Option K) :
    List Nat → List Int → List Int → Option (SamplingCandidate K) → Option (SamplingCandidate K)
  | [], _, _, best => best
  | t :: ts, rest, repeated, best =>
    let (blocked, rest) := p.blockedAt rest t
    if blocked then greedyRepetitionLoop p row ts rest repeated best
    else
      match row t with
      | none => greedyRepetitionLoop p row ts rest repeated best
      | some v =>
        let ahead := repeated.dropWhile (· < (t : Int))
        let count := (ahead.takeWhile (· = (t : Int))).length
        let repeated := ahead.drop count
        match p.repeatPenalty count v with
        | none => greedyRepetitionLoop p row ts rest repeated best
        | some v => greedyRepetitionLoop p row ts rest repeated (keepBest best ⟨v, t⟩)

/-- The greedy choice under a repetition penalty. -/
def greedyRepetition (nVocab : Nat) (row : Nat → Option K) : Nat :=
  match p.greedyRepetitionLoop row (p.tokens nVocab) (p.walkStart nVocab)
      (p.repeatedTokens nVocab) none with
  | some b => b.tokenId
  | none => p.firstAllowedToken nVocab

/-! ### Adjusted logits -/

/-- The soft cap on a logit. -/
def applyFinalLogitSoftcap (v softcap : K) : K :=
  if softcap ≤ 0 then v else f.tanh (v / softcap) * softcap

/-- The pre-masked copy of the logits replaces the allow and disallow test. -/
def requiresWorkingLogits : Bool := p.grammar.isSome && p.vocab.isSome

/-- The copy: disallowed tokens and tokens the grammar masks are gone. -/
def workingLogit (row : Nat → Option K) (tokenId : Nat) : Option K :=
  match p.grammar, p.vocab with
  | some g, some vocab =>
    if p.isDisallowed tokenId then none
    else if g.unmasked (vocab.getD tokenId []) then row tokenId
    else none
  | _, _ => row tokenId

/-- How often a token stands in the history. -/
def tokenCount (tokenId : Nat) : Nat :=
  p.tokenHistory.count (tokenId : Int)

/-- The penalties of a token that has been there `count` times. -/
def penalize (count : Nat) (v : K) : Option K :=
  if p.hasPenalty && 0 < count then
    (if p.repetitionPenalty != 1 then p.repeatPenalty count v else some v).map fun v =>
      if p.frequencyPenalty != 0 || p.presencePenalty != 0 then
        v - (p.frequencyPenalty * count + p.presencePenalty)
      else v
  else some v

/-- A logit after cap, penalties and temperature. -/
def adjustedLogitAt (f : Functions K) (row : Nat → Option K) (tokenId : Nat) : Option K :=
  if !p.requiresWorkingLogits && (p.isDisallowed tokenId || !p.isAllowed tokenId) then none
  else
    (p.workingLogit row tokenId).bind fun v => (p.penalize (p.tokenCount tokenId)
        (applyFinalLogitSoftcap f v p.finalLogitSoftcap)).map fun v =>
          if 0 < p.temperature ∧ p.temperature ≠ 1 then v / p.temperature else v

/-- The tokens with a finite adjusted logit, as the loops meet them. -/
def finiteCandidates (f : Functions K) (nVocab : Nat)
    (row : Nat → Option K) : List (SamplingCandidate K) :=
  (p.tokens nVocab).filterMap fun t => (p.adjustedLogitAt f row t).map fun v => ⟨v, t⟩

/-- The first adjusted logit that is the largest. -/
def finiteArgmaxAdjusted (f : Functions K) (nVocab : Nat) (row : Nat → Option K) : Nat :=
  match (p.finiteCandidates f nVocab row).foldl keepBest none with
  | some b => b.tokenId
  | none => p.firstAllowedToken nVocab

/-! ### The pass over the candidates -/

/-- `candidate_desc`. -/
def better (a b : SamplingCandidate K) : Bool :=
  if a.logit = b.logit then a.tokenId < b.tokenId else b.logit < a.logit

/-- What the first loop keeps: the largest logit, the sum of exponentials relative to
it, the best token, and the heap of the best `k`, its worst element first. -/
structure Pass (K : Type) where
  maxLogit : K
  sumExp : K
  bestToken : Nat
  heap : List (SamplingCandidate K)

/-- `push_heap` after `push_back`: the heap stays ordered from the worst. -/
def pushHeap (heap : List (SamplingCandidate K)) (c : SamplingCandidate K) :
    List (SamplingCandidate K) :=
  heap.orderedInsert (fun a b => better b a = true) c

/-- Offer a candidate to the heap of the best `k`. -/
def offer (k : Nat) (heap : List (SamplingCandidate K)) (c : SamplingCandidate K) :
    List (SamplingCandidate K) :=
  if heap.length < k then pushHeap heap c
  else
    match heap with
    | [] => heap
    | worst :: rest =>
      if worst.logit < c.logit || c.logit = worst.logit && c.tokenId < worst.tokenId then
        pushHeap rest c
      else heap

/-- One round of the first loop, for a finite logit. -/
def passStep (k active : Nat) (pass : Option (Pass K))
    (c : SamplingCandidate K) : Option (Pass K) :=
  let heap := (pass.map (·.heap)).getD []
  let heap := if k < active then offer k heap c else heap
  match pass with
  | none => some ⟨c.logit, 1, c.tokenId, heap⟩
  | some s =>
    if s.maxLogit < c.logit then
      some ⟨c.logit, s.sumExp * f.exp (s.maxLogit - c.logit) + 1, c.tokenId, heap⟩
    else
      some ⟨s.maxLogit, s.sumExp + f.exp (c.logit - s.maxLogit),
        if c.logit = s.maxLogit ∧ c.tokenId < s.bestToken then c.tokenId else s.bestToken, heap⟩

/-! ### The draw -/

/-- The `mass` of a candidate. -/
def mass (maxLogit : K) (c : SamplingCandidate K) : K :=
  f.exp (c.logit - maxLogit)

/-- The loop over the cumulative mass. -/
def pick (f : Functions K) (maxLogit randomVal : K) : K → List (SamplingCandidate K) → Option Nat
  | _, [] => none
  | cumulative, c :: rest =>
    let cumulative := cumulative + mass f maxLogit c
    if randomVal ≤ cumulative then some c.tokenId else pick f maxLogit randomVal cumulative rest

/-- The masses of a list together. -/
def totalMass (maxLogit : K) (cs : List (SamplingCandidate K)) : K :=
  (cs.map (mass f maxLogit)).sum

/-- Draw one of the candidates, the first of them if something is off. -/
def draw (maxLogit fraction : K) (cs : List (SamplingCandidate K)) (front : Nat) : Nat :=
  if 0 < totalMass f maxLogit cs then
    (pick f maxLogit (fraction * totalMass f maxLogit cs) 0 cs).getD front
  else front

/-- The loop over `top_p`: candidates are kept until the cutoff is reached. -/
def cutTopP (f : Functions K) (maxLogit cutoffMass : K) :
    K → List (SamplingCandidate K) → List (SamplingCandidate K)
  | _, [] => []
  | cumulative, c :: rest =>
    let cumulative := cumulative + mass f maxLogit c
    if cutoffMass ≤ cumulative then [c]
    else c :: cutTopP f maxLogit cutoffMass cumulative rest

/-- `k`: all of the range if `top_k` is not positive or too large. -/
def effectiveK (active : Nat) : Nat :=
  if p.topK ≤ 0 ∨ (active : Int) < p.topK then active else p.topK.toNat

/-- The path with `top_k` alone. -/
def sampleTopK (fraction : K) (s : Pass K) : Nat :=
  match s.heap.mergeSort (fun a b => !better b a) with
  | [] => s.bestToken
  | front :: rest => draw f front.logit fraction (front :: rest) front.tokenId

/-- The path with `top_p` and `min_p`. -/
def sampleNucleus (f : Functions K) (active : Nat) (fraction : K)
    (finite : List (SamplingCandidate K)) (s : Pass K) : Nat :=
  let limited := p.effectiveK active < active
  let candidates := if limited then s.heap else finite
  let sumExp := if limited then s.sumExp else totalMass f s.maxLogit finite
  if sumExp ≤ 0 then s.bestToken
  else
    let sorted := candidates.mergeSort (fun a b => !better b a)
    let likely :=
      match sorted with
      | [] => []
      | front :: _ =>
        if 0 < p.minP then
          sorted.filter fun c => p.minP * mass f s.maxLogit front ≤ mass f s.maxLogit c
        else sorted
    let kept := if p.topP < 1 then cutTopP f s.maxLogit (p.topP * sumExp) 0 likely else likely
    match kept with
    | [] => s.bestToken
    | front :: rest => draw f s.maxLogit fraction (front :: rest) front.tokenId

/-- `SampleToken` on a row of `nVocab` logits. -/
def sampleToken (f : Functions K) (nVocab : Nat) (row : Nat → Option K) (fraction : K) : Nat :=
  if p.temperature ≤ 0 && p.grammar.isNone && !p.hasPenalty then p.finiteArgmaxRaw nVocab row
  else if p.greedyRepetitionOnly then p.greedyRepetition nVocab row
  else if p.temperature ≤ 0 || p.topK ≤ 1 && 1 ≤ p.topP && p.minP ≤ 0 then
    p.finiteArgmaxAdjusted f nVocab row
  else
    let finite := p.finiteCandidates f nVocab row
    let active := p.activeVocab nVocab
    let k := p.effectiveK active
    match finite.foldl (passStep f k active) none with
    | none => p.finiteArgmaxRaw nVocab row
    | some s =>
      if k < active && 1 ≤ p.topP && p.minP ≤ 0 then sampleTopK f fraction s
      else p.sampleNucleus f active fraction finite s

end SamplingParams

end DenseCore.Sampling
