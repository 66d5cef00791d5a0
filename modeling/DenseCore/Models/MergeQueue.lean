/-
Merging without merge ranks (`MergeWithPriorityQueue`, `models/tokenizer.cpp`).

A tokenizer without merges joins neighbours whose concatenation is a token, those with the
lowest score first.  The queue holds positions; a position's generation counts how often the
token there, or the one behind it, has changed.  Which of several entries with the lowest
score is on top is not specified, so that the loop is a relation: a round for every entry
that may be on top.  `FindBestMerge` scans for the pair to be merged next.  Scores are of
any linear order.
-/
import Mathlib.Order.Lattice
import DenseCore.Models.Tokenizer

namespace DenseCore.Models

open DenseCore.Lib

/-- What merging reads of a `TransformerModel`. -/
structure ScoredVocabulary (S : Type) where
  tokenToId : Bytes → Option Nat
  tokenScores : List S
  scoreOfId : Nat → S      -- `static_cast<float>(id)`
  maxScore : S             -- `std::numeric_limits<float>::max()`

variable {S : Type} [LinearOrder S]

namespace ScoredVocabulary

/-- The vocabulary has the token. -/
def hasToken (m : ScoredVocabulary S) (token : Bytes) : Bool := (m.tokenToId token).isSome

/-- Without a score a lower id goes first. -/
def getTokenScore (m : ScoredVocabulary S) (token : Bytes) : S :=
  match m.tokenToId token with
  | none => m.maxScore
  | some id => m.tokenScores.getD id (m.scoreOfId id)

end ScoredVocabulary

/-! ### Pairs -/

/-- `tokens[pos] + tokens[pos + 1]`. -/
def pairAt (tokens : List Bytes) (pos : Nat) : Bytes :=
  tokens.getD pos [] ++ tokens.getD (pos + 1) []

/-- `tokens[pos] = merged; tokens.erase(tokens.begin() + pos + 1)`. -/
def mergeTokens (tokens : List Bytes) (pos : Nat) : List Bytes :=
  (tokens.set pos (pairAt tokens pos)).eraseIdx (pos + 1)

variable (m : ScoredVocabulary S)

/-- The position of the pair that merges best, or -1. -/
def findBestMerge (tokens : List Bytes) : Int :=
  if tokens.length < 2 then -1
  else
    ((List.range (tokens.length - 1)).foldl (fun (best : Int × S) (i : Nat) =>
        let merged := pairAt tokens i
        if m.hasToken merged then
          let score := m.getTokenScore merged
          if score < best.2 then ((i : Int), score) else best
        else best) (-1, m.maxScore)).1

/-! ### The queue -/

/-- A pair in the queue; it may have changed since it was pushed. -/
structure MergePair (S : Type) where
  score : S
  position : Nat
  generation : Nat
deriving DecidableEq

/-- The tokens, how often each has changed, and the pairs in the queue. -/
structure MergeState (S : Type) where
  tokens : List Bytes
  generation : List Nat
  queue : List (MergePair S)

/-- `try_add_merge`. -/
def tryAddMerge (s : MergeState S) (pos : Nat) : MergeState S :=
  if s.tokens.length - 1 ≤ pos then s
  else
    let merged := pairAt s.tokens pos
    if m.hasToken merged then
      { s with queue := s.queue ++ [⟨m.getTokenScore merged, pos, s.generation.getD pos 0⟩] }
    else s

/-- The merge at a position, with the generations and the pairs beside it. -/
def applyMerge (s : MergeState S) (pos : Nat) : MergeState S :=
  let tokens := mergeTokens s.tokens pos
  let generation := if 0 < pos then s.generation.modify (pos - 1) (· + 1) else s.generation
  let generation := generation.modify pos (· + 1)
  let generation := if tokens.length < generation.length then generation.take tokens.length
    else generation
  let s : MergeState S := { s with tokens, generation }
  let s := if 0 < pos then tryAddMerge m s (pos - 1) else s
  tryAddMerge m s pos

/-- A round of the loop, with `top` on top of the queue. -/
def mergeRound (s : MergeState S) (top : MergePair S) : MergeState S :=
  let s := { s with queue := s.queue.erase top }
  if s.tokens.length - 1 ≤ top.position then s
  else if top.generation ≠ s.generation.getD top.position 0 then s
  else if m.hasToken (pairAt s.tokens top.position) then applyMerge m s top.position
  else s

/-- What `top()` may return. -/
def IsTop (queue : List (MergePair S)) (top : MergePair S) : Prop :=
  top ∈ queue ∧ ∀ e ∈ queue, top.score ≤ e.score

/-- The loop ends with these tokens. -/
inductive Merges (m : ScoredVocabulary S) : MergeState S → List Bytes → Prop
  | done {s : MergeState S} (h : s.queue = []) : Merges m s s.tokens
  | round {s : MergeState S} {top : MergePair S} {result : List Bytes} (h : IsTop s.queue top)
      (rest : Merges m (mergeRound m s top) result) : Merges m s result

/-- All pairs of the initial tokens are tried. -/
def startMerge (tokens : List Bytes) : MergeState S :=
  (List.range (tokens.length - 1)).foldl (tryAddMerge m)
    { tokens, generation := List.replicate tokens.length 0, queue := [] }

/-- `MergeWithPriorityQueue` may return `result`. -/
def MergeWithPriorityQueue (tokens result : List Bytes) : Prop :=
  if tokens.length < 2 then result = tokens else Merges m (startMerge m tokens) result

/-! ### Merging by scans -/

/-- The merges that `FindBestMerge` finds, one after the other: each takes a token away. -/
def mergeScans (m : ScoredVocabulary S) : Nat → List Bytes → List Bytes
  | 0, tokens => tokens
  | fuel + 1, tokens =>
    if findBestMerge m tokens < 0 then tokens
    else mergeScans m fuel (mergeTokens tokens (findBestMerge m tokens).toNat)

/-- Merging by a scan for the best pair each time. -/
def mergeByScans (tokens : List Bytes) : List Bytes :=
  mergeScans m tokens.length tokens

end DenseCore.Models
