/-
Decisions: the prompt of a question and the answer from its logits.

`internal/decision/decision.go` puts each question with its options into one sequence
(`Build`), reads one logit at each option's mask and turns the logits into an answer
(`Decode`).  The options stand in the prompt in the order that the request gives, which
`parseQuestion` accepts only if it is a permutation.

The tokenizer is a parameter.  Numbers are exact: a float is a number of an ordered
field or one that is not finite, and the exponential and the logarithm are parameters.
`stuck` is an index out of range or a division by zero, which panic in the source.
-/
import DenseCore.Lib.Strings
import DenseCore.Lib.Utf8
import Mathlib.Algebra.Order.Field.Basic
import Mathlib.Algebra.Order.Floor.Defs
import Mathlib.Data.List.Dedup
import Mathlib.Data.List.Range

namespace DenseCore.Server.Decision

open Lib Lib.Strings

/-! ### Data -/

/-- A float that is finite, or is not. -/
inductive Number (R : Type) where
  | finite (x : R)
  | infinite
  | nan

/-- The settings of a decision head, and its special tokens. -/
structure Config (R : Type) where
  maxLen : Int
  headMaxLen : Int
  cls : Int
  sep : Int
  mask : Int
  maskText : Bytes
  temperature : Fin 3 → Number R
  buckets : List (Bytes × Number R)

/-- A question with its options. -/
structure Question where
  type : Bytes
  instructions : Bytes
  keys : List Bytes
  options : List Bytes
  legend : List Bytes
  order : List Nat
  qtype : Fin 3
deriving DecidableEq, Repr

/-- Arithmetic of `int`. -/
def goInt (x : Int) : Int := Int.bmod x (2 ^ 64)

/-- The conversion to `int32`. -/
def goInt32 (x : Int) : Int := Int.bmod x (2 ^ 32)

/-! ### option_order -/

/-- What stands in an array: a number, as it is written, or something else. -/
inductive OrderEntry where
  | number (text : Bytes)
  | other
deriving DecidableEq, Repr

/-- The field `option_order`. -/
inductive OrderField where
  /-- missing or null -/
  | absent
  | entries (list : List OrderEntry)
  | other
deriving DecidableEq, Repr

/-- What is wrong with an order of the options. -/
inductive OrderError where
  | permutation
  | integers
deriving DecidableEq, Repr

/-- `Error` of an order. -/
def OrderError.message : OrderError → String
  | .permutation => "option_order must be a permutation"
  | .integers => "option_order must contain integers"

def isDigit (b : UInt8) : Bool := 48 ≤ b && b ≤ 57

/-- `strconv.Atoi`. -/
def atoi (text : Bytes) : Option Int :=
  let (sign, digits) : Int × Bytes :=
    match text with
    | 45 :: rest => (-1, rest)
    | 43 :: rest => (1, rest)
    | rest => (1, rest)
  if digits = [] ∨ digits.all isDigit = false then none
  else
    let n := sign * digits.foldl (fun n d => 10 * n + (d.toNat - 48 : Int)) 0
    if -2 ^ 63 ≤ n ∧ n < 2 ^ 63 then some n else none

/-- The loop over the entries of an array of length `k`. -/
def readOrder (k : Nat) : List OrderEntry → List Nat → Except OrderError (List Nat)
  | [], order => .ok order
  | .other :: _, _ => .error .integers
  | .number text :: rest, order =>
    match atoi text with
    | none => .error .permutation
    | some ix =>
      if ix < 0 ∨ (k : Int) ≤ ix ∨ ix.toNat ∈ order then .error .permutation
      else readOrder k rest (order ++ [ix.toNat])

/-- The order of `k` options. -/
def parseOrder (k : Nat) : OrderField → Except OrderError (List Nat)
  | .absent => .ok (List.range k)
  | .entries list => if list.length ≠ k then .error .permutation else readOrder k list []
  | .other => .error .permutation

/-! ### Build -/

/-- Why no input can be built. -/
inductive BuildError (ε : Type) where
  | tokenizer (e : ε)
  | tooLong
  | stuck
deriving DecidableEq, Repr

/-- `Error` of a build. -/
def BuildError.message {ε : Type} (tokenizerMessage : ε → String) : BuildError ε → String
  | .tokenizer e => tokenizerMessage e
  | .tooLong => "question options exceed model context"
  | .stuck => ""

/-- The input of the model: its tokens, and where the options stand in it. -/
structure Sequence where
  ids : List Int
  markers : List Int
  stateTokens : Nat
  stateUsed : Nat
  distinct : Nat
deriving DecidableEq, Repr

/-- A blank before each character and one at the end: what `strings.ReplaceAll` does for
an empty text. -/
def spaceOut : Nat → Bytes → Bytes
  | 0, _ => [32]
  | _, [] => [32]
  | fuel + 1, s =>
    32 :: s.take (s.length - (Utf8.decodeRune s).2.length) ++ spaceOut fuel (Utf8.decodeRune s).2

/-- `clean`: the mask's text blanked. -/
def clean (maskText s : Bytes) : Bytes :=
  if maskText = [] then spaceOut s.length s else replaceAll maskText [32] s

section Build

variable {R ε : Type} (tokenize : Bytes → Except ε (List Int)) (c : Config R) (q : Question)

/-- The text that the head is tokenized from. -/
def headText : Bytes := q.type ++ literal " question: " ++ clean c.maskText q.instructions

/-- The text that an option is tokenized from. -/
def optionText (option : Bytes) : Bytes := 32 :: clean c.maskText option

/-- The loop over the order: the mask and up to 48 tokens for each option. -/
def readOptions : List Nat → Except (BuildError ε) (List (List Int))
  | [] => .ok []
  | ix :: rest =>
    match q.options[ix]? with
    | none => .error .stuck
    | some option =>
      match tokenize (optionText c option) with
      | .error e => .error (.tokenizer e)
      | .ok tok => (readOptions rest).map fun opts => (c.mask :: tok.take 48) :: opts

/-- How many tokens all options have together. -/
def total (opts : List (List Int)) : Nat := (opts.map List.length).sum

/-- The head and the options, cut to the budget of the head. -/
def fitHead (head : List Int) (opts : List (List Int)) :
    Except (BuildError ε) (List Int × List (List Int)) :=
  let budget := goInt (c.headMaxLen - total opts)
  if budget < 16 then
    if opts = [] then .error .stuck
    else
      let per := max 4 ((goInt (c.headMaxLen - 16)).tdiv opts.length)
      let opts := opts.map fun o => o.take per.toNat
      let budget := goInt (c.headMaxLen - total opts)
      .ok (head.take (max 8 budget).toNat, opts)
  else .ok (head.take (max 8 budget).toNat, opts)

/-- The head and the options as they stand in the sequence. -/
def promptParts : Except (BuildError ε) (List Int × List (List Int)) :=
  match tokenize (headText c q) with
  | .error e => .error (.tokenizer e)
  | .ok head => (readOptions tokenize c q q.order).bind fun opts => fitHead c head opts

/-- The loop that appends the options to the ids and notes where each begins. -/
def layOptions : List (List Int) → List Int → List Int → List Int × List Int
  | [], ids, markers => (ids, markers)
  | o :: rest, ids, markers => layOptions rest (ids ++ o) (markers ++ [goInt32 ids.length])

/-- The sequence of a head and options. -/
def assemble (head : List Int) (opts : List (List Int)) (state : List Int) (left : Bool) :
    Except (BuildError ε) Sequence :=
  let (ids, markers) := layOptions opts (c.cls :: head ++ [c.sep]) []
  let ids := ids ++ [c.sep]
  let room := max 0 (goInt (c.maxLen - ids.length - 1))
  let used := (min room state.length).toNat
  let kept := if left then state.drop (state.length - used) else state.take used
  let ids := ids ++ kept ++ [c.sep]
  if c.maxLen < ids.length then .error .tooLong
  else
    .ok
      { ids := ids, markers := markers, stateTokens := state.length, stateUsed := used
        distinct := opts.dedup.length }

/-- `Build`: head, state and options, cut to the longest input. -/
def build (state : List Int) (left : Bool) : Except (BuildError ε) Sequence :=
  (promptParts tokenize c q).bind fun parts => assemble c parts.1 parts.2 state left

end Build

/-! ### Decode -/

/-- Why logits can not be read. -/
inductive DecodeError where
  | countMismatch
  | emptyLogits
  | nonfinite
  | stuck
deriving DecidableEq, Repr

/-- `Error` of a reading. -/
def DecodeError.message : DecodeError → String
  | .countMismatch => "logit count mismatch"
  | .emptyLogits => "empty logits"
  | .nonfinite => "nonfinite model output"
  | .stuck => ""

/-- What the answer says besides its confidence, by the type of the question.  Of the
probabilities the last for a key counts. -/
inductive Verdict (R : Type) where
  | noul (yes : R)
  | choice (key : Bytes) (probabilities : List (Bytes × R))
  | score (value : R) (legend : List Bytes) (probabilities : List (Bytes × R))
deriving DecidableEq

/-- What a decision answers. -/
structure Answer (R : Type) where
  type : Bytes
  confidence : R
  answerConfidence : R
  actProbability : R
  verdict : Verdict R
deriving DecidableEq

section Decode

variable {R : Type} [Field R] [LinearOrder R] (exp log : R → R)

/-- The loop that looks for numbers that are not finite. -/
def readFinite : List (Number R) → Option (List R)
  | [] => some []
  | .finite x :: rest => (readFinite rest).map (x :: ·)
  | _ :: _ => none

/-- The largest value; the loop starts at minus infinity. -/
def largest : List R → Option R → Option R
  | [], mx => mx
  | v :: rest, none => largest rest (some v)
  | v :: rest, some mx => largest rest (some (max mx v))

/-- `softmax` at a temperature. -/
def softmax (logits : List (Number R)) (temp : R) : Except DecodeError (List R) :=
  if logits.isEmpty then .error .emptyLogits
  else
    match readFinite logits with
    | none => .error .nonfinite
    | some values =>
      let mx := (largest values none).getD 0
      let p := values.map fun v => exp ((v - mx) / temp)
      .ok (p.map fun x => x / p.sum)

/-- The name of the bucket for `k` options. -/
def bucket (k : Nat) : Bytes :=
  literal (if k ≤ 2 then "2" else if k ≤ 5 then "3-5" else if k ≤ 10 then "6-10" else "11+")

/-- The temperature for `k` options. -/
def temperatureOf (c : Config R) (q : Question) (k : Nat) : R :=
  let temp := (c.buckets.lookup (q.type ++ literal ":" ++ bucket k)).getD (c.temperature q.qtype)
  let temp :=
    match temp with
    | .finite t => t
    | _ => 1
  max (1 / 2) (min 5 temp)

/-- The loop that puts the probabilities in canonical order. -/
def toCanonical : List Nat → List R → List R → Except DecodeError (List R)
  | [], _, canonical => .ok canonical
  | _ :: _, [], _ => .error .stuck
  | ix :: order, p :: ps, canonical =>
    if ix < canonical.length then toCanonical order ps (canonical.set ix p) else .error .stuck

/-- The loop for the best option. -/
def bestOption (p : List R) : List (R × Nat) → Nat → Nat
  | [], best => best
  | (v, i) :: rest, best => bestOption p rest (if p.getD best 0 < v then i else best)

/-- The entropy of a distribution. -/
def entropy (p : List R) : R :=
  p.foldl (fun e v => e - v * log (max v (1 / 1000000000000))) 0

/-- The mean of the ordinals under a distribution. -/
def scoreOf (p : List R) : R := p.zipIdx.foldl (fun s v => s + (v.2 : R) * v.1) 0

variable [FloorRing R]

/-- `math.RoundToEven`. -/
def roundToEven (x : R) : Int :=
  let rest := x - ⌊x⌋
  if rest < 1 / 2 ∨ rest = 1 / 2 ∧ ⌊x⌋ % 2 = 0 then ⌊x⌋ else ⌊x⌋ + 1

/-- `round`: to four places. -/
def round4 (x : R) : R := (roundToEven (x * 10000) : R) / 10000

/-- The answer from the probabilities in canonical order. -/
def answerOf (q : Question) (p ap : List R) : Except DecodeError (Answer R) :=
  let best := bestOption p p.zipIdx 0
  let conf :=
    if 1 < p.length then max 0 (min 1 (1 - entropy log p / log (p.length : R))) else 1
  let answer (confidence : R) (verdict : Verdict R) : Answer R :=
    { type := q.type, confidence := round4 confidence
      answerConfidence := round4 (p.getD best 0), actProbability := round4 (ap.getD 0 0)
      verdict := verdict }
  if q.type = literal "noul" then
    if p.length < 2 then .error .stuck
    else .ok (answer (p.getD best 0) (.noul (round4 (p.getD 1 0))))
  else if q.keys.length < p.length then .error .stuck
  else
    let probabilities := q.keys.zip (p.map round4)
    if q.type = literal "choice" then
      .ok (answer conf (.choice (q.keys.getD best []) probabilities))
    else if q.legend.length < p.length then .error .stuck
    else
      .ok (answer conf (.score (round4 (scoreOf p)) (q.legend.take p.length) probabilities))

/-- `Decode`: the answer that the logits give. -/
def decode (c : Config R) (q : Question) (logits act : List (Number R)) :
    Except DecodeError (Answer R) :=
  let k := q.options.length
  if logits.length ≠ k then .error .countMismatch
  else do
    let p ← softmax exp logits (temperatureOf c q k)
    let p ← toCanonical q.order p (List.replicate k 0)
    let ap ← softmax exp act 1
    answerOf log q p ap

end Decode

end DenseCore.Server.Decision
