/-
From a submitted prompt to its token ids.

`runtime/request_builder.cpp` tokenizes a prompt when it is submitted.  A prompt that
comes rendered is tokenized as it is; any other first goes through the model's chat
template and through the priming that keeps Qwen from thinking.  Whether a BOS token
goes in front is the engine's own decision.

The tokenizer is a parameter: what `Tokenize` appends for a text between its BOS and
its end token depends on the family, and only that one family of it which
`Models/Tokenizer.lean` spells out is looked into.  So are the wrapping of the model's
template, which is a text in front and one behind, and the decoding that priming uses.
Text crosses from Go as a C string.
-/
import DenseCore.Models.Tokenizer

namespace DenseCore.Runtime

open Lib Lib.Strings

/-- The variants that a decision here looks for. -/
inductive ModelVariant where
  | qwen3
  | qwen35
  | qwen36
  | qwen38
  | other
deriving DecidableEq, Repr

/-- What the environment says about thinking. -/
structure ThinkingEnv where
  /-- `DENSECORE_QWEN3_ENABLE_THINKING`, by default true -/
  qwen3EnableThinking : Bool := true
  /-- `DENSECORE_QWEN36_ENABLE_THINKING`, when it is set and not empty -/
  qwen36EnableThinking : Option Bytes := none
  /-- `DENSECORE_QWEN35_ENABLE_THINKING`, by default true -/
  qwen35EnableThinking : Bool := true
  /-- `DENSECORE_QWEN36_PRIME_NO_THINKING`, by default false -/
  qwen36PrimeNoThinking : Bool := false

/-- What the request builder reads of a `TransformerModel`. -/
structure PromptModel where
  variant : ModelVariant
  /-- the variant of `DescribeModel(model)` -/
  descriptorVariant : ModelVariant
  usesQwenThinkingEnv : Bool
  vocabTokens : List Bytes
  bosTokenId : Int
  /-- `ResolveEndTokenId(model)` -/
  endTokenId : Int
  tokenizerAddBos : Bool
  nCtx : Int
  /-- what `Tokenize` appends for a text that is not empty, or nothing where it throws -/
  textIds : Bytes → Option (List Nat)
  detokenizeMultiple : List Nat → Bytes
  /-- what the model's template puts around a prompt; none when it has no template or
  `DENSECORE_AUTO_CHAT_TEMPLATE` is off -/
  chatTemplate : Option (Bytes × Bytes)

namespace PromptModel

variable (m : PromptModel)

/-! ### Tokenizing -/

variable (env : ThinkingEnv) (text : Bytes) (prompt : Bytes)

/-- `prompt_begins_with_bos_literal`. -/
def promptBeginsWithBosLiteral : Bool :=
  0 ≤ m.bosTokenId &&
    m.vocabTokens[m.bosTokenId.toNat]?.any fun bos => !bos.isEmpty && bos.isPrefixOf text

/-- The BOS token in front. -/
def bosIds (addBos : Bool) : List Nat :=
  if addBos && 0 ≤ m.bosTokenId && !m.promptBeginsWithBosLiteral text then [m.bosTokenId.toNat]
  else []

/-- The end token, where it is asked for. -/
def eosIds (addEos : Bool) : List Nat :=
  if addEos && 0 ≤ m.endTokenId then [m.endTokenId.toNat] else []

/-- `Tokenizer::Tokenize`. -/
def tokenize (addBos addEos : Bool) : Option (List Nat) :=
  if text.isEmpty then some (m.bosIds text addBos ++ m.eosIds addEos)
  else (m.textIds text).map fun ids => m.bosIds text addBos ++ ids ++ m.eosIds addEos

/-- The tokenizer of `Models/Tokenizer.lean` as one of these. -/
def textIdsOf (vocab : Models.Vocabulary) (text : Bytes) : Option (List Nat) :=
  some (Models.tokenizeLoop vocab text text.length 0 0)

/-- What C sees of a Go string. -/
def cString : Bytes := text.takeWhile (· ≠ 0)

/-- `CountTokens`; none is an error status. -/
def countTokens (addBos addEos : Bool) : Option Nat :=
  (m.tokenize (cString text) addBos addEos).map List.length

/-- `GetMaxContextTokens`. -/
def getMaxContextTokens : Int := m.nCtx

/-! ### BOS -/

def contains (pat text : Bytes) : Bool := (index pat text).isSome

/-- `ShouldDisableBosForRenderedQwenPrompt`. -/
def shouldDisableBosForRenderedQwenPrompt : Bool :=
  (m.descriptorVariant = .qwen35 || m.descriptorVariant = .qwen36 ||
      m.descriptorVariant = .qwen38) &&
    (contains (literal "<|im_start|>") prompt || contains (literal "<|im_end|>") prompt)

/-- `ResolveAddBosForPrompt`. -/
def resolveAddBosForPrompt : Bool :=
  if m.shouldDisableBosForRenderedQwenPrompt prompt then false else m.tokenizerAddBos

/-! ### Template and priming -/

/-- `PromptAlreadyTemplated`. -/
def promptAlreadyTemplated : Bool :=
  [literal "<|im_start|>", literal "<|im_end|>", literal "<|assistant|>", literal "<|user|>",
    literal "<|turn>", literal "<turn|>", literal "<start_of_turn>",
    literal "<end_of_turn>"].any fun marker => contains marker prompt

/-- `ApplyModelAutoChatTemplate`. -/
def applyAutoChatTemplate : Bytes :=
  if prompt.isEmpty then prompt
  else if promptAlreadyTemplated prompt then prompt
  else
    match m.chatTemplate with
    | none => prompt
    | some (front, behind) => front ++ prompt ++ behind

/-- `text.replace(text.find(pat), pat.size(), replacement)`, where `pat` occurs. -/
def replaceFirst (pat replacement text : Bytes) : Bytes :=
  match index pat text with
  | none => text
  | some i => text.take i ++ replacement ++ text.drop (i + pat.length)

/-- `PrimeQwenNoThinkingText`. -/
def primeQwenNoThinkingText : Bytes :=
  let assistant := literal "You are a helpful assistant."
  let text :=
    if contains assistant text && !contains (literal "final answer only") text then
      replaceFirst assistant (assistant ++ 10 :: literal ("Provide only the answer. Do not " ++
        "output any thinking process, analysis, reasoning steps, or preamble. Never start " ++
        "with 'Thinking Process'.")) text
    else text
  let turn := literal "<|im_start|>assistant" ++ [10]
  if contains turn text && !contains (literal "Answer:") text then
    replaceFirst turn (turn ++ literal "Answer: ") text
  else text

/-- `ShouldPrimeQwenNoThinkingPrompt`. -/
def shouldPrimeQwenNoThinkingPrompt : Bool :=
  if m.variant = .qwen36 ∨ m.variant = .qwen38 then false
  else if m.usesQwenThinkingEnv = false then false
  else if m.descriptorVariant = .qwen3 then !env.qwen3EnableThinking
  else false

/-- `ShouldPrimeQwenNoThinkingPromptText`. -/
def shouldPrimeQwenNoThinkingPromptText : Bool :=
  if m.usesQwenThinkingEnv = false then false
  else if m.descriptorVariant = .qwen36 ∨ m.descriptorVariant = .qwen38 ∨ m.variant = .qwen36 ∨
      m.variant = .qwen38 then
    let thinkingDisabled :=
      match env.qwen36EnableThinking with
      | some value => value = literal "0" || value = literal "false" || value = literal "False"
      | none => !env.qwen35EnableThinking
    thinkingDisabled && env.qwen36PrimeNoThinking
  else m.shouldPrimeQwenNoThinkingPrompt env

/-- `MaybePrimeQwenNoThinkingPromptText`. -/
def maybePrimeText (text : Bytes) : Bytes :=
  if m.shouldPrimeQwenNoThinkingPromptText env then primeQwenNoThinkingText text else text

/-- `MaybePrimeQwenNoThinking`. -/
def maybePrimeTokens (ids : List Nat) : Option (List Nat) :=
  if ids.isEmpty then some ids
  else if m.shouldPrimeQwenNoThinkingPrompt env = false then some ids
  else
    let text := m.detokenizeMultiple ids
    let primed := primeQwenNoThinkingText text
    if primed = text then some ids else m.tokenize primed false false

/-! ### Submission -/

/-- The text that is tokenized for a prompt. -/
def renderedPrompt (inputAlreadyRendered : Bool) (prompt : Bytes) : Bytes :=
  if inputAlreadyRendered then cString prompt
  else m.maybePrimeText env (m.applyAutoChatTemplate (cString prompt))

/-- The token ids of a submitted prompt, as `BuildRequestSnapshotImpl` and
`PrepareTextRequest` make them. -/
def submittedIds (inputAlreadyRendered : Bool) (prompt : Bytes) : Option (List Nat) :=
  let rendered := m.renderedPrompt env inputAlreadyRendered prompt
  (m.tokenize rendered (m.resolveAddBosForPrompt rendered) false).bind fun ids =>
    if inputAlreadyRendered then some ids else m.maybePrimeTokens env ids

end PromptModel

end DenseCore.Runtime
