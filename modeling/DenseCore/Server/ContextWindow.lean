/-
The context check of the chat service.

Before a request is queued, `validatePreparedContextWindow` compares the number of its
prompt tokens and of the tokens it asks for with the engine's context limit.  A request
that brings token ids is counted by them; a text prompt is counted by the engine's
tokenizer, without BOS and without an end token.  An engine that knows no limit and a
prompt without tokens are not checked.
-/
import DenseCore.Runtime.PromptTokens

namespace DenseCore.Server

open Lib DenseCore.Runtime

/-- `preparedPrompt`, as far as the check and the submission read it. -/
structure PreparedPrompt where
  prompt : Bytes
  tokenIDs : List Int
  renderedChatSubmit : Bool
deriving DecidableEq, Repr

/-- Why a request does not fit the context. -/
inductive ContextError where
  /-- `CountTokens` failed -/
  | countPromptTokens
  | exceedsLimit (inputTokens maxTokens maxCtx : Int)
deriving DecidableEq, Repr

/-- The error's text. -/
def ContextError.message : ContextError → String
  | .countPromptTokens => "count prompt tokens"
  | .exceedsLimit inputTokens maxTokens maxCtx =>
    s!"prompt tokens ({inputTokens}) plus max_tokens ({maxTokens}) exceeds model context " ++
      s!"limit ({maxCtx})"

/-- The request parameter the error names. -/
def ContextError.param : ContextError → Option String
  | .countPromptTokens => none
  | .exceedsLimit _ _ _ => some "max_tokens"

/-- The prompt tokens of a request; none when the engine cannot count. -/
def inputTokenCount (engine : PromptModel) (prepared : PreparedPrompt)
    (requestInputIDs : List Int) : Option Nat :=
  if requestInputIDs.length ≠ 0 then some requestInputIDs.length
  else if prepared.tokenIDs.length ≠ 0 then some prepared.tokenIDs.length
  else if prepared.prompt ≠ [] then engine.countTokens prepared.prompt false false
  else some 0

/-- `validatePreparedContextWindow`. -/
def validatePreparedContextWindow (engine : Option PromptModel) (prepared : PreparedPrompt)
    (requestInputIDs : List Int) (maxTokens : Int) : Except ContextError Unit :=
  match engine with
  | none => .ok ()
  | some engine =>
    let maxCtx := engine.getMaxContextTokens
    if maxCtx ≤ 0 then .ok ()
    else
      match inputTokenCount engine prepared requestInputIDs with
      | none => .error .countPromptTokens
      | some inputTokens =>
        if 0 < inputTokens ∧ maxCtx < inputTokens + maxTokens then
          .error (.exceedsLimit inputTokens maxTokens maxCtx)
        else .ok ()

/-- A text prompt, as `preparePrompt` leaves it: no token ids. -/
def textPrompt (prompt : Bytes) (rendered : Bool) : PreparedPrompt :=
  { prompt := prompt, tokenIDs := [], renderedChatSubmit := rendered }

end DenseCore.Server
