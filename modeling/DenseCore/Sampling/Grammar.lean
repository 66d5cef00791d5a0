/-
The grammar constraint of JSON mode.

`GrammarConstraint` of `llm/sampling/exec.cpp` follows the text that was sampled,
one character at a time, with a state and two depth counters.  `ApplyGrammarMask`
leaves a token in the running when its text looks right for the state.
-/
import DenseCore.Lib.Strings

namespace DenseCore.Sampling

open DenseCore.Lib

/-- The states of the mask. -/
inductive JSONState where
  | expectObjectStart
  | expectKeyOrEnd
  | inKey
  | expectColon
  | expectValue
  | inStringValue
  | expectCommaOrEnd
  | inNumber
  | inArray
  | completed
deriving DecidableEq, Repr

/-- The fields that the mask reads and writes. -/
structure GrammarConstraint where
  enabled : Bool := false
  isJsonMode : Bool := false
  state : JSONState := .expectObjectStart
  braceDepth : Int := 0
  bracketDepth : Int := 0
  inEscape : Bool := false
  accumulated : Bytes := []
deriving DecidableEq, Repr

/-! ### Reading the text -/

/-- The state is inside a string. -/
def JSONState.inString (state : JSONState) : Bool := state = .inKey || state = .inStringValue

def isWs (c : UInt8) : Bool := c = 0x20 || c = 0x09 || c = 0x0A || c = 0x0D

def isDigit (c : UInt8) : Bool := 0x30 ≤ c && c ≤ 0x39

namespace GrammarConstraint

variable (g : GrammarConstraint)

/-- A closing brace, in the states that count it. -/
def closeBrace (state : JSONState) : GrammarConstraint :=
  { g with braceDepth := g.braceDepth - 1,
           state := if g.braceDepth - 1 = 0 then .completed else state }

/-- The state behind a comma. -/
def afterComma : JSONState :=
  if 0 < g.braceDepth then .expectKeyOrEnd else .expectValue

/-- A character of a string: `closed` is the state behind the closing quote. -/
def stringChar (ch : UInt8) (closed : JSONState) : GrammarConstraint :=
  if ch = 0x22 && !g.inEscape then { g with state := closed }
  else if ch = 0x5C then { g with inEscape := !g.inEscape }
  else { g with inEscape := false }

/-- One round of the loop of `UpdateState`. -/
def readChar (ch : UInt8) : GrammarConstraint :=
  if !g.state.inString && isWs ch then g
  else
    match g.state with
    | .expectObjectStart =>
      if ch = 0x7B then { g with state := .expectKeyOrEnd, braceDepth := 1 } else g
    | .expectKeyOrEnd =>
      if ch = 0x22 then { g with state := .inKey }
      else if ch = 0x7D then g.closeBrace .expectKeyOrEnd
      else g
    | .inKey => g.stringChar ch .expectColon
    | .expectColon => if ch = 0x3A then { g with state := .expectValue } else g
    | .expectValue =>
      if ch = 0x22 then { g with state := .inStringValue }
      else if ch = 0x7B then
        { g with braceDepth := g.braceDepth + 1, state := .expectKeyOrEnd }
      else if ch = 0x5B then { g with bracketDepth := g.bracketDepth + 1, state := .inArray }
      else if isDigit ch || ch = 0x2D then { g with state := .inNumber }
      else if ch = 0x74 || ch = 0x66 || ch = 0x6E then { g with state := .expectCommaOrEnd }
      else g
    | .inStringValue => g.stringChar ch .expectCommaOrEnd
    | .inNumber =>
      if ch = 0x2C then { g with state := g.afterComma }
      else if ch = 0x7D then g.closeBrace .expectCommaOrEnd
      else if ch = 0x5D then
        { g with bracketDepth := g.bracketDepth - 1, state := .expectCommaOrEnd }
      else g
    | .expectCommaOrEnd =>
      if ch = 0x2C then { g with state := g.afterComma }
      else if ch = 0x7D then g.closeBrace .expectCommaOrEnd
      else if ch = 0x5D then { g with bracketDepth := g.bracketDepth - 1 }
      else g
    | .inArray =>
      if ch = 0x5D then
        { g with bracketDepth := g.bracketDepth - 1,
                 state := if g.bracketDepth - 1 = 0 then .expectCommaOrEnd else .inArray }
      else if ch = 0x2C then g
      else if ch = 0x22 then { g with state := .inStringValue }
      else if ch = 0x7B then
        { g with braceDepth := g.braceDepth + 1, state := .expectKeyOrEnd }
      else g
    | .completed => g

/-- `UpdateState`: the text of a token, byte by byte. -/
def updateState (tokenText : Bytes) : GrammarConstraint :=
  if !g.enabled || !g.isJsonMode then g
  else tokenText.foldl readChar { g with accumulated := g.accumulated ++ tokenText }

end GrammarConstraint

/-! ### Which tokens are left -/

variable (token : Bytes)

/-- The token may go into a number. -/
def isDigitToken : Bool :=
  !token.isEmpty && token.all fun c =>
    isDigit c || c = 0x2E || c = 0x2D || c = 0x65 || c = 0x45 || c = 0x2B || c = 0x20

/-- The token is blank and not empty. -/
def isWhitespaceToken : Bool := !token.isEmpty && token.all isWs

/-- The token without blanks at its ends. -/
def trimJsonWhitespace : Bytes :=
  ((token.dropWhile isWs).reverse.dropWhile isWs).reverse

/-- The token is the one symbol, up to blanks. -/
def isExactJsonStructuralToken (expected : UInt8) : Bool :=
  trimJsonWhitespace token = [expected]

/-- The token may go into a string. -/
def isJsonStringContentToken : Bool :=
  !token.isEmpty && token.all fun ch =>
    !(ch < 0x20 || ch = 0x22 || ch = 0x5C || ch = 0x7B || ch = 0x7D || ch = 0x5B || ch = 0x5D)

/-- `token.find(pattern) != npos`. -/
def containsText (token pattern : Bytes) : Bool := (Strings.index pattern token).isSome

/-- The test of a token in the switch over the state. -/
def fitsState (state : JSONState) (token : Bytes) : Bool :=
  match state with
  | .expectObjectStart => isExactJsonStructuralToken token 0x7B
  | .expectKeyOrEnd =>
    isExactJsonStructuralToken token 0x22 || isExactJsonStructuralToken token 0x7D
  | .inKey | .inStringValue =>
    isExactJsonStructuralToken token 0x22 || isJsonStringContentToken token
  | .expectColon => isExactJsonStructuralToken token 0x3A
  | .expectValue =>
    isExactJsonStructuralToken token 0x22 || isExactJsonStructuralToken token 0x7B ||
      isExactJsonStructuralToken token 0x5B || isDigitToken token ||
      containsText token (literal "true") || containsText token (literal "false") ||
      containsText token (literal "null")
  | .inNumber =>
    isDigitToken token || isExactJsonStructuralToken token 0x2C ||
      isExactJsonStructuralToken token 0x7D || isExactJsonStructuralToken token 0x5D
  | .expectCommaOrEnd =>
    isExactJsonStructuralToken token 0x2C || isExactJsonStructuralToken token 0x7D ||
      isExactJsonStructuralToken token 0x5D
  | .inArray =>
    token.contains 0x22 || token.contains 0x7B || token.contains 0x5B || token.contains 0x5D ||
      token.contains 0x2C || isDigitToken token
  | .completed => false

/-- `ApplyGrammarMask` leaves the logit of the token as it is. -/
def GrammarConstraint.unmasked (g : GrammarConstraint) (token : Bytes) : Bool :=
  !g.enabled || !g.isJsonMode || isWhitespaceToken token || fitsState g.state token

/-- `ApplyGrammarMask`: `none` is the logit of minus infinity. -/
def applyGrammarMask {α : Type} (logits : List (Option α)) (g : GrammarConstraint)
    (vocab : List Bytes) : List (Option α) :=
  logits.zipIdx.map fun (logit, i) => if g.unmasked (vocab.getD i []) then logit else none

/-! ### Runs -/

/-- A token is sampled from what the mask leaves, and its text is read. -/
def sampleStep (vocab : List Bytes) (g : GrammarConstraint) (token : Nat) :
    Option GrammarConstraint :=
  match vocab[token]? with
  | some text => if g.unmasked text then some (g.updateState text) else none
  | none => none

/-- The constraint of a request in JSON mode, before the first token. -/
def jsonGrammar : GrammarConstraint := { enabled := true, isJsonMode := true }

end DenseCore.Sampling
