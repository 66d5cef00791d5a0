/-
A request object that is used again.

`ObjectPool` hands out objects as earlier requests left them.  `AcquireAndInitRequest`
resets the object field by field, and `InitCommonRequest` sets the constraint of JSON
mode up: `Reset` switches the constraint off, `SetupJsonGrammar` switches it on and sets
its state, and `InitGrammarConstraint` looks up the tokens for the punctuation.

Of the fields of a request only those are here that its grammar depends on.
-/
import DenseCore.Sampling.Grammar

namespace DenseCore.RequestReuse

open Lib Sampling

/-- The token ids in a `GrammarConstraint`. -/
structure TokenIds where
  lbrace : Int := -1
  rbrace : Int := -1
  lbracket : Int := -1
  rbracket : Int := -1
  quote : Int := -1
  colon : Int := -1
  comma : Int := -1
deriving DecidableEq, Repr

/-- The fields of a request that outlive it in the pool. -/
structure Request where
  id : Int := -1
  jsonMode : Bool := false
  grammar : GrammarConstraint := {}
  tokenIds : TokenIds := {}
deriving DecidableEq, Repr

/-- A token that is one character, or one behind a blank. -/
def isPunctuation (token : Bytes) (ch : UInt8) : Bool := token = [ch] || token = [0x20, ch]

/-- One round of the loop of `InitGrammarConstraint`. -/
def TokenIds.look (ids : TokenIds) (token : Bytes) (i : Nat) : TokenIds :=
  if isPunctuation token 0x7B then { ids with lbrace := i }
  else if isPunctuation token 0x7D then { ids with rbrace := i }
  else if isPunctuation token 0x5B then { ids with lbracket := i }
  else if isPunctuation token 0x5D then { ids with rbracket := i }
  else if isPunctuation token 0x22 then { ids with quote := i }
  else if isPunctuation token 0x3A then { ids with colon := i }
  else if isPunctuation token 0x2C then { ids with comma := i }
  else ids

/-- The ids of the punctuation tokens, found in the vocabulary. -/
def initGrammarConstraint (ids : TokenIds) (vocab : List Bytes) : TokenIds :=
  vocab.zipIdx.foldl (fun ids entry => ids.look entry.1 entry.2) ids

namespace Request

/-- `Reset`, as far as these fields go. -/
def reset (r : Request) : Request :=
  { r with
    id := -1
    jsonMode := false
    grammar := { r.grammar with enabled := false, isJsonMode := false } }

/-- `AcquireAndInitRequest`, with the object from the pool and the next id. -/
def acquireAndInit (r : Request) (id : Int) : Request := { r.reset with id := id }

/-- `SetupJsonGrammar`; `vocab` is `none` without a default model. -/
def setupJsonGrammar (vocab : Option (List Bytes)) (r : Request) : Request :=
  if r.jsonMode = false then r
  else
    match vocab with
    | some (token :: rest) =>
      { r with
        grammar :=
          { r.grammar with enabled := true, isJsonMode := true, state := .expectObjectStart }
        tokenIds := initGrammarConstraint r.tokenIds (token :: rest) }
    | _ => r

/-- `InitCommonRequest`. -/
def initCommon (vocab : Option (List Bytes)) (jsonMode : Int) (r : Request) : Request :=
  { r with jsonMode := jsonMode != 0 }.setupJsonGrammar vocab

/-- The object from the pool, ready for its next request. -/
def reuse (r : Request) (id : Int) (vocab : Option (List Bytes)) (jsonMode : Int) : Request :=
  (r.acquireAndInit id).initCommon vocab jsonMode

end Request

end DenseCore.RequestReuse
