/-
The text of one request on its way out of the worker.

A generated token is a piece of text that may end inside a UTF-8 character.  The
worker joins the pieces at character boundaries, hides tagged blocks with three
chained filters, removes two control markers, hands what is left to
`EmitRequestResult` and looks for a stop sequence in it.  When the request
finishes, the bytes still waiting for a boundary get one more pass.  This is the
decode loop of `runtime/worker.cpp`, with the helpers it calls.
-/
import DenseCore.Runtime.TagSuppression

namespace DenseCore.Runtime

/-! ### Character boundaries -/

/-- How many bytes a lead byte outside ASCII announces; `none` if it is no lead
byte. -/
def utf8Need (c0 : UInt8) : Option Nat :=
  if c0 &&& 0xE0 = 0xC0 then if c0 < 0xC2 then none else some 2
  else if c0 &&& 0xF0 = 0xE0 then some 3
  else if c0 &&& 0xF8 = 0xF0 then if 0xF4 < c0 then none else some 4
  else none

/-- A second byte that makes the form overlong, a surrogate or too large. -/
def utf8SecondByteRejected (need : Nat) (c0 c1 : UInt8) : Bool :=
  if need = 3 then c0 = 0xE0 && c1 < 0xA0 || c0 = 0xED && 0xA0 ≤ c1
  else if need = 4 then c0 = 0xF0 && c1 < 0x90 || c0 = 0xF4 && 0x90 ≤ c1
  else false

/-- One round of the loop of `Utf8ValidPrefixLength`: how far it moves in the rest
of the string, `none` where it breaks off. -/
def utf8Advance : Text → Option Nat
  | [] => none
  | c0 :: tail =>
    if c0 ≤ 0x7F then some 1
    else
      match utf8Need c0 with
      | none => some 1
      | some need =>
        if tail.length + 1 < need then none
        else if (tail.take (need - 1)).any (fun cx => cx &&& 0xC0 != 0x80) then some 1
        else if utf8SecondByteRejected need c0 (tail.headD 0) then some 1
        else some need

/-- The loop: at every round `valid` is where it stands. -/
def utf8ValidLoop (s : Text) : Nat → Nat → Nat
  | 0, valid => valid
  | fuel + 1, valid =>
    match utf8Advance (s.drop valid) with
    | none => valid
    | some n => utf8ValidLoop s fuel (valid + n)

/-- How long the valid beginning is. -/
def utf8ValidPrefixLength (s : Text) : Nat := utf8ValidLoop s s.length 0

/-! ### Control markers -/

/-- `std::isspace` in the C locale. -/
def isSpace (c : UInt8) : Bool := c = 32 || 9 ≤ c && c ≤ 13

/-- Erase the occurrences of one marker from `pos` on, with the white space on
both sides.  Every round shortens the text, so its length is fuel enough. -/
def eraseMarker (marker : Text) : Nat → Nat → Text → Text
  | 0, _, text => text
  | fuel + 1, pos, text =>
    match find text marker pos with
    | none => text
    | some found =>
      let before := text.take found
      let eraseBegin := found - (before.reverse.takeWhile isSpace).length
      let markerEnd := found + marker.length
      let eraseEnd := markerEnd + ((text.drop markerEnd).takeWhile isSpace).length
      eraseMarker marker fuel eraseBegin (text.take eraseBegin ++ text.drop eraseEnd)

/-- The markers that Qwen may write into its answers. -/
def controlMarkers : List Text := [bytes "/no_think", bytes "/nothink"]

/-- A text without the markers. -/
def suppressQwenVisibleControlMarkers (text : Text) : Text :=
  controlMarkers.foldl (fun text marker => eraseMarker marker (text.length + 1) 0 text) text

/-! ### The request -/

/-- What the worker reads of a request when it emits text. -/
structure StreamRequest where
  jsonMode : Bool := false
  callback : Bool := true
  callbackEx : Bool := false
  tokenResultCallback : Bool := false
  suppressReasoningTags : Bool := true
  stopSequences : List Text := []
  stopBufferMax : Nat := 0
  maxTokens : Int
  /-- `IsReasoningTagSuppressionEnabled()` -/
  reasoningTagSuppressionEnabled : Bool := true

/-- A sampled token: its text, and whether `IsStopTokenId` holds of it. -/
structure GeneratedToken where
  piece : Text
  isStopTokenId : Bool := false

/-- What the request keeps between tokens. -/
structure StreamState where
  utf8Pending : Text := []
  think : TagState := {}
  toolCall : TagState := {}
  toolResponse : TagState := {}
  stopBuffer : Text := []
  generatedCount : Int := 0
deriving DecidableEq

/-- Why a generation ends. -/
inductive DecodeFinishCause where
  | stopSequence
  | stopToken
  | maxTokens
deriving DecidableEq, Repr

namespace StreamRequest

/-- The text goes through the tag filters. -/
def suppressesTags (req : StreamRequest) : Bool :=
  !req.jsonMode && !req.tokenResultCallback && req.suppressReasoningTags &&
    req.reasoningTagSuppressionEnabled

/-- Somebody receives the text. -/
def hasCallback (req : StreamRequest) : Bool :=
  req.callback || req.callbackEx || req.tokenResultCallback

end StreamRequest

/-! ### One token -/

/-- Join a piece to the bytes that wait for a boundary: the text up to the last
boundary, and what waits now. -/
def reassemble (utf8Pending piece : Text) : Text × Text :=
  if piece.isEmpty then ([], utf8Pending)
  else
    let joined := utf8Pending ++ piece
    let emitLen := utf8ValidPrefixLength joined
    (joined.take emitLen, joined.drop emitLen)

/-- The filters run when one of them is in a block or holds something back, or
when the text has a `<`. -/
def mayContainTag (s : StreamState) (text : Text) : Bool :=
  s.think.inBlock || s.toolCall.inBlock || s.toolResponse.inBlock ||
    !s.think.pending.isEmpty || !s.toolCall.pending.isEmpty || !s.toolResponse.pending.isEmpty ||
    text.contains 60

/-- One of the three calls of `SuppressTaggedBlock`. -/
def SuppressedBlock.filter (block : SuppressedBlock) (state : TagState) (text : Text) :
    Text × TagState :=
  suppressTaggedBlock block.openTag block.closeTag state text

/-- The three pairs of tags, one after the other. -/
def suppressBlocks (s : StreamState) (text : Text) : Text × StreamState :=
  if mayContainTag s text then
    let r1 := SuppressedBlock.think.filter s.think text
    let r2 := SuppressedBlock.toolCall.filter s.toolCall r1.1
    let r3 := SuppressedBlock.toolResponse.filter s.toolResponse r2.1
    (r3.1, { s with think := r1.2, toolCall := r2.2, toolResponse := r3.2 })
  else (text, s)

variable (req : StreamRequest)

/-- From text that ends at a boundary to the text that is shown. -/
def visibleText (s : StreamState) (text : Text) : Text × StreamState :=
  let r := if !text.isEmpty && req.suppressesTags then suppressBlocks s text else (text, s)
  if !req.jsonMode && !r.1.isEmpty then (suppressQwenVisibleControlMarkers r.1, r.2) else r

/-- The calls of `EmitRequestResult` for one text.  A token result callback also
receives the empty text. -/
def emit (text : Text) : List Text :=
  if req.hasCallback && (!text.isEmpty || req.tokenResultCallback) then [text] else []

/-- The end of `stop_buffer` after more text. -/
def pushStopBuffer (stopBuffer text : Text) : Text :=
  if !text.isEmpty && !req.stopSequences.isEmpty && 0 < req.stopBufferMax then
    let buffer := stopBuffer ++ text
    buffer.drop (buffer.length - req.stopBufferMax)
  else stopBuffer

/-- A stop sequence ends the buffer.  It is looked for only when there is text. -/
def stopSequenceFound (stopBuffer text : Text) : Bool :=
  !text.isEmpty && 0 < req.stopBufferMax &&
    req.stopSequences.any (fun seq => !seq.isEmpty && seq.isSuffixOf stopBuffer)

/-- A token: the state after it, what is emitted, and whether the request is
finished. -/
def generateToken (s : StreamState) (tok : GeneratedToken) :
    StreamState × List Text × Option DecodeFinishCause :=
  let (tokenStr, utf8Pending) := reassemble s.utf8Pending tok.piece
  let (shown, s') := visibleText req { s with utf8Pending := utf8Pending } tokenStr
  let stopBuffer := pushStopBuffer req s.stopBuffer shown
  let generatedCount := s.generatedCount + 1
  let cause :=
    if stopSequenceFound req stopBuffer shown then some .stopSequence
    else if tok.isStopTokenId then some .stopToken
    else if req.maxTokens ≤ generatedCount then some .maxTokens
    else none
  ({ s' with stopBuffer := stopBuffer, generatedCount := generatedCount }, emit req shown, cause)

/-- What is emitted when the request has finished: the bytes that waited for a
boundary, up to the last one. -/
def flushTail (s : StreamState) : List Text :=
  if !s.utf8Pending.isEmpty && req.hasCallback then
    let emitLen := utf8ValidPrefixLength s.utf8Pending
    if 0 < emitLen then emit req (visibleText req s (s.utf8Pending.take emitLen)).1 else []
  else []

/-- The texts a request emits, if it finishes with the last of the tokens. -/
def generate (req : StreamRequest) : StreamState → List GeneratedToken → Option (List Text)
  | _, [] => none
  | s, tok :: rest =>
    match generateToken req s tok with
    | (s', out, some _) => if rest.isEmpty then some (out ++ flushTail req s') else none
    | (s', out, none) => (generate req s' rest).map (out ++ ·)

/-- The text of the tokens. -/
def generatedText (tokens : List GeneratedToken) : Text := tokens.flatMap (·.piece)

end DenseCore.Runtime
