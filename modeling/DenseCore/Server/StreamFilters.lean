/-
What a stream shows of LFM2 and Gemma4 answers.

`lfm2StreamFilter` and `gemma4StreamFilter` of `tool_stream_handler.go` take the
reasoning out of an answer while it is generated.  `sanitizeLFM2Response` and
`splitGemma4ReasoningResponse` do it on the whole answer.  Strings are bytes, and
`strings.ToLower` takes its table as a parameter.
-/
import DenseCore.Lib.StreamFilter
import DenseCore.Server.QwenStream
import DenseCore.Server.ToolParser

namespace DenseCore.Server

open Lib (Bytes StreamFilter)
open Lib.Strings (index trimPrefix trimSpace trimLeft)

/-! ### LFM2 -/

/-- What is held back, and whether the filter is inside the block or past it. -/
structure Lfm2StreamFilter where
  pending : Bytes := []
  started : Bool := false
  suppressing : Bool := false
deriving DecidableEq, Repr

namespace Lfm2StreamFilter

variable (lower : Char → Char)

/-- The text behind the first `</think>`, once it is there.  The place is one of the
lower case copy, so the slice may fail. -/
def closeBlock (f : Lfm2StreamFilter) : Option (Bytes × Lfm2StreamFilter) :=
  match index closeTag (toLower lower f.pending) with
  | some idx => do
      let behind ← slice f.pending (idx + closeTag.length) f.pending.length
      return (trimLeft asciiBlanks behind, { pending := [], started := true, suppressing := false })
  | none => some ([], f)

/-- `Filter`, `none` where a slice is out of range. -/
def filter (f : Lfm2StreamFilter) (token : Bytes) : Option (Bytes × Lfm2StreamFilter) :=
  if token = [] ∨ f.started = true then some (token, f)
  else
    let f : Lfm2StreamFilter := { f with pending := f.pending ++ token }
    if f.suppressing = true then f.closeBlock lower
    else
      let trimmed := trimLeft asciiBlanks f.pending
      if trimmed = [] ∨ (toLower lower trimmed).isPrefixOf openTag = true then some ([], f)
      else if openTag.isPrefixOf (toLower lower trimmed) then
        closeBlock lower { f with suppressing := true }
      else some (f.pending, { f with pending := [], started := true })

/-- `Flush` -/
def flush (f : Lfm2StreamFilter) : Bytes := if f.pending = [] then [] else trimSpace f.pending

/-- The filter of `newLFM2StreamFilter`. -/
def streamFilter : StreamFilter Lfm2StreamFilter UInt8 where
  start := {}
  filter := filter lower
  flush f := some f.flush

end Lfm2StreamFilter

variable (lower : Char → Char)

/-- `none` is a slice out of range. -/
def sanitizeLFM2Response (text : Bytes) : Option Bytes :=
  let content := trimSpace text
  let lowered := toLower lower content
  if openTag.isPrefixOf lowered then
    match index closeTag lowered with
    | some idx => (slice content (idx + closeTag.length) content.length).map trimSpace
    | none => some content
  else some content

/-! ### Gemma4, the whole answer -/

def channelMarker : Bytes := ascii "<|channel>"

def bodyMarker : Bytes := ascii "<channel|>"

/-- The channels that are cut out of an answer, as they open. -/
def channelOpenings : List Bytes :=
  [ascii "<|channel>thought", ascii "<|channel>analysis", ascii "<|channel>final",
    ascii "<|channel>answer"]

/-- The model's name says that it is Gemma 4. -/
def isGemma4ModelHint (modelHint : Bytes) : Bool :=
  let hint := toLower lower (trimSpace modelHint)
  contains hint (ascii "gemma4") || contains hint (ascii "gemma-4")

/-- A setting that means yes. -/
def parseTruthyEnv (value : Bytes) : Bool :=
  [ascii "1", ascii "true", ascii "yes", ascii "on"].contains (trimSpace (toLower lower value))

/-- What a request and the environment say about thinking: `EnableThinking` of the
template arguments, and `DENSECORE_GEMMA4_ENABLE_THINKING`. -/
structure ThinkingSettings where
  enableThinking : Option Bool := none
  env : Option Bytes := none

/-- Whether the request asks for reasoning. -/
def gemma4ReasoningEnabled (req : ThinkingSettings) (modelHint : Bytes) :
    Bool :=
  if isGemma4ModelHint lower modelHint = false then false
  else
    match req.enableThinking, req.env with
    | some enabled, _ => enabled
    | none, some value => parseTruthyEnv lower value
    | none, none => false

/-- The first of the prefixes that the lower case text has is taken off the text. -/
def stripLowerPrefix (prefixes : List Bytes) (text : Bytes) : Bytes :=
  match prefixes.find? fun p => p.isPrefixOf (toLower lower text) with
  | some p => trimSpace (text.drop p.length)
  | none => text

/-- First lines that announce a thought. -/
def thoughtLines : List Bytes := [ascii "thought\r\n", ascii "thought\n"]

/-- Lines by which a model tells itself to be silent. -/
def thinkSilently : List Bytes :=
  [ascii "think silently.\r\n", ascii "think silently.\n", ascii "think silently."]

/-- A first line that only announces a thought goes. -/
def stripGemma4BareThoughtPrelude (text : Bytes) : Bytes :=
  let trimmed := trimSpace text
  match channelOpenings.find? fun channel => channel.isPrefixOf (toLower lower trimmed) with
  | some channel =>
    let body := trimSpace (trimmed.drop channel.length)
    let body :=
      if bodyMarker.isPrefixOf body then trimSpace (trimPrefix bodyMarker body) else body
    if index [0x0A] body = some 0 then trimSpace (body.drop 1) else body
  | none => stripLowerPrefix lower thinkSilently (stripLowerPrefix lower thoughtLines trimmed)

/-- A channel header in front of a text goes, also when it is not closed. -/
def stripGemma4MalformedLeadingChannel (text : Bytes) : Bytes :=
  let trimmed := trimSpace text
  if channelMarker.isPrefixOf trimmed = false then text
  else
    let rest := trimSpace (trimPrefix channelMarker trimmed)
    match index bodyMarker rest, index [0x0A] rest with
    | some idx, _ => trimSpace (rest.drop (idx + bodyMarker.length))
    | none, some idx => trimSpace (rest.drop (idx + 1))
    | none, none => trimmed

/-- Where a text is cut: at the first of the markers behind its front. -/
def visibleCut (text : Bytes) : Nat :=
  (ascii "<|be_thought_out|>" :: channelOpenings ++ [bodyMarker]).foldl
    (fun cut marker =>
      match index marker text with
      | some idx => if 0 < idx ∧ idx < cut then idx else cut
      | none => cut)
    text.length

/-- What of an answer without markers is shown. -/
def sanitizeGemma4VisibleContent (text : Bytes) : Bytes :=
  let text := stripGemma4BareThoughtPrelude lower text
  let text := stripGemma4MalformedLeadingChannel text
  trimSpace (text.take (visibleCut text))

/-- A segment behind a marker: the name of its channel, and its body before and behind
the close marker. -/
structure Segment where
  channel : Bytes
  beforeClose : Bytes
  afterClose : Bytes

/-- A segment taken apart. -/
def readSegment (segment : Bytes) : Segment :=
  let line :=
    match index [0x0A] segment with
    | some newline => (trimSpace (segment.take newline), segment.drop (newline + 1))
    | none => (trimSpace segment, [])
  match index bodyMarker line.2 with
  | some closeIdx =>
    { channel := line.1, beforeClose := line.2.take closeIdx
      afterClose := line.2.drop (closeIdx + bodyMarker.length) }
  | none => { channel := line.1, beforeClose := line.2, afterClose := [] }

/-- What a segment adds to the content and to the reasoning. -/
def addSegment (segment : Bytes) (acc : ReasoningSplit) : ReasoningSplit :=
  let s := readSegment segment
  if s.channel = ascii "thought" ∨ s.channel = ascii "analysis" then
    { content := acc.content ++ s.afterClose, reasoning := acc.reasoning ++ s.beforeClose }
  else if s.channel = ascii "final" ∨ s.channel = ascii "answer" then
    { acc with content := acc.content ++ s.afterClose }
  else { acc with content := acc.content ++ (channelMarker ++ segment) }

/-- The loop over the channels of `splitGemma4ReasoningResponse`; `rest` is the text
from `offset` on. -/
def channelLoop : Nat → Bytes → ReasoningSplit → ReasoningSplit
  | 0, _, acc => acc
  | fuel + 1, rest, acc =>
    match index channelMarker rest with
    | none => { acc with content := acc.content ++ rest }
    | some idx =>
      let behind := rest.drop (idx + channelMarker.length)
      let segmentEnd := (index channelMarker behind).getD behind.length
      channelLoop fuel (behind.drop segmentEnd)
        (addSegment (behind.take segmentEnd) { acc with content := acc.content ++ rest.take idx })

/-- Content and reasoning of a whole answer. -/
def splitGemma4ReasoningResponse (req : ThinkingSettings)
    (modelHint text : Bytes) : Bytes × Bytes :=
  if isGemma4ModelHint lower modelHint = false then (text, [])
  else if contains text (ascii "<|channel>thought") = false then
    if bodyMarker.isPrefixOf text then
      (sanitizeGemma4VisibleContent lower (trimPrefix bodyMarker text), [])
    else if gemma4ReasoningEnabled lower req modelHint then
      ([], sanitizeGemma4VisibleContent lower text)
    else (sanitizeGemma4VisibleContent lower text, [])
  else
    let split := channelLoop (text.length + 1) text ⟨[], []⟩
    if split.reasoning = [] then (sanitizeGemma4VisibleContent lower text, [])
    else if split.content = [] then
      if gemma4ReasoningEnabled lower req modelHint = false then
        (sanitizeGemma4VisibleContent lower split.reasoning, [])
      else ([], sanitizeGemma4VisibleContent lower split.reasoning)
    else
      (sanitizeGemma4VisibleContent lower split.content,
        sanitizeGemma4VisibleContent lower split.reasoning)

/-! ### Gemma4, the stream -/

/-- A chunk without the channel header that it opens or ends. -/
def stripGemma4StreamMarkers (token : Bytes) : Bytes :=
  match index channelMarker token with
  | some idx =>
    let rest := token.drop (idx + channelMarker.length)
    match index bodyMarker rest with
    | some bodyIdx =>
      token.take idx ++ trimLeft asciiBlanks (rest.drop (bodyIdx + bodyMarker.length))
    | none => token.take idx
  | none =>
    match index bodyMarker token with
    | some idx => trimLeft asciiBlanks (token.drop (idx + bodyMarker.length))
    | none => token

/-- What is held back, whether anything was passed on, and whether markers were seen. -/
structure Gemma4StreamFilter where
  pending : Bytes := []
  started : Bool := false
  channelMode : Bool := false
deriving DecidableEq, Repr

namespace Gemma4StreamFilter

/-- `Filter` -/
def filter (f : Gemma4StreamFilter) (token : Bytes) : Bytes × Gemma4StreamFilter :=
  if token = [] then (token, f)
  else if f.started = true then
    (if f.channelMode = true then stripGemma4StreamMarkers token else token, f)
  else
    let f := { f with pending := f.pending ++ token }
    let trimmed := trimLeft asciiBlanks f.pending
    if trimmed.isPrefixOf channelMarker then ([], f)
    else if channelMarker.isPrefixOf trimmed = false then
      (f.pending, { f with pending := [], started := true })
    else
      match index bodyMarker trimmed with
      | none => ([], f)
      | some bodyStart =>
        (stripGemma4StreamMarkers
            (trimLeft asciiBlanks (trimmed.drop (bodyStart + bodyMarker.length))),
          { pending := [], started := true, channelMode := true })

/-- What is held back is split as a whole answer, for a request that says nothing. -/
def flush (lower : Char → Char) (env : Option Bytes) (f : Gemma4StreamFilter) : Bytes :=
  if f.started = true ∨ f.pending = [] then []
  else (splitGemma4ReasoningResponse lower { env := env } (ascii "gemma4") f.pending).1

/-- The filter of `newGemma4StreamFilter`. -/
def streamFilter (lower : Char → Char) (env : Option Bytes) :
    StreamFilter Gemma4StreamFilter UInt8 where
  start := {}
  filter f token := some (f.filter token)
  flush f := some (f.flush lower env)

end Gemma4StreamFilter

end DenseCore.Server
