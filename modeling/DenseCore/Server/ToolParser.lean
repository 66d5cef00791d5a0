/-
Tool calls in the text of a model.

`ParseOutput` of `server/internal/tools`: the `<think>` blocks are cut out of the text,
and what is left is searched for calls, as JSON (`parseHermesJSON`) or as blocks
between `<tool_call>` tags (`parseQwenXML`).  Strings are bytes.  `strings.ToLower`
takes the table of lower case outside ASCII as a parameter; a slice with a bound
outside its string is the failure `panic`.  The metrics are left out.
-/
import DenseCore.Lib.Regex
import DenseCore.Server.EncodingJson

namespace DenseCore.Server

open Lib (Bytes Regex literal)
open Lib.Regex (all)
open Lib.Strings (index lastIndex trimSpace)
open Lib.Json (Value parse insertKey)

/-! ### Strings -/

variable (lower : Char → Char) (text : Bytes) (body : Bytes)

/-- `strings.ToLower`; `lower` is the table for characters outside ASCII. -/
def toLower (s : Bytes) : Bytes :=
  (Lib.Utf8.runes s).flatMap fun c =>
    String.utf8EncodeChar
      (if 0x41 ≤ c.toNat ∧ c.toNat ≤ 0x5A then Char.ofNat (c.toNat + 0x20)
        else if c.toNat < 0x80 then c
        else lower c)

/-- `strings.Contains` -/
def contains (s pat : Bytes) : Bool := (index pat s).isSome

/-- `strings.Replace(s, pat, "", 1)` -/
def removeFirst (s pat : Bytes) : Bytes :=
  match index pat s with
  | some i => s.take i ++ s.drop (i + pat.length)
  | none => s

/-- `s[i:j]` -/
def slice (s : Bytes) (i j : Nat) : Option Bytes :=
  if i ≤ j ∧ j ≤ s.length then some ((s.take j).drop i) else none

/-- The first string, if it is not empty. -/
def firstNonEmpty (a b : Bytes) : Bytes := if a = [] then b else a

/-- `fmt.Sprintf("call_%d", i)` -/
def callId (i : Nat) : Bytes := literal "call_" ++ Lib.Float64.decimal i

/-! ### Calls, tools and errors -/

def functionToolType : Bytes := literal "function"

/-- The function of a call: its name, and its arguments as JSON text. -/
structure ToolCallFunction where
  name : Bytes
  arguments : Bytes
deriving DecidableEq, Repr

/-- A call as the server answers it. -/
structure ToolCall where
  id : Bytes
  type : Bytes
  function : ToolCallFunction
deriving DecidableEq, Repr

/-- The formats of a tool call. -/
inductive ParserFamily where
  | hermes
  | qwenXML
  | generic
deriving DecidableEq, Repr

/-- How far the model is free to call a tool. -/
inductive ToolChoiceMode where
  | auto
  | none
  | required
  | forced
deriving DecidableEq, Repr

/-- The choice of a request, with the tool it names. -/
structure ToolChoice where
  mode : ToolChoiceMode := .auto
  forcedName : Bytes := []

/-- A declared tool, with the members of its parameter schema. -/
structure Tool where
  name : Bytes
  parameters : Option (List (Bytes × Value Bytes)) := none

/-- The tools of a request after their check. -/
structure NormalizedTools where
  byName : List (Bytes × Tool)
  choice : ToolChoice := {}

/-- Why an output is no answer with tool calls. -/
inductive ToolError where
  /-- `no tool_calls JSON shape found` -/
  | noToolCallsShape
  /-- `tool call missing function name` -/
  | missingFunctionName
  /-- an error of `encoding/json` -/
  | badJson
  /-- `expected one tool call in qwen block, got %d` -/
  | notOneCall (n : Nat)
  /-- `unrecognized qwen tool block` -/
  | unrecognizedBlock
  /-- `tool call emitted without declared tools` -/
  | noDeclaredTools
  /-- `tool %q emitted while tool_choice forced %q` -/
  | forcedOther (name forced : Bytes)
  /-- `unknown tool name %q` -/
  | unknownTool (name : Bytes)
  /-- `unsupported tool call type %q` -/
  | unsupportedType (type : Bytes)
  /-- `invalid JSON arguments for tool %q: %w` -/
  | invalidArguments (name : Bytes)
  /-- `tool %q missing required argument %q` -/
  | missingArgument (name argument : Bytes)
  /-- a slice out of range -/
  | panic
deriving DecidableEq, Repr

/-- What is read off an output. -/
structure ParseResult where
  content : Bytes := []
  reasoningContent : Bytes := []
  toolCalls : List ToolCall := []
  parserFamily : ParserFamily
  recovered : Bool := false
deriving DecidableEq, Repr

/-- What is returned beside an error. -/
structure ParseFailure where
  result : ParseResult
  error : ToolError
deriving DecidableEq, Repr

/-! ### Reasoning -/

/-- Reasoning and the rest of an output. -/
structure ReasoningSplit where
  content : Bytes
  reasoning : Bytes

/-- A block is written behind a newline, unless it is the first. -/
def addReasoning (reasoning block : Bytes) : Bytes :=
  if reasoning = [] then block else reasoning ++ 0x0A :: block

/-- The loop of `splitReasoningBlocks`. -/
def splitReasoningLoop (lower : Char → Char) : Nat → Bytes → ReasoningSplit → Option ReasoningSplit
  | 0, _, _ => none
  | fuel + 1, rest, acc =>
    match index (literal "<think>") (toLower lower rest) with
    | none => some { acc with content := acc.content ++ rest }
    | some start => do
        let before ← slice rest 0 start
        let afterOpen ← slice rest (start + 7) rest.length
        let acc := { acc with content := acc.content ++ before }
        match index (literal "</think>") (toLower lower afterOpen) with
        | none => return { acc with reasoning := addReasoning acc.reasoning afterOpen }
        | some stop =>
          let block ← slice afterOpen 0 stop
          let rest ← slice afterOpen (stop + 8) afterOpen.length
          splitReasoningLoop lower fuel rest
            { acc with reasoning := addReasoning acc.reasoning block }

/-- `splitReasoningBlocks`, `none` where a slice is out of range. -/
def splitReasoningBlocks (text : Bytes) : Option ReasoningSplit :=
  (splitReasoningLoop lower (text.length + 1) text ⟨[], []⟩).map fun s =>
    ⟨trimSpace s.content, trimSpace s.reasoning⟩

/-! ### Repair -/

/-- `\\s` -/
def isReSpace (c : UInt8) : Bool := c = 0x20 || c = 0x09 || c = 0x0A || c = 0x0C || c = 0x0D

/-- A comma and white space before a closing bracket, which is the group. -/
def repairRE : Regex :=
  all [.text [0x2C], .many true isReSpace, .group 1 (.one fun c => c = 0x7D || c = 0x5D)]

/-- Replace until nothing changes. -/
def repairLoop : Nat → Bytes → Bytes
  | 0, s => s
  | fuel + 1, s =>
    let next := repairRE.replaceAll (fun m => m.group 1) s
    if next = s then s else repairLoop fuel next

/-- The repaired text, if it differs. -/
def repairJSON (src : Bytes) : Option Bytes :=
  let repaired := repairLoop (src.length + 1) src
  if repaired = src then none else some repaired

/-! ### Raw calls -/

/-- A function as it stands in the JSON. -/
structure RawFunction where
  name : Bytes := []
  arguments : RawMessage := none

/-- A call as it stands in the JSON, under either spelling of its fields. -/
structure RawToolCall where
  id : Bytes := []
  type : Bytes := []
  name : Bytes := []
  arguments : RawMessage := none
  function : RawFunction := {}

/-- One member of a function is decoded. -/
def setFunctionField (key : Bytes) (v : Value Bytes) (f : RawFunction) : Option RawFunction :=
  if key = literal "NAME" then (setString f.name v).map fun s => { f with name := s }
  else if key = literal "ARGUMENTS" then some { f with arguments := some v }
  else some f

/-- One member of a call is decoded. -/
def setCallField (key : Bytes) (v : Value Bytes) (c : RawToolCall) : Option RawToolCall :=
  if key = literal "ID" then (setString c.id v).map fun s => { c with id := s }
  else if key = literal "TYPE" then (setString c.type v).map fun s => { c with type := s }
  else if key = literal "NAME" then (setString c.name v).map fun s => { c with name := s }
  else if key = literal "ARGUMENTS" then some { c with arguments := some v }
  else if key = literal "FUNCTION" then
    (setStruct setFunctionField c.function v).map fun f => { c with function := f }
  else some c

/-- The items of a list, each read over the one that was there before. -/
def setCalls : List RawToolCall → List (Value Bytes) → Option (List RawToolCall)
  | _, [] => some []
  | old, v :: rest =>
    (setStruct setCallField (old.headD {}) v).bind fun c => (setCalls old.tail rest).map (c :: ·)

/-- A list of calls is decoded over an old one. -/
def setCallList (old : List RawToolCall) : Value Bytes → Option (List RawToolCall)
  | .array items => setCalls old items
  | .null => some []
  | _ => none

/-- The struct with the one field `tool_calls`. -/
def setEnvelope (key : Bytes) (v : Value Bytes) (calls : List RawToolCall) :
    Option (List RawToolCall) :=
  if key = literal "TOOL_CALLS" then setCallList calls v else some calls

/-- `obj["tool_calls"]` of the map. -/
def toolCallsOf : Value Bytes → Option (Value Bytes)
  | .object members => members.reverse.lookup (literal "tool_calls")
  | _ => none

/-- The name in the function, or else the one of the call. -/
def rawCallName (item : RawToolCall) : Bytes :=
  if item.function.name ≠ [] then item.function.name else item.name

/-- The arguments in the function, or else those of the call. -/
def rawCallArguments (item : RawToolCall) : RawMessage :=
  if item.function.arguments.isSome then item.function.arguments else item.arguments

/-- A single call, or a list of them. -/
def singleOrMany (v : Value Bytes) : Except ToolError (List RawToolCall) :=
  match setStruct setCallField {} v with
  | some c => if rawCallName c ≠ [] then .ok [c] else many v
  | none => many v
where
  many (v : Value Bytes) : Except ToolError (List RawToolCall) :=
    match setCallList [] v with
    | some (c :: cs) => .ok (c :: cs)
    | _ => .error .noToolCallsShape

/-- The calls that `decodeToolCandidate` finds, before they are converted. -/
def findRawCalls (src : Bytes) : Except ToolError (List RawToolCall) :=
  let src := trimSpace src
  let src := (repairJSON src).getD src
  match parse src with
  | none => .error .noToolCallsShape
  | some v =>
    match setStruct setEnvelope [] v with
    | some (c :: cs) => .ok (c :: cs)
    | _ =>
      match toolCallsOf v with
      | none => singleOrMany v
      | some list =>
        match setCallList [] list with
        | none => .error .badJson
        | some (c :: cs) => .ok (c :: cs)
        | some [] => singleOrMany v

/-- `{}` -/
def emptyObject : Bytes := [0x7B, 0x7D]

/-- Arguments in a string are read once more. -/
def normalizeArguments (raw : RawMessage) : Except ToolError Bytes :=
  match raw with
  | none | some .null => .ok emptyObject
  | some (.string s) =>
    match unmarshalAny s with
    | some obj => .ok (marshal obj)
    | none => .error .badJson
  | some v =>
    match decodeAny v with
    | some obj => .ok (marshal obj)
    | none => .error .badJson

/-- The call with number `i` of a list. -/
def rawCallToDomain (i : Nat) (item : RawToolCall) : Except ToolError ToolCall :=
  if rawCallName item = [] then .error .missingFunctionName
  else
    (normalizeArguments (rawCallArguments item)).map fun args =>
      { id := firstNonEmpty item.id (callId i)
        type := firstNonEmpty item.type functionToolType
        function := { name := rawCallName item, arguments := args } }

/-- The calls of a list, numbered from an ordinal on. -/
def rawCallsFrom : Nat → List RawToolCall → Except ToolError (List ToolCall)
  | _, [] => .ok []
  | i, item :: rest => do
      let call ← rawCallToDomain i item
      let calls ← rawCallsFrom (i + 1) rest
      return call :: calls

/-- The calls of a list, each with its id. -/
def rawCallsToDomain (raw : List RawToolCall) : Except ToolError (List ToolCall) :=
  rawCallsFrom 0 raw

/-- The calls that a candidate holds. -/
def decodeToolCandidate (src : Bytes) : Except ToolError (List ToolCall) :=
  (findRawCalls src).bind rawCallsToDomain

/-! ### Candidates -/

/-- A piece of the output that may be JSON, and where it stands. -/
structure JsonCandidate where
  jsonText : Bytes
  fullText : Bytes
  recovered : Bool := false

/-- Every byte matches. -/
def anyByte (_ : UInt8) : Bool := true

/-- Three backquotes. -/
def fence : Bytes := [0x60, 0x60, 0x60]

/-- `json` in any case. -/
def jsonWord : Regex :=
  all [.one fun c => c = 0x6A || c = 0x4A,
    .alt (.one fun c => c = 0x73 || c = 0x53) (.text [0xC5, 0xBF]),
    .one fun c => c = 0x6F || c = 0x4F, .one fun c => c = 0x6E || c = 0x4E]

/-- What stands between two fences. -/
def fenceRE : Regex :=
  all [.text fence, .alt jsonWord .empty, .many true isReSpace, .group 1 (.many false anyByte),
    .many true isReSpace, .text fence]

/-- What the scan for balanced spans remembers. -/
structure SpanState where
  inString : Bool := false
  escaped : Bool := false
  start : Option Nat := none
  depth : Int := 0

/-- One character of `balancedJSONSpans`, with the span that it ends. -/
def spanStep (s : SpanState) (i : Nat) (r : UInt8) : SpanState × Option (Nat × Nat) :=
  match s.start with
  | some start =>
    if s.inString then
      if s.escaped then ({ s with escaped := false }, none)
      else if r = 0x5C then ({ s with escaped := true }, none)
      else if r = 0x22 then ({ s with inString := false }, none)
      else (s, none)
    else if r = 0x22 then ({ s with inString := true }, none)
    else if r = 0x7B ∨ r = 0x5B then ({ s with depth := s.depth + 1 }, none)
    else if r = 0x7D ∨ r = 0x5D then
      if s.depth - 1 = 0 then ({ s with depth := 0, start := none }, some (start, i + 1))
      else ({ s with depth := s.depth - 1 }, none)
    else (s, none)
  | none =>
    if r = 0x7B ∨ r = 0x5B then ({ s with start := some i, depth := 1 }, none) else (s, none)

/-- The spans of a text from an offset on. -/
def spansFrom : SpanState → Nat → Bytes → List (Nat × Nat)
  | _, _, [] => []
  | s, i, r :: rest =>
    match spanStep s i r with
    | (s, none) => spansFrom s (i + 1) rest
    | (s, some span) => span :: spansFrom s (i + 1) rest

/-- The ranges of the outermost objects and arrays. -/
def balancedJSONSpans : List (Nat × Nat) := spansFrom {} 0 text

/-- The candidates in code fences. -/
def fenceCandidates : List JsonCandidate :=
  (fenceRE.findAll text).filterMap fun m =>
    if contains (m.group 1) (literal "tool") || contains (m.group 1) (literal "function") then
      some { jsonText := trimSpace (m.group 1), fullText := m.text }
    else none

/-- The candidates between balanced brackets. -/
def spanCandidates : List JsonCandidate :=
  (balancedJSONSpans text).filterMap fun span =>
    let c := trimSpace ((text.take span.2).drop span.1)
    if contains c (literal "tool") || contains c (literal "function") ||
        contains c (literal "arguments") then
      some { jsonText := c, fullText := c }
    else none

/-- From the first brace to the last, if the text names `tool_calls`. -/
def outerCandidates : List JsonCandidate :=
  if contains text (literal "tool_calls") then
    match index [0x7B] text, lastIndex [0x7D] text with
    | some start, some stop =>
      if start < stop then
        let c := trimSpace ((text.take (stop + 1)).drop start)
        [{ jsonText := c, fullText := c, recovered := true }]
      else []
    | _, _ => []
  else []

/-- All candidates: in fences, between balanced brackets, and around everything. -/
def jsonCandidates : List JsonCandidate :=
  fenceCandidates text ++ spanCandidates text ++ outerCandidates text

/-! ### Calls as JSON -/

/-- The output mentions a call. -/
def looksLikeToolCall (text : Bytes) : Bool :=
  let text := toLower lower text
  contains text (literal "tool_call") || contains text (literal "\"arguments\"") ||
    contains text (literal "<tool_call")

/-- The error of a result. -/
def errorOf {ε α : Type} : Except ε α → Option ε
  | .ok _ => none
  | .error e => some e

/-- What a candidate gives: its calls and whether they were recovered, or the last
error. -/
def tryCandidate {α : Type} (decode : Bytes → Except ToolError (List α)) (c : JsonCandidate) :
    Except (Option ToolError) (List α × Bool) :=
  let repaired := repairJSON c.jsonText
  match decode (repaired.getD c.jsonText) with
  | .ok (x :: xs) => .ok (x :: xs, c.recovered || repaired.isSome)
  | first =>
    match repaired with
    | none => .error (errorOf first)
    | some repaired =>
      match decode repaired with
      | .ok (x :: xs) => .ok (x :: xs, true)
      | second => .error (errorOf second)

/-- The loop of `parseHermesJSON`. -/
def hermesLoop {α : Type} (lower : Char → Char) (decode : Bytes → Except ToolError (List α))
    (text : Bytes) :
    List JsonCandidate → Option ToolError → Except ToolError (List α × Bytes × Bool)
  | [], lastErr =>
    match looksLikeToolCall lower text, lastErr with
    | true, some e => .error e
    | _, _ => .ok ([], text, false)
  | c :: rest, _ =>
    match tryCandidate decode c with
    | .ok (calls, recovered) => .ok (calls, trimSpace (removeFirst text c.fullText), recovered)
    | .error lastErr => hermesLoop lower decode text rest lastErr

/-- The calls of an output in JSON, the rest of its text, and whether a repair was needed. -/
def parseHermesJSON (text : Bytes) : Except ToolError (List ToolCall × Bytes × Bool) :=
  hermesLoop lower decodeToolCandidate text (jsonCandidates text) none

/-! ### Calls as XML -/

/-- What stands between two tags of a call. -/
structure ToolBlock where
  full : Bytes
  body : Bytes
  recovered : Bool := false

def openCall : Bytes := literal "<tool_call>"

def closeCall : Bytes := literal "</tool_call>"

/-- The loop of `extractToolBlocks`: positions are found in the lower-case text. -/
def toolBlocksFrom (text lowered : Bytes) : Nat → Nat → Option (List ToolBlock)
  | 0, _ => none
  | fuel + 1, pos =>
    match index openCall (lowered.drop pos) with
    | none => some []
    | some start => do
        let start := start + pos
        let bodyStart := start + openCall.length
        match index closeCall (lowered.drop bodyStart) with
        | none =>
          let full ← slice text start text.length
          let body ← slice text bodyStart text.length
          return [{ full := full, body := trimSpace body, recovered := true }]
        | some endRel =>
          let stop := bodyStart + endRel
          let fullEnd := stop + closeCall.length
          let full ← slice text start fullEnd
          let body ← slice text bodyStart stop
          let blocks ← toolBlocksFrom text lowered fuel fullEnd
          return { full := full, body := trimSpace body } :: blocks

/-- `extractToolBlocks`, `none` where a slice is out of range. -/
def extractToolBlocks (text : Bytes) : Option (List ToolBlock) :=
  toolBlocksFrom text (toLower lower text) ((toLower lower text).length + 1) 0

/-- `[A-Za-z_][A-Za-z0-9_-]*` -/
def identifier : Regex :=
  .seq (.one fun c => isLetter c || c = 0x5F)
    (.many true fun c => isLetter c || Lib.Json.isDigit c || c = 0x5F || c = 0x2D)
where
  isLetter (c : UInt8) : Bool := 0x41 ≤ c && c ≤ 0x5A || 0x61 ≤ c && c ≤ 0x7A

def fnRe : Regex :=
  all [.text (literal "<function="), .group 1 identifier, .text (literal ">"),
    .many true isReSpace, .group 2 (.many false anyByte), .many true isReSpace,
    .text (literal "</function>")]

def openRe : Regex :=
  all [.text (literal "<function="), .group 1 identifier, .text (literal ">"),
    .many true isReSpace, .group 2 (.many true anyByte)]

def paramRe : Regex :=
  all [.text (literal "<parameter="), .group 1 identifier, .text (literal ">"),
    .many true isReSpace, .group 2 (.many false anyByte), .many true isReSpace,
    .text (literal "</parameter>")]

def nameRe : Regex :=
  all [.text (literal "<name>"), .many true isReSpace,
    .group 1 (.seq (.one (· != 0x3C)) (.many false (· != 0x3C))), .many true isReSpace,
    .text (literal "</name>")]

def argsRe : Regex :=
  all [.text (literal "<arguments>"), .many true isReSpace,
    .group 1 (all [.text [0x7B], .many true anyByte, .text [0x7D]]), .many true isReSpace,
    .text (literal "</arguments>")]

/-- A value that is not JSON is a string. -/
def parseParameterValue (raw : Bytes) : Any := (unmarshalAny raw).getD (.string raw)

/-- The arguments of a `<function=...>` block. -/
def functionArguments : List (Bytes × Any) :=
  (paramRe.findAll text).foldl
    (fun args m => insertKey (m.group 1) (parseParameterValue (trimSpace (m.group 2))) args) []

/-- The `<function=...>` block, and whether its end is missing. -/
def findFunction : Option (Lib.Regex.Match × Bool) :=
  match fnRe.find body with
  | some (_, m) => some (m, false)
  | none => (openRe.find body).map fun x => (x.2, true)

/-- `domain.ToolCall{}` -/
def noCall : ToolCall := { id := [], type := [], function := { name := [], arguments := [] } }

/-- A block whose body is JSON.  When only the repaired body decodes, and not to one
call, the error of the first attempt is gone. -/
def parseJsonBlock : Except ToolError (ToolCall × Bool) :=
  match decodeToolCandidate body with
  | .ok [call] => .ok (call, false)
  | .ok calls => .error (.notOneCall calls.length)
  | .error e =>
    match repairJSON body with
    | none => .error e
    | some repaired =>
      match decodeToolCandidate repaired with
      | .ok [call] => .ok (call, true)
      | .ok _ => .ok (noCall, false)
      | .error e => .error e

/-- A block in another shape. -/
def parseXmlBlock (i : Nat) : Except ToolError (ToolCall × Bool) :=
  match findFunction body with
  | some (m, recovered) =>
    .ok
      ({ id := callId i
         type := functionToolType
         function :=
          { name := m.group 1, arguments := marshal (.object (functionArguments (m.group 2))) } },
        recovered)
  | none =>
    match nameRe.find body, argsRe.find body with
    | some (_, name), some (_, args) =>
      match parse (args.group 1) with
      | none => .error .badJson
      | some v =>
        (normalizeArguments (some v)).map fun normalized =>
          ({ id := callId i
             type := functionToolType
             function := { name := trimSpace (name.group 1), arguments := normalized } },
            false)
    | _, _ => .error .unrecognizedBlock

/-- The block holds an object. -/
def isJsonBlock : Bool := (trimSpace body).head? = some 0x7B

/-- The call of one block. -/
def parseQwenBlock (i : Nat) : Except ToolError (ToolCall × Bool) :=
  if isJsonBlock body then parseJsonBlock body else parseXmlBlock body i

/-- The loop over the blocks. -/
def qwenLoop : Nat → List ToolBlock → Bytes → Except ToolError (List ToolCall × Bytes × Bool)
  | _, [], clean => .ok ([], trimSpace clean, false)
  | i, block :: rest, clean => do
      let (call, recovered) ← parseQwenBlock block.body i
      let (calls, content, others) ← qwenLoop (i + 1) rest (removeFirst clean block.full)
      return (call :: calls, content, recovered || block.recovered || others)

/-- The calls of an output in tags. -/
def parseQwenXML (text : Bytes) : Except ToolError (List ToolCall × Bytes × Bool) :=
  match extractToolBlocks lower text with
  | none => .error .panic
  | some [] => parseHermesJSON lower text
  | some blocks => qwenLoop 0 blocks text

/-! ### Validation and the whole output -/

/-- The names of the required arguments that are strings. -/
def requiredArguments (tool : Tool) : List Bytes :=
  match tool.parameters.bind fun members => members.lookup (literal "required") with
  | some (.array items) =>
    items.filterMap fun item =>
      match item with
      | .string name => if name = [] then none else some name
      | _ => none
  | _ => []

/-- What is wrong with a call, if anything is. -/
def validateToolCall (call : ToolCall) (normalized : NormalizedTools) : Option ToolError :=
  let name := call.function.name
  if normalized.byName = [] then some .noDeclaredTools
  else if normalized.choice.mode = .forced ∧ name ≠ normalized.choice.forcedName then
    some (.forcedOther name normalized.choice.forcedName)
  else
    match normalized.byName.lookup name with
    | none => some (.unknownTool name)
    | some declared =>
      if call.type ≠ [] ∧ call.type ≠ functionToolType then some (.unsupportedType call.type)
      else
        match unmarshalAny call.function.arguments with
        | some (.object args) => missing declared (args.map Prod.fst)
        | some .null => missing declared []
        | _ => some (.invalidArguments name)
where
  missing (declared : Tool) (given : List Bytes) : Option ToolError :=
    ((requiredArguments declared).find? fun name => !given.contains name).map fun argument =>
      .missingArgument call.function.name argument

/-- What is empty is filled in. -/
def fillIn (i : Nat) (call : ToolCall) : ToolCall :=
  { call with id := firstNonEmpty call.id (callId i), type := firstNonEmpty call.type functionToolType }

/-- Every call is filled in and checked. -/
def finishCalls (normalized : NormalizedTools) : Nat → List ToolCall → Except ToolError (List ToolCall)
  | _, [] => .ok []
  | i, call :: rest =>
    match validateToolCall (fillIn i call) normalized with
    | some e => .error e
    | none => (finishCalls normalized (i + 1) rest).map (fillIn i call :: ·)

/-- The calls of an output in the family's format. -/
def parseCalls (family : ParserFamily) (text : Bytes) :
    Except ToolError (List ToolCall × Bytes × Bool) :=
  match family with
  | .qwenXML => parseQwenXML lower text
  | _ => parseHermesJSON lower text

/-- `ParseOutput` -/
def parseOutput (output : Bytes) (family : ParserFamily)
    (normalized : NormalizedTools) : Except ParseFailure ParseResult :=
  match splitReasoningBlocks lower output with
  | none => .error ⟨{ parserFamily := family }, .panic⟩
  | some reasoned =>
    let failed : ParseResult :=
      { content := reasoned.content, reasoningContent := reasoned.reasoning, parserFamily := family }
    match parseCalls lower family reasoned.content with
    | .error e => .error ⟨failed, e⟩
    | .ok (calls, content, recovered) =>
      match finishCalls normalized 0 calls with
      | .error e => .error ⟨failed, e⟩
      | .ok calls =>
        .ok
          { content := trimSpace content
            reasoningContent := reasoned.reasoning
            toolCalls := calls
            parserFamily := family
            recovered := recovered }

end DenseCore.Server
