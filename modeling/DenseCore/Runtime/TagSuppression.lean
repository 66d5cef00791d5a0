/-
Hiding reasoning and tool blocks from the streamed text.

`SuppressTaggedBlock` of `runtime/worker_helpers.cpp` is called once for every
piece of text the worker is about to emit.  It cuts out everything from an open
tag to the next close tag, and drops a close tag that has no open tag.  Between
calls it remembers whether it is inside a block, and the beginning of a tag that
the next piece may complete.  Text is bytes, as in `std::string`.
-/
import Mathlib.Data.List.Basic

namespace DenseCore.Runtime

abbrev Text := List UInt8

/-! ### String functions -/

/-- Where `pattern` first occurs in `text`. -/
def findFirst (pattern : Text) : Text → Option Nat
  | [] => if pattern.isEmpty then some 0 else none
  | c :: rest =>
    if pattern.isPrefixOf (c :: rest) then some 0
    else (findFirst pattern rest).map (· + 1)

/-- `text.find(pattern, pos)`: where it first occurs at or after `pos`. -/
def find (text pattern : Text) (pos : Nat) : Option Nat :=
  (findFirst pattern (text.drop pos)).map (· + pos)

/-- `text.substr(pos, len)`. -/
def substr (text : Text) (pos len : Nat) : Text :=
  (text.drop pos).take len

/-- The loop of `LongestPrefixSuffixMatch`: from `len` down, the first length at
which the end of the text is the beginning of the pattern. -/
def longestMatchFrom (text pattern : Text) : Nat → Nat
  | 0 => 0
  | len + 1 =>
    if text.drop (text.length - (len + 1)) = pattern.take (len + 1) then len + 1
    else longestMatchFrom text pattern len

/-- The longest end of a text that begins a pattern. -/
def longestPrefixSuffixMatch (text pattern : Text) : Nat :=
  if text.isEmpty || pattern.isEmpty then 0
  else longestMatchFrom text pattern (min text.length (pattern.length - 1))

/-- The longest end of a text that begins a tag. -/
def longestTagCarry (text openTag closeTag : Text) : Nat :=
  max (longestPrefixSuffixMatch text openTag) (longestPrefixSuffixMatch text closeTag)

/-! ### One call -/

/-- What is kept between calls: `in_block` and `pending`. -/
structure TagState where
  inBlock : Bool := false
  pending : Text := []
deriving DecidableEq, Repr

/-- How the loop over the text ends: with the early return of a block that does
not close, or by leaving the loop with what it has put out. -/
inductive LoopEnd where
  | returned (pending : Text)
  | left (inBlock : Bool) (out : Text)
deriving DecidableEq, Repr

/-- The loop of `SuppressTaggedBlock`.  Every round moves `pos` past a tag, so
the length of the text is fuel enough. -/
def suppressLoop (openTag closeTag current : Text) : Nat → Nat → Bool → Text → LoopEnd
  | 0, _, inBlock, out => .left inBlock out
  | fuel + 1, pos, inBlock, out =>
    if pos < current.length then
      if inBlock then
        match find current closeTag pos with
        | none =>
          let carry := longestPrefixSuffixMatch current closeTag
          .returned (if 0 < carry then current.drop (current.length - carry) else [])
        | some closePos =>
          suppressLoop openTag closeTag current fuel (closePos + closeTag.length) false out
      else
        let openPos := find current openTag pos
        let closePos := find current closeTag pos
        -- a close tag with no open tag before it is dropped where it stands
        match closePos.filter (fun closePos => openPos.all (closePos < ·)), openPos with
        | some closePos, _ =>
          suppressLoop openTag closeTag current fuel (closePos + closeTag.length) false
            (out ++ substr current pos (closePos - pos))
        | none, none => .left false (out ++ current.drop pos)
        | none, some openPos =>
          let out := out ++ substr current pos (openPos - pos)
          match find current closeTag (openPos + openTag.length) with
          | none => .left true out
          | some blockClosePos =>
            suppressLoop openTag closeTag current fuel
              (blockClosePos + closeTag.length) false out
    else .left inBlock out

/-- `SuppressTaggedBlock`: the text to emit, and the state for the next call. -/
def suppressTaggedBlock (openTag closeTag : Text) (state : TagState) (tokenText : Text) :
    Text × TagState :=
  let current := state.pending ++ tokenText
  if current.isEmpty then ([], { state with pending := [] })
  else
    match suppressLoop openTag closeTag current (current.length + 1) 0 state.inBlock [] with
    | .returned pending => ([], { inBlock := true, pending := pending })
    | .left true out => (out, { inBlock := true, pending := [] })
    | .left false out =>
      let carry := longestTagCarry out openTag closeTag
      if 0 < carry then
        (out.take (out.length - carry),
          { inBlock := false, pending := out.drop (out.length - carry) })
      else (out, { inBlock := false, pending := [] })

/-- The stream: one call for each chunk, the state carried along. -/
def suppressChunks (openTag closeTag : Text) : TagState → List Text → Text × TagState
  | state, [] => ([], state)
  | state, chunk :: rest =>
    let (out, next) := suppressTaggedBlock openTag closeTag state chunk
    let (more, done) := suppressChunks openTag closeTag next rest
    (out ++ more, done)

/-! ### The tags of the worker -/

/-- The blocks the worker hides, in the order it looks for them. -/
inductive SuppressedBlock where
  | think
  | toolCall
  | toolResponse
deriving DecidableEq, Repr

/-- The bytes of an ASCII literal. -/
def bytes (s : String) : Text := s.toList.map fun c => UInt8.ofNat c.toNat

def SuppressedBlock.openTag : SuppressedBlock → Text
  | think => bytes "<think>"
  | toolCall => bytes "<tool_call>"
  | toolResponse => bytes "<tool_response>"

def SuppressedBlock.closeTag : SuppressedBlock → Text
  | think => bytes "</think>"
  | toolCall => bytes "</tool_call>"
  | toolResponse => bytes "</tool_response>"

end DenseCore.Runtime
