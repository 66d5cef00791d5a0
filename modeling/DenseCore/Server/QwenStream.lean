/-
Reasoning and content of a Qwen 3.6 answer.

The model starts inside an open `<think>`.  `splitQwenThinkResponse` cuts the whole
answer at the first `</think>`; `qwen36StreamFilter` does the same on a stream: it
holds everything back until the close tag has arrived, and passes the content on
from there.  An answer that never closes is cut at its last empty double line
instead.  Strings are bytes, as in the source, and a chunk may end inside a
character.
-/
import DenseCore.Lib.Strings

namespace DenseCore.Server

open Lib (Bytes)
open Lib.Strings (index lastIndex removeAll trimPrefix trimSpace trimLeft)

/-- The bytes of an ASCII literal. -/
def ascii (s : String) : Bytes := s.toList.map fun c => UInt8.ofNat c.toNat

def openTag : Bytes := ascii "<think>"

def closeTag : Bytes := ascii "</think>"

/-- An answer without a close tag is cut at the last of these. -/
def finalBoundary : Bytes := ascii "\n\n\n"

/-- `" \t\r\n"` -/
def asciiBlanks : Bytes := ascii " \t\r\n"

/-- Content and reasoning of an answer without a close tag, `none` for `false`. -/
def splitUnclosedQwenReasoning (text : Bytes) : Option (Bytes × Bytes) :=
  match lastIndex finalBoundary text with
  | none => none
  | some idx =>
    let reasoning := trimSpace (text.take idx)
    let content := trimSpace (text.drop (idx + finalBoundary.length))
    if reasoning = [] ∨ content = [] then none else some (content, reasoning)

/-- Content and reasoning of a whole answer. -/
def splitQwenThinkResponse (text : Bytes) : Bytes × Bytes :=
  match index closeTag text with
  | some idx =>
    let reasoning := trimSpace (trimPrefix openTag (text.take idx))
    let content := trimSpace (text.drop (idx + closeTag.length))
    (content, reasoning)
  | none =>
    let text := trimPrefix openTag text
    match splitUnclosedQwenReasoning text with
    | some (content, reasoning) => (content, reasoning)
    | none => ([], trimSpace text)

/-! ### The stream -/

/-- The loop of `longestSuffixPrefixLen`, from `n` down. -/
def longestSuffixFrom (value target : Bytes) : Nat → Nat
  | 0 => 0
  | n + 1 =>
    if (target.take (n + 1)).isSuffixOf value then n + 1 else longestSuffixFrom value target n

/-- The longest end of a text that begins a target. -/
def longestSuffixPrefixLen (value target : Bytes) : Nat :=
  longestSuffixFrom value target (min value.length target.length)

/-- The whole value is a proper beginning of the target. -/
def isSuffixOf (value target : Bytes) : Bool :=
  decide (longestSuffixPrefixLen value target = value.length) &&
    decide (value.length < target.length)

/-- Whether the close tag is still to come, and what is held back. -/
structure Qwen36StreamFilter where
  inReasoning : Bool
  pending : Bytes
deriving DecidableEq, Repr

namespace Qwen36StreamFilter

/-- An answer starts inside the open tag. -/
def newQwen36StreamFilter : Qwen36StreamFilter := { inReasoning := true, pending := [] }

variable (f : Qwen36StreamFilter)

/-- Content that can be passed on, up to a possible beginning of a boundary. -/
def flushContentPending (flush : Bool) : Bytes × Qwen36StreamFilter :=
  if flush = true ∨ isSuffixOf f.pending closeTag = false then
    (f.pending, { f with pending := [] })
  else
    let keep := longestSuffixPrefixLen f.pending closeTag
    (f.pending.take (f.pending.length - keep),
      { f with pending := f.pending.drop (f.pending.length - keep) })

/-- Content and reasoning to send on, and the filter afterwards. -/
def filterReasoningPending (flush : Bool) : (Bytes × Bytes) × Qwen36StreamFilter :=
  let pending := removeAll openTag f.pending
  match index closeTag pending with
  | some idx =>
    let reasoning := trimSpace (pending.take idx)
    let rest := trimLeft asciiBlanks (pending.drop (idx + closeTag.length))
    let r := flushContentPending { inReasoning := false, pending := rest } flush
    ((r.1, reasoning), r.2)
  | none =>
    if flush = false then (([], []), { f with pending := pending })
    else
      match splitUnclosedQwenReasoning pending with
      | some (content, reasoning) => ((content, reasoning), { f with pending := [] })
      | none => (([], trimSpace pending), { f with pending := [] })

/-- `Filter`: reasoning and content of one more chunk. -/
def filter (token : Bytes) : (Bytes × Bytes) × Qwen36StreamFilter :=
  if token = [] then ((token, []), f)
  else
    let f : Qwen36StreamFilter := { f with pending := f.pending ++ token }
    if f.inReasoning = true then f.filterReasoningPending false
    else
      let r := f.flushContentPending false
      ((r.1, []), r.2)

/-- `Flush`: what is left when the answer ends. -/
def flush : (Bytes × Bytes) × Qwen36StreamFilter :=
  if f.pending = [] then (([], []), f)
  else if f.inReasoning = true then f.filterReasoningPending true
  else
    let r := f.flushContentPending true
    ((r.1, []), r.2)

/-- What the filter sends on for the chunks, one after the other, and how it is left. -/
def feed : Qwen36StreamFilter → List Bytes → (Bytes × Bytes) × Qwen36StreamFilter
  | f, [] => (([], []), f)
  | f, chunk :: rest =>
    let r := f.filter chunk
    let rs := feed r.2 rest
    ((r.1.1 ++ rs.1.1, r.1.2 ++ rs.1.2), rs.2)

/-- Content and reasoning of a stream that was cut into chunks and flushed. -/
def stream (chunks : List Bytes) : Bytes × Bytes :=
  let fed := feed newQwen36StreamFilter chunks
  let last := fed.2.flush
  (fed.1.1 ++ last.1.1, fed.1.2 ++ last.1.2)

end Qwen36StreamFilter

end DenseCore.Server
