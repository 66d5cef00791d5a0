/-
Cutting a text into words, numbers, punctuation and white space.

`PretokenizeQwenUnicode` reads the text as code points, well formed or not, and
walks over them.  A round of its loop moves from the end of the last piece to the
end of the next one, so the model has one function for where the next piece ends
and a loop that slices the text there.  The character classes are the source's own
approximations of the Unicode ones.
-/
import DenseCore.Lib.Strings

namespace DenseCore.Models

open DenseCore.Lib

/-! ### Code points -/

/-- A code point and where its bytes stand. -/
structure Utf8Codepoint where
  cp : Nat
  start : Nat
  len : Nat
deriving DecidableEq, Repr

/-- The low six bits of a byte. -/
def continuationBits (c : UInt8) : Nat := (c &&& 0x3F).toNat

/-- One round of `DecodeUtf8Codepoints` at the front of `rest`: the code point and
its length.  Continuation bytes are not checked. -/
def decodeCodepoint : Bytes → Nat × Nat
  | [] => (0, 1)
  | c0 :: rest =>
    if c0 &&& 0x80 = 0 then (c0.toNat, 1)
    else
      match rest with
      | c1 :: c2 :: c3 :: _ =>
        if c0 &&& 0xE0 = 0xC0 then ((c0 &&& 0x1F).toNat <<< 6 ||| continuationBits c1, 2)
        else if c0 &&& 0xF0 = 0xE0 then
          ((c0 &&& 0x0F).toNat <<< 12 ||| continuationBits c1 <<< 6 ||| continuationBits c2, 3)
        else if c0 &&& 0xF8 = 0xF0 then
          ((c0 &&& 0x07).toNat <<< 18 ||| continuationBits c1 <<< 12 |||
            continuationBits c2 <<< 6 ||| continuationBits c3, 4)
        else (c0.toNat, 1)
      | [c1, c2] =>
        if c0 &&& 0xE0 = 0xC0 then ((c0 &&& 0x1F).toNat <<< 6 ||| continuationBits c1, 2)
        else if c0 &&& 0xF0 = 0xE0 then
          ((c0 &&& 0x0F).toNat <<< 12 ||| continuationBits c1 <<< 6 ||| continuationBits c2, 3)
        else (c0.toNat, 1)
      | [c1] =>
        if c0 &&& 0xE0 = 0xC0 then ((c0 &&& 0x1F).toNat <<< 6 ||| continuationBits c1, 2)
        else (c0.toNat, 1)
      | [] => (c0.toNat, 1)

/-- The loop of `DecodeUtf8Codepoints`: every round takes at least one byte. -/
def decodeLoop (text : Bytes) : Nat → Nat → List Utf8Codepoint
  | 0, _ => []
  | fuel + 1, i =>
    if i < text.length then
      let r := decodeCodepoint (text.drop i)
      ⟨r.1, i, r.2⟩ :: decodeLoop text fuel (i + r.2)
    else []

variable (cps : List Utf8Codepoint) (text : Bytes) (cp : Nat)

/-- `DecodeUtf8Codepoints` -/
def decodeUtf8Codepoints : List Utf8Codepoint := decodeLoop text text.length 0

/-- Where the code point at `pos` starts; the end of the text behind the last one. -/
def offset (cps : List Utf8Codepoint) (pos : Nat) : Nat :=
  (cps[pos]?.map (·.start)).getD text.length

/-! ### Character classes -/

/-- The code point lies in one of the ranges. -/
def inRanges (ranges : List (Nat × Nat)) (cp : Nat) : Bool :=
  ranges.any fun r => r.1 ≤ cp && cp ≤ r.2

def isUnicodeWhitespace : Nat → Bool :=
  inRanges [(0x0009, 0x000D), (0x0020, 0x0020), (0x0085, 0x0085), (0x00A0, 0x00A0),
    (0x1680, 0x1680), (0x2028, 0x2029), (0x202F, 0x202F), (0x205F, 0x205F), (0x3000, 0x3000),
    (0x2000, 0x200A)]

def isUnicodeNumber : Nat → Bool :=
  inRanges [(0x30, 0x39), (0x0660, 0x0669), (0x06F0, 0x06F9), (0x0966, 0x096F),
    (0x09E6, 0x09EF), (0x0A66, 0x0A6F), (0x0AE6, 0x0AEF), (0x0B66, 0x0B6F), (0x0BE6, 0x0BEF),
    (0x0C66, 0x0C6F), (0x0CE6, 0x0CEF), (0x0D66, 0x0D6F), (0x0E50, 0x0E59), (0x0ED0, 0x0ED9),
    (0x1040, 0x1049), (0x17E0, 0x17E9), (0xFF10, 0xFF19)]

def isUnicodeAccentMark : Nat → Bool :=
  inRanges [(0x0300, 0x036F), (0x1AB0, 0x1AFF), (0x1DC0, 0x1DFF), (0x20D0, 0x20FF),
    (0xFE20, 0xFE2F)]

/-- `std::ispunct` in the C locale. -/
def isPunct : Nat → Bool := inRanges [(33, 47), (58, 64), (91, 96), (123, 126)]

def isUnicodePunctuationOrSymbol : Bool :=
  if cp < 128 then isPunct cp
  else
    inRanges [(0x2000, 0x206F), (0x20A0, 0x20CF), (0x2100, 0x214F), (0x2190, 0x21FF),
      (0x2200, 0x22FF), (0x2300, 0x23FF), (0x2460, 0x24FF), (0x2500, 0x257F), (0x25A0, 0x25FF),
      (0x2600, 0x27BF), (0x2B00, 0x2BFF), (0x3001, 0x303F), (0xFE10, 0xFE19), (0xFE30, 0xFE6F),
      (0xFF01, 0xFF0F), (0xFF1A, 0xFF20), (0xFF3B, 0xFF40), (0xFF5B, 0xFF65),
      (0x1F000, 0x1FAFF)] cp

/-- A letter is what is left when the other classes are taken off. -/
def isUnicodeLetter : Bool :=
  if inRanges [(0x41, 0x5A), (0x61, 0x7A)] cp then true
  else if cp < 128 then false
  else
    !(isUnicodeWhitespace cp || isUnicodeNumber cp || isUnicodeAccentMark cp ||
      isUnicodePunctuationOrSymbol cp)

/-- In the mode of Qwen 3.5 marks count as letters. -/
def isUnicodeLetterOrMark (qwen35Mode : Bool) : Bool :=
  isUnicodeLetter cp || qwen35Mode && isUnicodeAccentMark cp

/-- Neither white space, number, letter nor mark: the class of `is_punctish`. -/
def isPunctish (qwen35Mode : Bool) (cp : Nat) : Bool :=
  !isUnicodeWhitespace cp && !isUnicodeNumber cp && !isUnicodeLetterOrMark cp qwen35Mode

/-- `std::tolower` of a code point cut to a byte. -/
def lowerByte : Nat :=
  let b := cp % 256
  if 65 ≤ b ∧ b ≤ 90 then b + 32 else b

/-! ### The next piece -/

/-- The code point at a position, and one that no class has past the end. -/
def getCp (pos : Nat) : Nat :=
  (cps[pos]?.map (·.cp)).getD 0xFFFFFFFF

/-- A class holds of the code point at `pos`, and there is one. -/
def classAt (p : Nat → Bool) (pos : Nat) : Bool :=
  cps[pos]?.any fun c => p c.cp

/-- `while (pos < cps.size() && p(pos)) ++pos`, started at `pos`. -/
def skipWhile (p : Nat → Bool) (pos : Nat) : Nat :=
  pos + ((cps.drop pos).takeWhile fun c => p c.cp).length

/-- The contraction that starts at `pos`, as the number of its code points. -/
def contraction (pos : Nat) : Option Nat :=
  if getCp cps pos = 0x27 ∧ pos + 1 < cps.length then
    let c1 := lowerByte (getCp cps (pos + 1))
    if c1 = 0x73 ∨ c1 = 0x74 ∨ c1 = 0x6D ∨ c1 = 0x64 then some 2
    else if pos + 2 < cps.length then
      let c2 := lowerByte (getCp cps (pos + 2))
      if c1 = 0x72 ∧ c2 = 0x65 ∨ c1 = 0x76 ∧ c2 = 0x65 ∨ c1 = 0x6C ∧ c2 = 0x6C then some 3
      else none
    else none
  else none

/-- A carriage return or a line feed. -/
def isNewline : Bool := cp = 0x0D || cp = 0x0A

/-- The end of the last newline among the white space that starts at `pos`, 0 if
there is none. -/
def lastNewlineEnd (pos ws : Nat) : Nat :=
  (List.range ws).foldl (fun last k => if isNewline (getCp cps (pos + k)) then pos + k + 1 else last)
    0

/-- Where the piece that starts at `pos` ends: one round of the loop. -/
def pieceEnd (qwen35Mode : Bool) (pos : Nat) : Nat :=
  let cp := getCp cps pos
  let letterish := fun cp => isUnicodeLetterOrMark cp qwen35Mode
  let punctish := isPunctish qwen35Mode
  match contraction cps pos with
  | some n => pos + n
  | none =>
    if !isNewline cp && !isUnicodeNumber cp &&
        (classAt cps letterish pos || classAt cps letterish (pos + 1)) then
      skipWhile cps letterish (pos + 1)
    else if classAt cps isUnicodeNumber pos then
      if qwen35Mode then pos + 1
      else min (pos + 3) (skipWhile cps isUnicodeNumber pos)
    else
      let pos2 := if cp = 0x20 && classAt cps punctish (pos + 1) then pos + 1 else pos
      if classAt cps punctish pos2 then
        skipWhile cps isNewline (skipWhile cps punctish pos2)
      else
        let ws := skipWhile cps isUnicodeWhitespace pos - pos
        let newlineEnd := lastNewlineEnd cps pos ws
        if 0 < newlineEnd then newlineEnd
        else if 1 < ws && getCp cps (pos + ws) != 0xFFFFFFFF then pos + (ws - 1)
        else if 0 < ws then pos + ws
        else pos + 1

/-- The bytes of a range of code points. -/
def sliceCodepointSpan (cps : List Utf8Codepoint) (first last : Nat) : Bytes :=
  if last ≤ first ∨ cps.length ≤ first then []
  else
    let byteBegin := (cps[first]?.map (·.start)).getD 0
    let byteEnd := (cps[last]?.map (·.start)).getD text.length
    (text.drop byteBegin).take (byteEnd - byteBegin)

/-- The loop.  A round starts where the last piece ended, and the piece it adds is
never empty. -/
def pretokenizeLoop (text : Bytes) (cps : List Utf8Codepoint) (qwen35Mode : Bool) :
    Nat → Nat → List Bytes
  | 0, _ => []
  | fuel + 1, pos =>
    if pos < cps.length then
      let next := pieceEnd cps qwen35Mode pos
      sliceCodepointSpan text cps pos next :: pretokenizeLoop text cps qwen35Mode fuel next
    else []

/-- `PretokenizeQwenUnicode` -/
def pretokenizeQwenUnicode (qwen35Mode : Bool) : List Bytes :=
  let cps := decodeUtf8Codepoints text
  let pieces := pretokenizeLoop text cps qwen35Mode cps.length 0
  if pieces.isEmpty then [text] else pieces

end DenseCore.Models
