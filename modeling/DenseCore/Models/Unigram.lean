/-
Unigram segmentation of SentencePiece vocabularies.

A span is normalised, read as code points and cut into tokens from its end backwards:
`best`, `best_id` and `best_next` are filled for one code point after the other and then
followed from the front.  A token's score is exact here, not rounded, and a `best` that
is not finite is no value at all.  The pointers the source checks are never null, and
counts of code points and tokens do not leave `int`.
-/
import DenseCore.Lib.BestCut
import DenseCore.Models.Pretokenizer
import Mathlib.Algebra.Order.Ring.Rat

namespace DenseCore.Models

open DenseCore.Lib DenseCore.Lib.Line

/-! ### The vocabulary -/

/-- A vocabulary with scores. -/
structure UnigramModel where
  vocabTokens : List Bytes
  tokenTypes : List Int := []
  tokenScores : List ℚ := []
  /-- `arch_flags.is_gemma4` -/
  isGemma4 : Bool := false

namespace UnigramModel

variable (m : UnigramModel)

/-- What `token_to_id` holds once every token is loaded, the later of two with one
spelling last. -/
def tokenToId (token : Bytes) : Option Nat :=
  m.vocabTokens.zipIdx.foldl (fun found p => if p.1 = token then some p.2 else found) none

/-- The token for what has no other. -/
def findSentencePieceUnkId : Option Nat :=
  match m.tokenToId (literal "<unk>") with
  | some id => some id
  | none => m.tokenTypes.findIdx? (· = 2)

/-- The score of a token, zero if it has none. -/
def getSentencePieceScore (tokenId : Nat) : ℚ := m.tokenScores.getD tokenId 0

/-- The length of the longest token. -/
def maxTokenBytes : Nat :=
  m.vocabTokens.foldl (fun bytes token => max bytes token.length) 0

end UnigramModel

/-! ### The text -/

/-- U+2581 -/
def wordMark : Bytes := [0xE2, 0x96, 0x81]

/-- Blanks become the visible blank, and one is put in front. -/
def normalizeSentencePieceText (text : Bytes) : Bytes :=
  match text with
  | [] => []
  | front :: _ =>
    (if front = 32 then [] else wordMark) ++
      text.flatMap fun ch => if ch = 32 then wordMark else [ch]

/-! ### The table -/

/-- The tokens that start at code point `i`, from the one that ends at `j` on; `ahead`
holds the cells from `j` on. -/
def considerTokens (m : UnigramModel) (normalized : Bytes) (cps : List Utf8Codepoint) (i : Nat) :
    Nat → List (Cell Nat ℚ) → Cell Nat ℚ → Cell Nat ℚ
  | _, [], cell => cell
  | j, next :: ahead, cell =>
    let byteBegin := offset normalized cps i
    let byteEnd := offset normalized cps j
    if m.maxTokenBytes < byteEnd - byteBegin then cell
    else
      match m.tokenToId ((normalized.drop byteBegin).take (byteEnd - byteBegin)), next.best with
      | some id, some best =>
        considerTokens m normalized cps i (j + 1) ahead
          (cell.offer (m.getSentencePieceScore id + best) id j)
      | _, _ => considerTokens m normalized cps i (j + 1) ahead cell

/-- `<unk>` for one code point, where no token led on. -/
def considerUnk (m : UnigramModel) (i : Nat) (following : Option ℚ) (cell : Cell Nat ℚ) :
    Cell Nat ℚ :=
  match cell.id, m.findSentencePieceUnkId, following with
  | none, some unkId, some best => ⟨some (m.getSentencePieceScore unkId + best), some unkId, i + 1⟩
  | _, _, _ => cell

/-- One round of the outer loop, with the cells from `i + 1` on. -/
def fillCell (m : UnigramModel) (normalized : Bytes) (cps : List Utf8Codepoint) (i : Nat)
    (ahead : List (Cell Nat ℚ)) : Cell Nat ℚ :=
  considerUnk m i (ahead.head?.bind (·.best))
    (considerTokens m normalized cps i (i + 1) ahead ⟨none, none, cps.length⟩)

/-- The cells of the last code points after so many rounds, with the end behind them. -/
def fillTable (m : UnigramModel) (normalized : Bytes) (cps : List Utf8Codepoint) :
    Nat → List (Cell Nat ℚ)
  | 0 => [⟨some 0, none, cps.length⟩]
  | rounds + 1 =>
    let ahead := fillTable m normalized cps rounds
    fillCell m normalized cps (cps.length - (rounds + 1)) ahead :: ahead

/-- The walk along `best_next`.  The cell behind the last code point has no id. -/
def followTable (table : List (Cell Nat ℚ)) : Nat → Nat → List Nat
  | 0, _ => []
  | fuel + 1, i =>
    match table[i]? with
    | none => []
    | some cell =>
      match cell.id with
      | none => []
      | some id => id :: if cell.next ≤ i then [] else followTable table fuel cell.next

/-- `AppendSentencePieceUnigram` -/
def appendSentencePieceUnigram (m : UnigramModel) (span : Bytes) (out : List Nat) :
    Except String (List Nat) :=
  if span.isEmpty then .ok out
  else
    let normalized := normalizeSentencePieceText span
    let cps := decodeUtf8Codepoints normalized
    if cps.isEmpty then .ok out
    else if m.maxTokenBytes = 0 then .ok out
    else
      let table := fillTable m normalized cps cps.length
      match table.head?.bind (·.id) with
      | none =>
        if m.isGemma4 then
          .error "Gemma4 tokenizer could not segment prompt with GGUF sentencepiece metadata"
        else .ok out
      | some _ => .ok (out ++ followTable table cps.length 0)

end DenseCore.Models
