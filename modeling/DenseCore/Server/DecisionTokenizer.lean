/-
The decision tokenizer.

`internal/decision/tokenizer.go` implements the tokenizer of the decision models: NFC
and byte-level BPE.  `NewTokenizer` checks a specification and builds the tables,
`Encode` cuts added tokens out of the text in two phases, before and after NFC, cuts
what is left into pieces and merges the byte symbols of each piece.

The specification comes decoded from JSON.  Its maps are lists of entries of which the
first counts.  NFC and the character classes belong to the Unicode packages and are
parameters.  `stuck` is an index out of range or a loop that does not end, neither of
which has a value in the source.
-/
import DenseCore.Lib.SliceHeap
import DenseCore.Lib.Strings
import DenseCore.Lib.Utf8

namespace DenseCore.Server.Decision

open Lib

/-! ### The specification -/

/-- `addedToken`. -/
structure AddedToken where
  id : Int
  content : Bytes
  singleWord : Bool
  lstrip : Bool
  rstrip : Bool
  normalized : Bool
deriving DecidableEq, Repr

/-- A merge as it stands in the specification: an array of strings, a string, or
something else. -/
inductive RawMerge where
  | parts (pair : List Bytes)
  | legacy (text : Bytes)
  | other
deriving DecidableEq, Repr

/-- The file a tokenizer is made from. -/
structure Spec where
  normalizerType : Bytes
  preType : Bytes
  prefixSpace : Bool
  useRegex : Bool
  added : List AddedToken
  modelType : Bytes
  vocab : List (Bytes × Int)
  merges : List RawMerge
  /-- `dropout` is not null -/
  dropout : Bool
  subwordPrefix : Bytes
  wordSuffix : Bytes
  byteFallback : Bool
  ignoreMerges : Bool

/-- Why a file makes no tokenizer. -/
inductive SpecError where
  | unsupportedContract
  | emptyVocabularyOrMerges
  | invalidMerge (rank : Nat)
  | mergeNotInVocabulary (rank : Nat)
  | unsupportedAddedToken
  | addedTokenIdMismatch
  | byteNotInVocabulary (b : Nat)
deriving DecidableEq, Repr

/-- `Error` of such a file. -/
def SpecError.message : SpecError → String
  | .unsupportedContract => "unsupported decision tokenizer contract"
  | .emptyVocabularyOrMerges => "decision tokenizer has empty vocabulary or merges"
  | .invalidMerge rank => s!"invalid BPE merge {rank}"
  | .mergeNotInVocabulary rank => s!"BPE merge {rank} missing vocabulary entry"
  | .unsupportedAddedToken => "unsupported added token"
  | .addedTokenIdMismatch => "added token ID mismatch"
  | .byteNotInVocabulary b => s!"byte {b} missing from tokenizer vocabulary"

/-- Tokens and their ids. -/
abbrev Vocab := List (Bytes × Int)

/-- Pairs that merge, and the rank of each. -/
abbrev Ranks := List ((Bytes × Bytes) × Nat)

/-- What encoding reads. -/
structure Tokenizer where
  vocab : Vocab
  ranks : Ranks
  /-- the added tokens that are looked for before NFC -/
  addedRaw : List AddedToken
  /-- the ones looked for after it -/
  addedNormalized : List AddedToken
  bytes : List Bytes
deriving DecidableEq, Repr

/-! ### NewTokenizer -/

/-- `strings.Split(text, " ")`. -/
def splitSpace : Bytes → List Bytes
  | [] => [[]]
  | b :: rest =>
    if b = 32 then [] :: splitSpace rest
    else
      match splitSpace rest with
      | [] => [[b]]
      | first :: more => (b :: first) :: more

/-- The two sides of a merge. -/
def RawMerge.pair : RawMerge → Option (List Bytes)
  | .parts pair => some pair
  | .legacy text => some (splitSpace text)
  | .other => none

/-- The loop over the merges. -/
def readMerges (vocab : Vocab) : Nat → List RawMerge → Ranks → Except SpecError Ranks
  | _, [], ranks => .ok ranks
  | rank, raw :: rest, ranks =>
    match raw.pair with
    | some [left, right] =>
      if left = [] ∨ right = [] then .error (.invalidMerge rank)
      else if vocab.lookup (left ++ right) = none then .error (.mergeNotInVocabulary rank)
      else readMerges vocab (rank + 1) rest (((left, right), rank) :: ranks)
    | _ => .error (.invalidMerge rank)

/-- The loop over the added tokens. -/
def readAdded : List AddedToken → Vocab → List AddedToken → List AddedToken →
    Except SpecError (Vocab × List AddedToken × List AddedToken)
  | [], vocab, raw, normalized => .ok (vocab, raw, normalized)
  | a :: rest, vocab, raw, normalized =>
    if a.content = [] ∨ a.singleWord = true ∨ a.id < 0 then .error .unsupportedAddedToken
    else if (vocab.lookup a.content).any (· ≠ a.id) then .error .addedTokenIdMismatch
    else
      let vocab := (a.content, a.id) :: vocab
      if a.normalized = true then readAdded rest vocab raw (normalized ++ [a])
      else readAdded rest vocab (raw ++ [a]) normalized

/-- `sort.SliceStable` by length, longest first. -/
def longestFirst (added : List AddedToken) : List AddedToken :=
  added.mergeSort fun a b => b.content.length ≤ a.content.length

/-- The bytes that are their own symbol. -/
def visible (b : Nat) : Bool := 33 ≤ b && b ≤ 126 || 161 ≤ b && b ≤ 172 || 174 ≤ b

/-- The bytes that a valid text can contain. -/
def required (b : Nat) : Bool := b < 192 || 194 ≤ b && b ≤ 244

/-- `string(cp)`. -/
def runeString (cp : Nat) : Bytes := Utf8.encode [Char.ofNat cp]

/-- The loop over the bytes; `n` is the next code point for one that is not visible. -/
def readBytes (vocab : Vocab) : List Nat → Nat → List Bytes → Except SpecError (List Bytes)
  | [], _, bytes => .ok bytes
  | b :: rest, n, bytes =>
    let symbol := runeString (if visible b then b else n)
    if vocab.lookup symbol = none ∧ required b = true then .error (.byteNotInVocabulary b)
    else readBytes vocab rest (if visible b then n else n + 1) (bytes ++ [symbol])

/-- The checks before the tables are built. -/
def Spec.supported (spec : Spec) : Bool :=
  spec.normalizerType = literal "NFC" && spec.preType = literal "ByteLevel" &&
    !spec.prefixSpace && spec.useRegex && spec.modelType = literal "BPE" && !spec.dropout &&
    spec.subwordPrefix = [] && spec.wordSuffix = [] && !spec.byteFallback && !spec.ignoreMerges

/-- `NewTokenizer`, with every check of the file. -/
def newTokenizer (spec : Spec) : Except SpecError Tokenizer :=
  if spec.supported = false then .error .unsupportedContract
  else if spec.vocab = [] ∨ spec.merges = [] then .error .emptyVocabularyOrMerges
  else do
    let ranks ← readMerges spec.vocab 0 spec.merges []
    let (vocab, raw, normalized) ← readAdded spec.added spec.vocab [] []
    let bytes ← readBytes vocab (List.range 256) 256 []
    pure
      { vocab := vocab, ranks := ranks, addedRaw := longestFirst raw
        addedNormalized := longestFirst normalized, bytes := bytes }

variable (t : Tokenizer) (u : UnicodeTables)

/-- `TokenID`. -/
def Tokenizer.tokenID (token : Bytes) : Option Int := t.vocab.lookup token

/-- The symbol of a byte. -/
def Tokenizer.byteSymbol (b : UInt8) : Bytes := t.bytes.getD b.toNat []

/-! ### Pieces -/

/-- The character classes of the `unicode` package. -/
structure UnicodeTables where
  isLetter : Char → Bool
  isNumber : Char → Bool
  isSpace : Char → Bool

/-- The class of a character: 0 a blank, 1 a letter, 2 a number, 3 anything else. -/
def UnicodeTables.category (r : Char) : Nat :=
  if u.isLetter r then 1 else if u.isNumber r then 2 else if u.isSpace r then 0 else 3

/-- What may follow an apostrophe in a contraction. -/
def endings : List (List Char) :=
  [['s'], ['t'], ['r', 'e'], ['v', 'e'], ['m'], ['l', 'l'], ['d']]

/-- The length of a contraction at the front. -/
def contraction : List Char → Option Nat
  | [] => none
  | r :: rest =>
    if r = Char.ofNat 0x27 then
      (endings.find? fun ending => ending.isPrefixOf rest).map fun ending => 1 + ending.length
    else none

/-- Where the piece at the front of `runes` ends. -/
def pieceEnd (runes : List Char) : Nat :=
  match contraction runes with
  | some n => n
  | none =>
    let skip :=
      match runes with
      | first :: next :: _ => if first = ' ' ∧ u.category next ≠ 0 then 1 else 0
      | _ => 0
    match runes.drop skip with
    | [] => 0
    | r :: rest =>
      let cat := u.category r
      let i := skip + 1 + (rest.takeWhile fun x => u.category x = cat).length
      if cat = 0 ∧ i < runes.length ∧ 1 < i then i - 1 else i

/-- The loop of `gpt2Pieces`. -/
def piecesLoop (u : UnicodeTables) : Nat → List Char → List (List Char)
  | 0, _ => []
  | _, [] => []
  | fuel + 1, runes =>
    runes.take (pieceEnd u runes) :: piecesLoop u fuel (runes.drop (pieceEnd u runes))

/-- The pieces of a text under the GPT-2 pattern. -/
def gpt2Pieces (text : Bytes) : List Bytes :=
  (piecesLoop u (Utf8.runes text).length (Utf8.runes text)).map Utf8.encode

/-! ### Merging -/

/-- A symbol of a piece in the linked list of merges. -/
structure Node where
  value : Bytes
  prev : Int
  next : Int
  generation : Nat
  alive : Bool
deriving DecidableEq, Repr

/-- A pair in the heap; it may have changed since it was pushed. -/
structure MergeCandidate where
  rank : Nat
  left : Nat
  right : Nat
  generation : Nat
deriving DecidableEq, Repr

/-- `mergeHeap.Less`. -/
def mergeLess (a b : MergeCandidate) : Bool :=
  if a.rank ≠ b.rank then decide (a.rank < b.rank) else decide (a.left < b.left)

/-- Why a text has no encoding. -/
inductive EncodeError where
  | invalidUtf8
  | missingEntry
  | stuck
deriving DecidableEq, Repr

/-- `Error` of an encoding. -/
def EncodeError.message : EncodeError → String
  | .invalidUtf8 => "decision input is not valid UTF-8"
  | .missingEntry => "BPE result missing vocabulary entry"
  | .stuck => ""

/-- `container/heap` on the pairs. -/
abbrev MergeHeap := Array MergeCandidate

/-- `nodes[i]`; none is the panic. -/
def at? (nodes : List Node) (i : Int) : Option Node := if i < 0 then none else nodes[i.toNat]?

/-- Assign to `nodes[i]`. -/
def update? (nodes : List Node) (i : Int) (f : Node → Node) : Option (List Node) :=
  (at? nodes i).map fun node => nodes.set i.toNat (f node)

/-- `push`. -/
def Tokenizer.push (t : Tokenizer) (nodes : List Node) (q : MergeHeap) (i : Int) :
    Option MergeHeap :=
  if i < 0 then some q
  else
    match at? nodes i with
    | none => none
    | some node =>
      if node.alive = false ∨ node.next < 0 then some q
      else
        match at? nodes node.next with
        | none => none
        | some other =>
          match t.ranks.lookup (node.value, other.value) with
          | none => some q
          | some rank => some (SliceHeap.push mergeLess q
              { rank := rank, left := i.toNat, right := node.next.toNat
                generation := node.generation })

/-- The merge of two neighbours. -/
def Tokenizer.merge (nodes : List Node) (q : MergeHeap) (m : MergeCandidate)
    (a b : Node) : Option (List Node × MergeHeap) := do
  let nodes ← update? nodes m.left fun a =>
    { a with value := a.value ++ b.value, next := b.next, generation := a.generation + 1 }
  let nodes ← update? nodes m.right fun b => { b with alive := false }
  let nodes ← if 0 ≤ b.next then update? nodes b.next fun c => { c with prev := m.left }
    else some nodes
  let (nodes, q) ←
    if 0 ≤ a.prev then do
      let nodes ← update? nodes a.prev fun p => { p with generation := p.generation + 1 }
      let q ← t.push nodes q a.prev
      pure (nodes, q)
    else some (nodes, q)
  let q ← t.push nodes q m.left
  pure (nodes, q)

/-- One candidate of the heap: merged, unless it is out of date. -/
def Tokenizer.mergeRound (nodes : List Node) (q : MergeHeap)
    (m : MergeCandidate) : Option (List Node × MergeHeap) :=
  match at? nodes m.left with
  | none => none
  | some a =>
    if a.alive = false ∨ a.generation ≠ m.generation ∨ a.next ≠ m.right then some (nodes, q)
    else
      match at? nodes m.right with
      | none => none
      | some b => t.merge nodes q m a b

/-- The loop over the heap. -/
def Tokenizer.mergeLoop (t : Tokenizer) : Nat → List Node → MergeHeap → Option (List Node)
  | 0, _, _ => none
  | fuel + 1, nodes, q =>
    if q.size = 0 then some nodes
    else
      match SliceHeap.pop mergeLess q with
      | (none, _) => none
      | (some m, q) => (t.mergeRound nodes q m).bind fun r => t.mergeLoop fuel r.1 r.2

/-- The nodes before any merge. -/
def Tokenizer.startNodes (piece : Bytes) : List Node :=
  piece.zipIdx.map fun p =>
    { value := t.byteSymbol p.1, prev := (p.2 : Int) - 1
      next := if p.2 + 1 = piece.length then -1 else (p.2 : Int) + 1, generation := 0, alive := true }

/-- The candidates before any merge. -/
def Tokenizer.startHeap (t : Tokenizer) (nodes : List Node) : List Nat → MergeHeap →
    Option MergeHeap
  | [], q => some q
  | i :: rest, q => (t.push nodes q i).bind fun q => t.startHeap nodes rest q

/-- The walk along the nodes that are left. -/
def Tokenizer.collect (t : Tokenizer) (nodes : List Node) : Nat → Int →
    Except EncodeError (List Int)
  | 0, _ => .error .stuck
  | fuel + 1, i =>
    if i < 0 then .ok []
    else
      match at? nodes i with
      | none => .error .stuck
      | some node =>
        match t.vocab.lookup node.value with
        | none => .error .missingEntry
        | some id => (t.collect nodes fuel node.next).map (id :: ·)

/-- `encodePiece`.  A round takes a candidate out, and a merge, which adds two at most,
takes a node. -/
def Tokenizer.encodePiece (piece : Bytes) : Except EncodeError (List Int) :=
  if piece = [] then .ok []
  else
    let nodes := t.startNodes piece
    match t.startHeap nodes (List.range nodes.length) #[] with
    | none => .error .stuck
    | some q =>
      match t.mergeLoop (3 * piece.length + 1) nodes q with
      | none => .error .stuck
      | some nodes => t.collect nodes (nodes.length + 1) 0

/-! ### Encode -/

/-- The pieces one after the other, up to the first that fails. -/
def Tokenizer.encodePieces (t : Tokenizer) : List Bytes → Except EncodeError (List Int)
  | [] => .ok []
  | piece :: rest => do
      let ids ← t.encodePiece piece
      let more ← t.encodePieces rest
      pure (ids ++ more)

/-- The length of the character at the front, as `DecodeRuneInString` reports it. -/
def runeSize (s : Bytes) : Nat := s.length - (Utf8.decodeRune s).2.length

/-- Drop the white space at the front. -/
def skipSpace (u : UnicodeTables) : Nat → Bytes → Bytes
  | 0, s => s
  | _, [] => []
  | fuel + 1, s =>
    if u.isSpace (Utf8.decodeRune s).1 then skipSpace u fuel (Utf8.decodeRune s).2 else s

/-- `DecodeLastRuneInString`: the last of the characters, and the text before it. -/
def decodeLastRune (s : Bytes) : Char × Bytes :=
  match [4, 3, 2, 1].find? fun n => n ≤ s.length && (Utf8.decodeRune (s.drop (s.length - n))).2 = []
      && (n = 1 || (Utf8.decodeRune (s.drop (s.length - n))).1 ≠ Char.ofNat 0xFFFD ||
        s.drop (s.length - n) = [0xEF, 0xBF, 0xBD]) with
  | some n => ((Utf8.decodeRune (s.drop (s.length - n))).1, s.take (s.length - n))
  | none => (Char.ofNat 0xFFFD, s.take (s.length - 1))

/-- Drop the white space at the end. -/
def dropSpace (u : UnicodeTables) : Nat → Bytes → Bytes
  | 0, s => s
  | _, [] => []
  | fuel + 1, s =>
    if u.isSpace (decodeLastRune s).1 then dropSpace u fuel (decodeLastRune s).2 else s

/-- The loop of one phase: `before` stands between the last added token and here, `s`
from here on.  What lies between added tokens goes to the next phase. -/
def splitLoop (u : UnicodeTables) (added : List AddedToken)
    (next : Bytes → Except EncodeError (List Int)) :
    Nat → Bytes → Bytes → Except EncodeError (List Int)
  | 0, _, _ => .error .stuck
  | fuel + 1, before, s =>
    if s = [] then next before
    else
      match added.find? fun a => a.content.isPrefixOf s with
      | none =>
        splitLoop u added next fuel (before ++ s.take (runeSize s)) (s.drop (runeSize s))
      | some found => do
          let ids ← next (if found.lstrip then dropSpace u before.length before else before)
          let rest := s.drop found.content.length
          let more ← splitLoop u added next fuel []
            (if found.rstrip then skipSpace u rest.length rest else rest)
          pure (ids ++ found.id :: more)

/-- `split` in its last phase. -/
def Tokenizer.splitPieces (u : UnicodeTables) (s : Bytes) : Except EncodeError (List Int) :=
  t.encodePieces (gpt2Pieces u s)

/-- `split` in the phase after NFC. -/
def Tokenizer.splitNormalized (u : UnicodeTables) (nfc : Bytes → Bytes)
    (s : Bytes) : Except EncodeError (List Int) :=
  splitLoop u t.addedNormalized (t.splitPieces u) ((nfc s).length + 1) [] (nfc s)

/-- `split` in the phase before NFC. -/
def Tokenizer.splitRaw (u : UnicodeTables) (nfc : Bytes → Bytes) (s : Bytes) :
    Except EncodeError (List Int) :=
  splitLoop u t.addedRaw (t.splitNormalized u nfc) (s.length + 1) [] s

/-- `Encode`. -/
def Tokenizer.encode (u : UnicodeTables) (nfc : Bytes → Bytes) (text : Bytes) :
    Except EncodeError (List Int) :=
  if Utf8.sanitize text ≠ text then .error .invalidUtf8 else t.splitRaw u nfc text

/-- The byte symbols of a text, one after the other. -/
def Tokenizer.byteImage (text : Bytes) : Bytes := text.flatMap t.byteSymbol

end DenseCore.Server.Decision
