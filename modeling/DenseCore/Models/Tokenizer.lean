/-
Byte-level BPE: from text to token ids and back.

Two families share this path of `models/tokenizer.cpp`; they differ in how the
pre-tokenizer groups digits.  A text is split at registered special tokens, what
lies between is cut into pieces, the bytes of a piece become symbols, neighbouring
symbols are merged in the order of their ranks, and a symbol that is not in the
vocabulary falls back to its bytes.  The paths of the other families are not
modelled, nor is the one for a model without merges.
-/
import DenseCore.Models.ByteUnicode
import DenseCore.Models.Pretokenizer

namespace DenseCore.Models

open DenseCore.Lib

/-! ### The model -/

/-- The families that differ in how text and bytes map to tokens. -/
inductive TokenizerFamily where
  | qwen35UnicodeBpe
  | lfm2ByteBpe
deriving DecidableEq, Repr

/-- What the tokenizer reads of a `TransformerModel`.  The maps are given by what
they look up. -/
structure Vocabulary where
  family : TokenizerFamily
  /-- `DescribeModel(model).variant == ModelVariant::GEMMA4` -/
  isGemma4 : Bool := false
  vocabTokens : List Bytes
  tokenToId : Bytes → Option Nat
  tokenTypes : List Int := []
  /-- `bpe_merge_ranks`, by merge key -/
  bpeMergeRanks : Bytes → Option Int
  /-- The model has merges, or it would not be tokenized here. -/
  hasMerges : ∃ key, (bpeMergeRanks key).isSome
  bosTokenId : Int := -1
  eosTokenId : Int := -1

/-! ### Special tokens -/

/-- Literals that are control tokens. -/
def controlLiterals : List Bytes :=
  [literal "<think>", literal "</think>", literal "<bos>", literal "<eos>", literal "<pad>",
    literal "<unk>", literal "<mask>", literal "<start_of_turn>", literal "<end_of_turn>",
    literal "[CLS]", literal "[SEP]", literal "[PAD]", literal "[UNK]", literal "[MASK]"]

/-- A token between `<|` and `|>`, or one of the literals. -/
def isLikelyControlTokenLiteral (token : Bytes) : Bool :=
  4 ≤ token.length && token.take 2 = literal "<|" && token.drop (token.length - 2) = literal "|>" ||
    controlLiterals.contains token

variable (m : Vocabulary)

def isGemma4GenerationChannelToken (token : Bytes) : Bool :=
  m.isGemma4 && (token = literal "<|channel>" || token = literal "<channel|>")

/-- The recorded type of a token is neither 1 nor 6. -/
def abnormalType (tokenId : Nat) : Bool :=
  m.tokenTypes[tokenId]?.any fun t => t != 1 && t != 6

/-- A literal that is not cut up. -/
def isAtomicSpecialTokenLiteral (token : Bytes) : Bool :=
  if token.isEmpty then false
  else
    match m.tokenToId token with
    | none => false
    | some tokenId => abnormalType m tokenId || isLikelyControlTokenLiteral token

/-! ### From ids to text -/

/-- A unit of a token: a byte symbol, the word mark of SentencePiece, or itself. -/
def detokenizeUnit (unit : Bytes) : Bytes :=
  match unicodeToByte unit with
  | some b => [b]
  | none => if unit = [0xE2, 0x96, 0x81] then [32] else unit

/-- The bytes of a token; control tokens and tokens of other types have none. -/
def detokenizeImpl (tokenId : Nat) : Bytes :=
  match m.vocabTokens[tokenId]? with
  | none => []
  | some token =>
    if isGemma4GenerationChannelToken m token then token
    else if abnormalType m tokenId then []
    else if isLikelyControlTokenLiteral token then []
    else
      match hexTokenByte token with
      | some b => [b]
      | none => (splitUtf8Units token).flatMap detokenizeUnit

/-- A model with its cache of decoded tokens, which is empty or was filled by
`BuildStreamTokenPieceCache`. -/
structure TokenizerModel extends Vocabulary where
  streamTokenPieces : List Bytes := []
  built : streamTokenPieces = [] ∨
    streamTokenPieces = (List.range vocabTokens.length).map (detokenizeImpl toVocabulary)

/-- `Detokenize` -/
def detokenize (m : TokenizerModel) (tokenId : Nat) : Bytes :=
  match m.streamTokenPieces[tokenId]? with
  | some piece => piece
  | none => detokenizeImpl m.toVocabulary tokenId

/-! ### Merging -/

/-- The two sides of a merge with a separator between them. -/
def makeMergeKey (left right : Bytes) : Bytes := left ++ 0x1F :: right

/-- A piece as its symbols. -/
def encodePieceSymbols (piece : Bytes) : List Bytes := piece.map byteToUnicode

/-- The scan for the neighbours of lowest rank, from position `i` on: the first of
them below the best rank so far. -/
def bestMerge (m : Vocabulary) : Nat → Int → Option Nat → List Bytes → Option Nat
  | i, bestRank, bestPos, left :: right :: rest =>
    match m.bpeMergeRanks (makeMergeKey left right) with
    | some rank =>
      if rank < bestRank then bestMerge m (i + 1) rank (some i) (right :: rest)
      else bestMerge m (i + 1) bestRank bestPos (right :: rest)
    | none => bestMerge m (i + 1) bestRank bestPos (right :: rest)
  | _, _, bestPos, _ => bestPos

/-- `symbols[pos] += symbols[pos + 1]; symbols.erase(pos + 1)`. -/
def mergeAt (symbols : List Bytes) (pos : Nat) : List Bytes :=
  symbols.take pos ++ (match symbols.drop pos with
    | left :: right :: rest => (left ++ right) :: rest
    | short => short)

/-- The loop of `MergeWithBpeRanks`: every round takes one symbol away. -/
def mergeLoop (m : Vocabulary) : Nat → List Bytes → List Bytes
  | 0, symbols => symbols
  | fuel + 1, symbols =>
    match bestMerge m 0 2147483647 none symbols with
    | none => symbols
    | some pos => mergeLoop m fuel (mergeAt symbols pos)

/-- The symbols after all merges of the ranks. -/
def mergeWithBpeRanks (symbols : List Bytes) : List Bytes :=
  mergeLoop m symbols.length symbols

/-! ### Ids -/

/-- The token of one raw byte: its symbol, its hexadecimal form, or itself. -/
def byteFallbackToken (b : UInt8) : List Nat :=
  match m.tokenToId (byteToUnicode b) with
  | some id => [id]
  | none =>
    match m.tokenToId (hexTokenLiteral b) with
    | some id => [id]
    | none => (m.tokenToId [b]).toList

/-- One token for each byte that has one. -/
def byteFallbackTokens (rawBytes : Bytes) : List Nat :=
  rawBytes.flatMap (byteFallbackToken m)

/-- The raw bytes of a symbol. -/
def symbolBytes (sym : Bytes) : Bytes :=
  (splitUtf8Units sym).flatMap fun unit =>
    match unicodeToByte unit with
    | some b => [b]
    | none => unit

/-- A symbol's own token, or those of its bytes. -/
def symbolToIds (sym : Bytes) : List Nat :=
  match m.tokenToId sym with
  | some id => [id]
  | none => byteFallbackTokens m (symbolBytes sym)

/-- The tokens of a list of symbols. -/
def symbolsToIds (symbols : List Bytes) : List Nat :=
  symbols.flatMap (symbolToIds m)

/-! ### From text to ids -/

/-- The pieces that are merged on their own. -/
def pretokenizeForByteBpe (text : Bytes) : List Bytes :=
  match m.family with
  | .qwen35UnicodeBpe => pretokenizeQwenUnicode text true
  | .lfm2ByteBpe => pretokenizeQwenUnicode text false

/-- A span without special tokens. -/
def tokenizePlainSpan (span : Bytes) : List Nat :=
  if span.isEmpty then []
  else
    (pretokenizeForByteBpe m span).flatMap fun piece =>
      symbolsToIds m (mergeWithBpeRanks m (encodePieceSymbols piece))

/-- The special token that starts at `cursor`: its id and where it ends. -/
def specialAt (text : Bytes) (cursor : Nat) : Option (Nat × Nat) :=
  match text.drop cursor with
  | [] => none
  | c :: rest =>
    if c = 60 ∨ c = 91 then
      let close := if c = 60 then 62 else 93
      match rest.idxOf? close with
      | none => none
      | some k =>
        let special := c :: rest.take (k + 1)
        if isAtomicSpecialTokenLiteral m special then
          (m.tokenToId special).map fun id => (id, cursor + special.length)
        else none
    else none

/-- The loop of `Tokenize`: the plain span began at `spanStart`. -/
def tokenizeLoop (m : Vocabulary) (text : Bytes) : Nat → Nat → Nat → List Nat
  | 0, _, spanStart => tokenizePlainSpan m (text.drop spanStart)
  | fuel + 1, cursor, spanStart =>
    if cursor < text.length then
      match specialAt m text cursor with
      | some (id, tokEnd) =>
        tokenizePlainSpan m ((text.drop spanStart).take (cursor - spanStart)) ++
          id :: tokenizeLoop m text fuel tokEnd tokEnd
      | none => tokenizeLoop m text fuel (cursor + 1) spanStart
    else tokenizePlainSpan m (text.drop spanStart)

/-- The prompt already begins with the text of the BOS token. -/
def promptBeginsWithBosLiteral (text : Bytes) : Bool :=
  0 ≤ m.bosTokenId &&
    m.vocabTokens[m.bosTokenId.toNat]?.any fun bos => !bos.isEmpty && bos.isPrefixOf text

/-- `Tokenizer::Tokenize`.  Both families end with `eos_token_id`. -/
def tokenize (text : Bytes) (addBos addEos : Bool) : List Nat :=
  let bos :=
    if addBos && 0 ≤ m.bosTokenId && !promptBeginsWithBosLiteral m text then [m.bosTokenId.toNat]
    else []
  let eos := if addEos && 0 ≤ m.eosTokenId then [m.eosTokenId.toNat] else []
  if text.isEmpty then bos ++ eos else bos ++ tokenizeLoop m text text.length 0 0 ++ eos

end DenseCore.Models
