/-
Byte-level BPE gives the text back.

A symbol is the image of a few bytes at every stage: single bytes to begin with,
and merging only joins neighbours.  A symbol that is in the vocabulary is decoded
to its bytes, because the image cuts into the same units again; one that is not
falls back to the tokens of its bytes, with the same result.  Special tokens do not
occur in the text, apart from the two that decode to themselves.
-/
import DenseCore.Models.Tokenizer
import DenseCore.Proofs.Models.Pretokenizer
import Mathlib.Data.List.Nodup

namespace DenseCore.Models

open List

open DenseCore.Lib

/-! ### The image of a string -/

/-- The byte of a symbol, read off its code point. -/
def symbolByte : Bytes → Nat
  | [c] => c.toNat
  | [c, d] =>
    let cp := (c.toNat - 0xC0) * 64 + (d.toNat - 0x80)
    if cp < 256 then cp
    else ((range 256).filter fun b => !printable b).getD (cp - 256) 0
  | _ => 0

theorem byteToUnicode_ofNat : ∀ n < 256, (byteToUnicode (UInt8.ofNat n)).head?.map utf8CharLen =
        some (byteToUnicode (UInt8.ofNat n)).length ∧
      symbolByte (byteToUnicode (UInt8.ofNat n)) = n := by
  decide +kernel

theorem utf8CharLen_byteToUnicode (b : UInt8) :
    (byteToUnicode b).head?.map utf8CharLen = some (byteToUnicode b).length := by
  have h := (byteToUnicode_ofNat b.toNat b.toNat_lt).1
  rwa [UInt8.ofNat_toNat] at h

theorem byteToUnicode_length_le (b : UInt8) : (byteToUnicode b).length ≤ 2 := by
  have hcount := length_filter_le (fun b => !printable b) (range b.toNat)
  have hcode : byteCodepoint b.toNat ≤ 0x7FF := by
    have hb := b.toNat_lt
    rw [length_range] at hcount
    unfold byteCodepoint
    split <;> omega
  unfold byteToUnicode encodeUtf8
  rw [if_pos hcode]
  split
  · exact Nat.le_succ 1
  · exact Nat.le_refl 2

theorem byteToUnicode_injective {b c : UInt8} (h : byteToUnicode b = byteToUnicode c) : b = c := by
  have hb := (byteToUnicode_ofNat b.toNat b.toNat_lt).2
  have hc := (byteToUnicode_ofNat c.toNat c.toNat_lt).2
  rw [UInt8.ofNat_toNat] at hb hc
  exact UInt8.toNat_inj.mp (by rw [← hb, ← hc, h])

@[simp] theorem unicodeToByte_byteToUnicode (b : UInt8) :
    unicodeToByte (byteToUnicode b) = some b := by
  unfold unicodeToByte
  have hmem : b ∈ (range 256).map UInt8.ofNat :=
    mem_map.mpr ⟨b.toNat, mem_range.mpr b.toNat_lt, UInt8.ofNat_toNat⟩
  cases hfind : ((range 256).map UInt8.ofNat).find?
      (fun c => byteToUnicode c = byteToUnicode b) with
  | none => exact absurd (decide_eq_true rfl) (find?_eq_none.mp hfind b hmem)
  | some c =>
    have hc := find?_some hfind
    rw [byteToUnicode_injective (of_decide_eq_true hc)]

@[simp] theorem byteImage_nil : byteImage [] = [] := rfl

theorem byteImage_append (x y : Bytes) : byteImage (x ++ y) = byteImage x ++ byteImage y :=
  flatMap_append

theorem byteImage_singleton (b : UInt8) : byteImage [b] = byteToUnicode b := by
  simp [byteImage]

variable {x : Bytes} {id : Nat} {groups symbols : List Bytes}

theorem byteImage_mono {y : Bytes} (h : x <:+: y) : byteImage x <:+: byteImage y := by
  obtain ⟨u, v, rfl⟩ := h
  exact ⟨byteImage u, byteImage v, by simp [byteImage_append]⟩

/-- **The image cuts into the symbols again.** -/
theorem splitUtf8Loop_byteImage (x : Bytes) (fuel : Nat) (hfuel : (byteImage x).length ≤ fuel) :
    splitUtf8Loop fuel (byteImage x) = x.map byteToUnicode := by
  induction x generalizing fuel with
  | nil => cases fuel <;> rfl
  | cons b rest ih =>
    have himage : byteImage (b :: rest) = byteToUnicode b ++ byteImage rest := rfl
    have hlen := utf8CharLen_byteToUnicode b
    rw [himage, length_append] at hfuel
    rw [himage]
    cases hunit : byteToUnicode b with
    | nil =>
      rw [hunit] at hlen
      cases hlen
    | cons c tail =>
      rw [hunit] at hlen hfuel
      obtain ⟨fuel, rfl⟩ : ∃ f, fuel = f + 1 := ⟨fuel - 1, by simp at hfuel; omega⟩
      have hc : utf8CharLen c = (c :: tail).length := Option.some.inj hlen
      rw [cons_append, splitUtf8Loop, hc, ← cons_append, take_left, drop_left,
        ih fuel (by simp at hfuel; omega), map_cons, hunit]

theorem splitUtf8Units_byteImage (x : Bytes) : splitUtf8Units (byteImage x) = x.map byteToUnicode :=
  splitUtf8Loop_byteImage x _ (Nat.le_refl _)

/-- What a token of ordinary text decodes to. -/
def decodeUnits (token : Bytes) : Bytes := (splitUtf8Units token).flatMap detokenizeUnit

theorem decodeUnits_byteImage (x : Bytes) : decodeUnits (byteImage x) = x := by
  unfold decodeUnits
  rw [splitUtf8Units_byteImage]
  induction x with
  | nil => rfl
  | cons b rest ih =>
    rw [map_cons, flatMap_cons, ih]
    simp [detokenizeUnit]

theorem symbolBytes_byteImage (x : Bytes) : symbolBytes (byteImage x) = x := by
  unfold symbolBytes
  rw [splitUtf8Units_byteImage]
  induction x with
  | nil => rfl
  | cons b rest ih =>
    rw [map_cons, flatMap_cons, ih]
    simp

theorem byteImage_eq_nil_iff : byteImage x = [] ↔ x = [] := by
  constructor
  · intro h
    rw [← decodeUnits_byteImage x, h]
    rfl
  rintro rfl
  rfl

/-! ### Tokens that decode to something else -/

/-- The two directions of the vocabulary agree, and every byte has its symbol in it
as a normal token. -/
structure Vocabulary.Complete (m : Vocabulary) : Prop where
  inverse : ∀ token id, m.tokenToId token = some id ↔ m.vocabTokens[id]? = some token
  byteSymbols : ∀ b, ∃ id, m.tokenToId (byteToUnicode b) = some id ∧ abnormalType m id = false

/-- `Detokenize` hides the token or takes it for a hexadecimal byte. -/
def HiddenToken (m : Vocabulary) (id : Nat) (token : Bytes) : Prop :=
  m.vocabTokens[id]? = some token ∧ isGemma4GenerationChannelToken m token = false ∧
    (abnormalType m id ∨ isLikelyControlTokenLiteral token ∨ (hexTokenByte token).isSome)

/-- No such token occurs in the string. -/
def NoHiddenToken (m : Vocabulary) (s : Bytes) : Prop :=
  ∀ id token, HiddenToken m id token → token ≠ [] → ¬ token <:+: s

variable {m : Vocabulary} {token : Bytes}

theorem decodeUnits_channelToken
    (h : isGemma4GenerationChannelToken m token) : decodeUnits token = token := by
  simp only [isGemma4GenerationChannelToken, Bool.and_eq_true, Bool.or_eq_true,
    decide_eq_true_eq] at h
  have himage : byteImage token = token := by rcases h.2 with rfl | rfl <;> decide
  rw [← himage, decodeUnits_byteImage, himage]

theorem detokenizeImpl_eq
    (htoken : m.vocabTokens[id]? = some token) (hvisible : ¬ HiddenToken m id token) :
    detokenizeImpl m id = decodeUnits token := by
  unfold detokenizeImpl
  rw [htoken]
  dsimp only
  by_cases hchannel : isGemma4GenerationChannelToken m token
  · rw [if_pos hchannel, decodeUnits_channelToken hchannel]
  have hplain : ¬ (abnormalType m id ∨ isLikelyControlTokenLiteral token ∨
      (hexTokenByte token).isSome) := fun h =>
    hvisible ⟨htoken, by simpa using hchannel, h⟩
  rw [not_or, not_or, Option.not_isSome_iff_eq_none] at hplain
  rw [if_neg hchannel, if_neg hplain.1, if_neg hplain.2.1, hplain.2.2]
  rfl

/-! ### Symbols -/

/-- The symbols stand for these groups of bytes. -/
def Grouped (groups symbols : List Bytes) : Prop :=
  symbols = groups.map byteImage ∧ ∀ g ∈ groups, g ≠ []

theorem Grouped.encodePieceSymbols (piece : Bytes) :
    Grouped (piece.map fun b => [b]) (encodePieceSymbols piece) := by
  refine ⟨?_, ?_⟩
  · simp only [DenseCore.Models.encodePieceSymbols, map_map]
    exact map_congr_left fun b _ => (byteImage_singleton b).symm
  intro g hg
  obtain ⟨b, -, rfl⟩ := mem_map.mp hg
  exact cons_ne_nil b []

theorem Grouped.mergeAt (h : Grouped groups symbols) (pos : Nat) :
    ∃ groups', Grouped groups' (mergeAt symbols pos) ∧ groups'.flatten = groups.flatten := by
  obtain ⟨rfl, hne⟩ := h
  unfold DenseCore.Models.mergeAt
  have hsplit := take_append_drop pos groups
  rw [← map_take, ← map_drop]
  rcases hdrop : groups.drop pos with _ | ⟨left, _ | ⟨right, rest⟩⟩
  · refine ⟨groups, ⟨?_, hne⟩, rfl⟩
    show _ ++ List.map byteImage [] = _
    rw [← map_append, ← hdrop, hsplit]
  · refine ⟨groups, ⟨?_, hne⟩, rfl⟩
    show _ ++ List.map byteImage [left] = _
    rw [← map_append, ← hdrop, hsplit]
  rw [hdrop] at hsplit
  refine ⟨groups.take pos ++ (left ++ right) :: rest, ⟨?_, ?_⟩, ?_⟩
  · simp [byteImage_append]
  · intro g hg
    rcases mem_append.mp hg with hg | hg
    · exact hne g (mem_of_mem_take hg)
    rcases mem_cons.mp hg with rfl | hg
    · intro hnil
      refine hne left ?_ (append_eq_nil_iff.mp hnil).1
      rw [← hsplit]
      simp
    refine hne g ?_
    rw [← hsplit]
    simp [hg]
  conv_rhs => rw [← hsplit]
  simp

theorem Grouped.mergeLoop (m : Vocabulary) (h : Grouped groups symbols) (fuel : Nat) :
    ∃ groups', Grouped groups' (mergeLoop m fuel symbols) ∧ groups'.flatten = groups.flatten := by
  induction fuel generalizing groups symbols with
  | zero => exact ⟨groups, h, rfl⟩
  | succ fuel ih =>
    unfold DenseCore.Models.mergeLoop
    split
    · exact ⟨groups, h, rfl⟩
    rename_i pos _
    obtain ⟨groups₁, h₁, hflat₁⟩ := h.mergeAt pos
    obtain ⟨groups₂, h₂, hflat₂⟩ := ih h₁
    exact ⟨groups₂, h₂, hflat₂.trans hflat₁⟩

/-! ### Decoding the ids -/

theorem specialAt_spec {text : Bytes} {cursor tokEnd : Nat}
    (h : specialAt m text cursor = some (id, tokEnd)) :
    ∃ special, m.tokenToId special = some id ∧ isAtomicSpecialTokenLiteral m special ∧
      text.drop cursor = special ++ text.drop tokEnd := by
  unfold specialAt at h
  cases hdrop : text.drop cursor with
  | nil =>
    rw [hdrop] at h
    cases h
  | cons c rest =>
    rw [hdrop] at h
    dsimp only at h
    split at h
    · split at h
      · cases h
      rename_i k _
      split at h
      · rename_i hatomic
        obtain ⟨id', hid, heq⟩ := Option.map_eq_some_iff.mp h
        obtain ⟨rfl, rfl⟩ := Prod.mk.inj heq
        refine ⟨c :: rest.take (k + 1), hid, hatomic, ?_⟩
        obtain ⟨w, hw⟩ : c :: rest.take (k + 1) <+: c :: rest :=
          cons_prefix_cons.mpr ⟨rfl, take_prefix _ _⟩
        rw [← drop_drop, hdrop, ← hw, drop_left]
      · cases h
    · cases h

section Decoding

variable {m : Vocabulary} (hm : m.Complete) {text : Bytes}
  (himage : NoHiddenToken m (byteImage text)) (htext : NoHiddenToken m text)

include hm himage

variable {x : Bytes} {id : Nat}

theorem detokenizeImpl_byteImage (hne : x ≠ []) (hx : x <:+: text)
    (hid : m.tokenToId (byteImage x) = some id) : detokenizeImpl m id = x := by
  have htoken := (hm.inverse _ _).mp hid
  have hvisible : ¬ HiddenToken m id (byteImage x) := fun hhid =>
    himage id _ hhid (by rwa [ne_eq, byteImage_eq_nil_iff]) (byteImage_mono hx)
  rw [detokenizeImpl_eq htoken hvisible, decodeUnits_byteImage]

theorem byteFallbackToken_decodes {b : UInt8} (hb : [b] <:+: text) :
    (byteFallbackToken m b).flatMap (detokenizeImpl m) = [b] := by
  obtain ⟨id, hid, -⟩ := hm.byteSymbols b
  unfold byteFallbackToken
  rw [hid]
  rw [← byteImage_singleton] at hid
  simp [detokenizeImpl_byteImage hm himage (cons_ne_nil b []) hb hid]

theorem byteFallbackTokens_decodes (hx : x <:+: text) :
    (byteFallbackTokens m x).flatMap (detokenizeImpl m) = x := by
  unfold byteFallbackTokens
  induction x with
  | nil => rfl
  | cons b rest ih =>
    have hb : [b] <:+: text := (infix_append [] [b] rest).trans hx
    have hrest : rest <:+: text := (suffix_cons b rest).isInfix.trans hx
    rw [flatMap_cons, flatMap_append, byteFallbackToken_decodes hm himage hb, ih hrest]
    rfl

/-- **One symbol of the text decodes to its bytes.** -/
theorem symbolToIds_decodes (hne : x ≠ []) (hx : x <:+: text) :
    (symbolToIds m (byteImage x)).flatMap (detokenizeImpl m) = x := by
  unfold symbolToIds
  split
  · rename_i id hid
    simp [detokenizeImpl_byteImage hm himage hne hx hid]
  · rw [symbolBytes_byteImage, byteFallbackTokens_decodes hm himage hx]

theorem symbolsToIds_decodes {groups symbols : List Bytes} (h : Grouped groups symbols)
    (hx : groups.flatten <:+: text) :
    (symbolsToIds m symbols).flatMap (detokenizeImpl m) = groups.flatten := by
  obtain ⟨rfl, hne⟩ := h
  unfold symbolsToIds
  induction groups with
  | nil => rfl
  | cons g rest ih =>
    rw [flatten_cons] at hx
    have hg : g <:+: text := (infix_append [] g _).trans hx
    have hrest : rest.flatten <:+: text := (suffix_append g _).isInfix.trans hx
    rw [map_cons, flatMap_cons, flatMap_append, flatten_cons,
      symbolToIds_decodes hm himage (hne g mem_cons_self) hg,
      ih hrest fun g' hg' => hne g' (mem_cons_of_mem g hg')]

theorem piece_decodes {piece : Bytes} (hx : piece <:+: text) :
    (symbolsToIds m (mergeWithBpeRanks m (encodePieceSymbols piece))).flatMap
      (detokenizeImpl m) = piece := by
  obtain ⟨groups, hgroups, hflat⟩ :=
    (Grouped.encodePieceSymbols piece).mergeLoop m (encodePieceSymbols piece).length
  have hpiece : groups.flatten = piece := by
    rw [hflat, ← flatMap_def, flatMap_singleton']
  unfold mergeWithBpeRanks
  rw [symbolsToIds_decodes hm himage hgroups (by rwa [hpiece]), hpiece]

theorem tokenizePlainSpan_decodes {span : Bytes} (hx : span <:+: text) :
    (tokenizePlainSpan m span).flatMap (detokenizeImpl m) = span := by
  have hpieces : ∀ pieces : List Bytes, pieces.flatten <:+: text → (pieces.flatMap fun piece =>
        symbolsToIds m (mergeWithBpeRanks m (encodePieceSymbols piece))).flatMap
          (detokenizeImpl m) = pieces.flatten := by
    intro pieces hin
    induction pieces with
    | nil => rfl
    | cons piece rest ih =>
      rw [flatten_cons] at hin
      rw [flatMap_cons, flatMap_append, flatten_cons,
        piece_decodes hm himage ((infix_append [] piece _).trans hin),
        ih ((suffix_append piece _).isInfix.trans hin)]
  have hcover : (pretokenizeForByteBpe m span).flatten = span := by
    unfold pretokenizeForByteBpe
    split <;> exact pretokenizeQwenUnicode_flatten span _
  unfold tokenizePlainSpan
  split
  · rename_i hempty
    rw [List.isEmpty_iff.mp hempty]
    rfl
  · rw [hpieces _ (by rwa [hcover]), hcover]

include htext

omit himage in
theorem special_decodes {special : Bytes} (hid : m.tokenToId special = some id)
    (hatomic : isAtomicSpecialTokenLiteral m special) (hx : special <:+: text) :
    detokenizeImpl m id = special := by
  have htoken := (hm.inverse _ _).mp hid
  unfold isAtomicSpecialTokenLiteral at hatomic
  split at hatomic
  · cases hatomic
  rename_i hne
  rw [hid] at hatomic
  have hspecial : abnormalType m id ∨ isLikelyControlTokenLiteral special :=
    Bool.or_eq_true_iff.mp hatomic
  by_cases hchannel : isGemma4GenerationChannelToken m special
  · unfold detokenizeImpl
    rw [htoken]
    exact if_pos hchannel
  refine absurd hx (htext id special ⟨htoken, by simpa using hchannel, ?_⟩ ?_)
  · exact hspecial.imp_right Or.inl
  rintro rfl
  exact hne rfl

/-- **The loop**: whatever has been read, the rest decodes to the rest of the text. -/
theorem tokenizeLoop_decodes (fuel cursor spanStart : Nat) (hle : spanStart ≤ cursor) :
    (tokenizeLoop m text fuel cursor spanStart).flatMap (detokenizeImpl m) =
      text.drop spanStart := by
  have hrest : text.drop spanStart <:+: text := (drop_suffix _ _).isInfix
  induction fuel generalizing cursor spanStart with
  | zero => exact tokenizePlainSpan_decodes hm himage hrest
  | succ fuel ih =>
    unfold tokenizeLoop
    split
    · split
      · rename_i id tokEnd hspecial
        obtain ⟨special, hid, hatomic, hsplit⟩ := specialAt_spec hspecial
        have hin : special <:+: text :=
          (List.IsPrefix.isInfix ⟨_, hsplit.symm⟩).trans (drop_suffix _ _).isInfix
        have hspan : (text.drop spanStart).take (cursor - spanStart) <:+: text :=
          (List.take_prefix _ _).isInfix.trans hrest
        rw [flatMap_append, flatMap_cons, tokenizePlainSpan_decodes hm himage hspan,
          special_decodes hm htext hid hatomic hin,
          ih tokEnd tokEnd (Nat.le_refl _) (drop_suffix _ _).isInfix, ← hsplit]
        conv_rhs => rw [← take_append_drop (cursor - spanStart) (text.drop spanStart)]
        rw [drop_drop, Nat.add_sub_cancel' hle]
      · exact ih (cursor + 1) spanStart (Nat.le_succ_of_le hle) hrest
    · exact tokenizePlainSpan_decodes hm himage hrest

end Decoding

theorem detokenize_eq (m : TokenizerModel) (id : Nat) :
    detokenize m id = detokenizeImpl m.toVocabulary id := by
  unfold detokenize
  rcases m.built with h | h
  · rw [h]
    rfl
  rw [h, getElem?_map]
  cases hid : (range m.vocabTokens.length)[id]? with
  | none => rfl
  | some k =>
    obtain ⟨hlt, hk⟩ := List.getElem?_eq_some_iff.mp hid
    rw [getElem_range] at hk
    rw [hk]
    rfl

/-- **Round trip**: for every model of either family and every string of bytes in
which, and in whose image, no hidden token occurs. -/
theorem detokenize_tokenize {m : TokenizerModel} (hm : m.Complete) {text : Bytes}
    (himage : NoHiddenToken m.toVocabulary (byteImage text))
    (htext : NoHiddenToken m.toVocabulary text) :
    (tokenize m.toVocabulary text false false).flatMap (detokenize m) = text := by
  have hdetok : detokenize m = detokenizeImpl m.toVocabulary := funext (detokenize_eq m)
  have hloop := tokenizeLoop_decodes hm himage htext text.length 0 0 (Nat.le_refl _)
  rw [drop_zero] at hloop
  rw [hdetok]
  unfold tokenize
  simp only [Bool.false_and, Bool.false_eq_true, if_false, nil_append, append_nil]
  split
  · rename_i hempty
    rw [List.isEmpty_iff.mp hempty]
    rfl
  · exact hloop

/-! ### A small vocabulary -/

def helloTokens : List Bytes :=
  (range 256).map (fun n => byteToUnicode (UInt8.ofNat n)) ++ [literal "he"]

/-- All bytes, and one merge. -/
def helloVocabulary : TokenizerModel where
  family := .lfm2ByteBpe
  vocabTokens := helloTokens
  tokenToId token := helloTokens.idxOf? token
  bpeMergeRanks key :=
    if key = makeMergeKey (literal "h") (literal "e") then some 0 else none
  hasMerges := ⟨makeMergeKey (literal "h") (literal "e"), by simp⟩
  built := Or.inl rfl

theorem helloTokens_nodup : helloTokens.Nodup := by
  rw [helloTokens, nodup_append]
  refine ⟨?_, nodup_singleton _, ?_⟩
  · refine Nodup.map_on ?_ (nodup_range)
    intro a ha b hb hab
    have hbyte := congrArg unicodeToByte hab
    simp only [unicodeToByte_byteToUnicode, Option.some.injEq] at hbyte
    have hnat := congrArg UInt8.toNat hbyte
    simp only [UInt8.toNat_ofNat'] at hnat
    have := mem_range.mp ha
    have := mem_range.mp hb
    omega
  intro token htoken other hother heq
  obtain ⟨n, -, rfl⟩ := mem_map.mp htoken
  have hlen := utf8CharLen_byteToUnicode (UInt8.ofNat n)
  rw [heq, mem_singleton.mp hother] at hlen
  exact absurd hlen (by decide)

theorem helloVocabulary_complete : helloVocabulary.Complete where
  inverse token id := by
    show helloTokens.idxOf? token = some id ↔ helloTokens[id]? = some token
    rw [idxOf?_eq_some_iff]
    constructor
    · rintro ⟨hlt, heq, -⟩
      rw [getElem?_eq_getElem hlt, heq]
    intro h
    obtain ⟨hlt, heq⟩ := List.getElem?_eq_some_iff.mp h
    refine ⟨hlt, heq, fun j hj hje => ?_⟩
    exact absurd (helloTokens_nodup.getElem_inj_iff.mp (hje.trans heq.symm)) (by omega)
  byteSymbols b := by
    have hmem : byteToUnicode b ∈ helloTokens := by
      refine mem_append_left _ (mem_map.mpr ⟨b.toNat, ?_, ?_⟩)
      · exact mem_range.mpr b.toNat_lt
      · rw [UInt8.ofNat_toNat]
    obtain ⟨id, hid⟩ := Option.isSome_iff_exists.mp (isSome_idxOf?.mpr hmem)
    exact ⟨id, hid, rfl⟩

theorem shortToken_visible (hlen : token.length ≤ 2) :
    isLikelyControlTokenLiteral token = false ∧ hexTokenByte token = none := by
  have hlong : ∀ t ∈ controlLiterals, 2 < t.length := by decide
  have hliteral : token ∉ controlLiterals := fun hmem => Nat.not_lt_of_le hlen (hlong token hmem)
  have hfour : ¬ 4 ≤ token.length := by omega
  have hsix : ¬ token.length = 6 := by omega
  constructor
  · simp [isLikelyControlTokenLiteral, hfour, hliteral]
  · simp [hexTokenByte, hsix]

theorem helloTokens_short (hmem : token ∈ helloTokens) : token.length ≤ 2 := by
  rcases mem_append.mp hmem with hbyte | hmerge
  · obtain ⟨n, -, rfl⟩ := mem_map.mp hbyte
    exact byteToUnicode_length_le _
  rw [mem_singleton.mp hmerge]
  exact Nat.le_refl 2

theorem helloVocabulary_noHidden (s : Bytes) : NoHiddenToken helloVocabulary.toVocabulary s := by
  rintro id token ⟨htoken, -, hhid⟩ - -
  obtain ⟨hcontrol, hhex⟩ := shortToken_visible (helloTokens_short (mem_of_getElem? htoken))
  rw [hcontrol, hhex] at hhid
  rcases hhid with h | h | h <;> cases h

/-- `hello` and a byte that is no UTF-8, with one merge on the way. -/
theorem helloVocabulary_roundTrip :
    tokenize helloVocabulary.toVocabulary (literal "hello " ++ [0xFF]) false false =
        [256, 108, 108, 111, 32, 255] ∧
      (tokenize helloVocabulary.toVocabulary (literal "hello " ++ [0xFF]) false false).flatMap
        (detokenize helloVocabulary) = literal "hello " ++ [0xFF] :=
  ⟨by decide +kernel, detokenize_tokenize helloVocabulary_complete
    (helloVocabulary_noHidden _) (helloVocabulary_noHidden _)⟩

end DenseCore.Models
