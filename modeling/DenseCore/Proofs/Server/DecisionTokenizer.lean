/-
What the checks of `NewTokenizer` are for.

The constructor keeps a vocabulary in which every merge makes a string and every byte
of valid UTF-8 has a symbol; the added tokens only put entries in.  `Encode` cuts a
text that no added token occurs in into pieces without losing a character, and each
piece is merged without loss, so the ids spell the symbols of NFC(text).

Added tokens that are not normalized are matched before NFC.  A text can contain one
whose content NFC takes apart or puts together, and then the id stands for the content
and not for its NFC form.  So the text itself must not contain any of those.
-/
import DenseCore.Proofs.Server.DecisionMerge
import DenseCore.Proofs.Server.DecisionPieces

namespace DenseCore.Server.Decision

open List

open Lib Lib.Strings

/-! ### The tables -/

/-- Each merge of `ranks` makes a string of `vocab`. -/
def RanksKnown (vocab : Vocab) (ranks : Ranks) : Prop :=
  ∀ x y, List.lookup (x, y) ranks ≠ none → List.lookup (x ++ y) vocab ≠ none

variable {vocab : Vocab} {spec : Spec} {t : Tokenizer}

theorem readMerges_known (merges : List RawMerge) :
    ∀ {rank : Nat} {ranks ranks' : Ranks}, readMerges vocab rank merges ranks = .ok ranks' →
      RanksKnown vocab ranks → RanksKnown vocab ranks' := by
  induction merges with
  | nil =>
    intro rank ranks ranks' h hknown
    rw [readMerges] at h
    rwa [← Except.ok.inj h]
  | cons raw rest ih =>
    intro rank ranks ranks' h hknown
    rw [readMerges] at h
    split at h
    · rename_i left right _
      split at h
      · cases h
      split at h
      · cases h
      rename_i hsome
      refine ih h fun x y hxy => ?_
      rw [lookup_cons] at hxy
      split at hxy
      · rename_i heq
        obtain ⟨rfl, rfl⟩ := Prod.mk.inj (beq_iff_eq.mp heq)
        exact hsome
      · exact hknown x y hxy
    · cases h

/-- **Added tokens only put entries in, and go to the phase they name.** -/
theorem readAdded_spec (added : List AddedToken) :
    ∀ {vocab vocab' : Vocab} {raw raw' normalized normalized' : List AddedToken},
      readAdded added vocab raw normalized = .ok (vocab', raw', normalized') →
      (∀ k, List.lookup k vocab ≠ none → List.lookup k vocab' ≠ none) ∧
        (∀ a ∈ raw', a ∈ raw ∨ a ∈ added ∧ a.normalized = false) ∧
        ∀ a ∈ normalized', a ∈ normalized ∨ a ∈ added ∧ a.normalized = true := by
  induction added with
  | nil =>
    intro vocab vocab' raw raw' normalized normalized' h
    rw [readAdded] at h
    obtain ⟨rfl, rfl, rfl⟩ := Except.ok.inj h
    exact ⟨fun _ h => h, fun _ h => Or.inl h, fun _ h => Or.inl h⟩
  | cons a rest ih =>
    intro vocab vocab' raw raw' normalized normalized' h
    rw [readAdded] at h
    split at h
    · cases h
    split at h
    · cases h
    have hgrow : ∀ k, List.lookup k vocab ≠ none →
        List.lookup k ((a.content, a.id) :: vocab) ≠ none := by
      intro k hk
      rw [lookup_cons]
      split
      · exact Option.some_ne_none _
      · exact hk
    dsimp only at h
    split at h
    · rename_i hnormalized
      obtain ⟨hvocab, hraw, hnorm⟩ := ih h
      refine ⟨fun k hk => hvocab k (hgrow k hk), fun x hx => ?_, fun x hx => ?_⟩
      · exact (hraw x hx).imp_right fun h => ⟨mem_cons_of_mem _ h.1, h.2⟩
      rcases hnorm x hx with hold | hnew
      · rcases mem_append.mp hold with hold | hthis
        · exact Or.inl hold
        rw [mem_singleton.mp hthis]
        exact Or.inr ⟨mem_cons_self, hnormalized⟩
      · exact Or.inr ⟨mem_cons_of_mem _ hnew.1, hnew.2⟩
    rename_i hnormalized
    obtain ⟨hvocab, hraw, hnorm⟩ := ih h
    refine ⟨fun k hk => hvocab k (hgrow k hk), fun x hx => ?_, fun x hx => ?_⟩
    · rcases hraw x hx with hold | hnew
      · rcases mem_append.mp hold with hold | hthis
        · exact Or.inl hold
        rw [mem_singleton.mp hthis]
        exact Or.inr ⟨mem_cons_self, eq_false_of_ne_true hnormalized⟩
      · exact Or.inr ⟨mem_cons_of_mem _ hnew.1, hnew.2⟩
    · exact (hnorm x hx).imp_right fun h => ⟨mem_cons_of_mem _ h.1, h.2⟩

/-- **Every byte gets a symbol, and a required one a symbol of the vocabulary.** -/
theorem readBytes_spec (bs : List Nat) :
    ∀ {n : Nat} {bytes bytes' : List Bytes}, readBytes vocab bs n bytes = .ok bytes' →
      ∃ new, bytes' = bytes ++ new ∧
        Forall₂ (fun b symbol => (required b = true → List.lookup symbol vocab ≠ none) ∧
          (visible b = true → symbol = runeString b)) bs new := by
  induction bs with
  | nil =>
    intro n bytes bytes' h
    rw [readBytes] at h
    exact ⟨[], by rw [append_nil, Except.ok.inj h], Forall₂.nil⟩
  | cons b rest ih =>
    intro n bytes bytes' h
    unfold readBytes at h
    dsimp only at h
    by_cases hmissing : List.lookup (runeString (if visible b = true then b else n)) vocab = none ∧
        required b = true
    · rw [if_pos hmissing] at h
      cases h
    rw [if_neg hmissing] at h
    obtain ⟨new, hnew, hall⟩ := ih h
    refine ⟨_ :: new, ?_, Forall₂.cons ⟨fun hreq hnone => hmissing ⟨hnone, hreq⟩,
      fun hvisible => ?_⟩ hall⟩
    · rw [hnew, append_assoc]
      rfl
    · rw [if_pos hvisible]

/-- What an accepted specification makes. -/
structure Made (spec : Spec) (t : Tokenizer) : Prop where
  merges : t.MergesKnown
  bytes : ∀ b : UInt8, required b.toNat = true → t.vocab.lookup (t.byteSymbol b) ≠ none
  visible : ∀ b : UInt8, visible b.toNat = true → t.byteSymbol b = runeString b.toNat
  raw : ∀ a ∈ t.addedRaw, a ∈ spec.added ∧ a.normalized = false
  normalized : ∀ a ∈ t.addedNormalized, a ∈ spec.added ∧ a.normalized = true

variable {added : List AddedToken} {k : Bytes}

theorem mem_longestFirst {a : AddedToken} :
    a ∈ longestFirst added ↔ a ∈ added := (mergeSort_perm _ _).mem_iff

/-- What a tokenizer that was made is made of. -/
theorem made_of_newTokenizer (h : newTokenizer spec = .ok t) : Made spec t := by
  unfold newTokenizer at h
  split at h
  · cases h
  split at h
  · cases h
  cases hmerges : readMerges spec.vocab 0 spec.merges [] with
  | error e => rw [hmerges] at h; cases h
  | ok ranks =>
  cases hadded : readAdded spec.added spec.vocab [] [] with
  | error e => rw [hmerges, hadded] at h; cases h
  | ok tables =>
  obtain ⟨vocab, raw, normalized⟩ := tables
  cases hbytes : readBytes vocab (range 256) 256 [] with
  | error e => rw [hmerges, hadded] at h; simp only [bind, Except.bind, hbytes] at h; cases h
  | ok bytes =>
  rw [hmerges, hadded] at h
  simp only [bind, Except.bind, hbytes, pure, Except.pure] at h
  obtain rfl := Except.ok.inj h
  obtain ⟨hgrow, hraw, hnorm⟩ := readAdded_spec _ hadded
  obtain ⟨new, hnew, hall⟩ := readBytes_spec _ hbytes
  rw [nil_append] at hnew
  subst hnew
  have hsymbol : ∀ b : UInt8, (required b.toNat = true →
      List.lookup (bytes.getD b.toNat []) vocab ≠ none) ∧
      (visible b.toNat = true → bytes.getD b.toNat [] = runeString b.toNat) := by
    intro b
    have hlength : bytes.length = 256 := by
      rw [← hall.length_eq, length_range]
    have hlt : b.toNat < 256 := b.toNat_lt
    have hget := hall.get (i := b.toNat) (by rw [length_range]; exact hlt) (by omega)
    rw [get_eq_getElem, get_eq_getElem, getElem_range] at hget
    rw [getD_eq_getElem?_getD, getElem?_eq_getElem (by omega), Option.getD_some]
    exact hget
  refine ⟨fun x y hxy => ?_, fun b => (hsymbol b).1, fun b => (hsymbol b).2, fun a ha => ?_,
    fun a ha => ?_⟩
  · exact hgrow _ (readMerges_known _ hmerges (fun _ _ h => absurd rfl h) x y hxy)
  · exact (hraw a (mem_longestFirst.mp ha)).resolve_left not_mem_nil
  · exact (hnorm a (mem_longestFirst.mp ha)).resolve_left not_mem_nil

/-! ### The bytes of valid text -/

theorem required_iff (b : Nat) : required b = true ↔ b < 192 ∨ 194 ≤ b ∧ b ≤ 244 := by
  unfold required
  simp

theorem required_utf8EncodeChar (c : Char) :
    ∀ b ∈ String.utf8EncodeChar c, required b.toNat = true := by
  have hshape := Utf8.shape c
  have hmax : c.toNat < 0x110000 := by
    rcases c.valid with h | ⟨-, h⟩
    · exact Nat.lt_trans h (by decide)
    · exact h
  generalize String.utf8EncodeChar c = bs at hshape
  intro b hb
  rw [required_iff]
  cases hshape with
  | one b0 h0 hv =>
    rw [mem_singleton.mp hb]
    omega
  | two b0 b1 h0 h1 hv =>
    simp only [mem_cons, not_mem_nil, or_false] at hb
    rcases hb with rfl | rfl <;> omega
  | three b0 b1 b2 h0 h1 h2 hv =>
    simp only [mem_cons, not_mem_nil, or_false] at hb
    rcases hb with rfl | rfl | rfl <;> omega
  | four b0 b1 b2 b3 h0 h1 h2 h3 hv =>
    simp only [mem_cons, not_mem_nil, or_false] at hb
    rcases hb with rfl | rfl | rfl | rfl <;> omega

theorem Made.bytesKnown (h : Made spec t) (cs : List Char) : t.BytesKnown (Utf8.encode cs) := by
  intro b hb
  obtain ⟨c, -, hc⟩ := mem_flatMap.mp hb
  exact h.bytes b (required_utf8EncodeChar c b hc)

/-! ### Pieces -/

theorem Made.encodePieces_spells (h : Made spec t) (pieces : List (List Char)) :
    ∃ ids, t.encodePieces (pieces.map Utf8.encode) = .ok ids ∧
      t.Spells ids (Utf8.encode pieces.flatten) := by
  induction pieces with
  | nil => exact ⟨[], rfl, Tokenizer.Spells.nil t⟩
  | cons piece rest ih =>
    obtain ⟨ids, hids, hspells⟩ := Tokenizer.encodePiece_spells h.merges (h.bytesKnown piece)
    obtain ⟨more, hmore, hrest⟩ := ih
    refine ⟨ids ++ more, ?_, ?_⟩
    · rw [map_cons, Tokenizer.encodePieces, hids, hmore]
      rfl
    rw [flatten_cons, Utf8.encode_append]
    exact hspells.append hrest

theorem Made.splitPieces_spells (h : Made spec t) (u : UnicodeTables) (cs : List Char) :
    ∃ ids, t.splitPieces u (Utf8.encode cs) = .ok ids ∧ t.Spells ids (Utf8.encode cs) := by
  obtain ⟨ids, hids, hspells⟩ := h.encodePieces_spells (piecesLoop u cs.length cs)
  rw [piecesLoop_flatten u cs.length (Nat.le_refl _)] at hspells
  refine ⟨ids, ?_, hspells⟩
  unfold Tokenizer.splitPieces gpt2Pieces
  rw [Utf8.runes_encode]
  exact hids

/-! ### Added tokens -/

/-- **A text without added tokens goes to the next phase as it is.** -/
theorem splitLoop_absent (u : UnicodeTables)
    (next : Bytes → Except EncodeError (List Int)) (cs : List Char) :
    ∀ (fuel : Nat) (before : Bytes), (Utf8.encode cs).length < fuel →
      (∀ a ∈ added, Absent a.content (Utf8.encode cs)) →
      splitLoop u added next fuel before (Utf8.encode cs) = next (before ++ Utf8.encode cs) := by
  induction cs with
  | nil =>
    intro fuel before hfuel _
    obtain ⟨fuel, rfl⟩ : ∃ k, fuel = k + 1 := ⟨fuel - 1, by omega⟩
    rw [Utf8.encode_nil, splitLoop, if_pos rfl, append_nil]
  | cons c rest ih =>
    intro fuel before hfuel habsent
    obtain ⟨fuel, rfl⟩ : ∃ k, fuel = k + 1 := ⟨fuel - 1, by omega⟩
    rw [Utf8.encode_cons] at hfuel habsent ⊢
    have hne : String.utf8EncodeChar c ≠ [] := String.utf8EncodeChar_ne_nil
    have hpos := length_pos_iff.mpr hne
    have hnone : added.find? (fun a =>
        a.content.isPrefixOf (String.utf8EncodeChar c ++ Utf8.encode rest)) = none := by
      refine find?_eq_none.mpr fun a ha hprefix => ?_
      exact Absent.not_prefix (habsent a ha) (List.isPrefixOf_iff_prefix.mp hprefix)
    have hsize : runeSize (String.utf8EncodeChar c ++ Utf8.encode rest) =
        (String.utf8EncodeChar c).length := by
      unfold runeSize
      rw [Utf8.decodeRune_utf8EncodeChar, length_append, Nat.add_sub_cancel_right]
    rw [splitLoop, if_neg (fun h => hne (append_eq_nil_iff.mp h).1), hnone]
    dsimp only
    rw [length_append] at hfuel
    rw [hsize, take_left, drop_left, ih fuel _ (by omega) fun a ha =>
      Absent.of_infix (habsent a ha) (suffix_append _ _).isInfix, append_assoc]

/-- **Encode is total and lossless where no added token is matched.**  The text must not
contain one that is looked for before NFC, its NFC form none that is looked for
after. -/
theorem encode_spells {spec : Spec} {t : Tokenizer} (h : newTokenizer spec = .ok t)
    (u : UnicodeTables) {nfc : Bytes → Bytes} (hnfc : ∀ s, Utf8.Valid s → Utf8.Valid (nfc s))
    {text : Bytes} (hvalid : Utf8.Valid text)
    (hraw : ∀ a ∈ spec.added, a.normalized = false → Absent a.content text)
    (hnormalized : ∀ a ∈ spec.added, a.normalized = true → Absent a.content (nfc text)) :
    ∃ ids, t.encode u nfc text = .ok ids ∧ t.Spells ids (nfc text) := by
  have hmade := made_of_newTokenizer h
  obtain ⟨ds, hds⟩ := hnfc text hvalid
  obtain ⟨cs, rfl⟩ := hvalid
  obtain ⟨ids, hids, hspells⟩ := hmade.splitPieces_spells u ds
  rw [← hds] at hnormalized ⊢
  refine ⟨ids, ?_, hspells⟩
  have hfirst : t.encode u nfc (Utf8.encode cs) = t.splitRaw u nfc (Utf8.encode cs) := by
    unfold Tokenizer.encode
    rw [if_neg (not_not.mpr (Utf8.sanitize_encode cs))]
  rw [hfirst]
  unfold Tokenizer.splitRaw
  rw [splitLoop_absent u _ cs _ [] (Nat.lt_succ_self _) fun a ha =>
    hraw a (hmade.raw a ha).1 (hmade.raw a ha).2]
  unfold Tokenizer.splitNormalized
  rw [nil_append, ← hds, splitLoop_absent u _ ds _ [] (Nat.lt_succ_self _) fun a ha =>
    hnormalized a (hmade.normalized a ha).1 (hmade.normalized a ha).2]
  exact hids

/-! ### A small vocabulary -/

/-- The symbols of all bytes, and one merge of them. -/
def sampleVocab : Vocab :=
  (literal "ab", 324) :: (range 324).map fun cp => (runeString cp, (cp : Int))

def sampleAdded (normalized : Bool) (content : Bytes) : AddedToken where
  id := 325
  content := content
  singleWord := false
  lstrip := false
  rstrip := false
  normalized := normalized

def sampleSpec (added : AddedToken) : Spec where
  normalizerType := literal "NFC"
  preType := literal "ByteLevel"
  prefixSpace := false
  useRegex := true
  added := [added]
  modelType := literal "BPE"
  vocab := sampleVocab
  merges := [.legacy (literal "a b")]
  dropout := false
  subwordPrefix := []
  wordSuffix := []
  byteFallback := false
  ignoreMerges := false

theorem lookup_of_mem {v : Int} (h : (k, v) ∈ vocab) : List.lookup k vocab ≠ none := by
  intro hnone
  have hne := lookup_eq_none_iff.mp hnone (k, v) h
  simp at hne

theorem readBytes_ok {limit : Nat}
    (hvocab : ∀ cp < limit, List.lookup (runeString cp) vocab ≠ none) (bs : List Nat) :
    ∀ {n : Nat} {bytes : List Bytes}, (∀ b ∈ bs, b < limit) →
      n + bs.countP (fun b => !visible b) ≤ limit →
      ∃ bytes', readBytes vocab bs n bytes = .ok bytes' := by
  induction bs with
  | nil =>
    intro n bytes _ _
    exact ⟨bytes, rfl⟩
  | cons b rest ih =>
    intro n bytes hbs hn
    have hb := hbs b mem_cons_self
    rw [countP_cons] at hn
    unfold readBytes
    dsimp only
    rw [if_neg]
    · refine ih (fun x hx => hbs x (mem_cons_of_mem _ hx)) ?_
      cases hvisible : visible b <;> simp [hvisible] at hn ⊢ <;> omega
    rintro ⟨hnone, -⟩
    refine hvocab _ ?_ hnone
    cases hvisible : visible b <;> simp [hvisible] at hn ⊢ <;> omega

theorem sample_accepted (added : AddedToken) (hcontent : added.content ≠ [])
    (hword : added.singleWord = false) (hid : 0 ≤ added.id)
    (hnew : List.lookup added.content sampleVocab = none) :
    ∃ t, newTokenizer (sampleSpec added) = .ok t ∧
      t.vocab = (added.content, added.id) :: sampleVocab ∧
      t.addedRaw = if added.normalized = true then [] else [added] := by
  have hvocab : ∀ cp < 324,
      List.lookup (runeString cp) ((added.content, added.id) :: sampleVocab) ≠ none := by
    intro cp hcp
    refine lookup_of_mem (v := (cp : Int)) (mem_cons_of_mem _ (mem_cons_of_mem _ ?_))
    exact mem_map.mpr ⟨cp, mem_range.mpr hcp, rfl⟩
  obtain ⟨bytes, hbytes⟩ : ∃ bytes, readBytes ((added.content, added.id) :: sampleVocab)
      (range 256) 256 [] = .ok bytes :=
    readBytes_ok hvocab (range 256)
      (fun b hb => Nat.lt_trans (mem_range.mp hb) (by decide)) (by decide +kernel)
  have hmerges : readMerges sampleVocab 0 [.legacy (literal "a b")] [] =
      .ok [((literal "a", literal "b"), 0)] := by
    decide +kernel
  have hsupported : (sampleSpec added).supported = true := by
    simp [Spec.supported, sampleSpec]
  have hadded : readAdded [added] sampleVocab [] [] = .ok ((added.content, added.id) :: sampleVocab,
        if added.normalized = true then [] else [added],
        if added.normalized = true then [added] else []) := by
    have hgood : ¬ (added.content = [] ∨ added.singleWord = true ∨ added.id < 0) := by
      rintro (h | h | h)
      · exact hcontent h
      · rw [hword] at h
        cases h
      · omega
    rw [readAdded, if_neg hgood, hnew, if_neg (by simp)]
    cases added.normalized <;> rfl
  have hsorted : ∀ c : Bool, longestFirst (if c = true then [] else [added]) =
      if c = true then [] else [added] := by
    intro c
    cases c
    · exact mergeSort_singleton _
    · exact mergeSort_nil
  refine ⟨{ vocab := (added.content, added.id) :: sampleVocab
            ranks := [((literal "a", literal "b"), 0)]
            addedRaw := longestFirst (if added.normalized = true then [] else [added])
            addedNormalized := longestFirst (if added.normalized = true then [added] else [])
            bytes := bytes }, ?_, rfl, hsorted added.normalized⟩
  unfold newTokenizer
  have hvocabNe : ¬ ((sampleSpec added).vocab = [] ∨ (sampleSpec added).merges = []) := by
    rintro (h | h) <;> cases h
  have hmergesSpec : readMerges (sampleSpec added).vocab 0 (sampleSpec added).merges [] =
      .ok [((literal "a", literal "b"), 0)] := hmerges
  have haddedSpec : readAdded (sampleSpec added).added (sampleSpec added).vocab [] [] = _ := hadded
  rw [hsupported, if_neg Bool.noConfusion, if_neg hvocabNe, hmergesSpec]
  simp only [bind, Except.bind, haddedSpec, hbytes]
  rfl

/-- A text without an added token. -/
theorem encode_spells_sample : ∃ t ids, newTokenizer (sampleSpec
      (sampleAdded true (literal "<s>"))) = .ok t ∧
    t.encode asciiTables id (literal "ab 1") = .ok ids ∧ t.Spells ids (literal "ab 1") := by
  obtain ⟨t, ht, -, -⟩ := sample_accepted (sampleAdded true (literal "<s>"))
    (by decide) rfl (by decide) (by decide +kernel)
  have hvalid : Utf8.Valid (literal "ab 1") := ⟨['a', 'b', ' ', '1'], by decide +kernel⟩
  have hraw : ∀ a ∈ (sampleSpec (sampleAdded true (literal "<s>"))).added,
      a.normalized = false → Absent a.content (literal "ab 1") := by
    intro a ha hraw
    rw [mem_singleton.mp ha] at hraw
    cases hraw
  have hnormalized : ∀ a ∈ (sampleSpec (sampleAdded true (literal "<s>"))).added,
      a.normalized = true → Absent a.content (id (literal "ab 1")) := by
    intro a ha _
    rw [mem_singleton.mp ha]
    unfold Absent
    decide +kernel
  obtain ⟨ids, hids, hspells⟩ :=
    encode_spells ht asciiTables (fun _ h => h) hvalid hraw hnormalized
  exact ⟨t, ids, ht, hids, hspells⟩

/-- `e` with a combining acute accent, in two characters. -/
def decomposed : Bytes := [0x65, 0xCC, 0x81]

/-- The same in one. -/
def composed : Bytes := [0xC3, 0xA9]

/-- NFC on a text that is the two characters. -/
def compose (text : Bytes) : Bytes := if text = decomposed then composed else text

theorem sampleVocab_lt {id : Int} (h : List.lookup k sampleVocab = some id) : id < 325 := by
  obtain ⟨x, y, hsplit, -⟩ := lookup_eq_some_iff.mp h
  have hmem : (k, id) ∈ sampleVocab := by
    rw [hsplit]
    exact mem_append_right _ mem_cons_self
  rcases mem_cons.mp hmem with heq | hrange
  · rw [(Prod.mk.inj heq).2]
    decide
  obtain ⟨cp, hcp, heq⟩ := mem_map.mp hrange
  rw [← (Prod.mk.inj heq).2]
  exact Int.ofNat_lt.mpr (Nat.lt_trans (mem_range.mp hcp) (by decide))

/-- **An added token that is matched before NFC stands for itself, not for its NFC
form.** -/
theorem raw_token_not_composed : ∃ t, newTokenizer (sampleSpec (sampleAdded false decomposed)) =
      .ok t ∧ (∀ s, Utf8.Valid s → Utf8.Valid (compose s)) ∧ Utf8.Valid decomposed ∧
    (∀ a ∈ (sampleSpec (sampleAdded false decomposed)).added,
      Absent a.content (compose decomposed)) ∧
    ¬ ∃ ids, t.encode asciiTables compose decomposed = .ok ids ∧
      t.Spells ids (compose decomposed) := by
  obtain ⟨t, ht, hvocab, hadded⟩ := sample_accepted (sampleAdded false decomposed)
    (by decide) rfl (by decide) (by decide +kernel)
  refine ⟨t, ht, ?_, ⟨[Char.ofNat 0x65, Char.ofNat 0x301], by decide +kernel⟩, ?_, ?_⟩
  · intro s hs
    unfold compose
    split
    · exact ⟨[Char.ofNat 0xE9], by decide +kernel⟩
    · exact hs
  · intro a ha
    rw [mem_singleton.mp ha]
    unfold Absent
    decide +kernel
  rintro ⟨ids, hids, strings, hlookup, hflat⟩
  have hone : t.encode asciiTables compose decomposed = .ok [325] := by
    unfold Tokenizer.encode Tokenizer.splitRaw
    rw [if_neg (by decide +kernel), hadded]
    rfl
  obtain rfl : ids = [325] := Except.ok.inj (hids.symm.trans hone)
  -- the only string with that id is the content itself
  obtain ⟨s, rest, rfl, hs, hrest⟩ := map_eq_cons_iff.mp hlookup.symm
  obtain rfl : rest = [] := map_eq_nil_iff.mp hrest
  unfold Tokenizer.tokenID at hs
  rw [hvocab, lookup_cons] at hs
  split at hs
  · rename_i heq
    have hmade := made_of_newTokenizer ht
    have himage : t.byteImage composed = [0xC3, 0x83, 0xC2, 0xA9] := by
      show t.byteSymbol 0xC3 ++ (t.byteSymbol 0xA9 ++ []) = _
      rw [hmade.visible 0xC3 (by decide), hmade.visible 0xA9 (by decide)]
      decide +kernel
    have hcomposed : compose decomposed = composed := if_pos rfl
    rw [hcomposed, himage, beq_iff_eq.mp heq] at hflat
    exact absurd hflat (by decide +kernel)
  · exact absurd (sampleVocab_lt hs) (by decide)

end DenseCore.Server.Decision
