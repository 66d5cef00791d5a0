/-
The Unigram segmentation is the best there is.

The positions of the line are the code points of the normalised text, and an item from
one to another is the id of the token that spells what lies between.  The tokens tried at
a position are all that can lead on, since what the cut-off leaves out is longer than any
token.  The table is filled from the end, and every cell is right because the cells
behind it are.
-/
import DenseCore.Models.Unigram
import DenseCore.Proofs.Models.Pretokenizer

namespace DenseCore.Models

open List

open DenseCore.Lib DenseCore.Lib.Line

/-! ### The vocabulary -/

namespace UnigramModel

variable {m : UnigramModel} {token : Bytes}

theorem vocabTokens_of_tokenToId {id : Nat} (h : m.tokenToId token = some id) :
    m.vocabTokens[id]? = some token := by
  revert id
  refine List.foldlRecOn m.vocabTokens.zipIdx _
    (motive := fun found => ∀ {id}, found = some id → m.vocabTokens[id]? = some token)
    (by intro id h; cases h) ?_
  intro found hfound p hp id hid
  split at hid
  · rename_i hspells
    obtain rfl : p.2 = id := by simpa using hid
    rw [← hspells]
    exact mem_zipIdx_iff_getElem?.mp hp
  · exact hfound hid

theorem length_le_maxTokenBytes (h : token ∈ m.vocabTokens) : token.length ≤ m.maxTokenBytes := by
  unfold maxTokenBytes
  rw [← foldl_map, foldl_max]
  exact (le_max?_getD_of_mem (mem_map_of_mem h)).trans (Nat.le_max_right _ _)

end UnigramModel

/-! ### The line -/

variable {m : UnigramModel} {span : Bytes}

/-- The text between two code points. -/
def codepointText (text : Bytes) (i j : Nat) : Bytes :=
  let cps := decodeUtf8Codepoints text
  (text.drop (offset text cps i)).take (offset text cps j - offset text cps i)

/-- The cuts of a text into tokens at code points, with `<unk>` to spare. -/
def UnigramModel.line (m : UnigramModel) (text : Bytes) : Line Nat where
  size := (decodeUtf8Codepoints text).length
  item i j := m.tokenToId (codepointText text i j)
  spare := m.findSentencePieceUnkId

variable {i j : Nat} {text : Bytes} {L : Line Nat}

theorem length_codepointText (text : Bytes) : (codepointText text i j).length =
      offset text (decodeUtf8Codepoints text) j - offset text (decodeUtf8Codepoints text) i := by
  have hend := offset_mono text (Nat.le_max_left j (decodeUtf8Codepoints text).length)
  rw [offset_of_ge (Nat.le_max_right _ _)] at hend
  rw [codepointText, length_take, length_drop]
  exact Nat.min_eq_left (Nat.sub_le_sub_right hend _)

theorem tokenToId_of_cut {k : Nat} (hjk : j ≤ k)
    (hcut : m.maxTokenBytes < offset text (decodeUtf8Codepoints text) j -
      offset text (decodeUtf8Codepoints text) i) :
    m.tokenToId (codepointText text i k) = none := by
  cases hid : m.tokenToId (codepointText text i k) with
  | none => rfl
  | some id =>
    have hmem := mem_of_getElem? (UnigramModel.vocabTokens_of_tokenToId hid)
    have hlength := UnigramModel.length_le_maxTokenBytes hmem
    rw [length_codepointText] at hlength
    have := offset_mono text hjk
    omega

/-! ### One cell -/

section Cells

variable {text : Bytes} {i j : Nat} {cell next : Cell Nat ℚ} {ahead : List (Cell Nat ℚ)}

/-- A token is tried or cannot lead on; behind the cut-off none can. -/
theorem considerTokens_step (hij : i < j) (hj : j ≤ (m.line text).size)
    (hnext : (m.line text).Best m.getSentencePieceScore j next.best)
    (hcell : (m.line text).Scanned m.getSentencePieceScore i j cell) :
    (∃ cell', (m.line text).Scanned m.getSentencePieceScore i (j + 1) cell' ∧
      considerTokens m text (decodeUtf8Codepoints text) i j (next :: ahead) cell =
        considerTokens m text (decodeUtf8Codepoints text) i (j + 1) ahead cell') ∨
    (m.line text).Scanned m.getSentencePieceScore i ((m.line text).size + 1)
      (considerTokens m text (decodeUtf8Codepoints text) i j (next :: ahead) cell) := by
  have hitem : ∀ k, (m.line text).item i k = m.tokenToId (codepointText text i k) := fun _ => rfl
  rw [considerTokens]
  split
  · rename_i hcut
    refine Or.inr (hcell.skip fun k id hjk _ hlead => ?_)
    have hid := hlead.2.2
    rw [hitem, tokenToId_of_cut hjk hcut] at hid
    exact nomatch hid
  refine Or.inl ?_
  split
  · rename_i id best hid hbest
    rw [hbest] at hnext
    exact ⟨_, hcell.offer ⟨hij, hj, hid⟩ hnext, rfl⟩
  rename_i hnone
  refine ⟨cell, hcell.skip fun k id hjk hk hlead hcompletes => ?_, rfl⟩
  obtain rfl : j = k := by omega
  cases hbest : next.best with
  | none => exact hnext.none hbest hcompletes
  | some best => exact hnone id best hlead.2.2 hbest

/-- **Every token that leads on is tried.** -/
theorem considerTokens_scanned (hij : i < j)
    (hahead : (m.line text).Table m.getSentencePieceScore j ahead)
    (hcell : (m.line text).Scanned m.getSentencePieceScore i j cell) :
    (m.line text).Scanned m.getSentencePieceScore i ((m.line text).size + 1)
      (considerTokens m text (decodeUtf8Codepoints text) i j ahead cell) := by
  induction hahead generalizing cell with
  | @done next =>
    have hend : (m.line text).Best m.getSentencePieceScore (m.line text).size
      (⟨some 0, none, next⟩ : Cell Nat ℚ).best := best_size
    rcases considerTokens_step hij (Nat.le_refl _) hend hcell with ⟨cell', h, heq⟩ | h
    · rw [heq]
      exact h
    · exact h
  | cell hj hfilled _ ih =>
    rcases considerTokens_step hij (Nat.le_of_lt hj) hfilled.best hcell with ⟨cell', h, heq⟩ | h
    · rw [heq]
      exact ih (Nat.lt_succ_of_lt hij) h
    · exact h

/-- A cell is filled with the best way on from it. -/
theorem fillCell_filled (hi : i < (m.line text).size)
    (hahead : (m.line text).Table m.getSentencePieceScore (i + 1) ahead) :
    (m.line text).Filled m.getSentencePieceScore i
      (fillCell m text (decodeUtf8Codepoints text) i ahead) := by
  obtain ⟨following, rest, rfl, hfollowing⟩ := hahead.head
  have hstart : (m.line text).Scanned m.getSentencePieceScore i (i + 1)
    ⟨none, none, (decodeUtf8Codepoints text).length⟩ := scanned_start
  have hscan := considerTokens_scanned (Nat.lt_succ_self i) hahead hstart
  rw [fillCell, head?_cons, Option.bind_some]
  generalize considerTokens m text _ i (i + 1) _ _ = cell at hscan ⊢
  cases hbest : cell.best with
  | some b =>
    obtain ⟨id, -, hid, -⟩ := hscan.attained b hbest
    have hkeep : considerUnk m i following.best cell = cell := by simp [considerUnk, hid]
    rw [hkeep]
    exact hscan.filled hbest
  | none =>
    have hid := hscan.blank hbest
    have hstuck := hscan.stuck hbest
    cases hunk : m.findSentencePieceUnkId with
    | none =>
      have hkeep : considerUnk m i following.best cell = cell := by
        simp [considerUnk, hid, hunk]
      rw [hkeep]
      exact hstuck.filled_none hi (Or.inl hunk) hbest hid
    | some unkId =>
      cases hb : following.best with
      | none =>
        have hkeep : considerUnk m i none cell = cell := by simp [considerUnk, hid]
        rw [hkeep]
        exact hstuck.filled_none hi (Or.inr (hfollowing.none hb)) hbest hid
      | some best =>
        have hspare : considerUnk m i (some best) cell =
            ⟨some (m.getSentencePieceScore unkId + best), some unkId, i + 1⟩ := by
          simp [considerUnk, hid, hunk]
        rw [hb] at hfollowing
        rw [hspare]
        exact hstuck.filled_spare hi hunk hfollowing

end Cells

/-! ### The table and the walk -/

theorem fillTable_table (text : Bytes) {rounds : Nat} (hrounds : rounds ≤ (m.line text).size) :
    (m.line text).Table m.getSentencePieceScore ((m.line text).size - rounds)
      (fillTable m text (decodeUtf8Codepoints text) rounds) := by
  induction rounds with
  | zero => exact Table.done
  | succ rounds ih =>
    have hahead := ih (Nat.le_of_succ_le hrounds)
    have hi : (m.line text).size - (rounds + 1) < (m.line text).size := by omega
    rw [show (m.line text).size - rounds = (m.line text).size - (rounds + 1) + 1 by omega]
      at hahead
    exact Table.cell hi (fillCell_filled hi hahead) hahead

theorem followTable_size {score : Nat → ℚ} {table : List (Cell Nat ℚ)}
    (htable : L.Table score 0 table) (fuel : Nat) : followTable table fuel L.size = [] := by
  cases fuel with
  | zero => rfl
  | succ fuel =>
    obtain ⟨next, hend⟩ := htable.get_size
    rw [Nat.sub_zero] at hend
    simp only [followTable, hend]

/-- **The walk spells a cut with the best total.** -/
theorem followTable_spells {score : Nat → ℚ} {table : List (Cell Nat ℚ)}
    (htable : L.Table score 0 table) {fuel : Nat} :
    ∀ {i b}, L.size ≤ i + fuel → i ≤ L.size → L.Best score i (some b) →
      L.Spells i (followTable table fuel i) ∧ total score (followTable table fuel i) = b := by
  induction fuel with
  | zero =>
    intro i b hfuel hi hbest
    obtain rfl : i = L.size := by omega
    exact ⟨Spells.done, (hbest.greatest b rfl).unique (best_size.greatest 0 rfl) |>.symm⟩
  | succ fuel ih =>
    intro i b hfuel hi hbest
    rcases Nat.lt_or_eq_of_le hi with hlt | rfl
    · obtain ⟨cell, hcell, hfilled⟩ := htable.get (Nat.zero_le i) hlt
      rw [Nat.sub_zero] at hcell
      obtain ⟨id, b', hid, hcarry, hnext, rfl⟩ :=
        hfilled.attained b (hfilled.best.eq_some hbest)
      obtain ⟨hspells, htotal⟩ := ih (by have := hcarry.bounds; omega) hcarry.bounds.2 hnext
      have hwalk : followTable table (fuel + 1) i = id :: followTable table fuel cell.next := by
        simp only [followTable, hcell, hid, if_neg (Nat.not_le.mpr hcarry.bounds.1)]
      rw [hwalk, total_cons, htotal]
      exact ⟨Spells.carry hcarry hspells, rfl⟩
    rw [followTable_size htable]
    exact ⟨Spells.done, (hbest.greatest b rfl).unique (best_size.greatest 0 rfl) |>.symm⟩

/-! ### The segmentation -/

theorem codepoints_ne_nil (h : text ≠ []) : decodeUtf8Codepoints text ≠ [] := by
  obtain ⟨c, rest, rfl⟩ := exists_cons_of_ne_nil h
  simp [decodeUtf8Codepoints, decodeLoop]

theorem normalize_ne_nil (h : text ≠ []) : normalizeSentencePieceText text ≠ [] := by
  obtain ⟨c, rest, rfl⟩ := exists_cons_of_ne_nil h
  by_cases hc : c = 32 <;> simp [normalizeSentencePieceText, wordMark, hc]

theorem maxTokenBytes_pos (h : ∃ token ∈ m.vocabTokens, token ≠ []) : m.maxTokenBytes ≠ 0 := by
  obtain ⟨token, hmem, htoken⟩ := h
  have := UnigramModel.length_le_maxTokenBytes hmem
  have := length_pos_of_ne_nil htoken
  omega

/-- **The Unigram segmentation is optimal**: a segmentation of the largest total is appended
if there is one at all, and otherwise nothing is, or Gemma 4 is told so. -/
theorem appendSentencePieceUnigram_optimal (m : UnigramModel) (span : Bytes) (out : List Nat)
    (hspan : span ≠ []) (hvocab : ∃ token ∈ m.vocabTokens, token ≠ []) :
    let L := m.line (normalizeSentencePieceText span)
    ((∃ ids, L.Spells 0 ids) → ∃ ids, ids ≠ [] ∧ L.Spells 0 ids ∧ (∀ ids', L.Spells 0 ids' →
          total m.getSentencePieceScore ids' ≤ total m.getSentencePieceScore ids) ∧
        appendSentencePieceUnigram m span out = .ok (out ++ ids)) ∧
      ((¬ ∃ ids, L.Spells 0 ids) → appendSentencePieceUnigram m span out =
        if m.isGemma4 then
          .error "Gemma4 tokenizer could not segment prompt with GGUF sentencepiece metadata"
        else .ok out) := by
  intro L
  have hcps : decodeUtf8Codepoints (normalizeSentencePieceText span) ≠ [] :=
    codepoints_ne_nil (normalize_ne_nil hspan)
  have htable := fillTable_table (m := m) (normalizeSentencePieceText span) (Nat.le_refl _)
  rw [Nat.sub_self] at htable
  obtain ⟨cell, hcell, hfilled⟩ := htable.get (Nat.zero_le 0) (length_pos_of_ne_nil hcps)
  have hrun : appendSentencePieceUnigram m span out = cell.id.elim
      (if m.isGemma4 then
        .error "Gemma4 tokenizer could not segment prompt with GGUF sentencepiece metadata"
      else .ok out)
      fun _ => .ok (out ++ followTable (fillTable m (normalizeSentencePieceText span)
        (decodeUtf8Codepoints (normalizeSentencePieceText span)) L.size) L.size 0) := by
    rw [appendSentencePieceUnigram, if_neg (by simpa using hspan)]
    dsimp only
    rw [if_neg (by simpa using hcps), if_neg (maxTokenBytes_pos hvocab), head?_eq_getElem?]
    have hfirst : (fillTable m (normalizeSentencePieceText span)
        (decodeUtf8Codepoints (normalizeSentencePieceText span))
        (decodeUtf8Codepoints (normalizeSentencePieceText span)).length)[0]? = some cell := hcell
    rw [hfirst, Option.bind_some]
    cases cell.id <;> rfl
  cases hbest : cell.best with
  | none =>
    have hno : ¬ ∃ ids, L.Spells 0 ids := fun h => hfilled.best.none hbest (completes_iff.mpr h)
    refine ⟨fun h => absurd h hno, fun _ => ?_⟩
    rw [hrun, hfilled.blank hbest, Option.elim_none]
  | some b =>
    have hb := hfilled.best
    rw [hbest] at hb
    obtain ⟨hspells, htotal⟩ := followTable_spells htable (Nat.zero_add L.size).ge
      (Nat.zero_le _) hb
    refine ⟨fun _ => ⟨_, hspells.ne_nil (length_pos_of_ne_nil hcps), hspells, ?_, ?_⟩,
      fun hno => absurd ⟨_, hspells⟩ hno⟩
    · intro ids' hids'
      rw [htotal]
      exact (hb.greatest b rfl).2 ⟨ids', hids', rfl⟩
    obtain ⟨id, -, hid, -⟩ := hfilled.attained b hbest
    rw [hrun, hid, Option.elim_some]

/-- A token that joins two letters scores more than the letters, and is taken. -/
theorem joined_token_segments :
    let m : UnigramModel :=
      { vocabTokens := [literal "<unk>", wordMark ++ literal "a", literal "b", wordMark,
          literal "ab"], tokenScores := [-10, -2, -1, -1, -3/2] }
    ∃ ids, ids ≠ [] ∧ (m.line (normalizeSentencePieceText (literal "ab"))).Spells 0 ids ∧
      (∀ ids', (m.line (normalizeSentencePieceText (literal "ab"))).Spells 0 ids' →
        total m.getSentencePieceScore ids' ≤ total m.getSentencePieceScore ids) ∧
      appendSentencePieceUnigram m (literal "ab") [7] = .ok ([7] ++ ids) := by
  intro m
  refine (appendSentencePieceUnigram_optimal m (literal "ab") [7] (by decide)
    ⟨literal "b", by decide, by decide⟩).1 ⟨[3, 4], ?_⟩
  refine Spells.carry (j := 1) (Carries.item ⟨by decide, by decide, by decide +kernel⟩) ?_
  exact Spells.carry (j := 3) (Carries.item ⟨by decide, by decide, by decide +kernel⟩) Spells.done

/-- With no token but the empty one, `<unk>` could spell the text and nothing is appended; of
two tokens with one spelling only the later is seen. -/
theorem empty_token_appends_nothing :
    let m : UnigramModel := { vocabTokens := [[]], tokenTypes := [2] }
    let twice : UnigramModel :=
      { vocabTokens := [wordMark, literal "a", literal "a"], tokenScores := [0, 5, 1] }
    ((m.line (normalizeSentencePieceText (literal "a"))).Spells 0 [0, 0] ∧
        appendSentencePieceUnigram m (literal "a") [] = .ok []) ∧
      twice.vocabTokens[1]? = twice.vocabTokens[2]? ∧
        twice.getSentencePieceScore 2 < twice.getSentencePieceScore 1 ∧
        appendSentencePieceUnigram twice (literal "a") [] = .ok [0, 2] := by
  intro m twice
  have hstuck : ∀ i, (m.line (normalizeSentencePieceText (literal "a"))).Stuck i := by
    intro i j id hlead
    have htoken := UnigramModel.vocabTokens_of_tokenToId hlead.2.2
    have hempty := mem_singleton.mp (mem_of_getElem? htoken)
    have hlength := congrArg List.length hempty
    rw [length_codepointText, length_nil] at hlength
    have := offset_lt hlead.1 hlead.2.1
    omega
  refine ⟨⟨?_, rfl⟩, rfl, by decide +kernel, by decide +kernel⟩
  refine Spells.carry (Carries.spare (by decide) rfl (hstuck 0)) ?_
  exact Spells.carry (Carries.spare (by decide) rfl (hstuck 1)) Spells.done

end DenseCore.Models
