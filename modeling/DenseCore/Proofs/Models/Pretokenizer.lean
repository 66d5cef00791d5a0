/-
The pieces of the pre-tokenizer are the text.

Decoding never loses a byte, because a code point starts where the one before it
ends, whatever the bytes are.  Every round of the loop moves on, and it slices from
where it was to where it is, so the slices join up.
-/
import DenseCore.Models.Pretokenizer

namespace DenseCore.Models

open List

open DenseCore.Lib

/-! ### Decoding covers the text -/

theorem decodeCodepoint_length_pos (rest : Bytes) : 0 < (decodeCodepoint rest).2 := by
  unfold decodeCodepoint
  repeat' split
  all_goals exact Nat.succ_pos _

theorem decodeLoop_starts (text : Bytes) (fuel i : Nat) :
    (∀ c ∈ decodeLoop text fuel i, i ≤ c.start ∧ c.start < text.length) ∧
      (decodeLoop text fuel i).Pairwise (fun c d => c.start < d.start) := by
  induction fuel generalizing i with
  | zero => simp [decodeLoop]
  | succ fuel ih =>
    unfold decodeLoop
    split
    · rename_i hlt
      have hpos := decodeCodepoint_length_pos (text.drop i)
      obtain ⟨hbound, hsorted⟩ := ih (i + (decodeCodepoint (text.drop i)).2)
      refine ⟨?_, pairwise_cons.mpr ⟨?_, hsorted⟩⟩
      · intro c hc
        rcases mem_cons.mp hc with rfl | hc
        · exact ⟨Nat.le_refl _, hlt⟩
        have := hbound c hc
        omega
      intro d hd
      have := hbound d hd
      show i < d.start
      omega
    · simp

variable {text : Bytes} {cps : List Utf8Codepoint} {pos : Nat}

theorem offset_of_ge (h : cps.length ≤ pos) : offset text cps pos = text.length := by
  rw [offset, getElem?_eq_none h]
  rfl

theorem offset_of_lt (h : pos < cps.length) : offset text cps pos = cps[pos].start := by
  rw [offset, getElem?_eq_getElem h]
  rfl

theorem offset_mono (text : Bytes) {a b : Nat} (hab : a ≤ b) :
    offset text (decodeUtf8Codepoints text) a ≤ offset text (decodeUtf8Codepoints text) b := by
  obtain ⟨hbound, hsorted⟩ := decodeLoop_starts text text.length 0
  change ∀ c ∈ decodeUtf8Codepoints text, _ at hbound
  change (decodeUtf8Codepoints text).Pairwise _ at hsorted
  rcases Nat.lt_or_ge b (decodeUtf8Codepoints text).length with hb | hb
  · rw [offset_of_lt hb, offset_of_lt (Nat.lt_of_le_of_lt hab hb)]
    rcases Nat.lt_or_ge a b with hlt | hge
    · exact Nat.le_of_lt (pairwise_iff_getElem.mp hsorted a b _ _ hlt)
    obtain rfl : a = b := Nat.le_antisymm hab hge
    exact Nat.le_refl _
  rw [offset_of_ge hb]
  rcases Nat.lt_or_ge a (decodeUtf8Codepoints text).length with ha | ha
  · rw [offset_of_lt ha]
    exact Nat.le_of_lt (hbound _ (getElem_mem ha)).2
  · rw [offset_of_ge ha]

theorem offset_lt {a b : Nat} (hab : a < b) (hb : b ≤ (decodeUtf8Codepoints text).length) :
    offset text (decodeUtf8Codepoints text) a < offset text (decodeUtf8Codepoints text) b := by
  obtain ⟨hbound, hsorted⟩ := decodeLoop_starts text text.length 0
  change ∀ c ∈ decodeUtf8Codepoints text, _ at hbound
  change (decodeUtf8Codepoints text).Pairwise _ at hsorted
  have ha : a < (decodeUtf8Codepoints text).length := Nat.lt_of_lt_of_le hab hb
  rw [offset_of_lt ha]
  rcases Nat.lt_or_eq_of_le hb with hlt | rfl
  · rw [offset_of_lt hlt]
    exact pairwise_iff_getElem.mp hsorted a b ha hlt hab
  rw [offset_of_ge (Nat.le_refl _)]
  exact (hbound _ (getElem_mem ha)).2

theorem offset_zero (text : Bytes) : offset text (decodeUtf8Codepoints text) 0 = 0 := by
  cases text with
  | nil => rfl
  | cons c rest =>
    show offset _ (decodeLoop (c :: rest) (rest.length + 1) 0) 0 = 0
    rw [decodeLoop, if_pos (by simp)]
    rfl

theorem sliceCodepointSpan_eq {first last : Nat}
    (h : first < last) : sliceCodepointSpan text cps first last =
      (text.drop (offset text cps first)).take (offset text cps last - offset text cps first) := by
  unfold sliceCodepointSpan
  rcases Nat.lt_or_ge first cps.length with hfirst | hfirst
  · rw [if_neg (by omega), offset_of_lt hfirst, getElem?_eq_getElem hfirst]
    rfl
  rw [if_pos (Or.inr hfirst), offset_of_ge hfirst]
  simp

/-! ### Every round moves on -/

theorem le_skipWhile (cps : List Utf8Codepoint) (p : Nat → Bool) (pos : Nat) :
    pos ≤ skipWhile cps p pos := Nat.le_add_right _ _

theorem lt_skipWhile {p : Nat → Bool} (h : classAt cps p pos) : pos < skipWhile cps p pos := by
  obtain ⟨c, hc, hp⟩ := (Option.any_eq_true _ _).mp h
  obtain ⟨hlt, rfl⟩ := List.getElem?_eq_some_iff.mp hc
  unfold skipWhile
  rw [drop_eq_getElem_cons hlt, takeWhile_cons, if_pos hp]
  exact Nat.lt_add_of_pos_right (Nat.succ_pos _)

theorem lt_lastNewlineEnd {ws : Nat}
    (h : 0 < lastNewlineEnd cps pos ws) : pos < lastNewlineEnd cps pos ws := by
  unfold lastNewlineEnd at h ⊢
  induction ws with
  | zero => cases h
  | succ ws ih =>
    rw [range_succ, foldl_append, foldl_cons, foldl_nil] at h ⊢
    split
    · omega
    rename_i hno
    rw [if_neg hno] at h
    exact ih h

theorem contraction_pos {n : Nat} (h : contraction cps pos = some n) : 0 < n := by
  unfold contraction at h
  dsimp only at h
  repeat' split at h
  all_goals simp only [Option.some.injEq, reduceCtorEq] at h
  all_goals omega

/-- A round of the loop behind the test for contractions. -/
def scanEnd (cps : List Utf8Codepoint) (qwen35Mode : Bool) (pos : Nat) : Nat :=
  let cp := getCp cps pos
  let letterish := fun cp => isUnicodeLetterOrMark cp qwen35Mode
  let punctish := isPunctish qwen35Mode
  if !isNewline cp && !isUnicodeNumber cp &&
      (classAt cps letterish pos || classAt cps letterish (pos + 1)) then
    skipWhile cps letterish (pos + 1)
  else if classAt cps isUnicodeNumber pos then
    if qwen35Mode then pos + 1
    else min (pos + 3) (skipWhile cps isUnicodeNumber pos)
  else
    let pos2 := if cp = 0x20 && classAt cps punctish (pos + 1) then pos + 1 else pos
    if classAt cps punctish pos2 then
      skipWhile cps isNewline (skipWhile cps punctish pos2)
    else
      let ws := skipWhile cps isUnicodeWhitespace pos - pos
      let newlineEnd := lastNewlineEnd cps pos ws
      if 0 < newlineEnd then newlineEnd
      else if 1 < ws && getCp cps (pos + ws) != 0xFFFFFFFF then pos + (ws - 1)
      else if 0 < ws then pos + ws
      else pos + 1

theorem pieceEnd_eq (cps : List Utf8Codepoint) (qwen35Mode : Bool) (pos : Nat) :
    pieceEnd cps qwen35Mode pos =
      ((contraction cps pos).map (pos + ·)).getD (scanEnd cps qwen35Mode pos) := by
  unfold pieceEnd
  cases contraction cps pos <;> rfl

theorem lt_scanEnd (cps : List Utf8Codepoint) (qwen35Mode : Bool) (pos : Nat) :
    pos < scanEnd cps qwen35Mode pos := by
  unfold scanEnd
  dsimp only
  split
  · exact Nat.lt_of_lt_of_le (Nat.lt_succ_self pos) (le_skipWhile _ _ _)
  split
  · rename_i hnumber
    split
    · exact Nat.lt_succ_self pos
    · exact lt_min (by omega) (lt_skipWhile hnumber)
  -- the run of punctuation starts at `pos` or behind a space at `pos`
  have hpos2 : ∀ c : Bool, pos ≤ if c then pos + 1 else pos := by
    intro c
    split <;> omega
  generalize hgen : (if (decide (getCp cps pos = 0x20) &&
    classAt cps (isPunctish qwen35Mode) (pos + 1)) = true then pos + 1 else pos) = pos2
  have hle : pos ≤ pos2 := hgen ▸ hpos2 _
  split
  · rename_i hpunct
    exact Nat.lt_of_le_of_lt hle
      (Nat.lt_of_lt_of_le (lt_skipWhile hpunct) (le_skipWhile cps isNewline _))
  split
  · rename_i hnewline
    exact lt_lastNewlineEnd hnewline
  split
  · rename_i hws
    have hlt : 1 < skipWhile cps isUnicodeWhitespace pos - pos := by
      simpa using (Bool.and_eq_true_iff.mp hws).1
    omega
  split
  · omega
  · exact Nat.lt_succ_self pos

/-- **A round of the loop moves on.** -/
theorem lt_pieceEnd (cps : List Utf8Codepoint) (qwen35Mode : Bool) (pos : Nat) :
    pos < pieceEnd cps qwen35Mode pos := by
  rw [pieceEnd_eq]
  cases hn : contraction cps pos with
  | none => exact lt_scanEnd cps qwen35Mode pos
  | some n => exact Nat.lt_add_of_pos_right (contraction_pos hn)

/-! ### The pieces join up -/

theorem pretokenizeLoop_flatten (text : Bytes) (qwen35Mode : Bool) (fuel pos : Nat)
    (hfuel : (decodeUtf8Codepoints text).length ≤ pos + fuel) :
    (pretokenizeLoop text (decodeUtf8Codepoints text) qwen35Mode fuel pos).flatten =
      text.drop (offset text (decodeUtf8Codepoints text) pos) := by
  induction fuel generalizing pos with
  | zero =>
    rw [offset_of_ge (by omega), drop_length]
    rfl
  | succ fuel ih =>
    unfold pretokenizeLoop
    split
    · have hlt := lt_pieceEnd (decodeUtf8Codepoints text) qwen35Mode pos
      have hmono := offset_mono text (Nat.le_of_lt hlt)
      dsimp only
      rw [flatten_cons, ih _ (by omega), sliceCodepointSpan_eq hlt]
      conv_rhs => rw [← take_append_drop (offset text (decodeUtf8Codepoints text)
            (pieceEnd (decodeUtf8Codepoints text) qwen35Mode pos) -
          offset text (decodeUtf8Codepoints text) pos)
        (text.drop (offset text (decodeUtf8Codepoints text) pos))]
      rw [drop_drop, Nat.add_sub_cancel' hmono]
    rename_i hge
    rw [offset_of_ge (by omega), drop_length]
    rfl

/-- **No byte is lost or doubled**: the pieces together are the text, valid UTF-8 or
not. -/
theorem pretokenizeQwenUnicode_flatten (text : Bytes) (qwen35Mode : Bool) :
    (pretokenizeQwenUnicode text qwen35Mode).flatten = text := by
  have hloop := pretokenizeLoop_flatten text qwen35Mode (decodeUtf8Codepoints text).length 0
    (by omega)
  rw [offset_zero, drop_zero] at hloop
  unfold pretokenizeQwenUnicode
  dsimp only
  split
  · simp
  · exact hloop

end DenseCore.Models
