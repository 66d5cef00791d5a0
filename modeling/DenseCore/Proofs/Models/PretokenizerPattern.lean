/-
The pre-tokenizer against its regular expression.

The expression is written with the code's own character classes, and a match is what a
backtracking engine prefers: the first alternative that matches, a run as long as it can
be, given back letter by letter where the rest needs it.  Each alternative is computed at
a position and turns out to be one branch of the scanner, with one exception.  The
scanner lowers the letters of a contraction as bytes, so a letter far from ASCII counts
as the one its low byte spells, and a word behind an apostrophe is cut after one or two
letters.  The pieces are the matches exactly when no match begins at such a contraction
and ends elsewhere.
-/
import Mathlib.Algebra.Order.Ring.Int
import DenseCore.Lib.Pattern
import DenseCore.Proofs.Models.Pretokenizer

namespace DenseCore.Models

open Option hiding all_eq_true any_eq_false any_eq_true min

open List

open DenseCore.Lib DenseCore.Lib.Pattern

/-! ### The expression -/

/-- A class of code points, read off a decoded one. -/
def ofCp (p : Nat → Bool) (c : Utf8Codepoint) : Bool := p c.cp

/-- A small letter of ASCII or the large one. -/
def caseless (letter : Char) (cp : Nat) : Bool := cp = letter.toNat || cp + 32 = letter.toNat

/-- The pattern of a fixed word. -/
def word (letters : List Char) : Pattern Utf8Codepoint :=
  letters.foldr (fun letter p => seq (one (ofCp (caseless letter))) p) empty

/-- A contraction: `'(?i:s|t|re|ve|m|ll|d)`. -/
def contractionPattern : Pattern Utf8Codepoint :=
  seq (one (ofCp (· = 0x27)))
    (oneOf ([['s'], ['t'], ['r', 'e'], ['v', 'e'], ['m'], ['l', 'l'], ['d']].map word))

/-- What may stand before the letters of a word. -/
def leadsWord (qwen35Mode : Bool) (cp : Nat) : Bool :=
  !isNewline cp && !isUnicodeLetterOrMark cp qwen35Mode && !isUnicodeNumber cp

/-- A word: `[^\r\n\p{L}\p{N}]?\p{L}+`. -/
def wordPattern (qwen35Mode : Bool) : Pattern Utf8Codepoint :=
  seq (opt (one (ofCp (leadsWord qwen35Mode))))
    (plus (ofCp fun cp => isUnicodeLetterOrMark cp qwen35Mode))

/-- Digits: `\p{N}{1,3}`, or one `\p{N}` at a time. -/
def numberPattern (qwen35Mode : Bool) : Pattern Utf8Codepoint :=
  if qwen35Mode then one (ofCp isUnicodeNumber)
  else seq (one (ofCp isUnicodeNumber)) (atMost 2 (ofCp isUnicodeNumber))

/-- Punctuation: ` ?[^\s\p{L}\p{N}]+[\r\n]*`. -/
def punctPattern (qwen35Mode : Bool) : Pattern Utf8Codepoint :=
  seq (opt (one (ofCp (· = 0x20))))
    (seq (plus (ofCp (isPunctish qwen35Mode))) (many (ofCp isNewline)))

/-- White space up to a newline: `\s*[\r\n]+`. -/
def newlinePattern : Pattern Utf8Codepoint :=
  seq (many (ofCp isUnicodeWhitespace)) (plus (ofCp isNewline))

/-- White space that no word follows: `\s+(?!\S)`. -/
def spacesPattern : Pattern Utf8Codepoint :=
  seq (plus (ofCp isUnicodeWhitespace)) (notBefore fun c => !ofCp isUnicodeWhitespace c)

/-- The expression, with marks among the letters in the `qwen35_mode`. -/
def qwenPattern (qwen35Mode : Bool) : Pattern Utf8Codepoint :=
  oneOf [contractionPattern, wordPattern qwen35Mode, numberPattern qwen35Mode,
    punctPattern qwen35Mode, newlinePattern, spacesPattern, plus (ofCp isUnicodeWhitespace)]

/-- The bytes of the code points of a match. -/
def spanText (text : Bytes) (cps : List Utf8Codepoint) (m : Nat × Nat) : Bytes :=
  (text.drop (offset text cps m.1)).take (offset text cps m.2 - offset text cps m.1)

/-- The texts of the successive matches. -/
def patternPieces (text : Bytes) (qwen35Mode : Bool) : List Bytes :=
  let cps := decodeUtf8Codepoints text
  ((qwenPattern qwen35Mode).spans cps).map (spanText text cps)

/-! ### The classes -/

variable {cp pos : Nat} {qwen35Mode : Bool} {cps : List Utf8Codepoint} {text : Bytes}

theorem inRanges_disjoint {r r' : List (Nat × Nat)}
    (h : ∀ a ∈ r, ∀ b ∈ r', a.2 < b.1 ∨ b.2 < a.1) (hr : inRanges r cp) :
    inRanges r' cp = false := by
  obtain ⟨a, ha, hcpa⟩ := any_eq_true.mp hr
  refine any_eq_false.mpr fun b hb hcpb => ?_
  simp only [Bool.and_eq_true, decide_eq_true_eq] at hcpa hcpb
  have := h a ha b hb
  omega

theorem isUnicodeNumber_of_letterOrMark
    (h : isUnicodeLetterOrMark cp qwen35Mode) : isUnicodeNumber cp = false := by
  rcases Bool.or_eq_true_iff.mp h with hletter | hmark
  · unfold isUnicodeLetter at hletter
    split at hletter
    · rename_i hascii
      exact inRanges_disjoint (by decide) hascii
    split at hletter
    · cases hletter
    simp only [Bool.not_eq_true', Bool.or_eq_false_iff] at hletter
    exact hletter.1.1.2
  · exact inRanges_disjoint (by decide) (Bool.and_eq_true_iff.mp hmark).2

theorem isUnicodeWhitespace_of_newline (h : isNewline cp) : isUnicodeWhitespace cp := by
  rcases Bool.or_eq_true_iff.mp h with h | h <;> (rw [of_decide_eq_true h]; rfl)

theorem isNewline_of_letterOrMark
    (h : isUnicodeLetterOrMark cp qwen35Mode) : isNewline cp = false := by
  refine Bool.eq_false_iff.mpr fun hnewline => ?_
  rcases Bool.or_eq_true_iff.mp hnewline with hcp | hcp <;>
    · rw [of_decide_eq_true hcp] at h
      revert h
      cases qwen35Mode <;> decide

/-! ### The alternatives at a position -/

section Positions

variable (cps : List Utf8Codepoint) (p : Nat → Bool) (pos : Nat)

theorem dropWhile_drop : (cps.drop pos).dropWhile (ofCp p) = cps.drop (skipWhile cps p pos) := by
  rw [skipWhile, ← drop_drop]
  exact (drop_length_takeWhile (ofCp p) (cps.drop pos)).symm

theorem length_takeWhile_drop :
    ((cps.drop pos).takeWhile (ofCp p)).length = skipWhile cps p pos - pos :=
  (Nat.add_sub_cancel_left pos _).symm

theorem any_head?_drop : (cps.drop pos).head?.any (ofCp p) = classAt cps p pos := by
  rw [head?_drop]
  rfl

theorem first_plus_at : (plus (ofCp p)).first (cps.drop pos) =
    if classAt cps p pos then some (cps.drop (skipWhile cps p pos)) else none := by
  rw [first_plus, any_head?_drop, dropWhile_drop]

theorem first_one_at : (one (ofCp p)).first (cps.drop pos) =
    if classAt cps p pos then some (cps.drop (pos + 1)) else none := by
  rcases Nat.lt_or_ge pos cps.length with h | h
  · rw [drop_eq_getElem_cons h, first_one_cons, classAt, getElem?_eq_getElem h]
    rfl
  rw [drop_eq_nil_of_le h, first_one_nil, classAt, getElem?_eq_none h]
  rfl

theorem first_seq_one_at (q : Pattern Utf8Codepoint) : (seq (one (ofCp p)) q).first (cps.drop pos) =
      if classAt cps p pos then q.first (cps.drop (pos + 1)) else none := by
  rcases Nat.lt_or_ge pos cps.length with h | h
  · rw [drop_eq_getElem_cons h, first_seq_one_cons, classAt, getElem?_eq_getElem h]
    rfl
  rw [drop_eq_nil_of_le h, first_seq_one_nil, classAt, getElem?_eq_none h]
  rfl

/-- There is a code point at `pos`, and the class holds of it. -/
theorem classAt_of_lt (h : pos < cps.length) : classAt cps p pos = p (getCp cps pos) := by
  rw [classAt, getCp, getElem?_eq_getElem h]
  rfl

variable {cps : List Utf8Codepoint} {p : Nat → Bool} {pos : Nat}

theorem skipWhile_succ
    (h : classAt cps p pos) : skipWhile cps p pos = skipWhile cps p (pos + 1) := by
  obtain ⟨c, hc, hp⟩ := (Option.any_eq_true _ _).mp h
  obtain ⟨hlt, rfl⟩ := List.getElem?_eq_some_iff.mp hc
  rw [skipWhile, skipWhile, drop_eq_getElem_cons hlt, takeWhile_cons, if_pos hp, length_cons]
  omega

theorem skipWhile_of_not (h : classAt cps p pos = false) : skipWhile cps p pos = pos := by
  unfold skipWhile
  rcases Nat.lt_or_ge pos cps.length with hlt | hge
  · rw [classAt, getElem?_eq_getElem hlt, any_some] at h
    rw [drop_eq_getElem_cons hlt, takeWhile_cons, h]
    rfl
  rw [drop_eq_nil_of_le hge]
  rfl

theorem classAt_of_skips (h : pos < skipWhile cps p pos) : classAt cps p pos := by
  by_contra hno
  rw [skipWhile_of_not (Bool.eq_false_iff.mpr hno)] at h
  exact Nat.lt_irrefl _ h

theorem skipWhile_le (cps : List Utf8Codepoint) (p : Nat → Bool)
    (h : pos ≤ cps.length) : skipWhile cps p pos ≤ cps.length := by
  have hrun := (takeWhile_sublist (l := cps.drop pos) fun c => p c.cp).length_le
  rw [length_drop] at hrun
  unfold skipWhile
  omega

theorem classAt_of_lt_skipWhile {k : Nat}
    (h : pos + k < skipWhile cps p pos) : classAt cps p (pos + k) := by
  induction k generalizing pos with
  | zero => exact classAt_of_skips h
  | succ k ih =>
    rw [skipWhile_succ (classAt_of_skips (by omega))] at h
    have hlater := @ih (pos + 1) (by omega)
    rwa [Nat.add_right_comm] at hlater

theorem classAt_skipWhile (cps : List Utf8Codepoint) (p : Nat → Bool) (pos : Nat) :
    classAt cps p (skipWhile cps p pos) = false := by
  rw [← any_head?_drop, ← dropWhile_drop]
  have hhead := head?_dropWhile_not (ofCp p) (cps.drop pos)
  cases h : ((cps.drop pos).dropWhile (ofCp p)).head? with
  | none => rfl
  | some c =>
    rw [h] at hhead
    exact hhead

theorem lt_length_of_classAt (h : classAt cps p pos) : pos < cps.length := by
  obtain ⟨c, hc, -⟩ := (Option.any_eq_true _ _).mp h
  exact (List.getElem?_eq_some_iff.mp hc).1

theorem classAt_imp {q : Nat → Bool}
    (hpq : ∀ cp, p cp → q cp) (h : classAt cps p pos) : classAt cps q pos := by
  obtain ⟨c, hc, hp⟩ := (Option.any_eq_true _ _).mp h
  exact (Option.any_eq_true _ _).mpr ⟨c, hc, hpq _ hp⟩

end Positions

/-! ### One alternative, one branch -/

/-- **The word** is the branch of letters: a code point that may lead, or the first letter
itself, and the letters behind it. -/
theorem first_wordPattern (qwen35Mode : Bool)
    (hpos : pos < cps.length) : (wordPattern qwen35Mode).first (cps.drop pos) =
      if !isNewline (getCp cps pos) && !isUnicodeNumber (getCp cps pos) &&
          (classAt cps (isUnicodeLetterOrMark · qwen35Mode) pos ||
            classAt cps (isUnicodeLetterOrMark · qwen35Mode) (pos + 1)) then
        some (cps.drop (skipWhile cps (isUnicodeLetterOrMark · qwen35Mode) (pos + 1)))
      else none := by
  rw [wordPattern, first_seq_opt, first_seq_one_at, first_plus_at, first_plus_at]
  have hat := classAt_of_lt cps (isUnicodeLetterOrMark · qwen35Mode) pos hpos
  have hlead := classAt_of_lt cps (leadsWord qwen35Mode) pos hpos
  by_cases hletter : isUnicodeLetterOrMark (getCp cps pos) qwen35Mode
  · have hfront : classAt cps (isUnicodeLetterOrMark · qwen35Mode) pos = true := hat.trans hletter
    rw [hlead, leadsWord, hletter, isNewline_of_letterOrMark hletter,
      isUnicodeNumber_of_letterOrMark hletter, hfront, skipWhile_succ hfront]
    rfl
  have hfront := hat.trans (Bool.eq_false_iff.mpr hletter)
  rw [hlead, leadsWord, Bool.eq_false_iff.mpr hletter, hfront]
  cases isNewline (getCp cps pos) <;> cases isUnicodeNumber (getCp cps pos) <;> simp

theorem first_numberPattern (cps : List Utf8Codepoint) (qwen35Mode : Bool) (pos : Nat) :
    (numberPattern qwen35Mode).first (cps.drop pos) =
      if classAt cps isUnicodeNumber pos then
        some (cps.drop (if qwen35Mode then pos + 1
          else min (pos + 3) (skipWhile cps isUnicodeNumber pos)))
      else none := by
  cases qwen35Mode
  · rw [numberPattern, if_neg Bool.false_ne_true, first_seq_one_at, first_atMost,
      length_takeWhile_drop, drop_drop, if_neg Bool.false_ne_true]
    split
    · rename_i h
      have hle := le_skipWhile cps isUnicodeNumber (pos + 1)
      rw [skipWhile_succ h]
      congr 2
      omega
    · rfl
  · rw [numberPattern, if_pos rfl, first_one_at, if_pos rfl]


/-- **Punctuation** is the branch of `is_punctish`: a space is taken along only before it. -/
theorem first_punctPattern (qwen35Mode : Bool)
    (hpos : pos < cps.length) : (punctPattern qwen35Mode).first (cps.drop pos) =
      let pos2 := if getCp cps pos = 0x20 && classAt cps (isPunctish qwen35Mode) (pos + 1)
        then pos + 1 else pos
      if classAt cps (isPunctish qwen35Mode) pos2 then
        some (cps.drop (skipWhile cps isNewline (skipWhile cps (isPunctish qwen35Mode) pos2)))
      else none := by
  have hspace := classAt_of_lt cps (· = 0x20) pos hpos
  rw [punctPattern, first_seq_opt, first_seq_one_at, first_seq_run, first_seq_run, first_plus_at,
    first_plus_at, hspace]
  by_cases hcp : getCp cps pos = 0x20
  · have hat : classAt cps (isPunctish qwen35Mode) pos = false := by
      rw [classAt_of_lt cps _ pos hpos, hcp]
      rfl
    cases hnext : classAt cps (isPunctish qwen35Mode) (pos + 1) <;>
      simp [hcp, hat, hnext, dropWhile_drop]
  · cases hat : classAt cps (isPunctish qwen35Mode) pos <;> simp [hcp, hat, dropWhile_drop]

/-! ### White space -/

theorem lastNewlineEnd_succ (cps : List Utf8Codepoint) (pos ws : Nat) :
    lastNewlineEnd cps pos (ws + 1) =
      if isNewline (getCp cps (pos + ws)) then pos + ws + 1 else lastNewlineEnd cps pos ws := by
  rw [lastNewlineEnd, range_succ, foldl_append]
  rfl

theorem lastNewlineEnd_cases (cps : List Utf8Codepoint) (pos ws : Nat) :
    (lastNewlineEnd cps pos ws = 0 ∧ ∀ k < ws, isNewline (getCp cps (pos + k)) = false) ∨
      ∃ k < ws, lastNewlineEnd cps pos ws = pos + k + 1 ∧ isNewline (getCp cps (pos + k)) = true ∧
        ∀ j, k < j → j < ws → isNewline (getCp cps (pos + j)) = false := by
  induction ws with
  | zero => exact Or.inl ⟨rfl, fun k hk => absurd hk (Nat.not_lt_zero k)⟩
  | succ ws ih =>
    rw [lastNewlineEnd_succ]
    by_cases hnewline : isNewline (getCp cps (pos + ws))
    · rw [if_pos hnewline]
      exact Or.inr ⟨ws, Nat.lt_succ_self ws, rfl, hnewline, fun j hj hlt => by omega⟩
    rw [if_neg hnewline]
    have hlast : ∀ j, j = ws → isNewline (getCp cps (pos + j)) = false := by
      rintro j rfl
      exact Bool.eq_false_iff.mpr hnewline
    rcases ih with ⟨hzero, hnone⟩ | ⟨k, hk, hend, hat, hlater⟩
    · refine Or.inl ⟨hzero, fun k hk => ?_⟩
      rcases Nat.lt_succ_iff_lt_or_eq.mp hk with hk | hk
      · exact hnone k hk
      · exact hlast k hk
    refine Or.inr ⟨k, Nat.lt_succ_of_lt hk, hend, hat, fun j hj hlt => ?_⟩
    rcases Nat.lt_succ_iff_lt_or_eq.mp hlt with hlt | hlt
    · exact hlater j hj hlt
    · exact hlast j hlt

/-- **A newline among the white space** ends the match behind the last one. -/
theorem first_newlinePattern (cps : List Utf8Codepoint) (pos : Nat) :
    newlinePattern.first (cps.drop pos) =
      let last := lastNewlineEnd cps pos (skipWhile cps isUnicodeWhitespace pos - pos)
      if 0 < last then some (cps.drop last) else none := by
  generalize hws : skipWhile cps isUnicodeWhitespace pos - pos = ws
  have hrun : ((cps.drop pos).takeWhile (ofCp isUnicodeWhitespace)).length = ws :=
    (length_takeWhile_drop cps isUnicodeWhitespace pos).trans hws
  have hle := le_skipWhile cps isUnicodeWhitespace pos
  have hinside : ∀ k < ws, classAt cps isNewline (pos + k) = isNewline (getCp cps (pos + k)) := by
    intro k hk
    have hspace : classAt cps isUnicodeWhitespace (pos + k) :=
      classAt_of_lt_skipWhile (by omega)
    exact classAt_of_lt cps isNewline _ (lt_length_of_classAt hspace)
  -- a newline is white space, so none stands where the white space ends
  have hend : classAt cps isNewline (pos + ws) = false := by
    refine Bool.eq_false_iff.mpr fun hnewline => ?_
    have hspace := classAt_imp (fun _ => isUnicodeWhitespace_of_newline) hnewline
    rw [show pos + ws = skipWhile cps isUnicodeWhitespace pos by omega, classAt_skipWhile] at hspace
    cases hspace
  have hno : ∀ k, k ≤ ws → (k < ws → isNewline (getCp cps (pos + k)) = false) →
      classAt cps isNewline (pos + k) = false := by
    intro k hk hnot
    rcases Nat.lt_or_eq_of_le hk with hlt | rfl
    · rw [hinside k hlt, hnot hlt]
    · exact hend
  have hnone : ∀ k, classAt cps isNewline (pos + k) = false →
      (plus (ofCp isNewline)).first ((cps.drop pos).drop k) = none := by
    intro k hk
    rw [drop_drop, first_plus_at, hk]
    rfl
  rcases lastNewlineEnd_cases cps pos ws with ⟨hzero, hall⟩ | ⟨k, hk, hlast, hat, hlater⟩
  · rw [hzero]
    exact first_seq_many_eq_none fun k hk => hnone k (hno k (hrun ▸ hk) (hall k))
  rw [hlast, if_pos (Nat.succ_pos _)]
  have hnext : classAt cps isNewline (pos + k + 1) = false :=
    hno (k + 1) hk (hlater (k + 1) (Nat.lt_succ_self k))
  have hnewline : classAt cps isNewline (pos + k) = true := (hinside k hk).trans hat
  refine first_seq_many_eq_some (k := k) (by omega) ?_ fun j hkj hj => ?_
  · rw [drop_drop, first_plus_at, if_pos hnewline, skipWhile_succ hnewline, skipWhile_of_not hnext]
  · exact hnone j (hno j (hrun ▸ hj) (hlater j hkj))

theorem getCp_ne_end (hcps : ∀ c ∈ cps, c.cp ≠ 0xFFFFFFFF) :
    (getCp cps pos != 0xFFFFFFFF) = decide (pos < cps.length) := by
  rw [getCp]
  rcases Nat.lt_or_ge pos cps.length with hlt | hge
  · rw [getElem?_eq_getElem hlt, decide_eq_true hlt]
    exact bne_iff_ne.mpr (hcps _ (getElem_mem hlt))
  rw [getElem?_eq_none hge, decide_eq_false (Nat.not_lt.mpr hge)]
  rfl

/-- **White space without a newline**: all of it at the end of the text or when it is one
code point, all but the last before anything else. -/
theorem first_spaces
    (hcps : ∀ c ∈ cps, c.cp ≠ 0xFFFFFFFF) (hspace : classAt cps isUnicodeWhitespace pos) :
    (spacesPattern.first (cps.drop pos)).or
        ((plus (ofCp isUnicodeWhitespace)).first (cps.drop pos)) =
      let ws := skipWhile cps isUnicodeWhitespace pos - pos
      some (cps.drop (if 1 < ws && getCp cps (pos + ws) != 0xFFFFFFFF then pos + (ws - 1)
        else pos + ws)) := by
  have hlt := lt_skipWhile hspace
  have hsucc := skipWhile_succ hspace
  generalize hlast : skipWhile cps isUnicodeWhitespace pos = last at hlt hsucc
  have hrun : ((cps.drop (pos + 1)).takeWhile (ofCp isUnicodeWhitespace)).length =
      last - (pos + 1) := by
    rw [length_takeWhile_drop, ← hsucc]
  have hle : last ≤ cps.length := hlast ▸ skipWhile_le cps isUnicodeWhitespace
    (Nat.le_of_lt (lt_length_of_classAt hspace))
  have hjoin : pos + (last - pos) = last := by omega
  rw [first_plus_at, if_pos hspace, hlast, spacesPattern, plus, first_seq_assoc, first_seq_one_at,
    if_pos hspace, first_run_notBefore, hrun, length_drop, drop_drop]
  dsimp only
  rw [getCp_ne_end hcps, hjoin]
  by_cases hend : last = cps.length
  · have hno : ¬last < cps.length := by omega
    rw [if_pos (by omega), decide_eq_false hno, Bool.and_false, if_neg Bool.false_ne_true,
      drop_of_length_le (Nat.le_of_eq hend.symm)]
    rfl
  have hmore : last < cps.length := by omega
  rw [if_neg (by omega), decide_eq_true hmore, Bool.and_true]
  by_cases hone : last = pos + 1
  · have hsingle : ¬1 < last - pos := by omega
    rw [if_pos (by omega), decide_eq_false hsingle]
    rfl
  have hmany : 1 < last - pos := by omega
  have hback : pos + 1 + (last - (pos + 1) - 1) = pos + (last - pos - 1) := by omega
  rw [if_neg (by omega), decide_eq_true hmany, hback]
  rfl

/-! ### Contractions -/

/-- The contraction at `pos` with all its letters in the first 256 code points, where a byte
holds them whole. -/
def wholeContraction (cps : List Utf8Codepoint) (pos : Nat) : Option Nat :=
  (contraction cps pos).filter fun n => (range n).all fun k => getCp cps (pos + k) < 256

theorem caseless_eq {letter : Char} (hlow : 97 ≤ letter.toNat) (hhigh : letter.toNat ≤ 122) :
    caseless letter cp = (decide (cp < 256) && decide (lowerByte cp = letter.toNat)) := by
  unfold caseless lowerByte
  dsimp only
  rw [Bool.eq_iff_iff]
  simp only [Bool.or_eq_true, Bool.and_eq_true, decide_eq_true_eq]
  split <;> omega

theorem classAt_caseless (cps : List Utf8Codepoint) (pos : Nat) {letter : Char}
    (hlow : 97 ≤ letter.toNat) (hhigh : letter.toNat ≤ 122) :
    classAt cps (caseless letter) pos =
      (decide (getCp cps pos < 256) && decide (lowerByte (getCp cps pos) = letter.toNat)) := by
  rcases Nat.lt_or_ge pos cps.length with h | h
  · rw [classAt_of_lt cps _ pos h, caseless_eq hlow hhigh]
  rw [classAt, getCp, getElem?_eq_none h]
  rfl

theorem lt_length_of_getCp {i : Nat} (h : getCp cps i < 256) : i < cps.length := by
  by_contra hge
  rw [getCp, getElem?_eq_none (Nat.not_lt.mp hge)] at h
  exact absurd h (by decide)

theorem wholeContraction_eq (cps : List Utf8Codepoint) (pos : Nat) : wholeContraction cps pos =
      let c1 := lowerByte (getCp cps (pos + 1))
      let c2 := lowerByte (getCp cps (pos + 2))
      if getCp cps pos = 0x27 ∧ getCp cps (pos + 1) < 256 then
        if c1 = 0x73 ∨ c1 = 0x74 ∨ c1 = 0x6D ∨ c1 = 0x64 then some 2
        else if getCp cps (pos + 2) < 256 ∧
            (c1 = 0x72 ∧ c2 = 0x65 ∨ c1 = 0x76 ∧ c2 = 0x65 ∨ c1 = 0x6C ∧ c2 = 0x6C) then some 3
        else none
      else none := by
  have htwo : ((range 2).all fun k => decide (getCp cps (pos + k) < 256)) =
      (decide (getCp cps pos < 256) && decide (getCp cps (pos + 1) < 256)) := by
    simp [range_succ]
  have hthree : ((range 3).all fun k => decide (getCp cps (pos + k) < 256)) =
      (decide (getCp cps pos < 256) && (decide (getCp cps (pos + 1) < 256) &&
        decide (getCp cps (pos + 2) < 256))) := by
    simp [range_succ]
  unfold wholeContraction contraction
  dsimp only
  by_cases hfront : getCp cps pos = 0x27 ∧ getCp cps (pos + 1) < 256
  · have h0 := hfront.1
    have hc1 := hfront.2
    have hlt : getCp cps pos = 0x27 ∧ pos + 1 < cps.length := ⟨h0, lt_length_of_getCp hc1⟩
    rw [if_pos hlt, if_pos hfront]
    split
    · rw [filter_some, htwo, h0, decide_eq_true hc1]
      rfl
    by_cases hc2 : getCp cps (pos + 2) < 256
    · rw [if_pos (lt_length_of_getCp hc2)]
      split
      · rename_i hlong
        rw [filter_some, hthree, h0, decide_eq_true hc1, decide_eq_true hc2,
          if_pos (And.intro hc2 hlong)]
        rfl
      rename_i hlong
      rw [if_neg fun h => hlong (And.right h)]
      rfl
    have hno : ∀ P, ¬(getCp cps (pos + 2) < 256 ∧ P) := fun P h => hc2 h.1
    rw [if_neg (hno _)]
    split
    · split
      · rw [filter_some, hthree, decide_eq_false hc2, Bool.and_false, Bool.and_false]
        rfl
      · rfl
    · rfl
  · rw [if_neg hfront]
    split
    · rename_i hlt
      have hc1 : ¬getCp cps (pos + 1) < 256 := fun h => hfront ⟨hlt.1, h⟩
      rw [decide_eq_false hc1, Bool.and_false] at htwo
      rw [decide_eq_false hc1, Bool.false_and, Bool.and_false] at hthree
      split
      · rw [filter_some, htwo]
        rfl
      split
      · split
        · rw [filter_some, hthree]
          rfl
        · rfl
      · rfl
    · rfl

/-- **A contraction** of the expression is one of the code whose letters are bytes. -/
theorem first_contractionPattern (cps : List Utf8Codepoint) (pos : Nat) :
    contractionPattern.first (cps.drop pos) =
      (wholeContraction cps pos).map fun n => cps.drop (pos + n) := by
  have hletter : ∀ letter ∈ ['s', 't', 'r', 'e', 'v', 'm', 'l', 'd'], ∀ i,
      classAt cps (caseless letter) i =
        (decide (getCp cps i < 256) && decide (lowerByte (getCp cps i) = letter.toNat)) := by
    intro letter h i
    have hall : (['s', 't', 'r', 'e', 'v', 'm', 'l', 'd'].all fun letter =>
        decide (97 ≤ letter.toNat ∧ letter.toNat ≤ 122)) = true := by decide
    have hrange : 97 ≤ letter.toNat ∧ letter.toNat ≤ 122 :=
      of_decide_eq_true (all_eq_true.mp hall letter h)
    exact classAt_caseless cps i hrange.1 hrange.2
  have happ : classAt cps (fun cp => decide (cp = 0x27)) pos = decide (getCp cps pos = 0x27) := by
    rcases Nat.lt_or_ge pos cps.length with h | h
    · rw [classAt_of_lt cps _ pos h]
    rw [classAt, getCp, getElem?_eq_none h]
    rfl
  rw [contractionPattern, first_seq_one_at, happ, wholeContraction_eq]
  simp only [map_cons, map_nil, first_oneOf_cons, first_oneOf_nil, word,
    foldr_cons, foldr_nil, first_seq_one_at, first_empty]
  rw [hletter 's' (by decide), hletter 't' (by decide), hletter 'r' (by decide),
    hletter 'v' (by decide), hletter 'e' (by decide), hletter 'm' (by decide),
    hletter 'l' (by decide), hletter 'l' (by decide), hletter 'd' (by decide)]
  dsimp only [Char.reduceToNat]
  generalize lowerByte (getCp cps (pos + 2)) = c2
  generalize lowerByte (getCp cps (pos + 1)) = c1
  by_cases hfront : getCp cps pos = 0x27 ∧ getCp cps (pos + 1) < 256
  · obtain ⟨h0, hc1⟩ := hfront
    have hvalues : c1 = 115 ∨ c1 = 116 ∨ c1 = 114 ∨ c1 = 118 ∨ c1 = 109 ∨ c1 = 108 ∨ c1 = 100 ∨
        (c1 ≠ 115 ∧ c1 ≠ 116 ∧ c1 ≠ 114 ∧ c1 ≠ 118 ∧ c1 ≠ 109 ∧ c1 ≠ 108 ∧ c1 ≠ 100) := by omega
    rcases hvalues with rfl | rfl | rfl | rfl | rfl | rfl | rfl | ⟨hs, ht, hr, hv, hm, hl, hd⟩
    · simp [h0, hc1]
    · simp [h0, hc1]
    · by_cases he : getCp cps (pos + 2) < 256 ∧ c2 = 101 <;> simp [h0, hc1, he]
    · by_cases he : getCp cps (pos + 2) < 256 ∧ c2 = 101 <;> simp [h0, hc1, he]
    · simp [h0, hc1]
    · by_cases he : getCp cps (pos + 2) < 256 ∧ c2 = 108 <;> simp [h0, hc1, he]
    · simp [h0, hc1]
    · simp [h0, hc1, hs, ht, hr, hv, hm, hl, hd]
  rw [if_neg hfront, map_none]
  by_cases h0 : getCp cps pos = 0x27
  · have hc1 : ¬getCp cps (pos + 1) < 256 := fun h => hfront ⟨h0, h⟩
    simp [hc1]
  · simp [h0]

/-! ### The expression at a position -/

/-- Where the match at `pos` ends. -/
def matchEnd (cps : List Utf8Codepoint) (qwen35Mode : Bool) (pos : Nat) : Nat :=
  ((wholeContraction cps pos).map (pos + ·)).getD (scanEnd cps qwen35Mode pos)

theorem isUnicodeWhitespace_of_rest (hpos : pos < cps.length)
    (hword : ¬(!isNewline (getCp cps pos) && !isUnicodeNumber (getCp cps pos) &&
      (classAt cps (isUnicodeLetterOrMark · qwen35Mode) pos ||
        classAt cps (isUnicodeLetterOrMark · qwen35Mode) (pos + 1))) = true)
    (hnumber : ¬classAt cps isUnicodeNumber pos = true)
    (hpunct : ¬classAt cps (isPunctish qwen35Mode)
      (if getCp cps pos = 0x20 && classAt cps (isPunctish qwen35Mode) (pos + 1)
        then pos + 1 else pos) = true) :
    classAt cps isUnicodeWhitespace pos := by
  rw [classAt_of_lt cps _ _ hpos] at hword hnumber ⊢
  generalize hcp : getCp cps pos = cp at hword hnumber hpunct ⊢
  by_contra hspace
  have hletter : isUnicodeLetterOrMark cp qwen35Mode = false := by
    refine Bool.eq_false_iff.mpr fun hletter => hword ?_
    rw [isNewline_of_letterOrMark hletter, isUnicodeNumber_of_letterOrMark hletter, hletter]
    rfl
  have hp : isPunctish qwen35Mode cp = true := by
    rw [isPunctish, Bool.eq_false_iff.mpr hspace, Bool.eq_false_iff.mpr hnumber, hletter]
    rfl
  have hblank : cp ≠ 0x20 := by
    rintro rfl
    exact hspace rfl
  rw [decide_eq_false hblank, Bool.false_and, if_neg Bool.false_ne_true,
    classAt_of_lt cps _ _ hpos, hcp] at hpunct
  exact hpunct hp

/-- **The expression matches wherever there is a code point**, and its match is a round of
the scanner but for the letters of contractions. -/
theorem first_qwenPattern (qwen35Mode : Bool)
    (hcps : ∀ c ∈ cps, c.cp ≠ 0xFFFFFFFF) (hpos : pos < cps.length) :
    (qwenPattern qwen35Mode).first (cps.drop pos) =
      some (cps.drop (matchEnd cps qwen35Mode pos)) := by
  unfold matchEnd
  rw [qwenPattern, first_oneOf_cons, first_contractionPattern]
  cases wholeContraction cps pos with
  | some n => rfl
  | none =>
    rw [first_oneOf_cons, first_oneOf_cons, first_oneOf_cons, first_oneOf_cons,
      first_oneOf_cons, first_wordPattern qwen35Mode hpos, first_numberPattern,
      first_punctPattern qwen35Mode hpos, first_newlinePattern]
    unfold scanEnd
    dsimp only [map_none, getD_none, none_or]
    split
    · rfl
    rename_i hword
    split
    · rfl
    rename_i hnumber
    generalize hgen : (if (decide (getCp cps pos = 0x20) &&
      classAt cps (isPunctish qwen35Mode) (pos + 1)) = true then pos + 1 else pos) = pos2
    split
    · rfl
    rename_i hpunct
    split
    · rfl
    have hspace := isUnicodeWhitespace_of_rest hpos hword hnumber (hgen ▸ hpunct)
    have hrun := lt_skipWhile hspace
    simp only [none_or]
    rw [first_oneOf_cons, first_oneOf_nil, or_none, first_spaces hcps hspace]
    dsimp only
    split
    · rfl
    · rw [if_pos (Nat.sub_pos_of_lt hrun)]

/-! ### Rounds end inside the text -/

theorem scanEnd_le (qwen35Mode : Bool)
    (hpos : pos < cps.length) : scanEnd cps qwen35Mode pos ≤ cps.length := by
  unfold scanEnd
  dsimp only
  split
  · exact skipWhile_le cps _ hpos
  split
  · split
    · exact hpos
    · exact Nat.le_trans (Nat.min_le_right _ _) (skipWhile_le cps _ (Nat.le_of_lt hpos))
  generalize (if (decide (getCp cps pos = 0x20) &&
    classAt cps (isPunctish qwen35Mode) (pos + 1)) = true then pos + 1 else pos) = pos2
  split
  · rename_i hpunct
    have hstart := Nat.le_of_lt (lt_length_of_classAt hpunct)
    exact skipWhile_le cps _ (skipWhile_le cps _ hstart)
  have hws := skipWhile_le cps isUnicodeWhitespace (Nat.le_of_lt hpos)
  rcases lastNewlineEnd_cases cps pos (skipWhile cps isUnicodeWhitespace pos - pos) with
    ⟨hzero, -⟩ | ⟨k, hk, hlast, -⟩
  · rw [hzero, if_neg (Nat.lt_irrefl 0)]
    split
    · omega
    · split <;> omega
  rw [hlast, if_pos (Nat.succ_pos _)]
  omega

theorem contraction_some {n : Nat}
    (h : contraction cps pos = some n) : getCp cps pos = 0x27 ∧ pos + n ≤ cps.length := by
  unfold contraction at h
  dsimp only at h
  split at h
  · rename_i hfront
    refine ⟨hfront.1, ?_⟩
    split at h
    · cases h
      exact hfront.2
    split at h
    · split at h
      · cases h
        assumption
      · cases h
    · cases h
  · cases h

theorem contraction_of_whole {n : Nat} (h : wholeContraction cps pos = some n) :
    contraction cps pos = some n ∧ ∀ k < n, getCp cps (pos + k) < 256 := by
  obtain ⟨hn, hall⟩ := filter_eq_some_iff.mp h
  refine ⟨hn, fun k hk => ?_⟩
  exact of_decide_eq_true (all_eq_true.mp hall k (mem_range.mpr hk))

theorem pieceEnd_le (qwen35Mode : Bool)
    (hpos : pos < cps.length) : pieceEnd cps qwen35Mode pos ≤ cps.length := by
  rw [pieceEnd_eq]
  cases h : contraction cps pos with
  | none => exact scanEnd_le qwen35Mode hpos
  | some n => exact (contraction_some h).2

theorem matchEnd_le (qwen35Mode : Bool)
    (hpos : pos < cps.length) : matchEnd cps qwen35Mode pos ≤ cps.length := by
  unfold matchEnd
  cases h : wholeContraction cps pos with
  | none => exact scanEnd_le qwen35Mode hpos
  | some n => exact (contraction_some (contraction_of_whole h).1).2

theorem lt_matchEnd (cps : List Utf8Codepoint) (qwen35Mode : Bool) (pos : Nat) :
    pos < matchEnd cps qwen35Mode pos := by
  unfold matchEnd
  cases h : wholeContraction cps pos with
  | none => exact lt_scanEnd cps qwen35Mode pos
  | some n => exact Nat.lt_add_of_pos_right (contraction_pos (contraction_of_whole h).1)

/-! ### Where the scanner and the expression part

The scanner knows a contraction by the low bytes of its letters. Where such a cut is not as long as
the match of the expression the two part, and nowhere else.
-/

/-- A contraction of the code that only the low bytes of its letters spell. -/
def CutContraction (cps : List Utf8Codepoint) (pos n : Nat) : Prop :=
  contraction cps pos = some n ∧ ∃ k < n, 256 ≤ getCp cps (pos + k)

/-- Where a match that begins with an apostrophe ends when it is no contraction: behind the
letters that follow, or else behind punctuation and newlines. -/
def quoteEnd (cps : List Utf8Codepoint) (qwen35Mode : Bool) (pos : Nat) : Nat :=
  if classAt cps (isUnicodeLetterOrMark · qwen35Mode) (pos + 1) then
    skipWhile cps (isUnicodeLetterOrMark · qwen35Mode) (pos + 1)
  else skipWhile cps isNewline (skipWhile cps (isPunctish qwen35Mode) pos)

theorem scanEnd_of_quote (qwen35Mode : Bool)
    (h : getCp cps pos = 0x27) : scanEnd cps qwen35Mode pos = quoteEnd cps qwen35Mode pos := by
  have hpos : pos < cps.length := lt_length_of_getCp (by omega)
  have hletter : classAt cps (isUnicodeLetterOrMark · qwen35Mode) pos = false := by
    rw [classAt_of_lt cps _ _ hpos, h]
    cases qwen35Mode <;> rfl
  have hnumber : classAt cps isUnicodeNumber pos = false := by
    rw [classAt_of_lt cps _ _ hpos, h]
    rfl
  have hpunct : classAt cps (isPunctish qwen35Mode) pos = true := by
    rw [classAt_of_lt cps _ _ hpos, h]
    cases qwen35Mode <;> rfl
  have hnewline : isNewline 0x27 = false := rfl
  have hdigit : isUnicodeNumber 0x27 = false := rfl
  have hblank : decide (0x27 = 0x20) = false := rfl
  unfold scanEnd quoteEnd
  dsimp only
  rw [h, hletter, hnumber, hnewline, hdigit, hblank, Bool.false_and, if_neg Bool.false_ne_true,
    if_neg Bool.false_ne_true, hpunct, if_pos rfl]
  rfl

/-- **The scanner and the expression agree at a position** unless a contraction is cut
there and the match is not as long. -/
theorem pieceEnd_eq_matchEnd_iff (cps : List Utf8Codepoint) (qwen35Mode : Bool) (pos : Nat) :
    pieceEnd cps qwen35Mode pos = matchEnd cps qwen35Mode pos ↔
      ∀ n, CutContraction cps pos n → quoteEnd cps qwen35Mode pos = pos + n := by
  rw [pieceEnd_eq]
  unfold matchEnd
  cases hn : contraction cps pos with
  | none =>
    rw [wholeContraction, hn]
    refine iff_of_true rfl ?_
    rintro n ⟨hsome, -⟩
    rw [hn] at hsome
    cases hsome
  | some n =>
    have hquote := scanEnd_of_quote qwen35Mode (contraction_some hn).1
    cases hwhole : wholeContraction cps pos with
    | some k =>
      obtain ⟨hk, hbytes⟩ := contraction_of_whole hwhole
      obtain rfl : n = k := some.inj (hn.symm.trans hk)
      refine iff_of_true rfl ?_
      rintro n' ⟨hsome, k, hlt, hge⟩
      obtain rfl : n' = n := some.inj (hsome.symm.trans hn)
      exact absurd (hbytes k hlt) (Nat.not_lt.mpr hge)
    | none =>
      have hcut : CutContraction cps pos n := by
        refine ⟨hn, ?_⟩
        have hfail := filter_eq_none_iff.mp hwhole n hn
        simpa only [all_eq_true, mem_range, decide_eq_true_eq, not_forall,
          Nat.not_lt, exists_prop] using hfail
      simp only [map_some, map_none, getD_some, getD_none, hquote]
      refine ⟨fun h n' hcut' => ?_, fun h => (h n hcut).symm⟩
      obtain rfl : n' = n := some.inj (hcut'.1.symm.trans hn)
      exact h.symm

/-! ### The pieces and the matches -/

theorem decodeCodepoint_lt (rest : Bytes) : (decodeCodepoint rest).1 < 2 ^ 21 := by
  have hbyte : ∀ c : UInt8, c.toNat < 2 ^ 21 := fun c => Nat.lt_trans c.toNat_lt (by decide)
  have hbits : ∀ (c mask : UInt8) (j k : Nat), mask.toNat < 2 ^ j → j + k ≤ 21 →
      (c &&& mask).toNat <<< k < 2 ^ 21 := by
    intro c mask j k hmask hk
    rw [UInt8.toNat_and, Nat.shiftLeft_eq]
    calc (c.toNat &&& mask.toNat) * 2 ^ k < 2 ^ j * 2 ^ k :=
          Nat.mul_lt_mul_of_pos_right (Nat.and_lt_two_pow _ hmask) (Nat.two_pow_pos k)
      _ = 2 ^ (j + k) := (Nat.pow_add 2 j k).symm
      _ ≤ 2 ^ 21 := Nat.pow_le_pow_right (by decide) hk
  have htail : ∀ (c : UInt8) (k : Nat), k ≤ 15 → continuationBits c <<< k < 2 ^ 21 :=
    fun c k hk => hbits c 0x3F 6 k (by decide) (by omega)
  have hlast : ∀ c : UInt8, continuationBits c < 2 ^ 21 := fun c => htail c 0 (by decide)
  have htwo : ∀ c0 c1 : UInt8,
      (c0 &&& 0x1F).toNat <<< 6 ||| continuationBits c1 < 2 ^ 21 := fun c0 c1 =>
    Nat.or_lt_two_pow (hbits c0 0x1F 5 6 (by decide) (by decide)) (hlast c1)
  have hthree : ∀ c0 c1 c2 : UInt8, (c0 &&& 0x0F).toNat <<< 12 ||| continuationBits c1 <<< 6 |||
      continuationBits c2 < 2 ^ 21 := fun c0 c1 c2 =>
    Nat.or_lt_two_pow (Nat.or_lt_two_pow (hbits c0 0x0F 4 12 (by decide) (by decide))
      (htail c1 6 (by decide))) (hlast c2)
  have hfour : ∀ c0 c1 c2 c3 : UInt8, (c0 &&& 0x07).toNat <<< 18 |||
      continuationBits c1 <<< 12 ||| continuationBits c2 <<< 6 ||| continuationBits c3 < 2 ^ 21 :=
    fun c0 c1 c2 c3 => Nat.or_lt_two_pow (Nat.or_lt_two_pow
      (Nat.or_lt_two_pow (hbits c0 0x07 3 18 (by decide) (by decide)) (htail c1 12 (by decide)))
      (htail c2 6 (by decide))) (hlast c3)
  unfold decodeCodepoint
  split
  · exact Nat.two_pow_pos 21
  split
  · exact hbyte _
  split
  · split
    · exact htwo _ _
    split
    · exact hthree _ _ _
    split
    · exact hfour _ _ _ _
    · exact hbyte _
  · split
    · exact htwo _ _
    split
    · exact hthree _ _ _
    · exact hbyte _
  · split
    · exact htwo _ _
    · exact hbyte _
  · exact hbyte _

theorem cp_ne_end {c : Utf8Codepoint} (hc : c ∈ decodeUtf8Codepoints text) : c.cp ≠ 0xFFFFFFFF := by
  have hloop : ∀ fuel i, ∀ c ∈ decodeLoop text fuel i, c.cp < 2 ^ 21 := by
    intro fuel
    induction fuel with
    | zero => simp [decodeLoop]
    | succ fuel ih =>
      intro i c hc
      rw [decodeLoop] at hc
      split at hc
      · rcases mem_cons.mp hc with rfl | hc
        · exact decodeCodepoint_lt _
        · exact ih _ c hc
      · cases hc
  have := hloop _ _ c hc
  omega

theorem spanText_inj {a b : Nat} (ha : pos < a) (hb : pos < b)
    (hale : a ≤ (decodeUtf8Codepoints text).length) (hble : b ≤ (decodeUtf8Codepoints text).length)
    (h : spanText text (decodeUtf8Codepoints text) (pos, a) =
      spanText text (decodeUtf8Codepoints text) (pos, b)) : a = b := by
  have hlen : ∀ e, pos < e → e ≤ (decodeUtf8Codepoints text).length →
      (spanText text (decodeUtf8Codepoints text) (pos, e)).length =
        offset text (decodeUtf8Codepoints text) e -
          offset text (decodeUtf8Codepoints text) pos := by
    intro e hpos he
    have hend := offset_mono text (show e ≤ (decodeUtf8Codepoints text).length from he)
    rw [offset_of_ge (Nat.le_refl _)] at hend
    rw [spanText, length_take, length_drop]
    exact Nat.min_eq_left (Nat.sub_le_sub_right hend _)
  have hsame := congrArg List.length h
  rw [hlen a ha hale, hlen b hb hble] at hsame
  have hposa := offset_lt ha hale
  have hposb := offset_lt hb hble
  rcases Nat.lt_trichotomy a b with hlt | heq | hgt
  · have := offset_lt hlt hble
    omega
  · exact heq
  have := offset_lt hgt hale
  omega

theorem pretokenizeLoop_eq_spans_iff (text : Bytes) (qwen35Mode : Bool) (fuel pos : Nat) :
    pretokenizeLoop text (decodeUtf8Codepoints text) qwen35Mode fuel pos =
        ((qwenPattern qwen35Mode).spansFrom (decodeUtf8Codepoints text) fuel pos).map
          (spanText text (decodeUtf8Codepoints text)) ↔
      ∀ m ∈ (qwenPattern qwen35Mode).spansFrom (decodeUtf8Codepoints text) fuel pos,
        pieceEnd (decodeUtf8Codepoints text) qwen35Mode m.1 =
          matchEnd (decodeUtf8Codepoints text) qwen35Mode m.1 := by
  induction fuel generalizing pos with
  | zero => exact iff_of_true rfl fun m hm => nomatch hm
  | succ fuel ih =>
    by_cases hpos : pos < (decodeUtf8Codepoints text).length
    · rw [spansFrom_match fuel (lt_matchEnd _ qwen35Mode pos) (matchEnd_le qwen35Mode hpos)
        (first_qwenPattern qwen35Mode (fun c hc => cp_ne_end hc) hpos), map_cons,
        forall_mem_cons, pretokenizeLoop, if_pos hpos]
      dsimp only
      rw [List.cons.injEq, sliceCodepointSpan_eq (lt_pieceEnd _ qwen35Mode pos)]
      by_cases hsame : pieceEnd (decodeUtf8Codepoints text) qwen35Mode pos =
          matchEnd (decodeUtf8Codepoints text) qwen35Mode pos
      · rw [hsame]
        exact and_congr (iff_of_true rfl rfl) (ih _)
      refine iff_of_false (fun h => hsame ?_) fun h => hsame h.1
      exact spanText_inj (lt_pieceEnd _ qwen35Mode pos) (lt_matchEnd _ qwen35Mode pos)
        (pieceEnd_le qwen35Mode hpos) (matchEnd_le qwen35Mode hpos) h.1
    rw [spansFrom_of_ge _ _ (Nat.not_lt.mp hpos), pretokenizeLoop, if_neg hpos]
    exact iff_of_true rfl fun m hm => nomatch hm

theorem pretokenizeQwenUnicode_of_ne_nil (qwen35Mode : Bool) (h : text ≠ []) :
    pretokenizeQwenUnicode text qwen35Mode =
      pretokenizeLoop text (decodeUtf8Codepoints text) qwen35Mode
        (decodeUtf8Codepoints text).length 0 := by
  unfold pretokenizeQwenUnicode
  dsimp only
  split
  · rename_i hempty
    have hjoin := pretokenizeLoop_flatten text qwen35Mode (decodeUtf8Codepoints text).length 0
      (by omega)
    rw [List.isEmpty_iff.mp hempty, offset_zero] at hjoin
    exact absurd hjoin.symm h
  · rfl

/-- **The pre-tokenizer equals its expression** on a text exactly when the text is not empty
and at every contraction that the code cuts where a match begins the match is as long. -/
theorem pretokenizeQwenUnicode_eq_patternPieces_iff (text : Bytes) (qwen35Mode : Bool) :
    pretokenizeQwenUnicode text qwen35Mode = patternPieces text qwen35Mode ↔
      text ≠ [] ∧ ∀ m ∈ (qwenPattern qwen35Mode).spans (decodeUtf8Codepoints text), ∀ n,
        CutContraction (decodeUtf8Codepoints text) m.1 n →
          quoteEnd (decodeUtf8Codepoints text) qwen35Mode m.1 = m.1 + n := by
  by_cases hempty : text = []
  · subst hempty
    refine iff_of_false ?_ fun h => h.1 rfl
    cases qwen35Mode <;> decide
  have hloop := pretokenizeLoop_eq_spans_iff text qwen35Mode (decodeUtf8Codepoints text).length 0
  simp only [pieceEnd_eq_matchEnd_iff] at hloop
  rw [pretokenizeQwenUnicode_of_ne_nil qwen35Mode hempty]
  exact hloop.trans (and_iff_right hempty).symm

/-- "l'œuvre": the low byte of U+0153 is that of a capital S, so the code takes the first
letter of the word for a contraction. -/
theorem lOeuvre_cut :
    pretokenizeQwenUnicode [0x6C, 0x27, 0xC5, 0x93, 0x75, 0x76, 0x72, 0x65] false =
        [[0x6C], [0x27, 0xC5, 0x93], [0x75, 0x76, 0x72, 0x65]] ∧
      patternPieces [0x6C, 0x27, 0xC5, 0x93, 0x75, 0x76, 0x72, 0x65] false =
        [[0x6C], [0x27, 0xC5, 0x93, 0x75, 0x76, 0x72, 0x65]] ∧
      pretokenizeQwenUnicode [0x6C, 0x27, 0xC5, 0x93, 0x75, 0x76, 0x72, 0x65] false ≠
        patternPieces [0x6C, 0x27, 0xC5, 0x93, 0x75, 0x76, 0x72, 0x65] false := by
  decide

end DenseCore.Models
