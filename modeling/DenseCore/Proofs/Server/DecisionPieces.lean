/-
The pieces of the decision tokenizer against their regular expression.

The comment over `gpt2Pieces` gives the expression; the function has a loop over indices
instead, in which one look at the next character serves the optional space of three
alternatives and one step back serves the look-ahead.  With the classes disjoint the
category of a character names the one alternative that can match, and each alternative,
computed at the front of the text, is one branch of the loop.
-/
import DenseCore.Lib.Pattern
import DenseCore.Server.DecisionTokenizer

namespace DenseCore.Server.Decision

open Option hiding map_map

open List

open Lib Lib.Pattern

/-! ### The expression -/

/-- What the loop relies on of the `unicode` package: the classes are disjoint, and the
blank is white space. -/
structure UnicodeTables.Lawful (u : UnicodeTables) : Prop where
  blank : u.isSpace ' ' = true
  number_of_letter : ∀ c, u.isLetter c = true → u.isNumber c = false
  space_of_letter : ∀ c, u.isLetter c = true → u.isSpace c = false
  space_of_number : ∀ c, u.isNumber c = true → u.isSpace c = false

/-- The pattern of one character. -/
def exactly (c : Char) : Pattern Char := one fun x => x = c

/-- The pattern of a fixed word. -/
def word (letters : List Char) : Pattern Char :=
  letters.foldr (fun letter p => seq (exactly letter) p) empty

/-- A run behind an optional blank. -/
def spaced (cls : Char → Bool) : Pattern Char := seq (opt (exactly ' ')) (plus cls)

/-- Neither white space nor a letter nor a number. -/
def UnicodeTables.isOther (u : UnicodeTables) (c : Char) : Bool :=
  !u.isSpace c && !u.isLetter c && !u.isNumber c

/-- `'s|'t|'re|'ve|'m|'ll|'d| ?\p{L}+| ?\p{N}+| ?[^\s\p{L}\p{N}]+|\s+(?!\S)|\s+` -/
def gpt2Pattern (u : UnicodeTables) : Pattern Char :=
  oneOf (endings.map (fun ending => word (Char.ofNat 0x27 :: ending)) ++
    [spaced u.isLetter, spaced u.isNumber, spaced u.isOther,
      seq (plus u.isSpace) (notBefore fun c => !u.isSpace c), plus u.isSpace])

/-- The characters of a match. -/
def matchText (runes : List Char) (m : Nat × Nat) : List Char :=
  (runes.drop m.1).take (m.2 - m.1)

/-! ### The classes -/

/-- The characters of a category. -/
def UnicodeTables.inCategory (u : UnicodeTables) (cat : Nat) (c : Char) : Bool :=
  u.category c = cat

theorem UnicodeTables.isLetter_eq (u : UnicodeTables) : u.isLetter = u.inCategory 1 := by
  funext c
  unfold inCategory category
  cases u.isLetter c <;> cases u.isNumber c <;> cases u.isSpace c <;> rfl

theorem UnicodeTables.isOther_eq (u : UnicodeTables) : u.isOther = u.inCategory 3 := by
  funext c
  unfold isOther inCategory category
  cases u.isLetter c <;> cases u.isNumber c <;> cases u.isSpace c <;> rfl

variable {u : UnicodeTables} {c : Char} {runes : List Char}

theorem UnicodeTables.Lawful.isNumber_eq (hu : u.Lawful) : u.isNumber = u.inCategory 2 := by
  funext c
  have hletter := hu.number_of_letter c
  unfold inCategory category
  cases hl : u.isLetter c
  · cases u.isNumber c <;> cases u.isSpace c <;> rfl
  rw [hletter hl]
  rfl

theorem UnicodeTables.Lawful.isSpace_eq (hu : u.Lawful) : u.isSpace = u.inCategory 0 := by
  funext c
  have hletter := hu.space_of_letter c
  have hnumber := hu.space_of_number c
  unfold inCategory category
  cases hl : u.isLetter c
  · cases hn : u.isNumber c
    · cases u.isSpace c <;> rfl
    rw [hnumber hn]
    rfl
  rw [hletter hl]
  rfl

theorem UnicodeTables.Lawful.category_blank (hu : u.Lawful) : u.category ' ' = 0 := by
  have h := hu.blank
  rw [hu.isSpace_eq] at h
  exact of_decide_eq_true h

theorem UnicodeTables.category_lt (u : UnicodeTables) (c : Char) : u.category c < 4 := by
  unfold category
  cases u.isLetter c <;> cases u.isNumber c <;> cases u.isSpace c <;> decide

/-! ### Contractions -/

theorem first_word (letters s : List Char) : (word letters).first s =
      if letters.isPrefixOf s then some (s.drop letters.length) else none := by
  induction letters generalizing s with
  | nil => rfl
  | cons letter letters ih =>
    rw [word, foldr_cons, exactly]
    cases s with
    | nil => rfl
    | cons c s =>
      rw [first_seq_one_cons, isPrefixOf_cons_cons, length_cons, drop_succ_cons]
      by_cases h : c = letter
      · subst h
        rw [if_pos (decide_eq_true rfl), BEq.rfl, Bool.true_and]
        exact ih s
      · simp [h, Ne.symm h]

theorem first_words (ws : List (List Char)) (s : List Char) : (oneOf (ws.map word)).first s =
      (ws.find? fun w => w.isPrefixOf s).map fun w => s.drop w.length := by
  induction ws with
  | nil => exact first_oneOf_nil s
  | cons w ws ih =>
    rw [map_cons, first_oneOf_cons, first_word, ih, find?_cons]
    cases w.isPrefixOf s <;> rfl

theorem first_oneOf_append (ps qs : List (Pattern Char)) (s : List Char) :
    (oneOf (ps ++ qs)).first s = ((oneOf ps).first s).or ((oneOf qs).first s) := by
  induction ps with
  | nil => rw [nil_append, first_oneOf_nil, none_or]
  | cons p ps ih => rw [cons_append, first_oneOf_cons, first_oneOf_cons, ih, Option.or_assoc]

/-- **The contractions** of the expression are those of the code. -/
theorem first_contractions (s : List Char) :
    (oneOf (endings.map fun ending => word (Char.ofNat 0x27 :: ending))).first s =
      (contraction s).map fun n => s.drop n := by
  have hwords := first_words (endings.map fun ending => Char.ofNat 0x27 :: ending) s
  rw [map_map] at hwords
  rw [show (fun ending => word (Char.ofNat 0x27 :: ending)) =
    word ∘ fun ending => Char.ofNat 0x27 :: ending from rfl, hwords, find?_map]
  cases s with
  | nil => rfl
  | cons c s =>
    simp only [contraction]
    by_cases h : c = Char.ofNat 0x27
    · subst h
      rw [if_pos rfl]
      simp only [Function.comp_def, isPrefixOf_cons_cons, BEq.rfl, Bool.true_and,
        Option.map_map, length_cons, Nat.add_comm 1]
    rw [if_neg h]
    have hnone : endings.find? ((fun w => w.isPrefixOf (c :: s)) ∘
        fun ending => Char.ofNat 0x27 :: ending) = none := by
      refine List.find?_eq_none.mpr fun ending _ => ?_
      simp [Ne.symm h]
    rw [hnone]
    rfl

variable {s : List Char} {cls : Char → Bool}

theorem contraction_le {n : Nat} (h : contraction s = some n) : 0 < n ∧ n ≤ s.length := by
  cases s with
  | nil => cases h
  | cons c s =>
    simp only [contraction] at h
    split at h
    · obtain ⟨ending, hfind, rfl⟩ := map_eq_some_iff.mp h
      have hbegin := find?_some hfind
      have hlen := (List.isPrefixOf_iff_prefix.mp hbegin).length_le
      rw [length_cons]
      omega
    · cases h

/-! ### Runs behind an optional blank -/

theorem first_spaced_of_ne (s : List Char) (h : c ≠ ' ') :
    (spaced cls).first (c :: s) = (plus cls).first (c :: s) := by
  rw [spaced, exactly, first_seq_opt, first_seq_one_cons, if_neg (by simpa using h), none_or]

theorem first_spaced_blank (s : List Char) (h : cls ' ' = false) :
    (spaced cls).first (' ' :: s) = (plus cls).first s := by
  rw [spaced, exactly, first_seq_opt, first_seq_one_cons, if_pos (decide_eq_true rfl)]
  have hnone : (plus cls).first (' ' :: s) = none := by
    rw [first_plus, head?_cons, any_some, h]
    rfl
  rw [hnone, or_none]

section Runs

variable (u : UnicodeTables)

/-- What the three alternatives for runs leave, where no blank precedes. -/
def firstRun (s : List Char) : Option (List Char) :=
  ((plus (u.inCategory 1)).first s).or
    (((plus (u.inCategory 2)).first s).or ((plus (u.inCategory 3)).first s))

theorem first_plus_inCategory (cat : Nat) (c : Char) (s : List Char) :
    (plus (u.inCategory cat)).first (c :: s) =
      if u.category c = cat then
        some (s.drop (s.takeWhile (u.inCategory (u.category c))).length)
      else none := by
  rw [first_plus, head?_cons, any_some]
  by_cases h : u.category c = cat
  · subst h
    have hself : u.inCategory (u.category c) c = true := decide_eq_true rfl
    rw [if_pos hself, if_pos rfl, dropWhile_cons, if_pos hself, drop_length_takeWhile]
  · rw [if_neg h, if_neg (by simpa [UnicodeTables.inCategory] using h)]

theorem firstRun_cons {c : Char} (s : List Char) (h : u.category c ≠ 0) :
    firstRun u (c :: s) = some (s.drop (s.takeWhile (u.inCategory (u.category c))).length) := by
  have hlt := u.category_lt c
  have hcases : u.category c = 1 ∨ u.category c = 2 ∨ u.category c = 3 := by omega
  unfold firstRun
  rw [first_plus_inCategory, first_plus_inCategory, first_plus_inCategory]
  rcases hcases with h | h | h <;> simp [h]

theorem firstRun_space {s : List Char} (h : ∀ c ∈ s.head?, u.category c = 0) :
    firstRun u s = none := by
  cases s with
  | nil => rfl
  | cons c s =>
    have hc : u.category c = 0 := h c rfl
    unfold firstRun
    rw [first_plus_inCategory, first_plus_inCategory, first_plus_inCategory, hc]
    rfl

end Runs

/-! ### One match -/

theorem pieceEnd_blank (s : List Char) (hc : u.category c ≠ 0) : pieceEnd u (' ' :: c :: s) =
      2 + (s.takeWhile (u.inCategory (u.category c))).length := by
  have hquote : (' ' : Char) ≠ Char.ofNat 0x27 := by decide
  simp only [pieceEnd, contraction, if_neg hquote, if_pos (And.intro trivial hc),
    drop_succ_cons, drop_zero]
  rw [if_neg fun h => hc h.1]
  rfl

theorem pieceEnd_run (hcon : contraction (c :: s) = none)
    (hskip : c = ' ' → ∀ d ∈ s.head?, u.category d = 0) :
    pieceEnd u (c :: s) =
      if u.category c = 0 ∧
          1 + (s.takeWhile (u.inCategory (u.category c))).length < (c :: s).length ∧
          1 < 1 + (s.takeWhile (u.inCategory (u.category c))).length then
        1 + (s.takeWhile (u.inCategory (u.category c))).length - 1
      else 1 + (s.takeWhile (u.inCategory (u.category c))).length := by
  simp only [pieceEnd, hcon]
  cases s with
  | nil => rfl
  | cons d s =>
    have hno : ¬ (c = ' ' ∧ u.category d ≠ 0) := fun h => h.2 (hskip h.1 d rfl)
    simp only [if_neg hno]
    rfl

theorem front_cases (u : UnicodeTables) (hne : runes ≠ []) :
    (∃ d s, runes = ' ' :: d :: s ∧ u.category d ≠ 0) ∨
      ∃ c s, runes = c :: s ∧ (c = ' ' → ∀ d ∈ s.head?, u.category d = 0) := by
  obtain ⟨c, s, rfl⟩ := exists_cons_of_ne_nil hne
  by_cases hskip : c = ' ' → ∀ d ∈ s.head?, u.category d = 0
  · exact Or.inr ⟨c, s, rfl, hskip⟩
  obtain ⟨rfl, d, hd, hcat⟩ : c = ' ' ∧ ∃ d ∈ s.head?, u.category d ≠ 0 := by
    simpa using hskip
  cases s with
  | nil => cases hd
  | cons e s => exact Or.inl ⟨e, s, rfl, by rwa [← some.inj hd] at hcat⟩

theorem first_space_run (u : UnicodeTables) (s : List Char) (hc : u.category c = 0) :
    ((seq (plus (u.inCategory 0)) (notBefore fun c => !u.inCategory 0 c)).first (c :: s)).or
        ((plus (u.inCategory 0)).first (c :: s)) =
      some ((c :: s).drop (if (s.takeWhile (u.inCategory 0)).length < s.length ∧
            0 < (s.takeWhile (u.inCategory 0)).length then (s.takeWhile (u.inCategory 0)).length
        else 1 + (s.takeWhile (u.inCategory 0)).length)) := by
  have hle : (s.takeWhile (u.inCategory 0)).length ≤ s.length :=
    (List.takeWhile_prefix _).length_le
  have hself : u.inCategory 0 c = true := decide_eq_true hc
  rw [first_plus_inCategory, if_pos hc, plus, first_seq_assoc, first_seq_one_cons, if_pos hself,
    first_run_notBefore, hc]
  by_cases hall : (s.takeWhile (u.inCategory 0)).length = s.length
  · rw [if_pos hall, if_neg (by omega), some_or, hall, Nat.add_comm, drop_succ_cons,
      drop_length]
  rw [if_neg hall]
  by_cases hnone : (s.takeWhile (u.inCategory 0)).length = 0
  · rw [if_pos hnone, none_or, if_neg (by omega), Nat.add_comm, drop_succ_cons]
  obtain ⟨n, hn⟩ := Nat.exists_eq_succ_of_ne_zero hnone
  rw [if_neg hnone, if_pos (by omega), some_or, hn, Nat.succ_sub_one, drop_succ_cons]

theorem first_classes (hu : u.Lawful) (c : Char) (s : List Char) (t : Option (List Char)) :
    (((spaced (u.inCategory 1)).first (c :: s)).or (((spaced (u.inCategory 2)).first (c :: s)).or
          (((spaced (u.inCategory 3)).first (c :: s)).or t))) =
      (firstRun u (if c = ' ' then s else c :: s)).or t := by
  have hout : ∀ cat, cat ≠ 0 → u.inCategory cat ' ' = false := by
    intro cat hcat
    rw [UnicodeTables.inCategory, hu.category_blank]
    exact decide_eq_false (Ne.symm hcat)
  unfold firstRun
  by_cases hc : c = ' '
  · subst hc
    rw [if_pos rfl, first_spaced_blank s (hout 1 (by decide)),
      first_spaced_blank s (hout 2 (by decide)), first_spaced_blank s (hout 3 (by decide)),
      Option.or_assoc, Option.or_assoc]
  rw [if_neg hc, first_spaced_of_ne s hc, first_spaced_of_ne s hc, first_spaced_of_ne s hc,
    Option.or_assoc, Option.or_assoc]

/-- **One match of the expression** is one round of the loop. -/
theorem first_gpt2Pattern (hu : u.Lawful) (hne : runes ≠ []) :
    (gpt2Pattern u).first runes = some (runes.drop (pieceEnd u runes)) := by
  rw [gpt2Pattern, first_oneOf_append, first_contractions, first_oneOf_cons, first_oneOf_cons,
    first_oneOf_cons, first_oneOf_cons, first_oneOf_cons, first_oneOf_nil, or_none,
    u.isLetter_eq, u.isOther_eq, hu.isNumber_eq, hu.isSpace_eq]
  cases hcon : contraction runes with
  | some n =>
    simp only [pieceEnd, hcon]
    rfl
  | none =>
    rw [map_none, none_or]
    rcases front_cases u hne with ⟨d, s, rfl, hcat⟩ | ⟨c, s, rfl, hskip⟩
    · rw [first_classes hu, if_pos rfl, firstRun_cons u s hcat, some_or,
        pieceEnd_blank s hcat, Nat.add_comm, drop_succ_cons, drop_succ_cons]
    by_cases hcat : u.category c = 0
    · have hnone : firstRun u (if c = ' ' then s else c :: s) = none := by
        split
        · rename_i hc
          exact firstRun_space u (hskip hc)
        refine firstRun_space u fun d hd => ?_
        rwa [← some.inj hd]
      rw [first_classes hu, hnone, none_or, first_space_run u s hcat,
        pieceEnd_run hcon hskip, hcat]
      congr 2
      simp only [length_cons, true_and, Nat.add_sub_cancel_left]
      exact if_congr (by omega) rfl rfl
    have hc : c ≠ ' ' := by
      rintro rfl
      exact hcat hu.category_blank
    rw [first_classes hu, if_neg hc, firstRun_cons u s hcat, some_or,
      pieceEnd_run hcon hskip, if_neg fun h => hcat h.1, Nat.add_comm, drop_succ_cons]

/-- A round takes at least one character, and none that is not there. -/
theorem pieceEnd_bounds (u : UnicodeTables) (hne : runes ≠ []) :
    0 < pieceEnd u runes ∧ pieceEnd u runes ≤ runes.length := by
  cases hcon : contraction runes with
  | some n =>
    simp only [pieceEnd, hcon]
    exact contraction_le hcon
  | none =>
    have hrun : ∀ cat (t : List Char), (t.takeWhile (u.inCategory cat)).length ≤ t.length :=
      fun cat t => (List.takeWhile_prefix _).length_le
    rcases front_cases u hne with ⟨d, s, rfl, hcat⟩ | ⟨c, s, rfl, hskip⟩
    · have := hrun (u.category d) s
      rw [pieceEnd_blank s hcat]
      simp only [length_cons]
      omega
    have := hrun (u.category c) s
    rw [pieceEnd_run hcon hskip]
    simp only [length_cons]
    split <;> omega

/-! ### All matches -/

theorem piecesLoop_nil (u : UnicodeTables) (fuel : Nat) : piecesLoop u fuel [] = [] := by
  cases fuel <;> rfl

theorem piecesLoop_succ (u : UnicodeTables) (fuel : Nat) (hne : runes ≠ []) :
    piecesLoop u (fuel + 1) runes =
      runes.take (pieceEnd u runes) :: piecesLoop u fuel (runes.drop (pieceEnd u runes)) := by
  obtain ⟨c, s, rfl⟩ := exists_cons_of_ne_nil hne
  rfl

theorem piecesLoop_eq (hu : u.Lawful) (runes : List Char) (fuel pos : Nat) :
    piecesLoop u fuel (runes.drop pos) =
      ((gpt2Pattern u).spansFrom runes fuel pos).map (matchText runes) := by
  induction fuel generalizing pos with
  | zero => rfl
  | succ fuel ih =>
    by_cases hpos : pos < runes.length
    · have hne : runes.drop pos ≠ [] := by
        rw [Ne, drop_eq_nil_iff]
        omega
      obtain ⟨hlt, hle⟩ := pieceEnd_bounds u hne
      rw [length_drop] at hle
      have hfirst := first_gpt2Pattern hu hne
      rw [drop_drop] at hfirst
      rw [spansFrom_match fuel (by omega) (by omega) hfirst, map_cons, ← ih,
        matchText, Nat.add_sub_cancel_left, ← drop_drop, piecesLoop_succ u fuel hne]
    rw [spansFrom_of_ge _ _ (Nat.not_lt.mp hpos),
      List.drop_eq_nil_iff.mpr (Nat.not_lt.mp hpos), piecesLoop_nil]
    rfl

theorem piecesLoop_flatten (u : UnicodeTables) (fuel : Nat)
    (hfuel : runes.length ≤ fuel) : (piecesLoop u fuel runes).flatten = runes := by
  induction fuel generalizing runes with
  | zero =>
    rw [List.length_eq_zero_iff.mp (Nat.le_zero.mp hfuel), piecesLoop_nil]
    rfl
  | succ fuel ih =>
    by_cases hne : runes = []
    · rw [hne, piecesLoop_nil]
      rfl
    obtain ⟨hlt, -⟩ := pieceEnd_bounds u hne
    rw [piecesLoop_succ u fuel hne, flatten_cons, ih, take_append_drop]
    rw [length_drop]
    omega

theorem encode_flatten (pieces : List (List Char)) :
    (pieces.map Utf8.encode).flatten = Utf8.encode pieces.flatten := by
  induction pieces with
  | nil => rfl
  | cons piece pieces ih =>
    rw [map_cons, flatten_cons, flatten_cons, ih, Utf8.encode_append]

/-- **The pieces are the matches of the expression**, and they make up the text: the
characters it decodes to, which encode to the same bytes where the text is valid, as
`Encode` requires. -/
theorem gpt2Pieces_eq_matches {u : UnicodeTables} (hu : u.Lawful) (text : Bytes) :
    gpt2Pieces u text = (((gpt2Pattern u).spans (Utf8.runes text)).map
        (matchText (Utf8.runes text))).map Utf8.encode ∧
      (gpt2Pieces u text).flatten = Utf8.encode (Utf8.runes text) ∧
      (Utf8.Valid text → (gpt2Pieces u text).flatten = text) := by
  have hjoin : (gpt2Pieces u text).flatten = Utf8.encode (Utf8.runes text) := by
    rw [gpt2Pieces, encode_flatten, piecesLoop_flatten u _ (Nat.le_refl _)]
  refine ⟨?_, hjoin, ?_⟩
  · rw [gpt2Pieces, Pattern.spans, ← piecesLoop_eq hu, drop_zero]
  rintro ⟨cs, rfl⟩
  rw [hjoin, Utf8.runes_encode]

/-- The classes of the characters of ASCII. -/
def asciiTables : UnicodeTables where
  isLetter := Char.isAlpha
  isNumber := Char.isDigit
  isSpace := Char.isWhitespace

theorem asciiTables_lawful : asciiTables.Lawful := by
  have hspace : ∀ c : Char, c.isWhitespace = true → c.toNat < 48 := by
    intro c h
    simp only [Char.isWhitespace, Bool.or_eq_true, decide_eq_true_eq] at h
    rcases h with ((rfl | rfl) | rfl) | rfl <;> decide
  have hdigit : ∀ c : Char, c.isDigit = true ↔ 48 ≤ c.toNat ∧ c.toNat ≤ 57 := by
    intro c
    simp [Char.isDigit, UInt32.le_iff_toNat_le]
  have halpha : ∀ c : Char, c.isAlpha = true → 65 ≤ c.toNat := by
    intro c h
    delta Char.isAlpha Char.isUpper Char.isLower at h
    simp [UInt32.le_iff_toNat_le] at h
    omega
  constructor
  · rfl
  · intro c h
    have := halpha c h
    refine Bool.eq_false_iff.mpr fun hd => ?_
    have := (hdigit c).mp hd
    omega
  · intro c h
    have := halpha c h
    refine Bool.eq_false_iff.mpr fun hs => ?_
    have := hspace c hs
    omega
  intro c h
  have := (hdigit c).mp h
  refine Bool.eq_false_iff.mpr fun hs => ?_
  have := hspace c hs
  omega

/-- "I'm  a b1 ": a contraction, a blank kept for the word behind it, and blanks at the
end. -/
theorem blanks_pieces : gpt2Pieces asciiTables (Utf8.encode "I'm  a b1 ".toList) =
        [[0x49], [0x27, 0x6D], [0x20], [0x20, 0x61], [0x20, 0x62], [0x31], [0x20]] ∧
      gpt2Pieces asciiTables (Utf8.encode "I'm  a b1 ".toList) = (((gpt2Pattern asciiTables).spans
          (Utf8.runes (Utf8.encode "I'm  a b1 ".toList))).map
            (matchText (Utf8.runes (Utf8.encode "I'm  a b1 ".toList)))).map Utf8.encode ∧
      (gpt2Pieces asciiTables (Utf8.encode "I'm  a b1 ".toList)).flatten =
        Utf8.encode "I'm  a b1 ".toList := by
  obtain ⟨hmatches, -, hjoin⟩ :=
    gpt2Pieces_eq_matches asciiTables_lawful (Utf8.encode "I'm  a b1 ".toList)
  exact ⟨by decide, hmatches, hjoin ⟨_, rfl⟩⟩

end DenseCore.Server.Decision
