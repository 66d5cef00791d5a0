/-
Text as UTF-8 bytes, and what cutting it anywhere leaves.

The encoding of a character is one of four shapes, told apart by the lead byte.
A string of bytes that begins a valid text is a whole number of characters and
then the beginning of one more; `exists_split` is the form in which a reader of
pieces uses it.
-/
import Mathlib.Data.List.Infix

namespace DenseCore.Lib.Utf8

open List hiding le_refl

/-- The bytes of the characters. -/
def encode (cs : List Char) : List UInt8 := cs.flatMap String.utf8EncodeChar

@[simp] theorem encode_nil : encode [] = [] := rfl

@[simp] theorem encode_cons (c : Char) (cs : List Char) :
    encode (c :: cs) = String.utf8EncodeChar c ++ encode cs := rfl

@[simp] theorem encode_append (cs ds : List Char) :
    encode (cs ++ ds) = encode cs ++ encode ds := flatMap_append

/-- A valid text. -/
def Valid (text : List UInt8) : Prop := ∃ cs, encode cs = text

/-- The beginning of one of the characters that follow, or nothing. -/
def BeginsNext (x : List UInt8) (cs : List Char) : Prop :=
  x = [] ∨ ∃ c rest, cs = c :: rest ∧ x <+: String.utf8EncodeChar c ∧ x ≠ String.utf8EncodeChar c

variable {cs : List Char} {t : List UInt8} {b2 : UInt8}

/-- A text that ends at a boundary leaves nothing over. -/
theorem BeginsNext.eq_nil_of_encode {x : List UInt8} (h : BeginsNext x cs)
    (heq : x = encode cs) : x = [] := by
  rcases h with h | ⟨c, rest, rfl, hpre, hne⟩
  · exact h
  have hlen := hpre.length_le
  rw [heq, encode_cons, length_append] at hlen
  have hrest : encode rest = [] := length_eq_zero_iff.mp (by omega)
  exact absurd (by rw [heq, encode_cons, hrest, append_nil]) hne

variable {s rest : List UInt8} {n : Nat} {c : Char} {b b0 b1 : UInt8}

/-- **Any beginning of a valid text** is a number of characters and the beginning
of the next one. -/
theorem exists_split (h : s <+: encode cs) :
    ∃ cs₁ cs₂ x, cs = cs₁ ++ cs₂ ∧ s = encode cs₁ ++ x ∧ BeginsNext x cs₂ := by
  induction cs generalizing s with
  | nil =>
    obtain rfl : s = [] := prefix_nil.mp h
    exact ⟨[], [], [], rfl, rfl, Or.inl rfl⟩
  | cons c rest ih =>
    rw [encode_cons] at h
    rcases Nat.lt_or_ge s.length (String.utf8EncodeChar c).length with hlt | hge
    · -- the text ends inside this character
      refine ⟨[], c :: rest, s, rfl, rfl, Or.inr ⟨c, rest, rfl, ?_, ?_⟩⟩
      · exact prefix_of_prefix_length_le h (prefix_append _ _) (by omega)
      rintro rfl
      exact absurd hlt (Nat.lt_irrefl _)
    obtain ⟨t, rfl⟩ := prefix_of_prefix_length_le (prefix_append _ _) h hge
    obtain ⟨cs₁, cs₂, x, rfl, rfl, hx⟩ := ih ((prefix_append_right_inj _).mp h)
    exact ⟨c :: cs₁, cs₂, x, rfl, by simp, hx⟩

/-! ### The four shapes of a character -/

/-- The bytes of a character, with their values as numbers. -/
inductive Shape : Char → List UInt8 → Prop
  | one {c : Char} (b : UInt8) (hb : b.toNat = c.toNat) (hv : c.toNat ≤ 0x7f) : Shape c [b]
  | two {c : Char} (b0 b1 : UInt8) (h0 : b0.toNat = c.toNat / 64 % 32 + 0xc0)
      (h1 : b1.toNat = c.toNat % 64 + 0x80) (hv : 0x7f < c.toNat ∧ c.toNat ≤ 0x7ff) :
      Shape c [b0, b1]
  | three {c : Char} (b0 b1 b2 : UInt8) (h0 : b0.toNat = c.toNat / 4096 % 16 + 0xe0)
      (h1 : b1.toNat = c.toNat / 64 % 64 + 0x80) (h2 : b2.toNat = c.toNat % 64 + 0x80)
      (hv : 0x7ff < c.toNat ∧ c.toNat ≤ 0xffff) : Shape c [b0, b1, b2]
  | four {c : Char} (b0 b1 b2 b3 : UInt8) (h0 : b0.toNat = c.toNat / 262144 % 8 + 0xf0)
      (h1 : b1.toNat = c.toNat / 4096 % 64 + 0x80) (h2 : b2.toNat = c.toNat / 64 % 64 + 0x80)
      (h3 : b3.toNat = c.toNat % 64 + 0x80) (hv : 0xffff < c.toNat) : Shape c [b0, b1, b2, b3]

theorem toNat_ofNat (h : n < 256) : (UInt8.ofNat n).toNat = n := by
  rw [UInt8.toNat_ofNat']
  exact Nat.mod_eq_of_lt h

theorem shape (c : Char) : Shape c (String.utf8EncodeChar c) := by
  have hc : c.val.toNat = c.toNat := rfl
  unfold String.utf8EncodeChar
  simp only [hc]
  split
  · exact .one _ (toNat_ofNat (by omega)) (by omega)
  split
  · exact .two _ _ (toNat_ofNat (by omega)) (toNat_ofNat (by omega)) (by omega)
  split
  · exact .three _ _ _ (toNat_ofNat (by omega)) (toNat_ofNat (by omega))
      (toNat_ofNat (by omega)) (by omega)
  exact .four _ _ _ _ (toNat_ofNat (by omega)) (toNat_ofNat (by omega))
    (toNat_ofNat (by omega)) (toNat_ofNat (by omega)) (by omega)

/-! ### Reading characters -/

/-- The number that the bytes of one character stand for. -/
def scalar : List UInt8 → Nat
  | [b] => b.toNat
  | [b0, b1] => b0.toNat % 32 * 64 + b1.toNat % 64
  | [b0, b1, b2] => b0.toNat % 16 * 4096 + b1.toNat % 64 * 64 + b2.toNat % 64
  | [b0, b1, b2, b3] =>
    b0.toNat % 8 * 262144 + b1.toNat % 64 * 4096 + b2.toNat % 64 * 64 + b3.toNat % 64
  | _ => 0

/-- The character of the first `width` bytes, if they are its encoding. -/
def charOfWidth (s : List UInt8) (width : Nat) : Option (Char × List UInt8) :=
  let c := Char.ofNat (scalar (s.take width))
  if String.utf8EncodeChar c = s.take width then some (c, s.drop width) else none

/-- The first character and what follows.  A byte that begins no character reads as
the replacement character. -/
def decodeRune (s : List UInt8) : Char × List UInt8 :=
  (([1, 2, 3, 4].findSome? (charOfWidth s)).getD (Char.ofNat 0xFFFD, s.drop 1))

/-- The runes of bytes; what is no character is replaced. -/
def runesFrom : Nat → List UInt8 → List Char
  | 0, _ => []
  | _ + 1, [] => []
  | fuel + 1, s => (decodeRune s).1 :: runesFrom fuel (decodeRune s).2

/-- The characters of a text. -/
def runes (s : List UInt8) : List Char := runesFrom s.length s

/-- The text with replacement characters for what is not valid. -/
def sanitize (s : List UInt8) : List UInt8 := encode (runes s)

theorem scalar_utf8EncodeChar (c : Char) : scalar (String.utf8EncodeChar c) = c.toNat := by
  have hmax : c.toNat < 0x110000 := by
    have hvalid : c.toNat < 0xd800 ∨ (0xdfff < c.toNat ∧ c.toNat < 0x110000) := c.valid
    omega
  have hshape := shape c
  generalize String.utf8EncodeChar c = bs at hshape
  cases hshape with
  | one b hb hv => exact hb
  | two b0 b1 h0 h1 hv =>
    show b0.toNat % 32 * 64 + b1.toNat % 64 = c.toNat
    omega
  | three b0 b1 b2 h0 h1 h2 hv =>
    show b0.toNat % 16 * 4096 + b1.toNat % 64 * 64 + b2.toNat % 64 = c.toNat
    omega
  | four b0 b1 b2 b3 h0 h1 h2 h3 hv =>
    show b0.toNat % 8 * 262144 + b1.toNat % 64 * 4096 + b2.toNat % 64 * 64 + b3.toNat % 64 = c.toNat
    omega

theorem length_eq_of_prefix {d : Char} (h : String.utf8EncodeChar c <+: String.utf8EncodeChar d) :
    (String.utf8EncodeChar c).length = (String.utf8EncodeChar d).length := by
  have hc := shape c
  have hd := shape d
  generalize String.utf8EncodeChar c = x at h hc
  generalize String.utf8EncodeChar d = y at h hd
  obtain ⟨z, rfl⟩ := h
  cases hc <;> cases hd <;> first | rfl | omega

theorem charOfWidth_self (c : Char) (rest : List UInt8) :
    charOfWidth (String.utf8EncodeChar c ++ rest) (String.utf8EncodeChar c).length =
      some (c, rest) := by
  unfold charOfWidth
  rw [take_left, drop_left, scalar_utf8EncodeChar, Char.ofNat_toNat]
  exact if_pos rfl

theorem charOfWidth_of_lt {width : Nat} (h : width < (String.utf8EncodeChar c).length) :
    charOfWidth (String.utf8EncodeChar c ++ rest) width = none := by
  unfold charOfWidth
  rw [take_append_of_le_length (by omega)]
  generalize Char.ofNat (scalar ((String.utf8EncodeChar c).take width)) = d
  refine if_neg fun heq => ?_
  have hpre : String.utf8EncodeChar d <+: String.utf8EncodeChar c := by
    rw [heq]
    exact take_prefix width _
  have hlength := length_eq_of_prefix hpre
  rw [heq, length_take] at hlength
  omega

theorem decodeRune_utf8EncodeChar (c : Char) (rest : List UInt8) :
    decodeRune (String.utf8EncodeChar c ++ rest) = (c, rest) := by
  have hself := charOfWidth_self c rest
  have hless : ∀ width, width < (String.utf8EncodeChar c).length →
      charOfWidth (String.utf8EncodeChar c ++ rest) width = none := fun _ h => charOfWidth_of_lt h
  have hlength : (String.utf8EncodeChar c).length = 1 ∨ (String.utf8EncodeChar c).length = 2 ∨
      (String.utf8EncodeChar c).length = 3 ∨ (String.utf8EncodeChar c).length = 4 := by
    have hshape := shape c
    generalize String.utf8EncodeChar c = bs at hshape
    cases hshape <;> simp
  -- the widths below the right one read nothing
  have hfound : [1, 2, 3, 4].findSome? (charOfWidth (String.utf8EncodeChar c ++ rest)) =
      some (c, rest) := by
    rcases hlength with h | h | h | h <;> rw [h] at hself hless
    · rw [findSome?_cons, hself]
    · rw [findSome?_cons, hless 1 (by omega), findSome?_cons, hself]
    · rw [findSome?_cons, hless 1 (by omega), findSome?_cons, hless 2 (by omega),
        findSome?_cons, hself]
    rw [findSome?_cons, hless 1 (by omega), findSome?_cons, hless 2 (by omega),
      findSome?_cons, hless 3 (by omega), findSome?_cons, hself]
  unfold decodeRune
  rw [hfound]
  rfl

theorem runesFrom_encode (cs : List Char) :
    ∀ fuel, (encode cs).length ≤ fuel → runesFrom fuel (encode cs) = cs := by
  induction cs with
  | nil => intro fuel _; cases fuel <;> rfl
  | cons c rest ih =>
    intro fuel hfuel
    rw [encode_cons, length_append] at hfuel
    have hne : String.utf8EncodeChar c ≠ [] := String.utf8EncodeChar_ne_nil
    have hpos := length_pos_iff.mpr hne
    cases fuel with
    | zero => omega
    | succ fuel =>
      rw [encode_cons]
      have hcons : runesFrom (fuel + 1) (String.utf8EncodeChar c ++ encode rest) =
          (decodeRune (String.utf8EncodeChar c ++ encode rest)).1 ::
            runesFrom fuel (decodeRune (String.utf8EncodeChar c ++ encode rest)).2 := by
        cases hbytes : String.utf8EncodeChar c ++ encode rest with
        | nil => exact absurd (append_eq_nil_iff.mp hbytes).1 hne
        | cons b bs => rfl
      rw [hcons, decodeRune_utf8EncodeChar, ih fuel (by omega)]

/-- **A valid text is read as it was written.** -/
theorem runes_encode (cs : List Char) : runes (encode cs) = cs :=
  runesFrom_encode cs _ (le_refl _)

theorem sanitize_encode (cs : List Char) : sanitize (encode cs) = encode cs := by
  unfold sanitize
  rw [runes_encode]

theorem sanitize_sanitize (s : List UInt8) : sanitize (sanitize s) = sanitize s :=
  sanitize_encode (runes s)

theorem toNat_charOfValid (h : n.isValidChar) : (Char.ofNat n).toNat = n := by
  unfold Char.ofNat
  rw [dif_pos h]
  rfl

theorem toNat_charOfNat (h : n < 0x80) : (Char.ofNat n).toNat = n :=
  toNat_charOfValid (Or.inl (by omega))

theorem utf8EncodeChar_ofNat (hb : b.toNat < 0x80) :
    String.utf8EncodeChar (Char.ofNat b.toNat) = [b] := by
  have hc : (Char.ofNat b.toNat).toNat = b.toNat := toNat_charOfNat hb
  have hshape := shape (Char.ofNat b.toNat)
  generalize String.utf8EncodeChar (Char.ofNat b.toNat) = bs at hshape
  cases hshape with
  | one b' hb' _ => rw [UInt8.toNat_inj.mp (hb'.trans hc)]
  | two _ _ _ _ hv => omega
  | three _ _ _ _ _ _ hv => omega
  | four _ _ _ _ _ _ _ _ hv => omega

theorem encode_head (h : String.utf8EncodeChar c = b :: rest) :
    (b.toNat < 0x80 → b.toNat = c.toNat) ∧ (0x80 ≤ b.toNat → 0x80 ≤ c.toNat) := by
  have hshape := shape c
  rw [h] at hshape
  cases hshape <;> omega

theorem encode_tail (h : String.utf8EncodeChar c = b :: rest) : ∀ x ∈ rest, 0x80 ≤ x.toNat := by
  have hshape := shape c
  rw [h] at hshape
  intro x hx
  cases hshape with
  | one b hb hv => cases hx
  | two b0 b1 h0 h1 hv =>
    rcases mem_singleton.mp hx with rfl
    omega
  | three b0 b1 b2 h0 h1 h2 hv =>
    simp only [mem_cons, not_mem_nil, or_false] at hx
    rcases hx with rfl | rfl <;> omega
  | four b0 b1 b2 b3 h0 h1 h2 h3 hv =>
    simp only [mem_cons, not_mem_nil, or_false] at hx
    rcases hx with rfl | rfl | rfl <;> omega

theorem decodeRune_ascii (hb : b.toNat < 0x80) (s : List UInt8) :
    decodeRune (b :: s) = (Char.ofNat b.toNat, s) := by
  have hdecode := decodeRune_utf8EncodeChar (Char.ofNat b.toNat) s
  rwa [utf8EncodeChar_ofNat hb] at hdecode

/-- Another byte is read with the bytes behind it that go on a character; none of these
is ASCII. -/
theorem decodeRune_high (hb : 0x80 ≤ b.toNat) (s : List UInt8) :
    0x80 ≤ (decodeRune (b :: s)).1.toNat ∧
      ∃ tail, (∀ x ∈ tail, 0x80 ≤ x.toNat) ∧ s = tail ++ (decodeRune (b :: s)).2 := by
  unfold decodeRune
  cases hfound : [1, 2, 3, 4].findSome? (charOfWidth (b :: s)) with
  | none =>
    refine ⟨?_, [], fun x hx => absurd hx not_mem_nil, rfl⟩
    show 0x80 ≤ (Char.ofNat 0xFFFD).toNat
    decide
  | some r =>
    obtain ⟨width, hwidth, hread⟩ := exists_of_findSome?_eq_some hfound
    unfold charOfWidth at hread
    dsimp only at hread
    split at hread
    · rename_i hencode
      cases hread
      obtain ⟨n, rfl⟩ : ∃ n, width = n + 1 := ⟨width - 1, by simp at hwidth; omega⟩
      rw [take_succ_cons] at hencode
      exact ⟨(encode_head hencode).2 hb, s.take n, encode_tail hencode, (take_append_drop n s).symm⟩
    · cases hread

/-! ### Reading in two parts -/

/-- The bytes begin with ASCII, if with any. -/
def AsciiHead (s : List UInt8) : Prop := ∀ b, s.head? = some b → b.toNat < 0x80

theorem decodeRune_append (hs : s ≠ []) (ht : AsciiHead t) :
    decodeRune (s ++ t) = ((decodeRune s).1, (decodeRune s).2 ++ t) := by
  have hread : ∀ {c : Char} {rest : List UInt8}, s = String.utf8EncodeChar c ++ rest →
      decodeRune (s ++ t) = ((decodeRune s).1, (decodeRune s).2 ++ t) := by
    rintro c rest rfl
    rw [append_assoc, decodeRune_utf8EncodeChar, decodeRune_utf8EncodeChar]
  by_cases hvalid : ∃ c, String.utf8EncodeChar c <+: s
  · obtain ⟨c, rest, rfl⟩ := hvalid
    exact hread rfl
  -- a character that reaches into `t` would have an ASCII byte behind its first
  have hnone : ∀ u, (u = s ∨ u = s ++ t) → ∀ width, charOfWidth u width = none := by
    intro u hu width
    unfold charOfWidth
    dsimp only
    refine if_neg fun hencode => ?_
    have hpre : String.utf8EncodeChar (Char.ofNat (scalar (u.take width))) <+: u := by
      rw [hencode]
      exact take_prefix width u
    generalize Char.ofNat (scalar (u.take width)) = c at hpre
    rcases hu with rfl | rfl
    · exact hvalid ⟨c, hpre⟩
    rcases prefix_or_prefix_of_prefix hpre (prefix_append s t) with h | ⟨z, hz⟩
    · exact hvalid ⟨c, h⟩
    obtain ⟨b, s, rfl⟩ := exists_cons_of_ne_nil hs
    cases z with
    | nil => exact hvalid ⟨c, by rw [← hz, append_nil]⟩
    | cons a z =>
      rw [← hz] at hpre
      obtain ⟨v, hv⟩ := (prefix_append_right_inj (b :: s)).mp hpre
      have hlow := ht a (by rw [← hv]; rfl)
      have hhigh := encode_tail hz.symm a (by simp)
      omega
  have hfound : ∀ u, (u = s ∨ u = s ++ t) → decodeRune u = (Char.ofNat 0xFFFD, u.drop 1) := by
    intro u hu
    unfold decodeRune
    rw [findSome?_eq_none_iff.mpr fun width _ => hnone u hu width]
    rfl
  rw [hfound _ (Or.inr rfl), hfound _ (Or.inl rfl)]
  obtain ⟨b, s, rfl⟩ := exists_cons_of_ne_nil hs
  rfl

theorem decodeRune_length_lt (hs : s ≠ []) : (decodeRune s).2.length < s.length := by
  obtain ⟨b, s, rfl⟩ := exists_cons_of_ne_nil hs
  by_cases hb : b.toNat < 0x80
  · rw [decodeRune_ascii hb]
    exact Nat.lt_succ_self _
  obtain ⟨-, tail, -, hs⟩ := decodeRune_high (Nat.le_of_not_lt hb) s
  have hlength := congrArg List.length hs
  rw [length_append] at hlength
  rw [length_cons]
  omega

theorem runesFrom_fuel {fuel : Nat} : ∀ {fuel' : Nat} {s : List UInt8}, s.length ≤ fuel →
    s.length ≤ fuel' → runesFrom fuel s = runesFrom fuel' s := by
  induction fuel with
  | zero =>
    intro fuel' s hs _
    obtain rfl := eq_nil_of_length_eq_zero (Nat.le_zero.mp hs)
    cases fuel' <;> rfl
  | succ fuel ih =>
    intro fuel' s hs hs'
    cases s with
    | nil => cases fuel' <;> rfl
    | cons b s =>
      obtain ⟨n, rfl⟩ : ∃ n, fuel' = n + 1 := Nat.exists_eq_succ_of_ne_zero (by
        rw [length_cons] at hs'
        omega)
      have hlt := decodeRune_length_lt (cons_ne_nil b s)
      rw [runesFrom, runesFrom]
      · exact congrArg _ (ih (by omega) (by omega))
      · exact cons_ne_nil b s
      · exact cons_ne_nil b s

theorem runes_of_ne_nil (hs : s ≠ []) : runes s = (decodeRune s).1 :: runes (decodeRune s).2 := by
  have hlt := decodeRune_length_lt hs
  obtain ⟨b, s, rfl⟩ := exists_cons_of_ne_nil hs
  show _ :: runesFrom s.length (decodeRune (b :: s)).2 = _
  rw [length_cons] at hlt
  exact congrArg _ (runesFrom_fuel (by omega) (Nat.le_refl _))

/-- **A text is read in two parts** before ASCII. -/
theorem runes_append (ht : AsciiHead t) : runes (s ++ t) = runes s ++ runes t := by
  induction hn : s.length using Nat.strong_induction_on generalizing s with
  | _ n ih =>
    by_cases hs : s = []
    · subst hs
      rfl
    have hst : s ++ t ≠ [] := fun h => hs (append_eq_nil_iff.mp h).1
    rw [runes_of_ne_nil hst, runes_of_ne_nil hs, decodeRune_append hs ht,
      ih _ (hn ▸ decodeRune_length_lt hs) rfl, cons_append]

theorem exists_encode_ascii (h : ∀ b ∈ s, b.toNat < 0x80) : ∃ cs, encode cs = s := by
  induction s with
  | nil => exact ⟨[], rfl⟩
  | cons b rest ih =>
    obtain ⟨cs, hcs⟩ := ih fun c hc => h c (mem_cons_of_mem b hc)
    refine ⟨Char.ofNat b.toNat :: cs, ?_⟩
    rw [encode_cons, hcs, utf8EncodeChar_ofNat (h b mem_cons_self)]
    rfl

theorem sanitize_ascii (h : ∀ b ∈ s, b.toNat < 0x80) : sanitize s = s := by
  obtain ⟨cs, rfl⟩ := exists_encode_ascii h
  exact sanitize_encode cs

/-! ### Bytes that are a character -/

/-- A continuation byte. -/
def Tail (b : UInt8) : Prop := 0x80 ≤ b.toNat ∧ b.toNat < 0xC0

theorem Tail.bits (h : Tail b) : ∃ x, b.toNat = 0x80 + x ∧ x < 64 :=
  ⟨b.toNat - 0x80, by unfold Tail at h; omega, by unfold Tail at h; omega⟩

theorem exists_char_two (h0 : 0xC2 ≤ b0.toNat ∧ b0.toNat < 0xE0) (h1 : Tail b1) :
    ∃ c, String.utf8EncodeChar c = [b0, b1] := by
  obtain ⟨x, hx⟩ := Nat.exists_eq_add_of_le (show 0xC0 ≤ b0.toNat by omega)
  obtain ⟨y, hy, hy'⟩ := h1.bits
  have hn : (Char.ofNat (x * 64 + y)).toNat = x * 64 + y := toNat_charOfValid (Or.inl (by omega))
  refine ⟨Char.ofNat (x * 64 + y), ?_⟩
  have hshape := shape (Char.ofNat (x * 64 + y))
  generalize String.utf8EncodeChar _ = bs at hshape
  cases hshape with
  | two a0 a1 ha0 ha1 hv =>
    rw [UInt8.toNat_inj.mp (show a0.toNat = b0.toNat by omega),
      UInt8.toNat_inj.mp (show a1.toNat = b1.toNat by omega)]
  | one _ _ _ => omega
  | three _ _ _ _ _ _ hv => omega
  | four _ _ _ _ _ _ _ _ hv => omega

theorem exists_char_three (h0 : 0xE0 ≤ b0.toNat ∧ b0.toNat < 0xF0)
    (h1 : Tail b1) (h2 : Tail b2) (hlong : b0.toNat = 0xE0 → 0xA0 ≤ b1.toNat)
    (hsurrogate : b0.toNat = 0xED → b1.toNat < 0xA0) :
    ∃ c, String.utf8EncodeChar c = [b0, b1, b2] := by
  obtain ⟨x, hx⟩ := Nat.exists_eq_add_of_le h0.1
  obtain ⟨y, hy, hy'⟩ := h1.bits
  obtain ⟨z, hz, hz'⟩ := h2.bits
  generalize hval : x * 4096 + y * 64 + z = n
  have hn : (Char.ofNat n).toNat = n := by
    refine toNat_charOfValid ?_
    unfold Nat.isValidChar
    omega
  refine ⟨Char.ofNat n, ?_⟩
  have hshape := shape (Char.ofNat n)
  generalize String.utf8EncodeChar _ = bs at hshape
  cases hshape with
  | three a0 a1 a2 ha0 ha1 ha2 hv =>
    rw [hn] at ha0 ha1 ha2
    clear h1 h2 hlong hsurrogate hv hn
    rw [UInt8.toNat_inj.mp (show a0.toNat = b0.toNat by omega),
      UInt8.toNat_inj.mp (show a1.toNat = b1.toNat by omega),
      UInt8.toNat_inj.mp (show a2.toNat = b2.toNat by omega)]
  | one _ _ _ => omega
  | two _ _ _ _ hv => omega
  | four _ _ _ _ _ _ _ _ hv => omega

theorem exists_char_four {b3 : UInt8} (h0 : 0xF0 ≤ b0.toNat ∧ b0.toNat ≤ 0xF4)
    (h1 : Tail b1) (h2 : Tail b2) (h3 : Tail b3) (hlong : b0.toNat = 0xF0 → 0x90 ≤ b1.toNat)
    (hlarge : b0.toNat = 0xF4 → b1.toNat < 0x90) :
    ∃ c, String.utf8EncodeChar c = [b0, b1, b2, b3] := by
  obtain ⟨x, hx⟩ := Nat.exists_eq_add_of_le h0.1
  obtain ⟨y, hy, hy'⟩ := h1.bits
  obtain ⟨z, hz, hz'⟩ := h2.bits
  obtain ⟨w, hw, hw'⟩ := h3.bits
  generalize hval : x * 262144 + y * 4096 + z * 64 + w = n
  have hn : (Char.ofNat n).toNat = n := by
    refine toNat_charOfValid ?_
    unfold Nat.isValidChar
    omega
  refine ⟨Char.ofNat n, ?_⟩
  have hshape := shape (Char.ofNat n)
  generalize String.utf8EncodeChar _ = bs at hshape
  cases hshape with
  | four a0 a1 a2 a3 ha0 ha1 ha2 ha3 hv =>
    rw [hn] at ha0 ha1 ha2 ha3
    clear h1 h2 h3 hlong hlarge hv hn
    rw [UInt8.toNat_inj.mp (show a0.toNat = b0.toNat by omega),
      UInt8.toNat_inj.mp (show a1.toNat = b1.toNat by omega),
      UInt8.toNat_inj.mp (show a2.toNat = b2.toNat by omega),
      UInt8.toNat_inj.mp (show a3.toNat = b3.toNat by omega)]
  | one _ _ _ => omega
  | two _ _ _ _ hv => omega
  | three _ _ _ _ _ _ hv => omega

end DenseCore.Lib.Utf8
