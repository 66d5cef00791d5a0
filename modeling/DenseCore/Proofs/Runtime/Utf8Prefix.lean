/-
Joining the pieces of a valid text.

`Utf8ValidPrefixLength` reads whole characters and stops in front of one that is
not all there.  So when the pieces together are valid UTF-8, what has been passed
on after any piece is a number of characters, what waits is the beginning of the
next one, and nothing waits at the end.
-/
import DenseCore.Runtime.Emission
import DenseCore.Lib.Utf8

namespace DenseCore.Runtime

open List

open DenseCore.Lib

/-! ### Bytes by their value -/

theorem utf8Need_ofNat : ∀ n < 256, utf8Need (UInt8.ofNat n) =
    if 0xC2 ≤ n ∧ n < 0xE0 then some 2
    else if 0xE0 ≤ n ∧ n < 0xF0 then some 3
    else if 0xF0 ≤ n ∧ n ≤ 0xF4 then some 4
    else none := by decide +kernel

theorem utf8Need_eq (b : UInt8) : utf8Need b =
    if 0xC2 ≤ b.toNat ∧ b.toNat < 0xE0 then some 2
    else if 0xE0 ≤ b.toNat ∧ b.toNat < 0xF0 then some 3
    else if 0xF0 ≤ b.toNat ∧ b.toNat ≤ 0xF4 then some 4
    else none := by
  have h := utf8Need_ofNat b.toNat b.toNat_lt
  rwa [UInt8.ofNat_toNat] at h

theorem continuation_ofNat : ∀ n < 64, (UInt8.ofNat (n + 0x80) &&& 0xC0 != 0x80) = false := by
  decide +kernel

theorem continuation {b : UInt8} (h : 0x80 ≤ b.toNat) (h' : b.toNat < 0xC0) :
    (b &&& 0xC0 != 0x80) = false := by
  have hn := continuation_ofNat (b.toNat - 0x80) (by omega)
  rwa [Nat.sub_add_cancel h, UInt8.ofNat_toNat] at hn

theorem ascii_iff (b : UInt8) : b ≤ 0x7F ↔ b.toNat ≤ 0x7F := UInt8.le_iff_toNat_le

theorem char_range (c : Char) : c.toNat < 0xd800 ∨ (0xdfff < c.toNat ∧ c.toNat < 0x110000) :=
  c.valid

variable {c0 c1 : UInt8} {c : Char} {x passed waiting : Text} {cs after : List Char}

theorem secondByte_three (h0 : c0.toNat = c.toNat / 4096 % 16 + 0xe0)
    (h1 : c1.toNat = c.toNat / 64 % 64 + 0x80) (hv : 0x7ff < c.toNat ∧ c.toNat ≤ 0xffff) :
    utf8SecondByteRejected 3 c0 c1 = false := by
  have hrange := char_range c
  have hE0 : c0 = 0xE0 → ¬ c1 < 0xA0 := by
    rintro rfl h
    have h' := UInt8.lt_iff_toNat_lt.mp h
    simp only [UInt8.reduceToNat] at h0 h'
    omega
  have hED : c0 = 0xED → ¬ 0xA0 ≤ c1 := by
    rintro rfl h
    have h' := UInt8.le_iff_toNat_le.mp h
    simp only [UInt8.reduceToNat] at h0 h'
    omega
  simp only [utf8SecondByteRejected, if_pos, Bool.or_eq_false_iff, Bool.and_eq_false_imp,
    decide_eq_true_eq, decide_eq_false_iff_not]
  exact ⟨hE0, hED⟩

theorem secondByte_four (h0 : c0.toNat = c.toNat / 262144 % 8 + 0xf0)
    (h1 : c1.toNat = c.toNat / 4096 % 64 + 0x80) (hv : 0xffff < c.toNat) :
    utf8SecondByteRejected 4 c0 c1 = false := by
  have hrange := char_range c
  have hF0 : c0 = 0xF0 → ¬ c1 < 0x90 := by
    rintro rfl h
    have h' := UInt8.lt_iff_toNat_lt.mp h
    simp only [UInt8.reduceToNat] at h0 h'
    omega
  have hF4 : c0 = 0xF4 → ¬ 0x90 ≤ c1 := by
    rintro rfl h
    have h' := UInt8.le_iff_toNat_le.mp h
    simp only [UInt8.reduceToNat] at h0 h'
    omega
  simp only [utf8SecondByteRejected, if_neg (show ¬ (4 : Nat) = 3 by omega), if_pos,
    Bool.or_eq_false_iff, Bool.and_eq_false_imp, decide_eq_true_eq, decide_eq_false_iff_not]
  exact ⟨hF0, hF4⟩

/-! ### One round -/

theorem utf8Advance_char (c : Char) (rest : Text) :
    utf8Advance (String.utf8EncodeChar c ++ rest) = some (String.utf8EncodeChar c).length := by
  have hrange := char_range c
  have hshape := Utf8.shape c
  generalize String.utf8EncodeChar c = bs at hshape ⊢
  cases hshape with
  | one b hb hv =>
    show (if b ≤ 0x7F then _ else _) = _
    rw [if_pos ((ascii_iff b).mpr (by omega))]
    rfl
  | two b0 b1 h0 h1 hv =>
    show (if b0 ≤ 0x7F then _ else _) = _
    rw [if_neg (by rw [ascii_iff]; omega), utf8Need_eq, if_pos (by omega)]
    simp [continuation (b := b1) (by omega) (by omega), utf8SecondByteRejected]
  | three b0 b1 b2 h0 h1 h2 hv =>
    show (if b0 ≤ 0x7F then _ else _) = _
    rw [if_neg (by rw [ascii_iff]; omega), utf8Need_eq, if_neg (by omega), if_pos (by omega)]
    simp [continuation (b := b1) (by omega) (by omega),
      continuation (b := b2) (by omega) (by omega), secondByte_three h0 h1 hv]
  | four b0 b1 b2 b3 h0 h1 h2 h3 hv =>
    show (if b0 ≤ 0x7F then _ else _) = _
    rw [if_neg (by rw [ascii_iff]; omega), utf8Need_eq, if_neg (by omega), if_neg (by omega),
      if_pos (by omega)]
    simp [continuation (b := b1) (by omega) (by omega),
      continuation (b := b2) (by omega) (by omega),
      continuation (b := b3) (by omega) (by omega), secondByte_four h0 h1 hv]

theorem utf8Advance_beginning (hpre : x <+: String.utf8EncodeChar c)
    (hne : x ≠ String.utf8EncodeChar c) : utf8Advance x = none := by
  have hrange := char_range c
  have hlt : x.length < (String.utf8EncodeChar c).length := by
    rcases Nat.lt_or_ge x.length (String.utf8EncodeChar c).length with h | h
    · exact h
    · exact absurd (hpre.eq_of_length_le h) hne
  cases x with
  | nil => rfl
  | cons b tail =>
    have hlead : ∀ (need : Nat) {b0 : UInt8} {bs : Text}, b :: tail <+: b0 :: bs →
        ¬ b0.toNat ≤ 0x7F → utf8Need b0 = some need → tail.length + 1 < need →
        utf8Advance (b :: tail) = none := by
      intro need b0 bs hp h7 hneed hshort
      obtain rfl := (cons_prefix_cons.mp hp).1
      show (if b ≤ 0x7F then _ else _) = _
      rw [if_neg (by rwa [ascii_iff]), hneed]
      show (if tail.length + 1 < need then _ else _) = _
      rw [if_pos hshort]
    have hshape := Utf8.shape c
    generalize String.utf8EncodeChar c = bs at hshape hpre hlt
    cases hshape with
    | one b0 hb hv =>
      simp only [length_cons, length_nil] at hlt
      omega
    | two b0 b1 h0 h1 hv =>
      refine hlead 2 hpre (by omega) ?_ (by simpa using hlt)
      rw [utf8Need_eq, if_pos (by omega)]
    | three b0 b1 b2 h0 h1 h2 hv =>
      refine hlead 3 hpre (by omega) ?_ (by simpa using hlt)
      rw [utf8Need_eq, if_neg (by omega), if_pos (by omega)]
    | four b0 b1 b2 b3 h0 h1 h2 h3 hv =>
      refine hlead 4 hpre (by omega) ?_ (by simpa using hlt)
      rw [utf8Need_eq, if_neg (by omega), if_neg (by omega), if_pos (by omega)]

theorem utf8Advance_beginsNext (h : Utf8.BeginsNext x cs) : utf8Advance x = none := by
  rcases h with rfl | ⟨c, rest, -, hpre, hne⟩
  · rfl
  · exact utf8Advance_beginning hpre hne

/-! ### The loop -/

theorem utf8ValidLoop_eq (hx : Utf8.BeginsNext x after)
    (s : Text) (cs : List Char) (fuel valid : Nat) (hdrop : s.drop valid = Utf8.encode cs ++ x)
    (hfuel : (Utf8.encode cs).length ≤ fuel) :
    utf8ValidLoop s fuel valid = valid + (Utf8.encode cs).length := by
  induction cs generalizing fuel valid with
  | nil =>
    cases fuel with
    | zero => rfl
    | succ fuel =>
      rw [utf8ValidLoop, hdrop, Utf8.encode_nil, nil_append, utf8Advance_beginsNext hx]
      rfl
  | cons c rest ih =>
    have hpos : 0 < (String.utf8EncodeChar c).length :=
      length_pos_iff.mpr String.utf8EncodeChar_ne_nil
    rw [Utf8.encode_cons, length_append] at hfuel
    rw [Utf8.encode_cons, append_assoc] at hdrop
    obtain ⟨fuel, rfl⟩ : ∃ f, fuel = f + 1 := ⟨fuel - 1, by omega⟩
    have hnext : s.drop (valid + (String.utf8EncodeChar c).length) = Utf8.encode rest ++ x := by
      rw [← drop_drop, hdrop, drop_left]
    rw [utf8ValidLoop, hdrop, utf8Advance_char]
    show utf8ValidLoop s fuel _ = _
    rw [ih fuel _ hnext (by omega), Utf8.encode_cons, length_append]
    omega

theorem utf8ValidPrefixLength_eq (hx : Utf8.BeginsNext x after) :
    utf8ValidPrefixLength (Utf8.encode cs ++ x) = (Utf8.encode cs).length := by
  unfold utf8ValidPrefixLength
  rw [utf8ValidLoop_eq hx _ cs _ 0 rfl (by simp), Nat.zero_add]

/-! ### Joining pieces -/

/-- Where the joining stands in a valid text: `passed` has gone on, `waiting` waits
and `rest` has not been generated. -/
structure Joined (passed waiting rest : Text) : Prop where
  boundary : ∃ cs after, passed = Utf8.encode cs ∧ waiting ++ rest = Utf8.encode after ∧
    Utf8.BeginsNext waiting after

theorem Joined.start {text : Text} (h : Utf8.Valid text) : Joined [] [] text := by
  obtain ⟨cs, rfl⟩ := h
  exact ⟨[], cs, rfl, rfl, Or.inl rfl⟩

/-- **One piece**: nothing is lost, and what waits is again the beginning of a
character. -/
theorem Joined.piece {piece rest : Text} (h : Joined passed waiting (piece ++ rest)) :
    (reassemble waiting piece).1 ++ (reassemble waiting piece).2 = waiting ++ piece ∧
      Joined (passed ++ (reassemble waiting piece).1) (reassemble waiting piece).2 rest := by
  obtain ⟨cs, after, rfl, hrest, hbegins⟩ := h.boundary
  unfold reassemble
  by_cases hempty : piece.isEmpty
  · obtain rfl := List.isEmpty_iff.mp hempty
    rw [if_pos hempty]
    exact ⟨by simp, ⟨cs, after, by simp, hrest, hbegins⟩⟩
  rw [if_neg hempty]
  rw [← append_assoc] at hrest
  have hbegin : waiting ++ piece <+: Utf8.encode after := ⟨rest, hrest⟩
  obtain ⟨cs₁, cs₂, x, rfl, hsplit, hx⟩ := Utf8.exists_split hbegin
  refine ⟨take_append_drop _ _, ?_⟩
  dsimp only
  rw [hsplit, utf8ValidPrefixLength_eq hx, take_left, drop_left]
  rw [hsplit, Utf8.encode_append, append_assoc, append_cancel_left_eq] at hrest
  exact ⟨cs ++ cs₁, cs₂, by simp, hrest, hx⟩

theorem Joined.eq_nil (h : Joined passed waiting []) : waiting = [] := by
  obtain ⟨cs, after, -, hrest, hbegins⟩ := h.boundary
  rw [append_nil] at hrest
  exact hbegins.eq_nil_of_encode hrest

end DenseCore.Runtime
