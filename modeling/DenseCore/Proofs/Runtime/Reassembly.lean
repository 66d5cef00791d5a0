/-
Joining any pieces: what is passed on and what waits.

`Utf8ValidPrefixLength` stops at a lead byte that announces more bytes than there are, and
looks at the bytes behind it only when all of them are there.  So what waits begins with such
a lead byte, and is the beginning of a character exactly when those bytes could follow it.
Bytes that could not are held back all the same.
-/
import DenseCore.Proofs.Runtime.Utf8Prefix

namespace DenseCore.Runtime

open Option hiding any_eq_true

open List hiding not_le not_lt

open DenseCore.Lib

/-- The texts passed on for the pieces, one after the other, and what waits at the end. -/
def reassembleAll : Text → List Text → List Text × Text
  | utf8Pending, [] => ([], utf8Pending)
  | utf8Pending, piece :: rest =>
    let r := reassemble utf8Pending piece
    let last := reassembleAll r.2 rest
    (r.1 :: last.1, last.2)

/-- What is right about the joining, after each of the pieces and at the end. -/
structure Reassembles (pieces : List Text) : Prop where
  spells : ∀ before, before <+: pieces →
    (reassembleAll [] before).1.flatten ++ (reassembleAll [] before).2 = before.flatten
  /-- What waits is a part of a character, not all of it. -/
  waits : ∀ before, before <+: pieces → ∃ c,
    (reassembleAll [] before).2 <+: String.utf8EncodeChar c ∧
      (reassembleAll [] before).2 ≠ String.utf8EncodeChar c
  valid : Utf8.Valid pieces.flatten →
    (∀ text ∈ (reassembleAll [] pieces).1, Utf8.Valid text) ∧ (reassembleAll [] pieces).2 = []

/-- The bytes behind a lead byte, so far as they are there, could follow it. -/
def BeginsLegally (need : Nat) (c0 : UInt8) (tail : Text) : Prop :=
  (∀ cx ∈ tail, cx &&& 0xC0 = 0x80) ∧ ∀ c1 ∈ tail.head?, utf8SecondByteRejected need c0 c1 = false

/-- A lead byte that announces more bytes than the text has is followed by bytes that could
follow it. -/
def CutsLegally (text : Text) : Prop :=
  ∀ before c0 tail need, text = before ++ c0 :: tail → utf8Need c0 = some need →
    tail.length + 1 < need → BeginsLegally need c0 tail

/-! ### Bytes -/

theorem continuation_iff_ofNat : ∀ n < 256,
    UInt8.ofNat n &&& 0xC0 = 0x80 ↔ 0x80 ≤ n ∧ n < 0xC0 := by decide +kernel

theorem continuation_iff (b : UInt8) : b &&& 0xC0 = 0x80 ↔ Utf8.Tail b := by
  have h := continuation_iff_ofNat b.toNat b.toNat_lt
  rwa [UInt8.ofNat_toNat] at h

variable {b c0 : UInt8} {need : Nat} {tail passed rest received waiting : Text}

/-- A continuation byte is no lead byte. -/
theorem utf8Need_tail (h : Utf8.Tail b) : utf8Need b = none := by
  unfold Utf8.Tail at h
  rw [utf8Need_eq, if_neg (by omega), if_neg (by omega), if_neg (by omega)]

theorem utf8Need_ascii (h : b ≤ 0x7F) : utf8Need b = none := by
  rw [ascii_iff] at h
  rw [utf8Need_eq, if_neg (by omega), if_neg (by omega), if_neg (by omega)]

/-- The lead bytes. -/
theorem utf8Need_cases (h : utf8Need b = some need) :
    (need = 2 ∧ 0xC2 ≤ b.toNat ∧ b.toNat < 0xE0) ∨ (need = 3 ∧ 0xE0 ≤ b.toNat ∧ b.toNat < 0xF0) ∨
      (need = 4 ∧ 0xF0 ≤ b.toNat ∧ b.toNat ≤ 0xF4) := by
  rw [utf8Need_eq] at h
  split at h
  · exact Or.inl ⟨(some.inj h).symm, by assumption⟩
  split at h
  · exact Or.inr (Or.inl ⟨(some.inj h).symm, by assumption⟩)
  split at h
  · exact Or.inr (Or.inr ⟨(some.inj h).symm, by assumption⟩)
  · exact nomatch h

variable {c1 : UInt8} {s more : Text} {n : Nat}

theorem secondByte_three_iff : utf8SecondByteRejected 3 c0 c1 = false ↔
    (c0.toNat = 0xE0 → 0xA0 ≤ c1.toNat) ∧ (c0.toNat = 0xED → c1.toNat < 0xA0) := by
  unfold utf8SecondByteRejected
  simp only [if_true, Bool.or_eq_false_iff, Bool.and_eq_false_imp, decide_eq_true_eq,
    decide_eq_false_iff_not, UInt8.lt_iff_toNat_lt, UInt8.le_iff_toNat_le, ← UInt8.toNat_inj,
    not_lt, not_le]
  rfl

theorem secondByte_four_iff : utf8SecondByteRejected 4 c0 c1 = false ↔
    (c0.toNat = 0xF0 → 0x90 ≤ c1.toNat) ∧ (c0.toNat = 0xF4 → c1.toNat < 0x90) := by
  unfold utf8SecondByteRejected
  rw [if_neg (by decide)]
  simp only [if_true, Bool.or_eq_false_iff, Bool.and_eq_false_imp, decide_eq_true_eq,
    decide_eq_false_iff_not, UInt8.lt_iff_toNat_lt, UInt8.le_iff_toNat_le, ← UInt8.toNat_inj,
    not_lt, not_le]
  rfl

/-! ### Beginnings of characters -/

theorem head_of_beginning {bs : Text} (h : tail <+: bs) (hb : b ∈ tail.head?) : b ∈ bs.head? := by
  obtain ⟨more, rfl⟩ := h
  cases tail with
  | nil => exact nomatch hb
  | cons x rest => exact hb

/-- The beginning of a character begins legally. -/
theorem beginsLegally_of_beginning {c : Char}
    (hneed : utf8Need c0 = some need) (h : c0 :: tail <+: String.utf8EncodeChar c) :
    BeginsLegally need c0 tail := by
  have hcases := utf8Need_cases hneed
  have hrange := char_range c
  have hshape := Utf8.shape c
  generalize String.utf8EncodeChar c = bs at hshape h
  have htails : ∀ {b0 : UInt8} {rest : Text}, c0 :: tail <+: b0 :: rest →
      (∀ cx ∈ rest, Utf8.Tail cx) → (∀ c1 ∈ rest.head?, utf8SecondByteRejected need b0 c1 = false) →
      BeginsLegally need c0 tail := by
    intro b0 rest hpre hall hsecond
    obtain ⟨rfl, htail⟩ := cons_prefix_cons.mp hpre
    exact ⟨fun cx hcx => (continuation_iff cx).mpr (hall cx (htail.subset hcx)),
      fun c1 hc1 => hsecond c1 (head_of_beginning htail hc1)⟩
  cases hshape with
  | one b0 hb hv =>
    obtain rfl := (cons_prefix_cons.mp h).1
    omega
  | two b0 b1 h0 h1 hv =>
    obtain rfl := (cons_prefix_cons.mp h).1
    obtain rfl : need = 2 := by omega
    refine htails h ?_ fun c1 _ => rfl
    simp only [mem_singleton, forall_eq, Utf8.Tail]
    omega
  | three b0 b1 b2 h0 h1 h2 hv =>
    obtain rfl := (cons_prefix_cons.mp h).1
    obtain rfl : need = 3 := by omega
    refine htails h ?_ ?_
    · simp only [mem_cons, not_mem_nil, or_false, forall_eq_or_imp, forall_eq, Utf8.Tail]
      omega
    rintro c1 hc1
    obtain rfl : b1 = c1 := some.inj hc1
    exact secondByte_three h0 h1 hv
  | four b0 b1 b2 b3 h0 h1 h2 h3 hv =>
    obtain rfl := (cons_prefix_cons.mp h).1
    obtain rfl : need = 4 := by omega
    refine htails h ?_ ?_
    · simp only [mem_cons, not_mem_nil, or_false, forall_eq_or_imp, forall_eq, Utf8.Tail]
      omega
    rintro c1 hc1
    obtain rfl : b1 = c1 := some.inj hc1
    exact secondByte_four h0 h1 hv

/-- A second byte that is allowed behind any lead byte of three bytes, or of four. -/
def someSecond (c0 : UInt8) : UInt8 :=
  if c0.toNat = 0xE0 then 0xA0 else if c0.toNat = 0xF0 then 0x90 else 0x80

theorem someSecond_eq (c0 : UInt8) : (someSecond c0).toNat =
    if c0.toNat = 0xE0 then 0xA0 else if c0.toNat = 0xF0 then 0x90 else 0x80 := by
  unfold someSecond
  rw [apply_ite UInt8.toNat, apply_ite UInt8.toNat]
  rfl

theorem second_allowed (h : BeginsLegally need c0 tail) : Utf8.Tail (tail.headD (someSecond c0)) ∧
      (need = 3 → utf8SecondByteRejected 3 c0 (tail.headD (someSecond c0)) = false) ∧
      (need = 4 → utf8SecondByteRejected 4 c0 (tail.headD (someSecond c0)) = false) := by
  cases tail with
  | nil =>
    have hsecond := someSecond_eq c0
    rw [headD_nil, secondByte_three_iff, secondByte_four_iff]
    unfold Utf8.Tail
    split at hsecond
    · omega
    · split at hsecond <;> omega
  | cons c1 rest =>
    refine ⟨(continuation_iff c1).mp (h.1 c1 mem_cons_self), ?_, ?_⟩
    · rintro rfl
      exact h.2 c1 rfl
    rintro rfl
    exact h.2 c1 rfl

theorem tail_80 : Utf8.Tail 0x80 := by
  unfold Utf8.Tail
  decide

/-- **Bytes that could follow** are the beginning of a character. -/
theorem exists_char_of_beginsLegally
    (hneed : utf8Need c0 = some need) (hshort : tail.length + 1 < need)
    (h : BeginsLegally need c0 tail) :
    ∃ c, c0 :: tail <+: String.utf8EncodeChar c ∧ c0 :: tail ≠ String.utf8EncodeChar c := by
  obtain ⟨hsecond, hthree, hfour⟩ := second_allowed h
  have hpart : ∀ {c : Char} {more : Text}, String.utf8EncodeChar c = c0 :: tail ++ more →
      more ≠ [] → c0 :: tail <+: String.utf8EncodeChar c ∧ c0 :: tail ≠ String.utf8EncodeChar c := by
    intro c more heq hmore
    refine ⟨⟨more, heq.symm⟩, fun hall => hmore ?_⟩
    rw [heq] at hall
    exact self_eq_append_right.mp hall
  rcases utf8Need_cases hneed with ⟨rfl, hlo, hhi⟩ | ⟨rfl, hlo, hhi⟩ | ⟨rfl, hlo, hhi⟩
  · obtain rfl : tail = [] := length_eq_zero_iff.mp (by omega)
    obtain ⟨c, hc⟩ := Utf8.exists_char_two ⟨hlo, hhi⟩ tail_80
    exact ⟨c, hpart hc (by simp)⟩
  · obtain ⟨hlong, hsurrogate⟩ := secondByte_three_iff.mp (hthree rfl)
    obtain ⟨c, hc⟩ := Utf8.exists_char_three ⟨hlo, hhi⟩ hsecond tail_80 hlong hsurrogate
    match tail, hshort with
    | [], _ => exact ⟨c, hpart hc (by simp)⟩
    | [b1], _ => exact ⟨c, hpart hc (by simp)⟩
  obtain ⟨hlong, hlarge⟩ := secondByte_four_iff.mp (hfour rfl)
  match tail, hshort with
  | [], _ =>
    obtain ⟨c, hc⟩ := Utf8.exists_char_four ⟨hlo, hhi⟩ hsecond tail_80 tail_80 hlong hlarge
    exact ⟨c, hpart hc (by simp)⟩
  | [b1], _ =>
    obtain ⟨c, hc⟩ := Utf8.exists_char_four ⟨hlo, hhi⟩ hsecond tail_80 tail_80 hlong hlarge
    exact ⟨c, hpart hc (by simp)⟩
  | [b1, b2], _ =>
    have htail := (continuation_iff b2).mp (h.1 b2 (by simp))
    obtain ⟨c, hc⟩ := Utf8.exists_char_four ⟨hlo, hhi⟩ hsecond htail tail_80 hlong hlarge
    exact ⟨c, hpart hc (by simp)⟩

/-! ### Where the scan stops -/

/-- It stops at the end, or at a lead byte that announces more bytes than there are. -/
def Stops (rest : Text) : Prop :=
  rest = [] ∨ ∃ c0 tail need, rest = c0 :: tail ∧ utf8Need c0 = some need ∧ tail.length + 1 < need

/-- The lead bytes passed have as many bytes behind them as they announce. -/
def Settled (passed rest : Text) : Prop :=
  ∀ before c0 tail need, passed = before ++ c0 :: tail → utf8Need c0 = some need →
    need ≤ (tail ++ rest).length + 1

theorem stops_of_none (h : utf8Advance s = none) : Stops s := by
  cases s with
  | nil => exact Or.inl rfl
  | cons c0 tail =>
    refine Or.inr ?_
    rw [utf8Advance] at h
    split at h
    · exact nomatch h
    cases hneed : utf8Need c0 with
    | none => simp [hneed] at h
    | some need =>
      rw [hneed] at h
      dsimp only at h
      split at h
      · exact ⟨c0, tail, need, rfl, hneed, by assumption⟩
      split at h
      · exact nomatch h
      · split at h <;> exact nomatch h

/-- What a round passes: one byte, or the bytes that a lead byte announces. -/
theorem advance_cases (h : utf8Advance (c0 :: tail) = some n) :
    (∀ need, utf8Need c0 = some need → need ≤ tail.length + 1) ∧
      (n = 1 ∨ utf8Need c0 = some n ∧ n ≤ tail.length + 1 ∧
        ∀ cx ∈ tail.take (n - 1), Utf8.Tail cx) := by
  rw [utf8Advance] at h
  split at h
  · rename_i hascii
    refine ⟨fun need hneed => ?_, Or.inl (some.inj h).symm⟩
    rw [utf8Need_ascii hascii] at hneed
    exact nomatch hneed
  cases hneed : utf8Need c0 with
  | none =>
    rw [hneed] at h
    exact ⟨fun _ hnone => (nomatch hnone), Or.inl (some.inj h).symm⟩
  | some need =>
    rw [hneed] at h
    dsimp only at h
    split at h
    · exact nomatch h
    rename_i henough
    refine ⟨fun need' heq => ?_, ?_⟩
    · cases heq
      omega
    split at h
    · exact Or.inl (some.inj h).symm
    rename_i htails
    split at h
    · exact Or.inl (some.inj h).symm
    cases h
    refine Or.inr ⟨rfl, by omega, fun cx hcx => (continuation_iff cx).mp ?_⟩
    simp only [any_eq_true, not_exists, not_and, bne_iff_ne, ne_eq, not_not] at htails
    exact htails cx hcx

/-- **One round**: what it passes is settled. -/
theorem settled_of_advance (h : utf8Advance s = some n) :
    0 < n ∧ n ≤ s.length ∧ Settled (s.take n) (s.drop n) := by
  cases s with
  | nil => exact nomatch h
  | cons c0 tail =>
    obtain ⟨hfirst, hrest⟩ := advance_cases h
    have hn : 0 < n ∧ n ≤ tail.length + 1 := by
      rcases hrest with rfl | ⟨hneed, hle, -⟩
      · omega
      have hcases := utf8Need_cases hneed
      omega
    refine ⟨hn.1, hn.2, fun before b u need hsplit hneed => ?_⟩
    obtain ⟨k, rfl⟩ : ∃ k, n = k + 1 := ⟨n - 1, by omega⟩
    rw [take_succ_cons] at hsplit
    rw [drop_succ_cons]
    cases before with
    | nil =>
      -- the lead byte of the round
      obtain ⟨rfl, htake⟩ := List.cons.inj hsplit
      rw [← htake, take_append_drop]
      exact hfirst need hneed
    | cons c before =>
      -- no other byte of the round is a lead byte
      obtain ⟨rfl, htake⟩ := List.cons.inj hsplit
      have hmem : b ∈ tail.take k := by rw [htake]; simp
      rcases hrest with hone | ⟨-, -, htails⟩
      · obtain rfl : k = 0 := by omega
        exact nomatch hmem
      rw [utf8Need_tail (htails b hmem)] at hneed
      exact nomatch hneed

theorem Settled.append (h : Settled passed (more ++ rest))
    (hmore : Settled more rest) : Settled (passed ++ more) rest := by
  intro before c0 tail need hsplit hneed
  rcases append_eq_append_iff.mp hsplit with ⟨x, hbefore, hx⟩ | ⟨x, hpassed, hx⟩
  · exact hmore x c0 tail need hx hneed
  cases x with
  | nil => exact hmore [] c0 tail need (by simpa using hx.symm) hneed
  | cons b x =>
    obtain ⟨rfl, rfl⟩ := List.cons.inj hx
    have henough := h before _ x need hpassed hneed
    simp only [append_eq, length_append] at henough ⊢
    omega

theorem Settled.mono (h : Settled passed rest) : Settled passed (rest ++ more) := by
  intro before c0 tail need hsplit hneed
  have henough := h before c0 tail need hsplit hneed
  simp only [length_append] at henough ⊢
  omega

/-- **The scan**, from where it stands. -/
theorem utf8ValidLoop_settled (s : Text) (fuel valid : Nat) (hfuel : s.length ≤ valid + fuel)
    (h : Settled (s.take valid) (s.drop valid)) :
    Settled (s.take (utf8ValidLoop s fuel valid)) (s.drop (utf8ValidLoop s fuel valid)) ∧
      Stops (s.drop (utf8ValidLoop s fuel valid)) := by
  induction fuel generalizing valid with
  | zero => exact ⟨h, Or.inl (drop_eq_nil_iff.mpr hfuel)⟩
  | succ fuel ih =>
    rw [utf8ValidLoop]
    cases hadvance : utf8Advance (s.drop valid) with
    | none => exact ⟨h, stops_of_none hadvance⟩
    | some n =>
      obtain ⟨hpos, -, hround⟩ := settled_of_advance hadvance
      refine ih (valid + n) (by omega) ?_
      rw [take_add, ← drop_drop]
      refine Settled.append ?_ hround
      rwa [take_append_drop]

theorem utf8ValidPrefixLength_settled (s : Text) :
    Settled (s.take (utf8ValidPrefixLength s)) (s.drop (utf8ValidPrefixLength s)) ∧
      Stops (s.drop (utf8ValidPrefixLength s)) := by
  refine utf8ValidLoop_settled s s.length 0 (by omega) ?_
  rintro before c0 tail need hsplit -
  simp at hsplit

/-! ### Joining -/

/-- Where the joining stands: `received` is what the pieces spell. -/
structure Standing (received passed waiting : Text) : Prop where
  spells : passed ++ waiting = received
  settled : Settled passed waiting
  stops : Stops waiting

theorem Standing.start : Standing [] [] [] :=
  ⟨rfl, fun _ _ _ _ hsplit _ => by simp at hsplit, Or.inl rfl⟩

/-- **One piece.** -/
theorem Standing.piece (h : Standing received passed waiting) (piece : Text) :
    Standing (received ++ piece) (passed ++ (reassemble waiting piece).1)
      (reassemble waiting piece).2 := by
  unfold reassemble
  by_cases hempty : piece.isEmpty
  · obtain rfl := List.isEmpty_iff.mp hempty
    rw [if_pos hempty]
    exact ⟨by simp [h.spells], by simpa using h.settled, h.stops⟩
  rw [if_neg hempty]
  obtain ⟨hscan, hstops⟩ := utf8ValidPrefixLength_settled (waiting ++ piece)
  dsimp only
  refine ⟨?_, Settled.append ?_ hscan, hstops⟩
  · rw [append_assoc, take_append_drop, ← append_assoc, h.spells]
  rw [take_append_drop]
  exact h.settled.mono

theorem standing_all (h : Standing received passed waiting) (pieces : List Text) :
    Standing (received ++ pieces.flatten) (passed ++ (reassembleAll waiting pieces).1.flatten)
      (reassembleAll waiting pieces).2 := by
  induction pieces generalizing received passed waiting with
  | nil => simpa [reassembleAll] using h
  | cons piece rest ih =>
    have hrest := ih (h.piece piece)
    simpa [reassembleAll] using hrest

/-- **What waits is the beginning of a character** exactly when the text received is cut
legally. -/
theorem Standing.waits_iff (h : Standing received passed waiting) :
    (∃ c, waiting <+: String.utf8EncodeChar c ∧ waiting ≠ String.utf8EncodeChar c) ↔
      CutsLegally received := by
  have hspells := h.spells
  constructor
  · rintro ⟨c, hpre, -⟩ before c0 tail need hsplit hneed hshort
    rw [hsplit] at hspells
    rcases append_eq_append_iff.mp hspells with ⟨x, hbefore, hwaiting⟩ | ⟨x, hpassed, hx⟩
    · cases x with
      | nil =>
        rw [hwaiting] at hpre
        exact beginsLegally_of_beginning hneed hpre
      | cons b x =>
        -- a lead byte inside of what waits
        obtain ⟨b0, rest0, need0, rfl, hneed0, -⟩ :
            ∃ b0 rest0 need0, waiting = b0 :: rest0 ∧ utf8Need b0 = some need0 ∧
              rest0.length + 1 < need0 := by
          rcases h.stops with hnil | hlead
          · simp [hwaiting] at hnil
          · exact hlead
        obtain ⟨-, rfl⟩ := List.cons.inj hwaiting
        have htail := (beginsLegally_of_beginning hneed0 hpre).1 c0 (by simp)
        rw [utf8Need_tail ((continuation_iff c0).mp htail)] at hneed
        exact nomatch hneed
    · cases x with
      | nil =>
        rw [nil_append] at hx
        rw [← hx] at hpre
        exact beginsLegally_of_beginning hneed hpre
      | cons b x =>
        -- a lead byte that was passed
        obtain ⟨rfl, rfl⟩ := List.cons.inj hx
        have henough := h.settled before _ x need hpassed hneed
        simp only [append_eq, length_append] at henough hshort
        omega
  · intro hlegal
    rcases h.stops with rfl | ⟨c0, tail, need, rfl, hneed, hshort⟩
    · exact ⟨'a', nil_prefix, fun hnil => String.utf8EncodeChar_ne_nil hnil.symm⟩
    exact exists_char_of_beginsLegally hneed hshort
      (hlegal passed c0 tail need hspells.symm hneed hshort)

/-! ### Valid texts -/

theorem Joined.piece_valid {piece : Text}
    (h : Joined passed waiting (piece ++ rest)) : Utf8.Valid (reassemble waiting piece).1 := by
  obtain ⟨cs, after, rfl, hrest, hbegins⟩ := h.boundary
  unfold reassemble
  by_cases hempty : piece.isEmpty
  · rw [if_pos hempty]
    exact ⟨[], rfl⟩
  rw [if_neg hempty]
  rw [← append_assoc] at hrest
  obtain ⟨cs₁, cs₂, x, rfl, hsplit, hx⟩ := Utf8.exists_split (show waiting ++ piece <+: _ from
    ⟨rest, hrest⟩)
  dsimp only
  rw [hsplit, utf8ValidPrefixLength_eq hx, take_left]
  exact ⟨cs₁, rfl⟩

theorem Joined.all {pieces : List Text} (h : Joined passed waiting pieces.flatten) :
    (∀ text ∈ (reassembleAll waiting pieces).1, Utf8.Valid text) ∧
      (reassembleAll waiting pieces).2 = [] := by
  induction pieces generalizing passed waiting with
  | nil => exact ⟨fun _ hmem => (nomatch hmem), h.eq_nil⟩
  | cons piece rest ih =>
    rw [flatten_cons] at h
    obtain ⟨hvalid, hnil⟩ := ih h.piece.2
    exact ⟨forall_mem_cons.mpr ⟨h.piece_valid, hvalid⟩, hnil⟩

/-- **The joining is right exactly when no piece ends behind a lead byte whose next bytes are
there and could not follow it.** -/
theorem reassembles_iff (pieces : List Text) :
    Reassembles pieces ↔ ∀ before, before <+: pieces → CutsLegally before.flatten := by
  have hstanding := standing_all Standing.start
  constructor
  · intro h before hpre
    exact (hstanding before).waits_iff.mp (h.waits before hpre)
  intro h
  refine ⟨fun before _ => (hstanding before).spells,
    fun before hpre => (hstanding before).waits_iff.mpr (h before hpre), fun hvalid => ?_⟩
  exact (Joined.start hvalid).all

/-- `E2` announces three bytes, and `41` cannot follow it. -/
theorem letter_held_back :
    (reassembleAll [] [[0xE2, 0x41]]).2 = [0xE2, 0x41] ∧ ¬ Reassembles [[0xE2, 0x41]] := by
  refine ⟨by decide, fun h => ?_⟩
  obtain ⟨c, hpre, -⟩ := h.waits [[0xE2, 0x41]] (prefix_refl _)
  have hlegal := beginsLegally_of_beginning (show utf8Need 0xE2 = some 3 by decide) hpre
  exact absurd (hlegal.1 0x41 (by simp)) (by decide)

end DenseCore.Runtime
