/-
Lower case of ASCII.

On bytes below 0x80 `strings.ToLower` goes byte by byte and never looks at the table,
so a text of such bytes in front of another one is lowered on its own, and any text may be
cut before such a byte.  A word of bytes that no other character has as its lower case is
in the lower case of a text only where the text spells it.
-/
import DenseCore.Server.ToolParser

namespace DenseCore.Server

open List

open Lib (Bytes)

/-- A capital letter becomes small, every other byte stays. -/
def lowerByte (b : UInt8) : UInt8 := if 0x41 ≤ b.toNat ∧ b.toNat ≤ 0x5A then b + 0x20 else b

variable {lower : Char → Char}

variable {b : UInt8} {x s word : Bytes}

theorem runes_cons (hb : b.toNat < 0x80) (s : Bytes) :
    Lib.Utf8.runes (b :: s) = Char.ofNat b.toNat :: Lib.Utf8.runes s := by
  show Lib.Utf8.runesFrom (s.length + 1) (b :: s) = _
  rw [Lib.Utf8.runesFrom, Lib.Utf8.decodeRune_ascii hb]
  · rfl
  · exact fun hnil => by cases hnil

theorem toLower_cons (hb : b.toNat < 0x80) (s : Bytes) :
    toLower lower (b :: s) = lowerByte b :: toLower lower s := by
  have hnat : (Char.ofNat b.toNat).toNat = b.toNat := Lib.Utf8.toNat_charOfNat hb
  unfold toLower lowerByte
  rw [runes_cons hb, flatMap_cons, hnat, if_pos hb]
  by_cases hcapital : 0x41 ≤ b.toNat ∧ b.toNat ≤ 0x5A
  · have hsum : (b + 0x20).toNat = b.toNat + 0x20 := by
      rw [UInt8.toNat_add]
      show (b.toNat + 32) % 256 = b.toNat + 32
      omega
    rw [if_pos hcapital, if_pos hcapital, ← hsum, Lib.Utf8.utf8EncodeChar_ofNat (by omega)]
    rfl
  rw [if_neg hcapital, if_neg hcapital, Lib.Utf8.utf8EncodeChar_ofNat hb]
  rfl

theorem toLower_append_ascii (hx : ∀ b ∈ x, b.toNat < 0x80) (s : Bytes) :
    toLower lower (x ++ s) = x.map lowerByte ++ toLower lower s := by
  induction x with
  | nil => rfl
  | cons b rest ih =>
    rw [cons_append, toLower_cons (hx b mem_cons_self), ih fun c hc => hx c (mem_cons_of_mem b hc)]
    rfl

theorem toLower_ascii (hx : ∀ b ∈ x, b.toNat < 0x80) : toLower lower x = x.map lowerByte := by
  have h : toLower lower (x ++ []) = _ := toLower_append_ascii hx []
  rw [append_nil] at h
  rw [h]
  exact append_nil _

theorem toLower_append
    (hx : ∀ b ∈ x, b.toNat < 0x80 ∧ ¬ (0x41 ≤ b.toNat ∧ b.toNat ≤ 0x5A)) (s : Bytes) :
    toLower lower (x ++ s) = x ++ toLower lower s := by
  have hsame : x.map lowerByte = x.map id :=
    map_congr_left fun b hb => if_neg (hx b hb).2
  rw [toLower_append_ascii fun b hb => (hx b hb).1, hsame, map_id]

/-! ### The first byte -/

theorem runes_high (hb : 0x80 ≤ b.toNat) (s : Bytes) :
    ∃ c rest, Lib.Utf8.runes (b :: s) = c :: rest ∧ 0x80 ≤ c.toNat := by
  obtain ⟨hc, -⟩ := Lib.Utf8.decodeRune_high hb s
  exact ⟨_, _, rfl, hc⟩

theorem lowerByte_of_head {x : UInt8} {rest : Bytes}
    (hlower : ∀ c : Char, 0x80 ≤ c.toNat → (lower c).toNat ≠ x.toNat) (hx : x.toNat < 0x80)
    (h : toLower lower (b :: s) = x :: rest) : lowerByte b = x := by
  by_cases hb : b.toNat < 0x80
  · rw [toLower_cons hb] at h
    exact (List.cons.inj h).1
  obtain ⟨c, cs, hrunes, hc⟩ := runes_high (Nat.le_of_not_lt hb) s
  exfalso
  unfold toLower at h
  rw [hrunes, flatMap_cons, if_neg (by omega), if_neg (by omega)] at h
  cases hencode : String.utf8EncodeChar (lower c) with
  | nil =>
    have hshape := Lib.Utf8.shape (lower c)
    rw [hencode] at hshape
    cases hshape
  | cons y ys =>
    rw [hencode] at h
    obtain rfl := (List.cons.inj h).1
    exact hlower c hc ((Lib.Utf8.encode_head hencode).1 hx).symm

/-! ### Words -/

theorem toLower_append_of_head {y : Bytes} (hy : Lib.Utf8.AsciiHead y) (x : Bytes) :
    toLower lower (x ++ y) = toLower lower x ++ toLower lower y := by
  unfold toLower
  rw [Lib.Utf8.runes_append hy, flatMap_append]

theorem lowerByte_lt : (lowerByte b).toNat < 0x80 ↔ b.toNat < 0x80 := by
  unfold lowerByte
  split
  · rename_i hcapital
    have hsum : (b + 0x20).toNat = b.toNat + 0x20 := by
      rw [UInt8.toNat_add]
      show (b.toNat + 32) % 256 = b.toNat + 32
      omega
    omega
  · rfl

/-- No character outside ASCII has a letter of the word as its lower case. -/
def Unmade (lower : Char → Char) (word : Bytes) : Prop :=
  ∀ b ∈ word, b.toNat < 0x80 ∧ ∀ c : Char, 0x80 ≤ c.toNat → (lower c).toNat ≠ b.toNat

theorem Unmade.spelled_front (hword : Unmade lower word) :
    ∀ {s : Bytes}, word <+: toLower lower s → word <+: s.map lowerByte := by
  induction word with
  | nil => exact fun _ => nil_prefix
  | cons x word ih =>
    rintro s ⟨rest, hrest⟩
    obtain ⟨hx, hmade⟩ := hword x mem_cons_self
    cases s with
    | nil => cases hrest
    | cons b s =>
      have hb : lowerByte b = x := lowerByte_of_head hmade hx hrest.symm
      rw [toLower_cons (lowerByte_lt.mp (hb ▸ hx))] at hrest
      rw [map_cons, hb, prefix_cons_inj]
      exact ih (fun b hb => hword b (mem_cons_of_mem x hb)) ⟨rest, (List.cons.inj hrest).2⟩

theorem toLower_first (lower : Char → Char) (b : UInt8) (s : Bytes) : ∃ c rest, rest <:+ s ∧
    toLower lower (b :: s) = String.utf8EncodeChar c ++ toLower lower rest := by
  have hrest : (Lib.Utf8.decodeRune (b :: s)).2 <:+ s := by
    by_cases hb : b.toNat < 0x80
    · rw [Lib.Utf8.decodeRune_ascii hb]
    obtain ⟨-, tail, -, hs⟩ := Lib.Utf8.decodeRune_high (Nat.le_of_not_lt hb) s
    exact ⟨tail, hs.symm⟩
  unfold toLower
  rw [Lib.Utf8.runes_of_ne_nil (cons_ne_nil b s), flatMap_cons]
  exact ⟨_, _, hrest, rfl⟩

/-- **A word that no character makes** is in the lower case only where the text spells it. -/
theorem Unmade.spelled (hword : Unmade lower word)
    (h : word <:+: toLower lower s) : word <:+: s.map lowerByte := by
  induction hn : s.length using Nat.strong_induction_on generalizing s with
  | _ n ih =>
    cases s with
    | nil => exact h
    | cons b s =>
      obtain ⟨c, rest, hrest, hlower⟩ := toLower_first lower b s
      have hlater : word <:+: toLower lower rest → word <:+: (b :: s).map lowerByte := by
        intro hin
        have hlength := hrest.length_le
        have hspelled := ih rest.length (by rw [← hn, length_cons]; omega) hin rfl
        exact hspelled.trans ((hrest.trans (suffix_cons b s)).map lowerByte).isInfix
      obtain ⟨u, v, huv⟩ := h
      rw [hlower, append_assoc] at huv
      rcases List.append_eq_append_iff.mp huv with ⟨z, hz, hwv⟩ | ⟨z, rfl, hR⟩
      · cases u with
        | nil =>
          obtain rfl : String.utf8EncodeChar c = z := hz
          rw [← hlower] at hwv
          exact (hword.spelled_front ⟨v, hwv⟩).isInfix
        | cons a u =>
          cases word with
          | nil => exact nil_infix
          | cons x word =>
            cases z with
            | nil => exact hlater ⟨[], v, hwv⟩
            | cons y z =>
              obtain rfl : x = y := (List.cons.inj hwv).1
              have hhigh := Lib.Utf8.encode_tail hz x (by simp)
              have hlow := (hword x mem_cons_self).1
              omega
      · exact hlater ⟨z, v, by rw [hR, append_assoc]⟩

end DenseCore.Server
