/-
What `Marshal` writes is read back.

A string is written character by character, each as a chunk of a body that stands for
it.  So the text of a value is a text of the grammar for the same value, with every
number as it is printed (`reads_marshal`).
-/
import DenseCore.Lib.Float64Text
import DenseCore.Lib.JsonMaps
import DenseCore.Server.EncodingJson

namespace DenseCore.Server

open List hiding le_refl

open Lib (Bytes literal)
open Lib.Json
open Lib.Float64 (Finite formatFloat formatFloat_spec)
open Lib.Utf8 (encode decodeRune)

/-! ### Strings -/

theorem hexDigit_hexByte {n : Nat} (hn : n < 16) :
    hexDigit (hexByte n) = some n ∧ hexByte n ≠ 0x22 ∧ ¬ hexByte n < 0x20 ∧ hexByte n ≠ 0x5C := by
  have hall : ∀ n : Fin 16, hexDigit (hexByte n) = some n.val ∧ hexByte n ≠ 0x22 ∧
      ¬ hexByte n < 0x20 ∧ hexByte n ≠ 0x5C := by decide
  exact hall ⟨n, hn⟩

theorem chunk_hexByte {b : UInt8} (hb : b.toNat < 0x80) :
    Chunk (literal "\\u00" ++ [hexByte (b.toNat / 16), hexByte (b.toNat % 16)]) [b] := by
  obtain ⟨hhigh, hhigh'⟩ := hexDigit_hexByte (n := b.toNat / 16) (by omega)
  obtain ⟨hlow, hlow'⟩ := hexDigit_hexByte (n := b.toNat % 16) (by omega)
  have hu : hex4 0x30 0x30 (hexByte (b.toNat / 16)) (hexByte (b.toNat % 16)) = some b.toNat := by
    have hzero : hexDigit 0x30 = some 0 := rfl
    simp only [hex4, hzero, hhigh, hlow, bind, Option.bind_some, pure]
    congr 1
    omega
  have hchar : String.utf8EncodeChar (unitChar b.toNat) = [b] := by
    have hsurrogate : (isHigh b.toNat || isLow b.toNat) = false := by
      simp only [isHigh, isLow, Bool.or_eq_false_iff, Bool.and_eq_false_iff, decide_eq_false_iff_not]
      omega
    rw [unitChar, hsurrogate]
    exact Lib.Utf8.utf8EncodeChar_ofNat hb
  rw [← hchar]
  refine Chunk.unit hu ?_ fun x hx => ?_
  · simp only [isHigh, Bool.and_eq_false_iff, decide_eq_false_iff_not]
    omega
  simp only [mem_cons, not_mem_nil, or_false] at hx
  rcases hx with rfl | rfl | rfl | rfl
  · decide
  · decide
  · exact hhigh'
  · exact hlow'

theorem chunk_quoteByte {b : UInt8} (hb : b.toNat < 0x80) : Chunk (quoteByte b) [b] := by
  unfold quoteByte
  split
  · rename_i h
    rcases h with rfl | rfl <;> exact Chunk.escape rfl
  rename_i h
  rw [not_or] at h
  split
  · rename_i hb
    exact hb ▸ Chunk.escape rfl
  split
  · rename_i hb
    exact hb ▸ Chunk.escape rfl
  split
  · rename_i hb
    exact hb ▸ Chunk.escape rfl
  split
  · rename_i hb
    exact hb ▸ Chunk.escape rfl
  split
  · rename_i hb
    exact hb ▸ Chunk.escape rfl
  split
  · exact chunk_hexByte hb
  rename_i hspecial
  rw [not_or] at hspecial
  exact Chunk.byte h.2 hspecial.1 h.1

theorem chunk_high {q : Bytes} (h : ∀ b ∈ q, 0x80 ≤ b.toNat) : Chunk q q := by
  refine Chunk.bytes fun c hc => ⟨?_, fun hlt => ?_, ?_⟩
  · rintro rfl
    exact absurd (h _ hc) (by decide)
  · have hnat := UInt8.lt_iff_toNat_lt.mp hlt
    have hlow : c.toNat < 0x20 := hnat
    have := h c hc
    omega
  rintro rfl
  exact absurd (h _ hc) (by decide)

theorem chunk_quoteRune {c : Char} (hlength : (String.utf8EncodeChar c).length ≠ 1) :
    Chunk (quoteRune c (String.utf8EncodeChar c)) (String.utf8EncodeChar c) := by
  have hhigh : ∀ b ∈ String.utf8EncodeChar c, 0x80 ≤ b.toNat := by
    have hshape := Lib.Utf8.shape c
    generalize String.utf8EncodeChar c = bs at hshape hlength
    intro b hb
    cases hshape with
    | one b' _ _ => exact absurd rfl hlength
    | two b0 b1 h0 h1 hv =>
      simp only [mem_cons, not_mem_nil, or_false] at hb
      rcases hb with rfl | rfl <;> omega
    | three b0 b1 b2 h0 h1 h2 hv =>
      simp only [mem_cons, not_mem_nil, or_false] at hb
      rcases hb with rfl | rfl | rfl <;> omega
    | four b0 b1 b2 b3 h0 h1 h2 h3 hv =>
      simp only [mem_cons, not_mem_nil, or_false] at hb
      rcases hb with rfl | rfl | rfl | rfl <;> omega
  unfold quoteRune
  rw [if_neg hlength]
  split
  · rename_i hline
    have hc : c = Char.ofNat 0x2028 ∨ c = Char.ofNat 0x2029 := by
      rcases hline with h | h
      · left
        rw [← h, Char.ofNat_toNat]
      right
      rw [← h, Char.ofNat_toNat]
    rcases hc with rfl | rfl
    · exact Chunk.unit (a := 0x32) (b := 0x30) (c := 0x32) (d := 0x38) (u := 0x2028) rfl rfl
        (by decide +kernel)
    exact Chunk.unit (a := 0x32) (b := 0x30) (c := 0x32) (d := 0x39) (u := 0x2029) rfl rfl
      (by decide +kernel)
  · exact chunk_high hhigh

/-- Quoting stays within the string. -/
theorem chunk_quoteFrom (cs : List Char) :
    ∀ fuel, (encode cs).length ≤ fuel → Chunk (quoteFrom fuel (encode cs)) (encode cs) := by
  induction cs with
  | nil =>
    intro fuel _
    cases fuel <;> exact Chunk.nil
  | cons c rest ih =>
    intro fuel hfuel
    rw [Lib.Utf8.encode_cons, length_append] at hfuel
    rw [Lib.Utf8.encode_cons]
    have hdecode := Lib.Utf8.decodeRune_utf8EncodeChar c (encode rest)
    have hrune := chunk_quoteRune (c := c)
    have hlead : ∀ b bs, String.utf8EncodeChar c = b :: bs → bs ≠ [] → ¬ b < 0x80 := by
      intro b bs hbytes hbs hlt
      have hshape := Lib.Utf8.shape c
      have hnat : b.toNat < 0x80 := UInt8.lt_iff_toNat_lt.mp hlt
      rw [hbytes] at hshape
      cases hshape with
      | one => exact hbs rfl
      | two _ _ h0 _ _ => omega
      | three _ _ _ h0 _ _ _ => omega
      | four _ _ _ _ h0 _ _ _ _ => omega
    have hone : ∀ b, String.utf8EncodeChar c = [b] → b.toNat < 0x80 := by
      intro b hbytes
      have hshape := Lib.Utf8.shape c
      rw [hbytes] at hshape
      cases hshape with
      | one _ hb hv => omega
    have hne : String.utf8EncodeChar c ≠ [] := String.utf8EncodeChar_ne_nil
    generalize String.utf8EncodeChar c = bytes at *
    obtain ⟨b, bs, rfl⟩ := exists_cons_of_ne_nil hne
    rw [length_cons] at hfuel
    obtain ⟨fuel, rfl⟩ := Nat.exists_eq_succ_of_ne_zero (show fuel ≠ 0 by omega)
    have hrest := ih fuel (by omega)
    cases bs with
    | nil =>
      have hb : b < 0x80 := UInt8.lt_iff_toNat_lt.mpr (hone b rfl)
      rw [singleton_append, quoteFrom, if_pos hb]
      exact (chunk_quoteByte (hone b rfl)).append hrest
    | cons b' bs =>
      have htake : (b :: (b' :: bs ++ encode rest)).take
          ((b' :: bs ++ encode rest).length + 1 - (encode rest).length) = b :: b' :: bs := by
        rw [← cons_append]
        refine (congrArg (List.take · _) ?_).trans take_left
        simp only [length_cons, length_append]
        omega
      rw [cons_append] at hdecode ⊢
      rw [quoteFrom, if_neg (hlead b (b' :: bs) rfl (by simp)), hdecode]
      simp only [htake]
      exact (hrune (by simp)).append hrest

theorem isBody_quoteFrom {s : Bytes} (h : Lib.Utf8.sanitize s = s) :
    IsBody (quoteFrom s.length s) s := by
  have hchunk := chunk_quoteFrom (Lib.Utf8.runes s) (encode (Lib.Utf8.runes s)).length (le_refl _)
  have hs : encode (Lib.Utf8.runes s) = s := h
  rw [hs] at hchunk
  exact hchunk.isBody h

/-! ### Values -/

mutual

/-- **The text of a value** is a text of the grammar for it. -/
theorem reads_marshal : ∀ x : Any, x.Valid → Reads (.value (x.map formatFloat)) (marshal x)
  | .null, _ => Reads.nullWord
  | .bool true, _ => Reads.trueWord
  | .bool false, _ => Reads.falseWord
  | .number n, _ => Reads.number (formatFloat_spec n).1
  | .string _, h => Reads.string (isBody_quoteFrom h)
  | .array [], _ => Reads.emptyArray Blank.nil
  | .array (v :: rest), h =>
    Reads.array Blank.nil (reads_marshalItems (v :: rest) (cons_ne_nil _ _) h)
  | .object [], _ => Reads.emptyObject Blank.nil
  | .object (m :: rest), h =>
    Reads.object Blank.nil (reads_marshalMembers (m :: rest) (cons_ne_nil _ _) h)

theorem reads_marshalItems : ∀ items : List Any, items ≠ [] → ValidItems items →
    Reads (.items (mapItems formatFloat items)) (marshalItems items)
  | [], hne, _ => absurd rfl hne
  | [v], _, h => by
      have hitem := Reads.item (reads_marshal v h.1) Blank.nil
      rw [append_nil] at hitem
      exact hitem
  | v :: w :: rest, _, h =>
    Reads.moreItems (reads_marshal v h.1) Blank.nil Blank.nil
      (reads_marshalItems (w :: rest) (cons_ne_nil _ _) h.2)

theorem reads_marshalMembers : ∀ members : List (Bytes × Any), members ≠ [] → ValidMembers members →
      Reads (.members (mapMembers formatFloat members)) (marshalMembers members)
  | [], hne, _ => absurd rfl hne
  | [(key, v)], _, h => by
      have hmember := Reads.member (isBody_quoteFrom h.1) Blank.nil Blank.nil
        (reads_marshal v h.2.1) Blank.nil
      rw [append_nil] at hmember
      exact hmember
  | (key, v) :: m :: rest, _, h => by
      have hmore := Reads.moreMembers (isBody_quoteFrom h.1) Blank.nil Blank.nil
        (reads_marshal v h.2.1) Blank.nil Blank.nil
        (reads_marshalMembers (m :: rest) (cons_ne_nil _ _) h.2.2)
      have htext : marshalMembers ((key, v) :: m :: rest) =
          quoteString key ++ 0x3A :: (marshal v ++ 0x2C :: marshalMembers (m :: rest)) := by
        rw [marshalMembers, append_assoc, cons_append]
        exact fun hnil => by cases hnil
      rw [htext]
      exact hmore

end

theorem parse_marshal {x : Any} (h : x.Valid) : parse (marshal x) = some (x.map formatFloat) :=
  (reads_marshal x h).parse

end DenseCore.Server
