/-
The parser and the grammar of JSON.

`Reads` is the grammar again, with the value that each text stands for.  The parser
reads what the grammar derives (`Reads.parse`), also with white space around it, and
only that (`exists_reads_of_parse`).
-/
import DenseCore.Lib.JsonWords

namespace DenseCore.Lib.Json

open List Option

/-! ### Values -/

/-- What a part of a text stands for: a value, the members of an object, the items of
an array. -/
inductive Part where
  | value (v : Value Bytes)
  | members (ms : List (Bytes × Value Bytes))
  | items (vs : List (Value Bytes))

/-- The grammar, with the value that a text stands for. -/
inductive Reads : Part → Bytes → Prop
  | nullWord : Reads (.value .null) (literal "null")
  | trueWord : Reads (.value (.bool true)) (literal "true")
  | falseWord : Reads (.value (.bool false)) (literal "false")
  | number {lit : Bytes} (h : IsNumberText lit) : Reads (.value (.number lit)) lit
  | string {body text : Bytes} (h : IsBody body text) : Reads (.value (.string text)) (quoted body)
  | emptyObject {w : Bytes} (hw : Blank w) : Reads (.value (.object [])) (0x7B :: (w ++ [0x7D]))
  | object {w t : Bytes} {ms : List (Bytes × Value Bytes)} (hw : Blank w)
      (h : Reads (.members ms) t) : Reads (.value (.object ms)) (0x7B :: (w ++ (t ++ [0x7D])))
  | emptyArray {w : Bytes} (hw : Blank w) : Reads (.value (.array [])) (0x5B :: (w ++ [0x5D]))
  | array {w t : Bytes} {vs : List (Value Bytes)} (hw : Blank w) (h : Reads (.items vs) t) :
      Reads (.value (.array vs)) (0x5B :: (w ++ (t ++ [0x5D])))
  | member {key k w₁ w₂ w₃ t : Bytes} {v : Value Bytes} (hkey : IsBody key k) (h₁ : Blank w₁)
      (h₂ : Blank w₂) (hv : Reads (.value v) t) (h₃ : Blank w₃) :
      Reads (.members [(k, v)]) (quoted key ++ (w₁ ++ 0x3A :: (w₂ ++ (t ++ w₃))))
  | moreMembers {key k w₁ w₂ w₃ w₄ t r : Bytes} {v : Value Bytes} {ms : List (Bytes × Value Bytes)}
      (hkey : IsBody key k) (h₁ : Blank w₁) (h₂ : Blank w₂) (hv : Reads (.value v) t)
      (h₃ : Blank w₃) (h₄ : Blank w₄) (hr : Reads (.members ms) r) :
      Reads (.members ((k, v) :: ms))
        (quoted key ++ (w₁ ++ 0x3A :: (w₂ ++ (t ++ (w₃ ++ 0x2C :: (w₄ ++ r))))))
  | item {w t : Bytes} {v : Value Bytes} (hv : Reads (.value v) t) (hw : Blank w) :
      Reads (.items [v]) (t ++ w)
  | moreItems {w₁ w₂ t r : Bytes} {v : Value Bytes} {vs : List (Value Bytes)}
      (hv : Reads (.value v) t) (h₁ : Blank w₁) (h₂ : Blank w₂) (hr : Reads (.items vs) r) :
      Reads (.items (v :: vs)) (t ++ (w₁ ++ 0x2C :: (w₂ ++ r)))

/-- A byte at which a value may begin. -/
def Begins (c : UInt8) : Prop := isWs c = false ∧ c ≠ 0x5D ∧ c ≠ 0x7D

variable {lit t w s rest : Bytes} {p : Part} {v : Value Bytes} {fuel : Nat}

theorem IsNumberText.head (h : IsNumberText lit) :
    ∃ c rest, lit = c :: rest ∧ (c = 0x2D ∨ IsDigit c) := by
  obtain ⟨minus, int, frac, exp, hparts, rfl⟩ := h
  rcases hparts.minus with rfl | ⟨e, he, rfl⟩
  · rcases hparts.int with rfl | ⟨hdigits, -⟩
    · exact ⟨0x30, _, rfl, Or.inr ⟨by decide, by decide⟩⟩
    obtain ⟨d, ds, rfl⟩ := exists_cons_of_ne_nil hdigits.1
    exact ⟨d, _, rfl, Or.inr (hdigits.2 d mem_cons_self)⟩
  · exact ⟨e, _, rfl, Or.inl (by simpa using he)⟩

variable {c e : UInt8} {w₁ w₂ : Bytes}

theorem begins_of_number (h : c = 0x2D ∨ IsDigit c) : Begins c := by
  rcases h with rfl | h
  · exact ⟨rfl, by decide, by decide⟩
  have hlo := UInt8.le_iff_toNat_le.mp h.1
  have hhi := UInt8.le_iff_toNat_le.mp h.2
  refine ⟨?_, ?_, ?_⟩
  · unfold isWs
    simp only [Bool.or_eq_false_iff, decide_eq_false_iff_not]
    refine ⟨⟨⟨?_, ?_⟩, ?_⟩, ?_⟩ <;> rintro rfl <;> exact absurd hlo (by decide)
  · rintro rfl
    exact absurd hhi (by decide)
  rintro rfl
  exact absurd hhi (by decide)

theorem Reads.head (h : Reads p t) :
    ∃ c rest, t = c :: rest ∧ Begins c ∧ ∀ ms, p = .members ms → c = 0x22 := by
  induction h with
  | nullWord => exact ⟨_, _, rfl, ⟨rfl, by decide, by decide⟩, fun _ h => by cases h⟩
  | trueWord => exact ⟨_, _, rfl, ⟨rfl, by decide, by decide⟩, fun _ h => by cases h⟩
  | falseWord => exact ⟨_, _, rfl, ⟨rfl, by decide, by decide⟩, fun _ h => by cases h⟩
  | number h =>
    obtain ⟨c, rest, hlit, hc⟩ := h.head
    exact ⟨c, rest, hlit, begins_of_number hc, fun _ h => by cases h⟩
  | string h => exact ⟨0x22, _, rfl, ⟨rfl, by decide, by decide⟩, fun _ h => by cases h⟩
  | emptyObject _ => exact ⟨0x7B, _, rfl, ⟨rfl, by decide, by decide⟩, fun _ h => by cases h⟩
  | object _ _ _ => exact ⟨0x7B, _, rfl, ⟨rfl, by decide, by decide⟩, fun _ h => by cases h⟩
  | emptyArray _ => exact ⟨0x5B, _, rfl, ⟨rfl, by decide, by decide⟩, fun _ h => by cases h⟩
  | array _ _ _ => exact ⟨0x5B, _, rfl, ⟨rfl, by decide, by decide⟩, fun _ h => by cases h⟩
  | member _ _ _ _ _ _ => exact ⟨0x22, _, rfl, ⟨rfl, by decide, by decide⟩, fun _ _ => rfl⟩
  | moreMembers _ _ _ _ _ _ _ _ _ =>
    exact ⟨0x22, _, rfl, ⟨rfl, by decide, by decide⟩, fun _ _ => rfl⟩
  | item _ _ ih | moreItems _ _ _ _ ih _ =>
    obtain ⟨c, rest, rfl, hc, -⟩ := ih
    exact ⟨c, _, rfl, hc, fun _ h => by cases h⟩

theorem Reads.skipWs_append (h : Reads p t) (hw : Blank w) (s : Bytes) :
    skipWs (w ++ (t ++ s)) = t ++ s := by
  obtain ⟨c, rest, rfl, hc, -⟩ := h.head
  rw [Json.skipWs_append hw]
  exact skipWs_cons hc.1 _

theorem stops_blank {cls : UInt8 → Bool} (hcls : ∀ c, isWs c = true → cls c = false)
    (hw : Blank w) (hs : Stops cls s) : Stops cls (w ++ s) := by
  cases w with
  | nil => exact hs
  | cons c rest => exact Stops.cons (hcls c (hw c mem_cons_self)) _

theorem goesOn_blank (hc : isWs c = true) : goesOn c = false := by
  simp only [isWs, Bool.or_eq_true, decide_eq_true_iff] at hc
  rcases hc with ((rfl | rfl) | rfl) | rfl <;> rfl

/-! ### The parser reads what the grammar derives -/

/-- The parser takes the text of a part, whatever follows that can not belong to it. -/
def Parsed : Part → Bytes → Prop
  | .value v, t => ∀ fuel rest, t.length < fuel → Stops goesOn rest →
      parseValue fuel (t ++ rest) = some (v, rest)
  | .members ms, t => ∀ fuel rest, t.length < fuel →
      parseMembers fuel (t ++ 0x7D :: rest) = some (ms, rest)
  | .items vs, t => ∀ fuel rest, t.length + 1 < fuel →
      parseItems fuel (t ++ 0x5D :: rest) = some (vs, rest)

theorem takeWord_number (h : IsNumberText lit) (hs : Stops goesOn s) :
    takeWord (lit ++ s) = some (.number lit, s) := by
  obtain ⟨c, rest, hlit, hc⟩ := h.head
  have hword : ∀ d ds, d ≠ 0x2D → ¬ IsDigit d → (d :: ds).isPrefixOf (lit ++ s) = false := by
    intro d ds hminus hdigit
    rw [hlit, cons_append, List.isPrefixOf, Bool.and_eq_false_iff, beq_eq_false_iff_ne]
    left
    rintro rfl
    exact hc.elim hminus hdigit
  unfold takeWord
  rw [show literal "null" = 0x6E :: [0x75, 0x6C, 0x6C] from rfl,
    show literal "true" = 0x74 :: [0x72, 0x75, 0x65] from rfl,
    show literal "false" = 0x66 :: [0x61, 0x6C, 0x73, 0x65] from rfl,
    hword _ _ (by decide) (by unfold IsDigit; decide),
    hword _ _ (by decide) (by unfold IsDigit; decide),
    hword _ _ (by decide) (by unfold IsDigit; decide), takeNumber_append h hs]
  rfl

theorem parseValue_number (h : IsNumberText lit) (hs : Stops goesOn s)
    (fuel : Nat) : parseValue (fuel + 1) (lit ++ s) = some (.number lit, s) := by
  obtain ⟨c, rest, hlit, hc⟩ := h.head
  have hnot : ∀ d : UInt8, d ≠ 0x2D → ¬ IsDigit d → c ≠ d := by
    rintro d hminus hdigit rfl
    exact hc.elim hminus hdigit
  have hword := takeWord_number h hs
  rw [hlit, cons_append] at hword ⊢
  rw [parseValue, if_neg (hnot _ (by decide) (by unfold IsDigit; decide)),
    if_neg (hnot _ (by decide) (by unfold IsDigit; decide)),
    if_neg (hnot _ (by decide) (by unfold IsDigit; decide))]
  exact hword

theorem parseMembers_key {key k w₃ : Bytes}
    (hkey : IsBody key k) (h₁ : Blank w₁) (h₂ : Blank w₂) (hv : Reads (.value v) t)
    (hparsed : Parsed (.value v) t) (h₃ : Blank w₃) (he : isWs e = false) (hgoes : goesOn e = false)
    (hfuel : t.length < fuel) :
    parseMembers (fuel + 1) (quoted key ++ (w₁ ++ 0x3A :: (w₂ ++ (t ++ (w₃ ++ e :: s))))) =
      if e = 0x7D then some ([(k, v)], s)
      else if e = 0x2C then (parseMembers fuel (skipWs s)).map fun x => ((k, v) :: x.1, x.2)
      else none := by
  have hvalue : parseValue fuel (t ++ (w₃ ++ e :: s)) = some (v, w₃ ++ e :: s) :=
    hparsed fuel _ hfuel (stops_blank (fun _ => goesOn_blank) h₃ (Stops.cons hgoes s))
  unfold quoted
  rw [cons_append, cons_append, append_assoc, singleton_append, parseMembers,
    if_pos rfl, parseString_append hkey]
  simp only [skipWs_append h₁, skipWs_cons (show isWs 0x3A = false from rfl), if_true,
    hv.skipWs_append h₂, hvalue, skipWs_append h₃, skipWs_cons he]

theorem parseItems_item (hparsed : Parsed (.value v) t) (hw : Blank w) (he : isWs e = false)
    (hgoes : goesOn e = false) (hfuel : t.length < fuel) :
    parseItems (fuel + 1) (t ++ (w ++ e :: s)) =
      if e = 0x5D then some ([v], s)
      else if e = 0x2C then (parseItems fuel (skipWs s)).map fun x => (v :: x.1, x.2)
      else none := by
  have hvalue : parseValue fuel (t ++ (w ++ e :: s)) = some (v, w ++ e :: s) :=
    hparsed fuel _ hfuel (stops_blank (fun _ => goesOn_blank) hw (Stops.cons hgoes s))
  rw [parseItems, hvalue]
  simp only [skipWs_append hw, skipWs_cons he]

/-- **Every text of the grammar is parsed** as what it stands for. -/
theorem Reads.parsed (h : Reads p t) : Parsed p t := by
  induction h with
  | nullWord | trueWord | falseWord =>
    intro fuel rest hfuel _
    obtain ⟨fuel, rfl⟩ := Nat.exists_eq_succ_of_ne_zero (Nat.ne_zero_of_lt hfuel)
    rfl
  | number h =>
    intro fuel rest hfuel hrest
    obtain ⟨fuel, rfl⟩ := Nat.exists_eq_succ_of_ne_zero (Nat.ne_zero_of_lt hfuel)
    exact parseValue_number h hrest fuel
  | string h =>
    intro fuel rest hfuel _
    obtain ⟨fuel, rfl⟩ := Nat.exists_eq_succ_of_ne_zero (Nat.ne_zero_of_lt hfuel)
    unfold quoted
    rw [cons_append, cons_append, append_assoc, singleton_append, parseValue,
      if_pos rfl, parseString_append h]
    rfl
  | emptyObject hw =>
    intro fuel rest hfuel _
    obtain ⟨fuel, rfl⟩ := Nat.exists_eq_succ_of_ne_zero (Nat.ne_zero_of_lt hfuel)
    rw [cons_append, append_assoc, singleton_append, parseValue,
      if_neg (by decide), if_pos rfl, Json.skipWs_append hw, skipWs_cons rfl]
    rfl
  | object hw h ih =>
    intro fuel rest hfuel _
    obtain ⟨fuel, rfl⟩ := Nat.exists_eq_succ_of_ne_zero (Nat.ne_zero_of_lt hfuel)
    simp only [length_cons, length_append] at hfuel
    have hmembers := ih fuel rest (by omega)
    have hskip := h.skipWs_append hw (0x7D :: rest)
    obtain ⟨c, tail, rfl, -, hquote⟩ := h.head
    obtain rfl := hquote _ rfl
    rw [cons_append, append_assoc, append_assoc, singleton_append, parseValue,
      if_neg (by decide), if_pos rfl, hskip]
    rw [cons_append] at hmembers
    simp only [cons_append, hmembers]
    rfl
  | emptyArray hw =>
    intro fuel rest hfuel _
    obtain ⟨fuel, rfl⟩ := Nat.exists_eq_succ_of_ne_zero (Nat.ne_zero_of_lt hfuel)
    rw [cons_append, append_assoc, singleton_append, parseValue,
      if_neg (by decide), if_neg (by decide), if_pos rfl, Json.skipWs_append hw, skipWs_cons rfl]
    rfl
  | array hw h ih =>
    intro fuel rest hfuel _
    obtain ⟨fuel, rfl⟩ := Nat.exists_eq_succ_of_ne_zero (Nat.ne_zero_of_lt hfuel)
    simp only [length_cons, length_append, length_nil] at hfuel
    have hitems := ih fuel rest (by omega)
    have hskip := h.skipWs_append hw (0x5D :: rest)
    obtain ⟨c, tail, rfl, ⟨-, hclose, -⟩, -⟩ := h.head
    rw [cons_append, append_assoc, append_assoc, singleton_append, parseValue,
      if_neg (by decide), if_neg (by decide), if_pos rfl, hskip]
    rw [cons_append] at hitems
    simp only [cons_append, if_neg hclose, hitems]
    rfl
  | member hkey h₁ h₂ hv h₃ ih =>
    intro fuel rest hfuel
    obtain ⟨fuel, rfl⟩ := Nat.exists_eq_succ_of_ne_zero (Nat.ne_zero_of_lt hfuel)
    simp only [length_cons, length_append] at hfuel
    simp only [append_assoc, cons_append]
    rw [parseMembers_key hkey h₁ h₂ hv ih h₃ rfl rfl (by omega), if_pos rfl]
  | moreMembers hkey h₁ h₂ hv h₃ h₄ hr ih ihr =>
    intro fuel rest hfuel
    obtain ⟨fuel, rfl⟩ := Nat.exists_eq_succ_of_ne_zero (Nat.ne_zero_of_lt hfuel)
    simp only [length_cons, length_append] at hfuel
    simp only [append_assoc, cons_append]
    rw [parseMembers_key hkey h₁ h₂ hv ih h₃ rfl rfl (by omega), if_neg (by decide), if_pos rfl,
      hr.skipWs_append h₄, ihr fuel rest (by omega)]
    rfl
  | item hv hw ih =>
    intro fuel rest hfuel
    obtain ⟨fuel, rfl⟩ := Nat.exists_eq_succ_of_ne_zero (Nat.ne_zero_of_lt hfuel)
    simp only [length_append] at hfuel
    rw [append_assoc, parseItems_item ih hw rfl rfl (by omega), if_pos rfl]
  | moreItems hv h₁ h₂ hr ih ihr =>
    intro fuel rest hfuel
    obtain ⟨fuel, rfl⟩ := Nat.exists_eq_succ_of_ne_zero (Nat.ne_zero_of_lt hfuel)
    simp only [length_cons, length_append] at hfuel
    simp only [append_assoc, cons_append]
    rw [parseItems_item ih h₁ rfl rfl (by omega), if_neg (by decide), if_pos rfl,
      hr.skipWs_append h₂, ihr fuel rest (by omega)]
    rfl

theorem Reads.parse_append (h : Reads (.value v) t)
    (h₁ : Blank w₁) (h₂ : Blank w₂) : Json.parse (w₁ ++ (t ++ w₂)) = some v := by
  have hstops := stops_blank (fun _ => goesOn_blank) h₂ (Stops.nil goesOn)
  rw [append_nil] at hstops
  have hlength : t.length < (w₁ ++ (t ++ w₂)).length + 1 := by
    simp only [length_append]
    omega
  have hvalue := h.parsed _ w₂ hlength hstops
  unfold Json.parse
  rw [h.skipWs_append h₁, hvalue, bind_some, skipWs_blank h₂]
  rfl

theorem Reads.parse (h : Reads (.value v) t) : Json.parse t = some v := by
  have hparse := h.parse_append Blank.nil Blank.nil
  rwa [nil_append, append_nil] at hparse

/-! ### Only these are parsed -/

theorem takeWord_sound (h : takeWord s = some (v, rest)) :
    ∃ t, s = t ++ rest ∧ Reads (.value v) t := by
  unfold takeWord at h
  split at h
  · rename_i hpre
    obtain ⟨tail, rfl⟩ := isPrefixOf_iff_prefix.mp hpre
    cases h
    exact ⟨_, rfl, .nullWord⟩
  split at h
  · rename_i hpre
    obtain ⟨tail, rfl⟩ := isPrefixOf_iff_prefix.mp hpre
    cases h
    exact ⟨_, rfl, .trueWord⟩
  split at h
  · rename_i hpre
    obtain ⟨tail, rfl⟩ := isPrefixOf_iff_prefix.mp hpre
    cases h
    exact ⟨_, rfl, .falseWord⟩
  obtain ⟨⟨lit, rest'⟩, hnumber, heq⟩ := map_eq_some_iff.mp h
  cases heq
  obtain ⟨hsplit, hlit⟩ := takeNumber_sound hnumber
  exact ⟨lit, hsplit, .number hlit⟩

/-- What is parsed as a part has the text of that part in front, with its closing byte. -/
def Sound (fuel : Nat) : Prop :=
  (∀ s v rest, parseValue fuel s = some (v, rest) → ∃ t, s = t ++ rest ∧ Reads (.value v) t) ∧
    (∀ s ms rest, parseMembers fuel s = some (ms, rest) →
      ∃ t, s = t ++ 0x7D :: rest ∧ Reads (.members ms) t) ∧
      ∀ s vs rest, parseItems fuel s = some (vs, rest) →
        ∃ t, s = t ++ 0x5D :: rest ∧ Reads (.items vs) t

/-- What is parsed as a value reads as a value. -/
theorem parseValue_sound_step (ih : Sound fuel)
    (h : parseValue (fuel + 1) s = some (v, rest)) : ∃ t, s = t ++ rest ∧ Reads (.value v) t := by
  obtain ⟨-, ihmembers, ihitems⟩ := ih
  cases s with
  | nil => cases h
  | cons c tail =>
    obtain ⟨w, hw, htail⟩ := exists_skipWs tail
    rw [parseValue] at h
    split at h
    · rename_i hquote
      obtain ⟨⟨text, rest'⟩, hstring, heq⟩ := map_eq_some_iff.mp h
      cases heq
      obtain ⟨body, rfl, hbody⟩ := parseString_sound hstring
      exact ⟨quoted body, by simp [quoted, hquote], .string hbody⟩
    split at h
    · rename_i hbrace
      split at h
      · cases h
      rename_i d after hskip
      rw [hskip] at htail
      split at h
      · rename_i hclose
        cases h
        exact ⟨_, by simp [htail, hbrace, hclose], .emptyObject hw⟩
      obtain ⟨⟨ms, rest'⟩, hmembers, heq⟩ := map_eq_some_iff.mp h
      cases heq
      obtain ⟨t, ht, hreads⟩ := ihmembers _ _ _ hmembers
      exact ⟨_, by simp [htail, hbrace, ht], .object hw hreads⟩
    · split at h
      · rename_i hbracket
        split at h
        · cases h
        rename_i d after hskip
        rw [hskip] at htail
        split at h
        · rename_i hclose
          cases h
          exact ⟨_, by simp [htail, hbracket, hclose], .emptyArray hw⟩
        obtain ⟨⟨vs, rest'⟩, hitems, heq⟩ := map_eq_some_iff.mp h
        cases heq
        obtain ⟨t, ht, hreads⟩ := ihitems _ _ _ hitems
        exact ⟨_, by simp [htail, hbracket, ht], .array hw hreads⟩
      · exact takeWord_sound h

/-- What is parsed as members reads as members. -/
theorem parseMembers_sound_step (ih : Sound fuel)
    {ms : List (Bytes × Value Bytes)} (h : parseMembers (fuel + 1) s = some (ms, rest)) :
    ∃ t, s = t ++ 0x7D :: rest ∧ Reads (.members ms) t := by
  obtain ⟨ihvalue, ihmembers, -⟩ := ih
  cases s with
  | nil => cases h
  | cons c tail =>
    rw [parseMembers] at h
    split at h
    · rename_i hquote
      split at h
      · cases h
      rename_i key s₁ hkey
      obtain ⟨body, rfl, hbody⟩ := parseString_sound hkey
      obtain ⟨w₁, h₁, hs₁⟩ := exists_skipWs s₁
      split at h
      · cases h
      rename_i d after₁ hskip₁
      rw [hskip₁] at hs₁
      split at h
      · rename_i hcolon
        obtain ⟨w₂, h₂, hafter₁⟩ := exists_skipWs after₁
        split at h
        · cases h
        rename_i v s₂ hvalue
        obtain ⟨t, ht, hreads⟩ := ihvalue _ _ _ hvalue
        obtain ⟨w₃, h₃, hs₂⟩ := exists_skipWs s₂
        rw [ht] at hafter₁
        split at h
        · cases h
        rename_i e after₂ hskip₂
        rw [hskip₂] at hs₂
        split at h
        · rename_i hclose
          cases h
          exact ⟨_, by simp [quoted, hquote, hs₁, hcolon, hafter₁, hs₂, hclose],
            .member hbody h₁ h₂ hreads h₃⟩
        split at h
        · rename_i hcomma
          obtain ⟨⟨ms', rest'⟩, hmembers, heq⟩ := map_eq_some_iff.mp h
          cases heq
          obtain ⟨r, hr, hrest⟩ := ihmembers _ _ _ hmembers
          obtain ⟨w₄, h₄, hafter₂⟩ := exists_skipWs after₂
          rw [hr] at hafter₂
          exact ⟨_, by simp [quoted, hquote, hs₁, hcolon, hafter₁, hs₂, hcomma,
            hafter₂], .moreMembers hbody h₁ h₂ hreads h₃ h₄ hrest⟩
        · cases h
      · cases h
    · cases h

theorem parseItems_sound_step (ih : Sound fuel)
    {vs : List (Value Bytes)} (h : parseItems (fuel + 1) s = some (vs, rest)) :
    ∃ t, s = t ++ 0x5D :: rest ∧ Reads (.items vs) t := by
  obtain ⟨ihvalue, -, ihitems⟩ := ih
  rw [parseItems] at h
  split at h
  · cases h
  rename_i v s₁ hvalue
  obtain ⟨t, rfl, hreads⟩ := ihvalue _ _ _ hvalue
  obtain ⟨w₁, h₁, hs₁⟩ := exists_skipWs s₁
  split at h
  · cases h
  rename_i e after hskip
  rw [hskip] at hs₁
  split at h
  · rename_i hclose
    cases h
    exact ⟨_, by simp [hs₁, hclose], .item hreads h₁⟩
  split at h
  · rename_i hcomma
    obtain ⟨⟨vs', rest'⟩, hitems, heq⟩ := map_eq_some_iff.mp h
    cases heq
    obtain ⟨r, hr, hrest⟩ := ihitems _ _ _ hitems
    obtain ⟨w₂, h₂, hafter⟩ := exists_skipWs after
    rw [hr] at hafter
    exact ⟨_, by simp [hs₁, hcomma, hafter], .moreItems hreads h₁ h₂ hrest⟩
  · cases h

theorem sound (fuel : Nat) : Sound fuel := by
  induction fuel with
  | zero =>
    refine ⟨fun _ _ _ h => ?_, fun _ _ _ h => ?_, fun _ _ _ h => ?_⟩
    · cases h
    · cases h
    · cases h
  | succ fuel ih =>
    exact ⟨fun _ _ _ h => parseValue_sound_step ih h, fun _ _ _ h => parseMembers_sound_step ih h,
      fun _ _ _ h => parseItems_sound_step ih h⟩

/-- **What is parsed is a text of the grammar**, with white space around it. -/
theorem exists_reads_of_parse (h : parse s = some v) :
    ∃ w₁ t w₂, Blank w₁ ∧ Blank w₂ ∧ Reads (.value v) t ∧ s = w₁ ++ (t ++ w₂) := by
  unfold parse at h
  obtain ⟨⟨v', rest⟩, hvalue, hrest⟩ := bind_eq_some_iff.mp h
  obtain ⟨w, hw, hs⟩ := exists_skipWs s
  obtain ⟨t, ht, hreads⟩ := (sound _).1 _ _ _ hvalue
  split at hrest
  · rename_i hblank
    cases hrest
    exact ⟨w, t, rest, hw, blank_of_skipWs hblank, hreads, by rw [← ht]; exact hs⟩
  · cases hrest

end DenseCore.Lib.Json
