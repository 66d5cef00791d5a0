/-
The literals that are printed for doubles.

Whatever the layout, what `formatFloat` writes is a number of the grammar, and its
value is the decimal that was chosen; so `parseFloat` takes it again.
-/
import DenseCore.Lib.Float64
import DenseCore.Lib.JsonWords
import Mathlib.Data.Nat.Digits.Lemmas

namespace DenseCore.Lib.Float64

open List

open Json

/-! ### Digits -/

theorem digitsValue_append (ds es : Bytes) :
    digitsValue (ds ++ es) = digitsValue ds * 10 ^ es.length + digitsValue es := by
  induction es using List.reverseRecOn with
  | nil => simp [digitsValue]
  | append_singleton es e ih =>
    rw [← append_assoc, digitsValue_snoc, ih, digitsValue_snoc, length_append,
      length_singleton, pow_succ]
    ring

theorem digitsValue_zeros (n : Nat) : digitsValue (zeros n) = 0 := by
  induction n with
  | zero => rfl
  | succ n ih =>
    unfold zeros
    rw [replicate_succ', digitsValue_snoc]
    show 10 * digitsValue (zeros n) + 0 = 0
    rw [ih]

theorem length_zeros (n : Nat) : (zeros n).length = n := length_replicate

variable {n d : Nat}

theorem isDigit_zeros {c : UInt8} (h : c ∈ zeros n) : IsDigit c := by
  rw [eq_of_mem_replicate h]
  exact ⟨by decide, by decide⟩

theorem isDigit_ofNat (hd : d < 10) : IsDigit (UInt8.ofNat (0x30 + d)) := by
  have hn : (UInt8.ofNat (0x30 + d)).toNat = 0x30 + d := by
    rw [UInt8.toNat_ofNat']
    exact Nat.mod_eq_of_lt (by omega)
  refine ⟨UInt8.le_iff_toNat_le.mpr ?_, UInt8.le_iff_toNat_le.mpr ?_⟩
  · rw [hn]
    exact Nat.le_add_right _ _
  rw [hn]
  show 0x30 + d ≤ 0x39
  omega

theorem isDigits_decimal (n : Nat) : IsDigits (decimal n) := by
  unfold decimal
  split
  · exact ⟨by decide, fun c hc => mem_singleton.mp hc ▸ ⟨by decide, by decide⟩⟩
  rename_i hzero
  refine ⟨?_, fun c hc => ?_⟩
  · rw [Ne, map_eq_nil_iff, reverse_eq_nil_iff, Nat.digits_eq_nil_iff_eq_zero]
    exact hzero
  obtain ⟨d, hd, rfl⟩ := mem_map.mp hc
  exact isDigit_ofNat (Nat.digits_lt_base (by omega) (mem_reverse.mp hd))

theorem length_decimal_pos (n : Nat) : 0 < (decimal n).length :=
  length_pos_iff.mpr (isDigits_decimal n).1

theorem head_decimal (hn : n ≠ 0) : (decimal n).head? ≠ some 0x30 := by
  unfold decimal
  rw [if_neg hn, head?_map, head?_reverse]
  have hne : Nat.digits 10 n ≠ [] := Nat.digits_ne_nil_iff_ne_zero.mpr hn
  rw [getLast?_eq_some_getLast hne, Option.map_some]
  intro h
  have hlast := Nat.getLast_digit_ne_zero 10 hn
  have hlt : (Nat.digits 10 n).getLast hne < 10 :=
    Nat.digits_lt_base (by omega) (getLast_mem hne)
  have hnat := congrArg UInt8.toNat (Option.some.inj h)
  rw [UInt8.toNat_ofNat', Nat.mod_eq_of_lt (by omega)] at hnat
  have hzero : (Nat.digits 10 n).getLast hne = 0 := by
    change 0x30 + (Nat.digits 10 n).getLast hne = 0x30 at hnat
    omega
  exact hlast hzero

theorem isIntPart_decimal (n : Nat) : IsIntPart (decimal n) := by
  by_cases hn : n = 0
  · rw [hn]
    exact Or.inl rfl
  · exact Or.inr ⟨isDigits_decimal n, head_decimal hn⟩

/-! ### Literals and their values -/

/-- A literal without its sign, for a value. -/
def Writes (body : Bytes) (q : ℚ) : Prop :=
  ∃ int frac exp, NumberParts [] int frac exp ∧ body = int ++ frac ++ exp ∧
    (digitsValue (int ++ frac.drop 1) : ℚ) * 10 ^ (expValue exp - (frac.drop 1).length) = q

theorem isPart_nil {isLead isSign : UInt8 → Bool} : IsPart isLead isSign [] := Or.inl rfl

theorem Writes.signed {body : Bytes} {q : ℚ} (h : Writes body q) (neg : Bool) :
    IsNumberText ((if neg then [0x2D] else []) ++ body) ∧
      signed ((if neg then [0x2D] else []) ++ body) = some (neg, q) := by
  obtain ⟨int, frac, exp, hparts, rfl, hq⟩ := h
  have hsign : IsSign (· == 0x2D) (if neg then [0x2D] else []) := by
    cases neg with
    | true => exact Or.inr ⟨0x2D, rfl, rfl⟩
    | false => exact Or.inl rfl
  have hall : NumberParts (if neg then [0x2D] else []) int frac exp := { hparts with minus := hsign }
  refine ⟨⟨_, int, frac, exp, hall, by simp only [append_assoc]⟩, ?_⟩
  obtain ⟨hminus, hint, hfrac, hexp⟩ := hall.take (Stops.nil goesOn)
  simp only [append_nil] at hminus hint hfrac hexp
  rw [append_assoc, Float64.signed, hminus]
  simp only [hint, hfrac, hexp, bind, Option.bind_some, pure, hq]
  cases neg <;> rfl

/-- The plain form writes its digits times the power of ten. -/
theorem writes_plain {k : ℤ} (hd : d ≠ 0 ∨ k = 0) : Writes (plain d k) ((d : ℚ) * 10 ^ k) := by
  have hlen := length_decimal_pos d
  have hdigits := isDigits_decimal d
  unfold plain
  simp only
  split
  · -- zeros behind the digits
    rename_i hk
    obtain ⟨n, rfl⟩ := Int.eq_ofNat_of_zero_le hk
    rw [Int.toNat_natCast]
    refine ⟨decimal d ++ zeros n, [], [], ⟨Or.inl rfl, ?_, isPart_nil, isPart_nil⟩, by simp, ?_⟩
    · rcases hd with hd | hn
      · refine Or.inr ⟨⟨by simp [hdigits.1], fun c hc => ?_⟩, ?_⟩
        · rcases mem_append.mp hc with hc | hc
          · exact hdigits.2 c hc
          · exact isDigit_zeros hc
        rw [head?_append_of_ne_nil _ hdigits.1]
        exact head_decimal hd
      obtain rfl : n = 0 := by exact_mod_cast hn
      rw [show zeros 0 = [] from rfl, append_nil]
      exact isIntPart_decimal d
    have hvalue : digitsValue (decimal d ++ zeros n) = d * 10 ^ n := by
      rw [digitsValue_append, digitsValue_zeros, digitsValue_decimal, length_zeros, Nat.add_zero]
    rw [drop_nil, append_nil, hvalue]
    simp [expValue]
  · rename_i hk
    split
    · -- the point stands between the digits
      rename_i hpoint
      obtain ⟨p, hp⟩ := Int.eq_ofNat_of_zero_le (Int.le_of_lt hpoint)
      rw [hp, Int.toNat_natCast]
      have hp0 : 0 < p := by omega
      have hplt : p < (decimal d).length := by omega
      have hd0 : d ≠ 0 := by
        rintro rfl
        have hone : (decimal 0).length = 1 := rfl
        omega
      refine ⟨(decimal d).take p, 0x2E :: (decimal d).drop p, [],
        ⟨Or.inl rfl, Or.inr ⟨⟨?_, fun c hc => hdigits.2 c (mem_of_mem_take hc)⟩, ?_⟩, ?_,
          isPart_nil⟩, by simp, ?_⟩
      · rw [Ne, take_eq_nil_iff]
        rintro (h | h)
        · omega
        · exact hdigits.1 h
      · rw [head?_take, if_neg (by omega)]
        exact head_decimal hd0
      · refine Or.inr ⟨0x2E, [], (decimal d).drop p, rfl, Or.inl rfl, ⟨?_, fun c hc => ?_⟩, rfl⟩
        · rw [Ne, drop_eq_nil_iff]
          omega
        · exact hdigits.2 c (mem_of_mem_drop hc)
      rw [drop_succ_cons, drop_zero, take_append_drop, digitsValue_decimal, length_drop]
      have hexp : expValue [] - (((decimal d).length - p : Nat) : ℤ) = k := by
        show (0 : ℤ) - (((decimal d).length - p : Nat) : ℤ) = k
        omega
      rw [hexp]
    · -- zeros between the point and the digits
      rename_i hpoint
      refine ⟨[0x30], 0x2E :: (zeros (-((decimal d).length + k)).toNat ++ decimal d), [],
        ⟨Or.inl rfl, Or.inl rfl, ?_, isPart_nil⟩, by simp, ?_⟩
      · refine Or.inr ⟨0x2E, [], _, rfl, Or.inl rfl, ⟨?_, fun c hc => ?_⟩, rfl⟩
        · simp [hdigits.1]
        rcases mem_append.mp hc with hc | hc
        · exact isDigit_zeros hc
        · exact hdigits.2 c hc
      rw [drop_succ_cons, drop_zero, digitsValue_append, digitsValue_append,
        digitsValue_zeros, digitsValue_decimal, length_append, length_zeros]
      have hexp : expValue [] - (((-((decimal d).length + k)).toNat + (decimal d).length : Nat) : ℤ)
          = k := by
        show (0 : ℤ) - (((-((decimal d).length + k)).toNat + (decimal d).length : Nat) : ℤ) = k
        omega
      rw [hexp]
      simp [digitsValue]

/-- Digits with an exponent have the value of their decimal. -/
theorem writes_scientific (d : Nat) (k : ℤ) : Writes (scientific d k) ((d : ℚ) * 10 ^ k) := by
  have hlen := length_decimal_pos d
  have hdigits := isDigits_decimal d
  set exp : ℤ := (decimal d).length + k - 1 with hexp
  refine ⟨(decimal d).take 1, if (decimal d).length ≤ 1 then [] else 0x2E :: (decimal d).drop 1,
    0x65 :: (if 0 ≤ exp then 0x2B else 0x2D) :: decimal exp.natAbs, ⟨Or.inl rfl, ?_, ?_, ?_⟩, rfl, ?_⟩
  · obtain ⟨c, rest, hcons⟩ := exists_cons_of_ne_nil hdigits.1
    rw [hcons, take_succ_cons, take_zero]
    by_cases hd : d = 0
    · rw [hd] at hcons
      obtain ⟨rfl, -⟩ := List.cons.inj (show [0x30] = c :: rest from hcons)
      exact Or.inl rfl
    refine Or.inr ⟨⟨cons_ne_nil _ _, fun e he => ?_⟩, ?_⟩
    · rw [mem_singleton.mp he]
      exact hdigits.2 c (hcons ▸ mem_cons_self)
    have hhead := head_decimal hd
    rwa [hcons] at hhead
  · split
    · exact isPart_nil
    refine Or.inr ⟨0x2E, [], (decimal d).drop 1, rfl, Or.inl rfl, ⟨?_, fun c hc => ?_⟩, rfl⟩
    · rw [Ne, drop_eq_nil_iff]
      assumption
    · exact hdigits.2 c (mem_of_mem_drop hc)
  · refine Or.inr ⟨0x65, [if 0 ≤ exp then 0x2B else 0x2D], _, rfl, Or.inr ⟨_, ?_, rfl⟩,
      isDigits_decimal exp.natAbs, rfl⟩
    split <;> rfl
  have hdrop : (if (decimal d).length ≤ 1 then [] else 0x2E :: (decimal d).drop 1).drop 1 =
      (decimal d).drop 1 := by
    split
    · rename_i hle
      rw [drop_nil, drop_eq_nil_iff.mpr hle]
    · rfl
  have hvalue : expValue (0x65 :: (if 0 ≤ exp then 0x2B else 0x2D) :: decimal exp.natAbs) = exp := by
    by_cases hneg : 0 ≤ exp
    · rw [if_pos hneg]
      show (digitsValue (decimal exp.natAbs) : ℤ) = exp
      rw [digitsValue_decimal]
      omega
    rw [if_neg hneg]
    show -(digitsValue (decimal exp.natAbs) : ℤ) = exp
    rw [digitsValue_decimal]
    omega
  rw [hdrop, take_append_drop, digitsValue_decimal, hvalue, length_drop]
  have hk : exp - (((decimal d).length - 1 : Nat) : ℤ) = k := by omega
  rw [hk]

/-! ### The decimal of a double -/

theorem nearest_zero : nearest 0 = some 0 := rfl

/-- A decimal that was found reads back as the double. -/
theorem shortestOf_spec {x : ℚ} {k : ℤ} (h : shortestOf x n = some (d, k)) :
    nearest (d * 10 ^ k) = some x := by
  unfold shortestOf at h
  simp only [Bool.and_eq_true, decide_eq_true_iff] at h
  split at h
  · rename_i hfits
    cases h
    exact hfits.1
  split at h
  · rename_i hfits
    split at h
    · rename_i hpow
      cases h
      rw [hpow] at hfits
      rw [zpow_add₀ (by norm_num), Nat.cast_one, one_mul, zpow_natCast, mul_comm]
      push_cast at hfits
      exact hfits
    cases h
    exact hfits
  · cases h

/-- The decimal of a double is read again, and is zero for nothing else. -/
theorem shortest_spec {x : ℚ} (hx : x ≠ 0) :
    (∃ y, nearest ((shortest x).1 * 10 ^ (shortest x).2) = some y) ∧
      ((shortest x).1 ≠ 0 ∨ (shortest x).2 = 0) := by
  unfold shortest
  cases h : (range' 1 17).findSome? (shortestOf x) with
  | none =>
    refine ⟨⟨0, ?_⟩, Or.inr rfl⟩
    simp [nearest_zero]
  | some r =>
    obtain ⟨n, -, hn⟩ := exists_of_findSome?_eq_some h
    have hspec : nearest (r.1 * 10 ^ r.2) = some x := shortestOf_spec hn
    refine ⟨⟨x, hspec⟩, Or.inl fun hzero => hx ?_⟩
    rw [Option.getD_some] at hzero
    rw [hzero, Nat.cast_zero, zero_mul, nearest_zero] at hspec
    exact (Option.some.inj hspec).symm

/-- **What is printed for a double** is a number, and is read again. -/
theorem formatFloat_spec (x : Finite) :
    IsNumberText (formatFloat x) ∧ ∃ y, parseFloat (formatFloat x) = some y := by
  have hread : ∀ body q, Writes body q → (∃ y, nearest q = some y) →
      IsNumberText ((if x.neg then [0x2D] else []) ++ body) ∧
        ∃ y, parseFloat ((if x.neg then [0x2D] else []) ++ body) = some y := by
    rintro body q hwrites ⟨y, hy⟩
    obtain ⟨hnumber, hsigned⟩ := hwrites.signed x.neg
    refine ⟨hnumber, ⟨x.neg, y⟩, ?_⟩
    unfold parseFloat
    rw [hsigned, Option.bind_some, hy]
    rfl
  unfold formatFloat
  simp only
  split
  · exact hread _ _ (writes_plain (d := 0) (Or.inr rfl)) ⟨0, by simp [nearest_zero]⟩
  rename_i hx
  obtain ⟨hnearest, hnonzero⟩ := shortest_spec hx
  split
  · exact hread _ _ (writes_scientific _ _) hnearest
  · exact hread _ _ (writes_plain hnonzero) hnearest

end DenseCore.Lib.Float64
