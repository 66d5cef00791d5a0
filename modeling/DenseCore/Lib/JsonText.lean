/-
JSON texts by the grammar of RFC 8259.

`Derives` is the grammar, over bytes, with one constructor for each production.
Whatever it derives ends in a byte other than a comma (`Derives.endsWell`).
-/
import DenseCore.Lib.Strings
import DenseCore.Lib.Utf8

namespace DenseCore.Lib.Json

open List

/-! ### The grammar -/

variable (s : Bytes)

/-- White space of JSON. -/
def IsWs : Prop := ∀ c ∈ s, c = 0x20 ∨ c = 0x09 ∨ c = 0x0A ∨ c = 0x0D

def IsDigit (c : UInt8) : Prop := 0x30 ≤ c ∧ c ≤ 0x39

def IsHexDigit (c : UInt8) : Prop :=
  IsDigit c ∨ (0x41 ≤ c ∧ c ≤ 0x46) ∨ (0x61 ≤ c ∧ c ≤ 0x66)

/-- One or more digits. -/
def IsDigits : Prop := s ≠ [] ∧ ∀ c ∈ s, IsDigit c

/-- The integer part: no leading zero. -/
def IsIntPart : Prop := s = [0x30] ∨ (IsDigits s ∧ s.head? ≠ some 0x30)

/-- The fraction of a number. -/
def IsFraction : Prop := ∃ ds, IsDigits ds ∧ s = 0x2E :: ds

/-- The exponent of a number. -/
def IsExponent : Prop :=
  ∃ e sign ds, (e = 0x65 ∨ e = 0x45) ∧ (sign = [] ∨ sign = [0x2B] ∨ sign = [0x2D]) ∧
    IsDigits ds ∧ s = e :: sign ++ ds

/-- A number of JSON. -/
def IsNumber : Prop :=
  ∃ minus int frac exp, (minus = [] ∨ minus = [0x2D]) ∧ IsIntPart int ∧
    (frac = [] ∨ IsFraction frac) ∧ (exp = [] ∨ IsExponent exp) ∧
    s = minus ++ int ++ frac ++ exp

/-- What stands between the quotes of a string. -/
inductive StringBody : Bytes → Prop
  | nil : StringBody []
  | unescaped {rest : Bytes} (c : Char) (hcontrol : 0x20 ≤ c.toNat) (hquote : c.toNat ≠ 0x22)
      (hescape : c.toNat ≠ 0x5C) (h : StringBody rest) :
      StringBody (String.utf8EncodeChar c ++ rest)
  | escaped {rest : Bytes} (e : UInt8)
      (he : e ∈ [0x22, 0x5C, 0x2F, 0x62, 0x66, 0x6E, 0x72, 0x74]) (h : StringBody rest) :
      StringBody (0x5C :: e :: rest)
  | unicode {rest : Bytes} (digits : Bytes) (hlength : digits.length = 4)
      (hdigits : ∀ d ∈ digits, IsHexDigit d) (h : StringBody rest) :
      StringBody (0x5C :: 0x75 :: digits ++ rest)

/-- A body in quotes. -/
def quoted (body : Bytes) : Bytes := 0x22 :: body ++ [0x22]

/-- The productions that call each other. -/
inductive Kind where
  | value
  | members
  | elements

/-- **The grammar**: a text is of a kind. -/
inductive Derives : Kind → Bytes → Prop
  | literal {s : Bytes} (h : s = literal "true" ∨ s = literal "false" ∨ s = literal "null") :
      Derives .value s
  | number {s : Bytes} (h : IsNumber s) : Derives .value s
  | string {s : Bytes} (h : StringBody s) : Derives .value (quoted s)
  | emptyObject {w : Bytes} (hw : IsWs w) : Derives .value (0x7B :: w ++ [0x7D])
  | object {s : Bytes} (h : Derives .members s) : Derives .value (0x7B :: s ++ [0x7D])
  | emptyArray {w : Bytes} (hw : IsWs w) : Derives .value (0x5B :: w ++ [0x5D])
  | array {s : Bytes} (h : Derives .elements s) : Derives .value (0x5B :: s ++ [0x5D])
  | member {w₁ key w₂ w₃ v w₄ : Bytes} (h₁ : IsWs w₁) (hkey : StringBody key) (h₂ : IsWs w₂)
      (h₃ : IsWs w₃) (hv : Derives .value v) (h₄ : IsWs w₄) :
      Derives .members (w₁ ++ quoted key ++ w₂ ++ 0x3A :: w₃ ++ v ++ w₄)
  | moreMembers {s t : Bytes} (h : Derives .members s) (ht : Derives .members t) :
      Derives .members (s ++ 0x2C :: t)
  | element {w₁ v w₂ : Bytes} (h₁ : IsWs w₁) (hv : Derives .value v) (h₂ : IsWs w₂) :
      Derives .elements (w₁ ++ v ++ w₂)
  | moreElements {s t : Bytes} (h : Derives .elements s) (ht : Derives .elements t) :
      Derives .elements (s ++ 0x2C :: t)

/-- An object without white space around it. -/
def IsObject : Prop :=
  ∃ body, (IsWs body ∨ Derives .members body) ∧ s = 0x7B :: body ++ [0x7D]

/-- A JSON text that is an object. -/
def IsObjectText (text : Bytes) : Prop :=
  ∃ w₁ s w₂, IsWs w₁ ∧ IsObject s ∧ IsWs w₂ ∧ text = w₁ ++ s ++ w₂

/-! ### What contents end in -/

/-- The text has a last byte, and that is no comma. -/
def EndsWell (s : Bytes) : Prop := ∃ init c, s = init ++ [c] ∧ c ≠ 0x2C

variable {s t w text : Bytes} {k : Kind}

theorem EndsWell.append_left (x : Bytes) (h : EndsWell s) : EndsWell (x ++ s) := by
  obtain ⟨init, c, rfl, hc⟩ := h
  exact ⟨x ++ init, c, by simp, hc⟩

theorem EndsWell.cons (c : UInt8) (h : EndsWell s) : EndsWell (c :: s) := h.append_left [c]

theorem EndsWell.of_forall (hne : s ≠ []) (h : ∀ c ∈ s, c ≠ 0x2C) : EndsWell s :=
  ⟨s.dropLast, s.getLast hne, (dropLast_append_getLast hne).symm, h _ (getLast_mem hne)⟩

theorem IsDigits.endsWell (h : IsDigits s) : EndsWell s := by
  refine .of_forall h.1 fun c hc => ?_
  rintro rfl
  exact absurd (h.2 _ hc).1 (by decide)

theorem IsNumber.endsWell (h : IsNumber s) : EndsWell s := by
  obtain ⟨minus, int, frac, exp, -, hint, hfrac, hexp, rfl⟩ := h
  have hint' : EndsWell int := by
    rcases hint with rfl | ⟨hint, -⟩
    · exact ⟨[], 0x30, rfl, by decide⟩
    · exact hint.endsWell
  have hfrac' : EndsWell (minus ++ int ++ frac) := by
    rcases hfrac with rfl | ⟨ds, hds, rfl⟩
    · simpa using hint'.append_left minus
    · exact (hds.endsWell.cons 0x2E).append_left (minus ++ int)
  rcases hexp with rfl | ⟨e, sign, ds, -, -, hds, rfl⟩
  · simpa using hfrac'
  · exact (hds.endsWell.append_left (e :: sign)).append_left (minus ++ int ++ frac)

theorem EndsWell.blank (h : EndsWell s) (hw : IsWs w) : EndsWell (s ++ w) := by
  rcases eq_or_ne w [] with rfl | hne
  · rwa [append_nil]
  refine (EndsWell.of_forall hne fun c hc => ?_).append_left s
  rcases hw c hc with rfl | rfl | rfl | rfl <;> decide

/-- Contents never end in a comma. -/
theorem Derives.endsWell (h : Derives k s) : EndsWell s := by
  induction h with
  | literal h =>
    rcases h with rfl | rfl | rfl
    · exact ⟨Lib.literal "tru", 0x65, rfl, by decide⟩
    · exact ⟨Lib.literal "fals", 0x65, rfl, by decide⟩
    · exact ⟨Lib.literal "nul", 0x6C, rfl, by decide⟩
  | number h => exact h.endsWell
  | string _ => exact ⟨_, 0x22, rfl, by decide⟩
  | emptyObject _ | object _ => exact ⟨_, 0x7D, rfl, by decide⟩
  | emptyArray _ | array _ => exact ⟨_, 0x5D, rfl, by decide⟩
  | member _ _ _ _ _ h₄ ih => exact (ih.append_left _).blank h₄
  | element _ _ h₂ ih => exact (ih.append_left _).blank h₂
  | moreMembers _ _ _ iht | moreElements _ _ _ iht => exact (iht.cons 0x2C).append_left _

/-- **No object text ends in a comma and a brace.** -/
theorem not_isObjectText_comma (text : Bytes) : ¬ IsObjectText (0x7B :: text ++ [0x2C, 0x7D]) := by
  rintro ⟨w₁, s, w₂, h₁, ⟨body, hbody, rfl⟩, h₂, heq⟩
  have hbefore : EndsWell (w₁ ++ 0x7B :: body) := by
    refine EndsWell.append_left w₁ ?_
    rcases hbody with hws | hmembers
    · exact EndsWell.blank ⟨[], 0x7B, rfl, by decide⟩ hws
    · exact hmembers.endsWell.cons 0x7B
  rcases eq_nil_or_concat w₂ with rfl | ⟨init, c, rfl⟩
  · obtain ⟨init, c, hinit, hc⟩ := hbefore
    have hsplit : (0x7B :: text ++ [0x2C]) ++ [0x7D] = (init ++ [c]) ++ [0x7D] := by
      rw [← hinit]
      simpa using heq
    obtain ⟨-, hlast⟩ := append_inj' (append_inj' hsplit rfl).1 rfl
    exact hc (List.cons.inj hlast).1.symm
  · rw [concat_eq_append, ← append_assoc] at heq
    have hc : (0x7D : UInt8) = c := by
      have hlast := congrArg getLast? heq
      rw [getLast?_concat, show [(0x2C : UInt8), 0x7D] = [0x2C] ++ [0x7D] from rfl,
        ← append_assoc, getLast?_concat] at hlast
      exact Option.some.inj hlast
    rcases h₂ c (by simp) with h | h | h | h <;> exact absurd (hc.trans h) (by decide)

end DenseCore.Lib.Json
