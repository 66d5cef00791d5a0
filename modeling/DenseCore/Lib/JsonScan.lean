/-
What the scanner of strings and brackets sees on a JSON text.

The scanner knows only strings, escapes and brackets, and reads any text at all.  A text
of the grammar is `Steady`: the scanner comes back to where it started, is never less
deep on the way, and meets outside strings only the bytes that words, numbers and
punctuation are made of.
-/
import DenseCore.Lib.JsonGrammar

namespace DenseCore.Lib.Json

/-! ### The scanner -/

/-- What the scanner knows. -/
structure Scan where
  inString : Bool := false
  escape : Bool := false
  braces : Int := 0
  brackets : Int := 0
deriving DecidableEq, Repr

namespace Scan

/-- One byte. -/
def step (s : Scan) (c : UInt8) : Scan :=
  if s.inString then
    if s.escape then { s with escape := false }
    else if c = 0x5C then { s with escape := true }
    else if c = 0x22 then { s with inString := false }
    else s
  else if c = 0x22 then { s with inString := true }
  else if c = 0x7B then { s with braces := s.braces + 1 }
  else if c = 0x7D then { s with braces := s.braces - 1 }
  else if c = 0x5B then { s with brackets := s.brackets + 1 }
  else if c = 0x5D then { s with brackets := s.brackets - 1 }
  else s

def run (s : Scan) (text : Bytes) : Scan := text.foldl step s

@[simp] theorem run_nil (s : Scan) : s.run [] = s := rfl

@[simp] theorem run_cons (s : Scan) (c : UInt8) (text : Bytes) :
    s.run (c :: text) = (s.step c).run text := rfl

@[simp] theorem run_append (s : Scan) (x y : Bytes) : s.run (x ++ y) = (s.run x).run y :=
  List.foldl_append

theorem step_closeBrace (braces brackets : Int) :
    (⟨false, false, braces + 1, brackets⟩ : Scan).step 0x7D = ⟨false, false, braces, brackets⟩ := by
  show (⟨false, false, braces + 1 - 1, brackets⟩ : Scan) = _
  rw [Int.add_sub_cancel]

theorem step_closeBracket (braces brackets : Int) :
    (⟨false, false, braces, brackets + 1⟩ : Scan).step 0x5D = ⟨false, false, braces, brackets⟩ := by
  show (⟨false, false, braces, brackets + 1 - 1⟩ : Scan) = _
  rw [Int.add_sub_cancel]

/-! ### On the way -/

/-- Something holds at every byte, of it and of the state before it. -/
def Along (P : Scan → UInt8 → Prop) : Scan → Bytes → Prop
  | _, [] => True
  | s, c :: rest => P s c ∧ Along P (s.step c) rest

variable {P Q : Scan → UInt8 → Prop} {s : Scan}

variable {x body : Bytes} {b : Bool}

variable {y text : Bytes} {c : UInt8}

theorem along_append : Along P s (x ++ y) ↔ Along P s x ∧ Along P (s.run x) y := by
  induction x generalizing s with
  | nil => exact ⟨fun h => ⟨trivial, h⟩, fun h => h.2⟩
  | cons c rest ih =>
    show P s c ∧ Along P (s.step c) (rest ++ y) ↔
      (P s c ∧ Along P (s.step c) rest) ∧ Along P ((s.step c).run rest) y
    rw [ih, and_assoc]

theorem Along.and (hP : Along P s x) (hQ : Along Q s x) : Along (fun s c => P s c ∧ Q s c) s x := by
  induction x generalizing s with
  | nil => exact trivial
  | cons c rest ih => exact ⟨⟨hP.1, hQ.1⟩, ih hP.2 hQ.2⟩

theorem Along.forall_mem {R : UInt8 → Prop} (h : Along (fun _ c => R c) s x) : ∀ c ∈ x, R c := by
  induction x generalizing s with
  | nil => exact fun c hc => absurd hc List.not_mem_nil
  | cons c rest ih =>
    intro d hd
    rcases List.mem_cons.mp hd with rfl | hd
    · exact h.1
    · exact ih h.2 d hd

theorem Along.mono (h : Along P s x) (hPQ : ∀ s c, P s c → Q s c) : Along Q s x := by
  induction x generalizing s with
  | nil => exact trivial
  | cons c rest ih => exact ⟨hPQ s c h.1, ih h.2⟩

/-- How many brackets of either kind are open. -/
def depth (s : Scan) : Int := s.braces + s.brackets

@[simp] theorem depth_mk (inString escape : Bool) (braces brackets : Int) :
    depth ⟨inString, escape, braces, brackets⟩ = braces + brackets := rfl

/-- The bytes that stand outside strings. -/
def structural (c : UInt8) : Bool :=
  isWs c || isDigit c ||
    [0x22, 0x2B, 0x2C, 0x2D, 0x2E, 0x3A, 0x45, 0x5B, 0x5D, 0x61, 0x65, 0x66, 0x6C, 0x6E, 0x72, 0x73,
      0x74, 0x75, 0x7B, 0x7D].contains c

/-- Not less deep than `n`, and outside strings at a structural byte. -/
def Within (n : Int) (s : Scan) (c : UInt8) : Prop :=
  n ≤ s.depth ∧ (s.inString = false → structural c = true)

theorem Within.mono {m n : Int} (hmn : m ≤ n) (s : Scan) (c : UInt8) (h : Within n s c) :
    Within m s c := ⟨Int.le_trans hmn h.1, h.2⟩

/-- From a state in or outside a string, `text` leads back to it, and stays within. -/
def Steady (inString : Bool) (text : Bytes) : Prop :=
  ∀ s : Scan, s.inString = inString → s.escape = false →
    s.run text = s ∧ Along (Within s.depth) s text

theorem Steady.nil (b : Bool) : Steady b [] := fun _ _ _ => ⟨rfl, trivial⟩

theorem Steady.append (hx : Steady b x) (hy : Steady b y) : Steady b (x ++ y) := by
  intro s hs he
  obtain ⟨hrun, halong⟩ := hx s hs he
  obtain ⟨hrun', halong'⟩ := hy s hs he
  refine ⟨by rw [run_append, hrun, hrun'], along_append.mpr ⟨halong, ?_⟩⟩
  rwa [hrun]

/-- A byte that changes nothing. -/
theorem Steady.single (hb : b = false → structural c = true)
    (h : ∀ s : Scan, s.inString = b → s.escape = false → s.step c = s) : Steady b [c] :=
  fun s hs he => ⟨h s hs he, ⟨Int.le_refl _, fun hout => hb (hs.symm.trans hout)⟩, trivial⟩

theorem Steady.of_forall (h : ∀ c ∈ text, Steady b [c]) : Steady b text := by
  induction text with
  | nil => exact Steady.nil b
  | cons c rest ih =>
    exact (h c List.mem_cons_self).append (ih fun d hd => h d (List.mem_cons_of_mem c hd))

/-- A byte of a word, a number or white space. -/
def Word (c : UInt8) : Prop :=
  structural c = true ∧ c ≠ 0x22 ∧ c ≠ 0x7B ∧ c ≠ 0x7D ∧ c ≠ 0x5B ∧ c ≠ 0x5D

instance (c : UInt8) : Decidable (Word c) := by
  unfold Word
  infer_instance

theorem Word.steady (h : Word c) : Steady false [c] := by
  refine Steady.single (fun _ => h.1) fun s hs _ => ?_
  simp [step, hs, h.2]

theorem Steady.words (h : ∀ c ∈ text, Word c) : Steady false text :=
  Steady.of_forall fun c hc => (h c hc).steady

/-- A string is opened and closed again. -/
theorem Steady.quoted (h : Steady true body) : Steady false (quoted body) := by
  rintro ⟨inString, escape, braces, brackets⟩ rfl rfl
  obtain ⟨hrun, halong⟩ := h ⟨true, false, braces, brackets⟩ rfl rfl
  have hopen : (⟨false, false, braces, brackets⟩ : Scan).step 0x22 =
      ⟨true, false, braces, brackets⟩ := rfl
  unfold Json.quoted
  rw [List.cons_append]
  refine ⟨?_, ⟨Int.le_refl _, fun _ => rfl⟩, ?_⟩
  · rw [run_cons, hopen, run_append, hrun]
    rfl
  rw [hopen]
  refine along_append.mpr ⟨halong, ?_⟩
  rw [hrun]
  exact ⟨⟨Int.le_refl _, fun hout => by cases hout⟩, trivial⟩

theorem along_braces (h : Steady false body) (braces brackets : Int) :
    (⟨false, false, braces, brackets⟩ : Scan).run (0x7B :: body) =
        ⟨false, false, braces + 1, brackets⟩ ∧
      Along (Within (braces + 1 + brackets)) ⟨false, false, braces + 1, brackets⟩ body :=
  h ⟨false, false, braces + 1, brackets⟩ rfl rfl

theorem Steady.braces (h : Steady false body) : Steady false (0x7B :: (body ++ [0x7D])) := by
  rintro ⟨inString, escape, braces, brackets⟩ rfl rfl
  obtain ⟨hrun, halong⟩ := along_braces h braces brackets
  rw [run_cons] at hrun
  refine ⟨?_, ⟨Int.le_refl _, fun _ => rfl⟩, along_append.mpr ⟨?_, ?_⟩⟩
  · rw [run_cons, run_append, hrun, run_cons, step_closeBrace]
    rfl
  · exact halong.mono (Within.mono (by rw [depth_mk]; omega))
  rw [hrun]
  exact ⟨⟨by rw [depth_mk, depth_mk]; omega, fun _ => rfl⟩, trivial⟩

theorem Steady.brackets (h : Steady false body) : Steady false (0x5B :: (body ++ [0x5D])) := by
  rintro ⟨inString, escape, braces, brackets⟩ rfl rfl
  obtain ⟨hrun, halong⟩ := h ⟨false, false, braces, brackets + 1⟩ rfl rfl
  have hopen : (⟨false, false, braces, brackets⟩ : Scan).step 0x5B =
      ⟨false, false, braces, brackets + 1⟩ := rfl
  refine ⟨?_, ⟨Int.le_refl _, fun _ => rfl⟩, ?_⟩
  · rw [run_cons, hopen, run_append, hrun, run_cons, step_closeBracket]
    rfl
  rw [hopen]
  refine along_append.mpr ⟨halong.mono (Within.mono (by rw [depth_mk, depth_mk]; omega)), ?_⟩
  rw [hrun]
  exact ⟨⟨by rw [depth_mk, depth_mk]; omega, fun _ => rfl⟩, trivial⟩

end Scan

/-! ### Texts of the grammar are steady -/

open Scan List

theorem word_of_ws {c : UInt8} (hc : isWs c = true) : Word c := by
  simp only [isWs, Bool.or_eq_true, decide_eq_true_iff] at hc
  rcases hc with ((rfl | rfl) | rfl) | rfl <;> decide

theorem Blank.steady {w : Bytes} (h : Blank w) : Steady false w :=
  Steady.words fun c hc => word_of_ws (h c hc)

theorem word_of_digit {c : UInt8} (hc : IsDigit c) : Word c := by
  have hlo := UInt8.le_iff_toNat_le.mp hc.1
  have hhi := UInt8.le_iff_toNat_le.mp hc.2
  refine ⟨by simp [structural, isDigit_iff.mpr hc], ?_, ?_, ?_, ?_, ?_⟩
  · rintro rfl
    exact absurd hlo (by decide)
  all_goals
    rintro rfl
    exact absurd hhi (by decide)

theorem IsSign.words {isSign : UInt8 → Bool} {sign : Bytes} (h : IsSign isSign sign)
    (hsign : ∀ c, isSign c = true → Word c) : ∀ c ∈ sign, Word c := by
  rcases h with rfl | ⟨e, he, rfl⟩
  · exact fun c hc => absurd hc not_mem_nil
  intro c hc
  rw [mem_singleton] at hc
  exact hc ▸ hsign e he

theorem IsPart.words {isLead isSign : UInt8 → Bool} {x : Bytes} (h : IsPart isLead isSign x)
    (hlead : ∀ c, isLead c = true → Word c) (hsign : ∀ c, isSign c = true → Word c) :
    ∀ c ∈ x, Word c := by
  rcases h with rfl | ⟨d, sign, ds, hd, hsigns, hds, rfl⟩
  · exact fun c hc => absurd hc not_mem_nil
  intro c hc
  rcases mem_append.mp hc with hc | hc
  · rcases mem_cons.mp hc with rfl | hc
    · exact hlead c hd
    · exact hsigns.words hsign c hc
  · exact word_of_digit (hds.2 c hc)

theorem IsIntPart.words {int : Bytes} (h : IsIntPart int) : ∀ c ∈ int, Word c := by
  rcases h with rfl | ⟨hdigits, -⟩
  · decide +kernel
  · exact fun c hc => word_of_digit (hdigits.2 c hc)

theorem IsNumberText.words {lit : Bytes} (h : IsNumberText lit) : ∀ c ∈ lit, Word c := by
  obtain ⟨minus, int, frac, exp, hparts, rfl⟩ := h
  intro c hc
  simp only [mem_append] at hc
  rcases hc with ((hc | hc) | hc) | hc
  · refine hparts.minus.words (fun c hc => ?_) c hc
    rw [beq_iff_eq] at hc
    exact hc ▸ by decide
  · exact hparts.int.words c hc
  · refine hparts.frac.words (fun c hc => ?_) (fun c hc => by cases hc) c hc
    rw [beq_iff_eq] at hc
    exact hc ▸ by decide
  refine hparts.exp.words (fun c hc => ?_) (fun c hc => ?_) c hc
  all_goals
    simp only [Bool.or_eq_true, beq_iff_eq] at hc
    rcases hc with rfl | rfl <;> decide

theorem run_rawBody {b : Bool} {s body rest : Bytes} (h : rawBody b s = some (body, rest))
    (braces brackets : Int) :
    (⟨true, b, braces, brackets⟩ : Scan).run body = ⟨true, false, braces, brackets⟩ ∧
      Along (fun s _ => s.inString = true ∧ s.depth = braces + brackets)
        ⟨true, b, braces, brackets⟩ body := by
  induction s generalizing b body with
  | nil => cases b <;> cases h
  | cons c tail ih =>
    cases b with
    | true =>
      rw [rawBody] at h
      obtain ⟨⟨body', rest'⟩, hbody, heq⟩ := Option.map_eq_some_iff.mp h
      cases heq
      obtain ⟨hrun, halong⟩ := ih hbody
      exact ⟨hrun, ⟨rfl, rfl⟩, halong⟩
    | false =>
      rw [rawBody] at h
      by_cases hquote : c = 0x22
      · rw [if_pos hquote] at h
        cases h
        exact ⟨rfl, trivial⟩
      by_cases hcontrol : c < 0x20
      · rw [if_neg hquote, if_pos hcontrol] at h
        cases h
      rw [if_neg hquote, if_neg hcontrol] at h
      obtain ⟨⟨body', rest'⟩, hbody, heq⟩ := Option.map_eq_some_iff.mp h
      cases heq
      obtain ⟨hrun, halong⟩ := ih hbody
      have hstep : (⟨true, false, braces, brackets⟩ : Scan).step c =
          ⟨true, decide (c = 0x5C), braces, brackets⟩ := by
        by_cases hescape : c = 0x5C
        · simp [step, hescape]
        · simp [step, hescape, hquote]
      refine ⟨?_, ⟨rfl, rfl⟩, ?_⟩
      · rw [run_cons, hstep, hrun]
      rw [hstep]
      exact halong

theorem IsBody.steady {body text : Bytes} (h : IsBody body text) : Steady true body := by
  rintro ⟨inString, escape, braces, brackets⟩ rfl rfl
  obtain ⟨hrun, halong⟩ := run_rawBody h.1 braces brackets
  refine ⟨hrun, halong.mono fun s c hs => ⟨?_, fun hout => ?_⟩⟩
  · rw [hs.2]
    exact Int.le_refl _
  rw [hs.1] at hout
  cases hout

/-- **A text of the grammar is steady.** -/
theorem Reads.steady {p : Part} {t : Bytes} (h : Reads p t) : Steady false t := by
  have hcolon : Steady false [0x3A] := (show Word 0x3A by decide).steady
  have hcomma : Steady false [0x2C] := (show Word 0x2C by decide).steady
  induction h with
  | nullWord => exact Steady.words (show ∀ c ∈ literal "null", Word c by decide +kernel)
  | trueWord => exact Steady.words (show ∀ c ∈ literal "true", Word c by decide +kernel)
  | falseWord => exact Steady.words (show ∀ c ∈ literal "false", Word c by decide +kernel)
  | number h => exact Steady.words h.words
  | string h => exact h.steady.quoted
  | emptyObject hw => exact hw.steady.braces
  | object hw _ ih =>
    have hbraces := (hw.steady.append ih).braces
    rwa [append_assoc] at hbraces
  | emptyArray hw => exact hw.steady.brackets
  | array hw _ ih =>
    have hbrackets := (hw.steady.append ih).brackets
    rwa [append_assoc] at hbrackets
  | member hkey h₁ h₂ _ h₃ ih =>
    exact hkey.steady.quoted.append
      (h₁.steady.append (hcolon.append (h₂.steady.append (ih.append h₃.steady))))
  | moreMembers hkey h₁ h₂ _ h₃ h₄ _ ih ihr =>
    exact hkey.steady.quoted.append (h₁.steady.append (hcolon.append (h₂.steady.append
      (ih.append (h₃.steady.append (hcomma.append (h₄.steady.append ihr)))))))
  | item _ hw ih => exact ih.append hw.steady
  | moreItems _ h₁ h₂ _ ih ihr =>
    exact ih.append (h₁.steady.append (hcomma.append (h₂.steady.append ihr)))

end DenseCore.Lib.Json
