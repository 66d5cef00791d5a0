/-
Pieces of a JSON text, read as texts of their own.

A piece that begins where an object begins and stops before its end has a bracket
open, so it is no text.  A piece that begins inside a string takes what stands between
the strings for its own strings: if it is a text at all, its keys are made of the few
bytes that stand there (`structuralKeys_of_inside`).
-/
import DenseCore.Lib.JsonScan

namespace DenseCore.Lib.Json

open List

open Scan

/-! ### Texts that are cut short -/

variable {s : Scan} {x y body t text : Bytes} {c : UInt8} {v : Value Bytes}

theorem Scan.Along.at {P : Scan → UInt8 → Prop}
    (h : Along P s (x ++ c :: y)) : P (s.run x) c := (along_append.mp h).2.1

theorem depth_of_cut (h : Steady false body) (hy : y ≠ [])
    (hpre : y <+: 0x7B :: body) : 1 ≤ (Scan.run {} y).depth := by
  obtain ⟨hrun, halong⟩ := along_braces h 0 0
  obtain ⟨z, hz⟩ := hpre
  cases y with
  | nil => exact absurd rfl hy
  | cons c y =>
    rw [cons_append] at hz
    obtain ⟨rfl, hbody⟩ := List.cons.inj hz
    cases z with
    | nil =>
      rw [append_nil] at hbody
      rw [hbody, hrun]
      exact Int.le_refl _
    | cons d z =>
      rw [← hbody] at halong
      exact halong.at.1

theorem Reads.braces {ms : List (Bytes × Value Bytes)}
    (h : Reads (.value (.object ms)) t) : ∃ body, Steady false body ∧ t = 0x7B ::
    (body ++ [0x7D]) := by
  cases h with
  | emptyObject hw => exact ⟨_, hw.steady, rfl⟩
  | object hw h => exact ⟨_, hw.steady.append h.steady, by rw [append_assoc]⟩

theorem Reads.brackets {vs : List (Value Bytes)}
    (h : Reads (.value (.array vs)) t) : ∃ body, Steady false body ∧ t = 0x5B ::
    (body ++ [0x5D]) := by
  cases h with
  | emptyArray hw => exact ⟨_, hw.steady, rfl⟩
  | array hw h => exact ⟨_, hw.steady.append h.steady, by rw [append_assoc]⟩

theorem Reads.object_of_head {rest : Bytes} (h : Reads (.value v) t)
    (ht : t = 0x7B :: rest) : ∃ ms, v = .object ms := by
  cases h with
  | number h =>
    obtain ⟨c, tail, hlit, hc⟩ := h.head
    rw [hlit] at ht
    obtain ⟨rfl, -⟩ := List.cons.inj ht
    exact absurd (show (0x7B : UInt8) = 0x2D ∨ IsDigit 0x7B from hc)
      (by unfold IsDigit; decide)
  | emptyObject _ => exact ⟨_, rfl⟩
  | object _ _ => exact ⟨_, rfl⟩
  | nullWord => cases ht
  | trueWord => cases ht
  | falseWord => cases ht
  | string _ => cases ht
  | emptyArray _ => cases ht
  | array _ _ => cases ht

/-- A value without a bracket or a quote. -/
def IsScalar (v : Value Bytes) : Prop := v = .null ∨ (∃ b, v = .bool b) ∨ ∃ n, v = .number n

theorem Reads.scalar_or_head (h : Reads (.value v) t) :
    IsScalar v ∨ ∃ c ∈ [0x7B, 0x5B, 0x22], t.head? = some c := by
  cases h with
  | nullWord => exact Or.inl (Or.inl rfl)
  | trueWord | falseWord => exact Or.inl (Or.inr (Or.inl ⟨_, rfl⟩))
  | number h => exact Or.inl (Or.inr (Or.inr ⟨_, rfl⟩))
  | string h => exact Or.inr ⟨0x22, by decide, rfl⟩
  | emptyObject hw | object hw h => exact Or.inr ⟨0x7B, by decide, rfl⟩
  | emptyArray hw | array hw h => exact Or.inr ⟨0x5B, by decide, rfl⟩

/-! ### Texts that are read from inside a string -/

theorem Scan.step_plain (he : s.escape = false) (hc : c ≠ 0x5C) : (s.step c).escape = false ∧
      (s.step c).inString = if c = 0x22 then !s.inString else s.inString := by
  obtain ⟨inString, escape, braces, brackets⟩ := s
  obtain rfl : escape = false := he
  unfold step
  cases inString with
  | true => by_cases hquote : c = 0x22 <;> simp [hquote, hc]
  | false =>
    by_cases hquote : c = 0x22
    · simp [hquote]
    simp only [hquote, Bool.false_eq_true, if_false]
    repeat' split
    all_goals exact ⟨rfl, rfl⟩

theorem Scan.run_inString (h : (0x22 : UInt8) ∉ x) : (s.run x).inString = s.inString := by
  induction x generalizing s with
  | nil => rfl
  | cons c rest ih =>
    rw [mem_cons, not_or] at h
    rw [run_cons, ih h.2]
    unfold step
    repeat' split
    all_goals simp_all

/-- One scanner is in a string where the other is outside. -/
def Scan.Opposite (s u : Scan) : Prop :=
  s.escape = false ∧ u.escape = false ∧ s.inString = !u.inString

/-- The strings of the one are what stands outside for the other. -/
theorem Scan.Opposite.run {u : Scan} (h : Opposite s u) {m n : Int} {g : Bytes}
    (hs : Along (Within m) s g) (hu : Along (Within n) u g) :
    Opposite (s.run g) (u.run g) ∧
      Along (fun u c => u.inString = true → structural c = true) u g := by
  induction g generalizing s u with
  | nil => exact ⟨h, trivial⟩
  | cons c rest ih =>
    obtain ⟨hse, hue, hopp⟩ := h
    have hc : structural c = true := by
      cases hin : u.inString with
      | true =>
        rw [hin] at hopp
        exact hs.1.2 hopp
      | false => exact hu.1.2 hin
    have hescape : c ≠ 0x5C := by
      rintro rfl
      exact absurd hc (by decide)
    obtain ⟨hse', hsin⟩ := Scan.step_plain hse hescape
    obtain ⟨hue', huin⟩ := Scan.step_plain hue hescape
    have hopp' : Opposite (s.step c) (u.step c) := by
      refine ⟨hse', hue', ?_⟩
      rw [hsin, huin, hopp]
      split <;> simp
    obtain ⟨hrun, halong⟩ := ih hopp' hs.2 hu.2
    exact ⟨hrun, fun _ => hc, halong⟩

/-- Structural bytes only. -/
def Structural (k : Bytes) : Prop := ∀ c ∈ k, structural c = true

/-- Inside strings at structural bytes. -/
def InStrings (u : Scan) (c : UInt8) : Prop := u.inString = true → structural c = true

theorem toNat_of_structural (h : structural c = true) : c.toNat < 0x80 := by
  unfold structural isWs isDigit at h
  simp only [Bool.or_eq_true, Bool.and_eq_true, decide_eq_true_iff, contains_iff_mem,
    mem_cons, not_mem_nil, or_false] at h
  rcases h with (h | ⟨-, h⟩) | h
  · rcases h with ((rfl | rfl) | rfl) | rfl <;> decide
  · have hle := UInt8.le_iff_toNat_le.mp h
    exact Nat.lt_of_le_of_lt hle (by decide)
  · casesm* _ ∨ _ <;> subst_vars <;> decide

theorem IsBody.eq_of_structural (h : IsBody body text) (hbody : Structural body) : text = body := by
  have hescape : (0x5C : UInt8) ∉ body := fun hmem => absurd (hbody _ hmem) (by decide)
  have htext := h.2
  rw [unescape_plain hescape, Option.map_some,
    Utf8.sanitize_ascii fun c hc => toNat_of_structural (hbody c hc)] at htext
  exact (Option.some.inj htext).symm

theorem IsBody.structural (h : IsBody body text)
    (hs : s.inString = false) (he : s.escape = false) (halong : Along InStrings s (quoted body)) :
    Structural text := by
  obtain ⟨inString, escape, braces, brackets⟩ := s
  obtain rfl : inString = false := hs
  obtain rfl : escape = false := he
  unfold quoted at halong
  rw [cons_append] at halong
  have hinside := (run_rawBody h.1 braces brackets).2
  have hbody : Structural body :=
    (((along_append.mp halong.2).1.and hinside).mono fun s c h => h.1 h.2.1).forall_mem
  rw [h.eq_of_structural hbody]
  exact hbody

/-- The keys of an object. -/
def keys : Value Bytes → List Bytes
  | .object ms => ms.map Prod.fst
  | _ => []

/-- The keys of a value, or of the items of a list, are structural. -/
def StructuralKeys (v : Value Bytes) : Prop :=
  (∀ k ∈ keys v, Structural k) ∧ ∀ vs, v = .array vs → ∀ w ∈ vs, ∀ k ∈ keys w, Structural k

theorem StructuralKeys.of_no_keys (hkeys : keys v = [])
    (harray : ∀ vs, v ≠ .array vs) : StructuralKeys v := by
  refine ⟨fun k hk => ?_, fun vs hvs => absurd hvs (harray vs)⟩
  rw [hkeys] at hk
  exact absurd hk not_mem_nil

theorem IsScalar.structuralKeys (h : IsScalar v) : StructuralKeys v := by
  rcases h with rfl | ⟨b, rfl⟩ | ⟨n, rfl⟩
  · exact .of_no_keys rfl fun _ h => by cases h
  · exact .of_no_keys rfl fun _ h => by cases h
  · exact .of_no_keys rfl fun _ h => by cases h

/-- What the keys of a part are made of. -/
def PartKeys : Part → Prop
  | .value v => StructuralKeys v
  | .members ms => ∀ k ∈ ms.map Prod.fst, Structural k
  | .items vs => ∀ w ∈ vs, ∀ k ∈ keys w, Structural k

theorem Scan.along_skip {P : Scan → UInt8 → Prop} (hx : Steady false x)
    (hs : s.inString = false) (he : s.escape = false) (h : Along P s (x ++ y)) : Along P s y := by
  have hrest := (along_append.mp h).2
  rwa [(hx s hs he).1] at hrest

/-- **The keys of a text whose strings are structural** are structural. -/
theorem Reads.structural_keys {p : Part} (h : Reads p t)
    (hs : s.inString = false) (he : s.escape = false) (halong : Along InStrings s t) :
    PartKeys p := by
  have hcolon : Steady false [0x3A] := (show Word 0x3A by decide).steady
  have hcomma : Steady false [0x2C] := (show Word 0x2C by decide).steady
  induction h generalizing s with
  | nullWord => exact .of_no_keys rfl fun _ h => by cases h
  | trueWord => exact .of_no_keys rfl fun _ h => by cases h
  | falseWord => exact .of_no_keys rfl fun _ h => by cases h
  | number h => exact .of_no_keys rfl fun _ h => by cases h
  | string h => exact .of_no_keys rfl fun _ h => by cases h
  | emptyObject hw => exact .of_no_keys rfl fun _ h => by cases h
  | object hw h ih =>
    obtain ⟨inString, escape, braces, brackets⟩ := s
    obtain rfl : inString = false := hs
    obtain rfl : escape = false := he
    have hinner : Along InStrings ⟨false, false, braces + 1, brackets⟩ _ := halong.2
    have hbody := (along_append.mp (along_skip hw.steady rfl rfl hinner)).1
    exact ⟨ih rfl rfl hbody, fun _ h => by cases h⟩
  | emptyArray hw =>
    refine ⟨fun k hk => absurd hk not_mem_nil, fun vs hvs w hw => ?_⟩
    cases hvs
    exact absurd hw not_mem_nil
  | array hw h ih =>
    obtain ⟨inString, escape, braces, brackets⟩ := s
    obtain rfl : inString = false := hs
    obtain rfl : escape = false := he
    have hinner : Along InStrings ⟨false, false, braces, brackets + 1⟩ _ := halong.2
    have hbody := (along_append.mp (along_skip hw.steady rfl rfl hinner)).1
    refine ⟨fun k hk => absurd hk not_mem_nil, fun vs hvs => ?_⟩
    cases hvs
    exact ih rfl rfl hbody
  | member hkey h₁ h₂ hv h₃ ih =>
    intro k hk
    obtain rfl : k = _ := mem_singleton.mp hk
    exact hkey.structural hs he (along_append.mp halong).1
  | moreMembers hkey h₁ h₂ hv h₃ h₄ hr ih ihr =>
    have hrest := along_skip (hkey.steady.quoted.append (h₁.steady.append (hcolon.append
      (h₂.steady.append (hv.steady.append (h₃.steady.append (hcomma.append h₄.steady)))))))
      hs he (by simpa only [append_assoc, cons_append, nil_append] using halong)
    intro k hk
    rcases mem_cons.mp hk with rfl | hk
    · exact hkey.structural hs he (along_append.mp halong).1
    · exact ihr hs he hrest k hk
  | item hv hw ih =>
    intro w hmem
    obtain rfl : w = _ := mem_singleton.mp hmem
    exact (ih hs he (along_append.mp halong).1).1
  | moreItems hv h₁ h₂ hr ih ihr =>
    have hrest := along_skip (hv.steady.append (h₁.steady.append (hcomma.append h₂.steady)))
      hs he (by simpa only [append_assoc, cons_append, nil_append] using halong)
    intro w hmem
    rcases mem_cons.mp hmem with rfl | hmem
    · exact (ih hs he (along_append.mp halong).1).1
    · exact ihr hs he hrest w hmem

/-- **Read from inside a string** of a steady text, a value has structural keys. -/
theorem structuralKeys_of_inside {after g z : Bytes}
    (htext : Steady false text) (hafter : (0x22 : UInt8) ∉ after)
    (hsplit : text ++ after = x ++ (g ++ z))
    (hin : (Scan.run {} x).inString = true) (he : (Scan.run {} x).escape = false)
    (hparse : parse g = some v) : StructuralKeys v := by
  obtain ⟨w₁, t, w₂, h₁, h₂, hreads, rfl⟩ := exists_reads_of_parse hparse
  obtain ⟨hrun, halong⟩ := htext {} rfl rfl
  obtain ⟨hgrun, hgalong⟩ := (h₁.steady.append (hreads.steady.append h₂.steady)) {} rfl rfl
  have hopp : Opposite (Scan.run {} x) {} := ⟨he, rfl, hin⟩
  -- the text that was read does not reach beyond the steady one
  have hwithin : ∃ z', text = x ++ ((w₁ ++ (t ++ w₂)) ++ z') := by
    rw [← append_assoc] at hsplit
    rcases append_eq_append_iff.mp hsplit with ⟨a, hbeyond, rfl⟩ | ⟨z', rfl, -⟩
    · have hquote : (0x22 : UInt8) ∉ a := fun hmem => hafter (mem_append_left z hmem)
      rcases append_eq_append_iff.mp hbeyond with ⟨b, rfl, hb⟩ | ⟨b, rfl, rfl⟩
      · -- the string that is open at the end of the text is never closed
        rw [hb] at hgrun hgalong
        rw [run_append] at hrun hgrun
        obtain ⟨-, -, hend⟩ := (hopp.run (along_append.mp halong).2 (along_append.mp hgalong).1).1
        rw [hrun, Bool.eq_not] at hend
        have hstay : ((Scan.run {} b).run a).inString = (Scan.run {} b).inString :=
          Scan.run_inString hquote
        rw [hgrun] at hstay
        exact absurd hstay hend
      rw [run_append, hrun, Scan.run_inString fun hmem => hquote (mem_append_left _ hmem)]
        at hin
      cases hin
    · exact ⟨z', append_assoc _ _ _⟩
  obtain ⟨z', rfl⟩ := hwithin
  have hg := (along_append.mp (along_append.mp halong).2).1
  have hstrings := (hopp.run hg hgalong).2
  exact hreads.structural_keys rfl rfl
    (along_append.mp (along_skip h₁.steady rfl rfl hstrings)).1

end DenseCore.Lib.Json
