/-
The spans of a text are the JSON that is embedded in it.

Between two values the search is in its first state again, whatever the strings of the
last one held, and quotes in the prose do not reach it; so the values are found one after
the other (`balancedJSONSpans_embedded`).  On any text at all a span is closed before the
next one opens.  The source goes over runes and counts bytes: the bytes of a rune that is
not ASCII change nothing behind the first of them (`balancedJSONSpans_eq_runeSpans`).
-/
import DenseCore.Proofs.Server.ToolCandidates

namespace DenseCore.Server

open List

open Lib (Bytes literal)
open Lib.Json
open Lib.Json.Scan (Steady)

attribute [local simp] spansFrom

/-! ### Embedded values -/

/-- The text of an object or an array, and what stands behind it. -/
structure Embedded where
  json : Bytes
  behind : Bytes

/-- The text is one of the grammar, for an object or an array. -/
def IsContainer (t : Bytes) : Prop :=
  (∃ members, Reads (.value (.object members)) t) ∨ ∃ items, Reads (.value (.array items)) t

/-- A value with the text behind it. -/
def Embedded.text (e : Embedded) : Bytes := e.json ++ e.behind

/-- The ranges of the values, from an offset on. -/
def ranges : Nat → List Embedded → List (Nat × Nat)
  | _, [] => []
  | i, e :: rest => (i, i + e.json.length) :: ranges (i + e.text.length) rest

theorem spansFrom_container {t : Bytes} (ht : IsContainer t) (i : Nat) (rest : Bytes) :
    spansFrom {} i (t ++ rest) = (i, i + t.length) :: spansFrom {} (i + t.length) rest := by
  obtain ⟨opening, closing, body, hpair, hbody, rfl⟩ : ∃ opening closing body,
      Pair opening closing ∧ Steady false body ∧ t = opening :: (body ++ [closing]) := by
    rcases ht with ⟨members, h⟩ | ⟨items, h⟩
    · exact ⟨_, _, h.braces.choose, .object, h.braces.choose_spec⟩
    · exact ⟨_, _, h.brackets.choose, .array, h.brackets.choose_spec⟩
  have hlength : (opening :: (body ++ [closing])).length = body.length + 2 := by simp
  rw [spansFrom_pair hpair hbody, hlength]

variable {es : List Embedded} {b : UInt8}

theorem spansFrom_embedded (hes : ∀ e ∈ es, IsContainer e.json ∧ NoBrackets e.behind) (i : Nat) :
    spansFrom {} i (es.flatMap Embedded.text) = ranges i es := by
  induction es generalizing i with
  | nil => rfl
  | cons e es ih =>
    obtain ⟨hjson, hbehind⟩ := hes e mem_cons_self
    have hrest := ih (fun x hx => hes x (mem_cons_of_mem e hx)) (i + e.text.length)
    have hlength : i + e.json.length + e.behind.length = i + e.text.length := by
      rw [Embedded.text, length_append, Nat.add_assoc]
    rw [flatMap_cons, Embedded.text, append_assoc, spansFrom_container hjson,
      spansFrom_outside hbehind, hlength, hrest]
    rfl

/-- **The spans are the ranges of the embedded values**, in order. -/
theorem balancedJSONSpans_embedded {before : Bytes} (hbefore : NoBrackets before)
    (hes : ∀ e ∈ es, IsContainer e.json ∧ NoBrackets e.behind) :
    balancedJSONSpans (before ++ es.flatMap Embedded.text) = ranges before.length es := by
  rw [balancedJSONSpans, spansFrom_outside hbefore, Nat.zero_add, spansFrom_embedded hes]

/-! ### What a step can do -/

theorem spanStep_cases (s : SpanState) (i : Nat) (r : UInt8) :
    (∃ start, s.start = some start ∧ (spanStep s i r).2 = some (start, i + 1) ∧
        (spanStep s i r).1.start = none ∧ (r = 0x7D ∨ r = 0x5D)) ∨
      (spanStep s i r).2 = none ∧ ((spanStep s i r).1.start = s.start ∨
        s.start = none ∧ (spanStep s i r).1.start = some i) := by
  obtain ⟨inString, escaped, start, depth⟩ := s
  cases start with
  | none =>
    unfold spanStep
    dsimp only
    split_ifs
    · exact Or.inr ⟨rfl, Or.inr ⟨rfl, rfl⟩⟩
    · exact Or.inr ⟨rfl, Or.inl rfl⟩
  | some start =>
    unfold spanStep
    dsimp only
    split_ifs with h₁ h₂ h₃ h₄ h₅ h₆ h₇ h₈
    all_goals first
      | exact Or.inr ⟨rfl, Or.inl rfl⟩
      | exact Or.inl ⟨start, rfl, rfl, rfl, by assumption⟩

/-- The spans follow each other and lie within the text. -/
theorem spansFrom_ordered (text : Bytes) :
    ∀ (s : SpanState) (i : Nat), (∀ start, s.start = some start → start < i) →
      (spansFrom s i text).Pairwise (fun a b => a.2 ≤ b.1) ∧
        ∀ a ∈ spansFrom s i text, s.start.getD i ≤ a.1 ∧ a.1 < a.2 ∧ a.2 ≤ i + text.length := by
  induction text with
  | nil => exact fun s i _ => ⟨List.Pairwise.nil, fun a ha => absurd ha not_mem_nil⟩
  | cons r rest ih =>
    intro s i hstart
    have hcases := spanStep_cases s i r
    rw [spansFrom, length_cons]
    generalize spanStep s i r = step at hcases ⊢
    obtain ⟨s', o⟩ := step
    rcases hcases with ⟨start, hopen, rfl, hnone, -⟩ | ⟨rfl, hkept | ⟨hnone, hopened⟩⟩
    · obtain ⟨hordered, hbounds⟩ := ih s' (i + 1) fun x hx => by rw [hnone] at hx; cases hx
      rw [hnone] at hbounds
      rw [hopen]
      refine ⟨List.Pairwise.cons (fun b hb => (hbounds b hb).1) hordered, fun a ha => ?_⟩
      have hlt := hstart start hopen
      rcases List.mem_cons.mp ha with rfl | ha
      · exact ⟨Nat.le_refl _, by dsimp only; omega, by dsimp only; omega⟩
      obtain ⟨hlow, hspan, hhigh⟩ := hbounds a ha
      simp only [Option.getD_none, Option.getD_some] at hlow ⊢
      exact ⟨by omega, hspan, by omega⟩
    · obtain ⟨hordered, hbounds⟩ := ih s' (i + 1) fun x hx => by
        have := hstart x (hkept ▸ hx)
        omega
      refine ⟨hordered, fun a ha => ?_⟩
      obtain ⟨hlow, hspan, hhigh⟩ := hbounds a ha
      rw [hkept] at hlow
      refine ⟨Nat.le_trans ?_ hlow, hspan, by omega⟩
      cases s.start with
      | none => exact Nat.le_succ i
      | some start => exact Nat.le_refl _
    obtain ⟨hordered, hbounds⟩ := ih s' (i + 1) fun x hx => by
      rw [hopened] at hx
      have := Option.some.inj hx
      omega
    refine ⟨hordered, fun a ha => ?_⟩
    obtain ⟨hlow, hspan, hhigh⟩ := hbounds a ha
    rw [hopened] at hlow
    rw [hnone]
    exact ⟨hlow, hspan, by omega⟩

/-! ### Runes -/

/-- The byte that stands for a rune in the comparisons; they are all with ASCII. -/
def runeByte (r : Char) : UInt8 := if r.toNat < 0x80 then UInt8.ofNat r.toNat else 0x80

/-- The loop over the runes of the text, with their offsets. -/
def runeSpansFrom : Nat → SpanState → Nat → Bytes → List (Nat × Nat)
  | 0, _, _, _ => []
  | _ + 1, _, _, [] => []
  | fuel + 1, s, i, b :: text =>
    let r := Lib.Utf8.decodeRune (b :: text)
    let next := i + ((b :: text).length - r.2.length)
    match spanStep s i (runeByte r.1) with
    | (s, none) => runeSpansFrom fuel s next r.2
    | (s, some span) => span :: runeSpansFrom fuel s next r.2

/-- The offsets at which a rune begins, and the end of the text. -/
def runeOffsets : Nat → Nat → Bytes → List Nat
  | 0, i, _ => [i]
  | _ + 1, i, [] => [i]
  | fuel + 1, i, b :: text =>
    let r := Lib.Utf8.decodeRune (b :: text)
    i :: runeOffsets fuel (i + ((b :: text).length - r.2.length)) r.2

/-- A place between two runes of the text, or at one of its ends. -/
def RuneBoundary (text : Bytes) (i : Nat) : Prop := i ∈ runeOffsets text.length 0 text

/-- What a byte that is not ASCII does: it is escaped, or nothing. -/
def pass (s : SpanState) : SpanState :=
  if s.start.isSome ∧ s.inString = true ∧ s.escaped = true then { s with escaped := false } else s

theorem spanStep_high (hb : 0x80 ≤ b.toNat) (s : SpanState) (i : Nat) :
    spanStep s i b = (pass s, none) := by
  have hne : ∀ c : UInt8, c.toNat < 0x80 → b ≠ c := by
    rintro c hc rfl
    omega
  have hquote := hne 0x22 (by decide)
  have hslash := hne 0x5C (by decide)
  have hopen : ¬ (b = 0x7B ∨ b = 0x5B) := not_or.mpr ⟨hne _ (by decide), hne _ (by decide)⟩
  have hclose : ¬ (b = 0x7D ∨ b = 0x5D) := not_or.mpr ⟨hne _ (by decide), hne _ (by decide)⟩
  obtain ⟨inString, escaped, start, depth⟩ := s
  unfold spanStep pass
  cases start with
  | none => simp [hopen]
  | some start => cases inString <;> cases escaped <;> simp [hquote, hslash, hopen, hclose]

theorem pass_pass (s : SpanState) : pass (pass s) = pass s := by
  obtain ⟨inString, escaped, start, depth⟩ := s
  unfold pass
  cases start <;> cases inString <;> cases escaped <;> rfl

theorem spansFrom_high {tail : Bytes} (htail : ∀ x ∈ tail, 0x80 ≤ x.toNat) (s : SpanState)
    (i : Nat) (rest : Bytes) :
    spansFrom (pass s) i (tail ++ rest) = spansFrom (pass s) (i + tail.length) rest := by
  induction tail generalizing i with
  | nil => rfl
  | cons b tail ih =>
    rw [cons_append, spansFrom, spanStep_high (htail b mem_cons_self), pass_pass]
    dsimp only
    rw [ih fun x hx => htail x (mem_cons_of_mem b hx), length_cons]
    congr 1
    omega

theorem runeByte_ascii (hb : b.toNat < 0x80) : runeByte (Char.ofNat b.toNat) = b := by
  unfold runeByte
  rw [Lib.Utf8.toNat_charOfNat hb, if_pos hb]
  exact UInt8.ofNat_toNat

theorem runeByte_high {r : Char} (hr : 0x80 ≤ r.toNat) : runeByte r = 0x80 :=
  if_neg (Nat.not_lt.mpr hr)

/-- Going by runes or by bytes gives the same spans. -/
theorem runeSpansFrom_eq (fuel : Nat) :
    ∀ (s : SpanState) (i : Nat) (text : Bytes), text.length ≤ fuel →
      runeSpansFrom fuel s i text = spansFrom s i text := by
  induction fuel with
  | zero =>
    intro s i text hlen
    rw [eq_nil_of_length_eq_zero (Nat.le_zero.mp hlen)]
    rfl
  | succ fuel ih =>
    intro s i text hlen
    cases text with
    | nil => rfl
    | cons b text =>
      rw [length_cons] at hlen
      rw [runeSpansFrom]
      by_cases hb : b.toNat < 0x80
      · have hnext : i + ((b :: text).length - text.length) = i + 1 := by
          rw [length_cons]
          omega
        rw [Lib.Utf8.decodeRune_ascii hb, runeByte_ascii hb, hnext, spansFrom]
        obtain ⟨s', o⟩ := spanStep s i b
        cases o with
        | none => exact ih s' (i + 1) text (by omega)
        | some span => exact congrArg (span :: ·) (ih s' (i + 1) text (by omega))
      have hhigh := Nat.le_of_not_lt hb
      obtain ⟨hr, tail, htail, htext⟩ := Lib.Utf8.decodeRune_high hhigh text
      rw [runeByte_high hr, spanStep_high (b := 0x80) (by decide)]
      generalize (Lib.Utf8.decodeRune (b :: text)).2 = rest at htext ⊢
      subst htext
      have hnext : i + ((b :: (tail ++ rest)).length - rest.length) = i + 1 + tail.length := by
        rw [length_cons, length_append]
        omega
      rw [length_append] at hlen
      dsimp only
      rw [hnext, ih _ _ rest (by omega), spansFrom, spanStep_high hhigh]
      exact (spansFrom_high htail s (i + 1) rest).symm

/-- **The loop over the runes finds the same spans.** -/
theorem balancedJSONSpans_eq_runeSpans (text : Bytes) :
    balancedJSONSpans text = runeSpansFrom text.length {} 0 text :=
  (runeSpansFrom_eq text.length {} 0 text (Nat.le_refl _)).symm

theorem mem_runeOffsets (fuel i : Nat) (text : Bytes) : i ∈ runeOffsets fuel i text := by
  cases fuel with
  | zero => exact mem_cons_self
  | succ fuel =>
    cases text with
    | nil => exact mem_cons_self
    | cons b text => exact mem_cons_self

/-- A span begins and ends at a rune. -/
theorem runeSpansFrom_boundary (fuel : Nat) :
    ∀ (s : SpanState) (i : Nat) (text : Bytes), ∀ a ∈ runeSpansFrom fuel s i text,
      (s.start = some a.1 ∨ a.1 ∈ runeOffsets fuel i text) ∧ a.2 ∈ runeOffsets fuel i text := by
  induction fuel with
  | zero => exact fun s i text a ha => absurd ha not_mem_nil
  | succ fuel ih =>
    intro s i text a ha
    cases text with
    | nil => exact absurd ha not_mem_nil
    | cons b text =>
      rw [runeSpansFrom] at ha
      have hcases := spanStep_cases s i (runeByte (Lib.Utf8.decodeRune (b :: text)).1)
      -- a bracket is a byte of its own
      have hnext : (runeByte (Lib.Utf8.decodeRune (b :: text)).1 = 0x7D ∨
          runeByte (Lib.Utf8.decodeRune (b :: text)).1 = 0x5D) →
          (b :: text).length - (Lib.Utf8.decodeRune (b :: text)).2.length = 1 := by
        intro hbracket
        by_cases hb : b.toNat < 0x80
        · rw [Lib.Utf8.decodeRune_ascii hb, length_cons]
          exact Nat.add_sub_cancel_left text.length 1
        have hhigh := (Lib.Utf8.decodeRune_high (Nat.le_of_not_lt hb) text).1
        rw [runeByte_high hhigh] at hbracket
        exact absurd hbracket (by decide)
      rw [runeOffsets]
      generalize Lib.Utf8.decodeRune (b :: text) = r at ha hcases hnext ⊢
      generalize spanStep s i (runeByte r.1) = step at ha hcases
      obtain ⟨s', o⟩ := step
      rcases hcases with ⟨start, hopen, rfl, hnone, hbracket⟩ | ⟨rfl, hkept | ⟨hnone, hopened⟩⟩
      · rcases List.mem_cons.mp ha with rfl | ha
        · refine ⟨Or.inl hopen, mem_cons_of_mem _ ?_⟩
          rw [hnext hbracket]
          exact mem_runeOffsets fuel (i + 1) r.2
        obtain ⟨hstart, hend⟩ := ih _ _ _ a ha
        rw [hnone] at hstart
        exact ⟨Or.inr (mem_cons_of_mem _ (hstart.resolve_left fun h => (nomatch h))),
          mem_cons_of_mem _ hend⟩
      · obtain ⟨hstart, hend⟩ := ih _ _ _ a ha
        rw [hkept] at hstart
        exact ⟨hstart.imp_right fun h => mem_cons_of_mem _ h, mem_cons_of_mem _ hend⟩
      obtain ⟨hstart, hend⟩ := ih _ _ _ a ha
      rw [hopened] at hstart
      refine ⟨Or.inr ?_, mem_cons_of_mem _ hend⟩
      rcases hstart with hself | hlater
      · rw [← Option.some.inj hself]
        exact mem_cons_self
      · exact mem_cons_of_mem _ hlater

/-- **The spans are the embedded values, and on any text they are well placed**: the spans
of a text made of values between prose are the ranges of the values; and the spans of any
text come one behind the other, are not empty, end in the text, and lie between runes. -/
theorem balancedJSONSpans_spec (before : Bytes) (hbefore : NoBrackets before)
    (es : List Embedded) (hes : ∀ e ∈ es, IsContainer e.json ∧ NoBrackets e.behind) :
    balancedJSONSpans (before ++ es.flatMap Embedded.text) = ranges before.length es ∧
      ∀ text : Bytes, (balancedJSONSpans text).Pairwise (fun a b => a.2 ≤ b.1) ∧
        ∀ a ∈ balancedJSONSpans text, a.1 < a.2 ∧ a.2 ≤ text.length ∧
          RuneBoundary text a.1 ∧ RuneBoundary text a.2 := by
  refine ⟨balancedJSONSpans_embedded hbefore hes, fun text => ?_⟩
  obtain ⟨hordered, hbounds⟩ := spansFrom_ordered text {} 0 fun start hstart => nomatch hstart
  refine ⟨hordered, fun a ha => ?_⟩
  obtain ⟨-, hspan, hhigh⟩ := hbounds a ha
  rw [balancedJSONSpans_eq_runeSpans] at ha
  obtain ⟨hstart, hend⟩ := runeSpansFrom_boundary text.length {} 0 text a ha
  exact ⟨hspan, by omega, hstart.resolve_left (fun h => (nomatch h)), hend⟩

/-- `["}\"["]` and `{}`, with a quote in the prose. -/
theorem quoted_brackets_spans :
    balancedJSONSpans (literal "so \"" ++ [⟨literal "[\"\x7d\\\"[\"]", literal " and "⟩,
        ⟨literal "\x7b\x7d", []⟩].flatMap Embedded.text) = [(4, 12), (17, 19)] ∧
      ∀ text : Bytes, (balancedJSONSpans text).Pairwise (fun a b => a.2 ≤ b.1) ∧
        ∀ a ∈ balancedJSONSpans text, a.1 < a.2 ∧ a.2 ≤ text.length ∧
          RuneBoundary text a.1 ∧ RuneBoundary text a.2 := by
  have hlist : IsContainer (literal "[\"\x7d\\\"[\"]") := by
    have hbody : IsBody (literal "\x7d\\\"[") (literal "\x7d\"[") := by
      unfold IsBody
      decide +kernel
    exact Or.inr ⟨_, .array (w := []) (fun _ h => nomatch h)
      (.item (w := []) (.string hbody) fun _ h => nomatch h)⟩
  have hobject : IsContainer (literal "\x7b\x7d") :=
    Or.inl ⟨_, .emptyObject (w := []) fun _ h => nomatch h⟩
  refine balancedJSONSpans_spec (literal "so \"") (by unfold NoBrackets; decide +kernel)
    [⟨literal "[\"\x7d\\\"[\"]", literal " and "⟩, ⟨literal "\x7b\x7d", []⟩] ?_
  intro e he
  rcases List.mem_cons.mp he with rfl | he
  · exact ⟨hlist, by unfold NoBrackets; decide +kernel⟩
  rw [List.mem_singleton.mp he]
  exact ⟨hobject, fun _ h => nomatch h⟩

end DenseCore.Server
