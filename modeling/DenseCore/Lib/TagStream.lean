/-
Text with an open and a close tag, read as tokens.

Both tags begin with a mark that appears nowhere else in them, and neither is a
prefix of the other.  That is enough for the text to be cut into tags and plain
symbols in one way only: a tag cannot begin inside another one.  The cut is
stable under appending, up to the beginning of a tag that the text may end with,
and `exists_tail` is the form in which a stream uses it.
-/
import Mathlib.Data.List.Infix

namespace DenseCore.Lib

open List

/-- An open and a close tag. -/
structure Tags (α : Type) where
  mark : α
  openRest : List α
  closeRest : List α
  mark_not_mem_open : mark ∉ openRest
  mark_not_mem_close : mark ∉ closeRest
  open_not_prefix : ¬ openRest <+: closeRest
  close_not_prefix : ¬ closeRest <+: openRest

/-- A symbol of the text, or one of the tags. -/
inductive Token (α : Type) where
  | opening
  | closing
  | plain (a : α)
deriving DecidableEq

variable {α : Type}

namespace Tags

def opening (T : Tags α) : List α := T.mark :: T.openRest

def closing (T : Tags α) : List α := T.mark :: T.closeRest

variable {T : Tags α}

theorem opening_not_prefix_closing : ¬ T.opening <+: T.closing := by
  intro h
  exact T.open_not_prefix (cons_prefix_cons.mp h).2

theorem closing_not_prefix_opening : ¬ T.closing <+: T.opening := by
  intro h
  exact T.close_not_prefix (cons_prefix_cons.mp h).2

theorem not_both_prefix {s : List α} (ho : T.opening <+: s) (hc : T.closing <+: s) : False := by
  rcases Nat.le_total T.opening.length T.closing.length with h | h
  · exact opening_not_prefix_closing (prefix_of_prefix_length_le ho hc h)
  · exact closing_not_prefix_opening (prefix_of_prefix_length_le hc ho h)

/-! ### Cutting a text into tokens -/

variable [DecidableEq α]

/-- Read the text, passing over the next `skip` symbols. -/
def lexSkip (T : Tags α) : Nat → List α → List (Token α)
  | _, [] => []
  | skip + 1, _ :: rest => lexSkip T skip rest
  | 0, a :: rest =>
    if T.opening.isPrefixOf (a :: rest) then .opening :: lexSkip T T.openRest.length rest
    else if T.closing.isPrefixOf (a :: rest) then
      .closing :: lexSkip T T.closeRest.length rest
    else .plain a :: lexSkip T 0 rest

/-- A text as tags and symbols. -/
def lex (T : Tags α) (text : List α) : List (Token α) := lexSkip T 0 text

theorem lexSkip_eq_lex_drop (T : Tags α) :
    ∀ (skip : Nat) (s : List α), lexSkip T skip s = lex T (s.drop skip) := by
  intro skip
  induction skip with
  | zero => intro s; rfl
  | succ n ih =>
    intro s
    cases s with
    | nil => rfl
    | cons a rest => exact ih rest

@[simp] theorem lex_nil : T.lex [] = [] := rfl

theorem lex_opening_append (r : List α) : T.lex (T.opening ++ r) = .opening :: T.lex r := by
  show (if T.opening.isPrefixOf (T.opening ++ r) then _ else _) = _
  rw [if_pos (by simp [List.isPrefixOf_iff_prefix]), lexSkip_eq_lex_drop]
  simp

theorem lex_closing_append (r : List α) : T.lex (T.closing ++ r) = .closing :: T.lex r := by
  have hno : ¬ T.opening <+: T.closing ++ r := fun h =>
    not_both_prefix h (prefix_append _ _)
  show (if T.opening.isPrefixOf (T.closing ++ r) then _ else _) = _
  rw [if_neg (by simpa [List.isPrefixOf_iff_prefix] using hno)]
  show (if T.closing.isPrefixOf (T.closing ++ r) then _ else _) = _
  rw [if_pos (by simp [List.isPrefixOf_iff_prefix]), lexSkip_eq_lex_drop]
  simp

theorem lex_cons_plain {a : α} {r : List α} (ho : ¬ T.opening <+: a :: r)
    (hc : ¬ T.closing <+: a :: r) : T.lex (a :: r) = .plain a :: T.lex r := by
  show (if T.opening.isPrefixOf (a :: r) then _ else _) = _
  rw [if_neg (by simpa [List.isPrefixOf_iff_prefix] using ho)]
  show (if T.closing.isPrefixOf (a :: r) then _ else _) = _
  rw [if_neg (by simpa [List.isPrefixOf_iff_prefix] using hc)]
  rfl

omit [DecidableEq α] in
theorem text_induction (T : Tags α) {P : List α → Prop} (hnil : P [])
    (hopen : ∀ r, P r → P (T.opening ++ r)) (hclose : ∀ r, P r → P (T.closing ++ r))
    (hplain : ∀ a r, ¬ T.opening <+: a :: r → ¬ T.closing <+: a :: r → P r → P (a :: r)) :
    ∀ s, P s := by
  intro s
  induction hn : s.length using Nat.strong_induction_on generalizing s with
  | _ n ih =>
    by_cases ho : T.opening <+: s
    · obtain ⟨r, rfl⟩ := ho
      exact hopen r (ih r.length (by simp only [← hn, opening, length_append, length_cons]; omega) r rfl)
    by_cases hc : T.closing <+: s
    · obtain ⟨r, rfl⟩ := hc
      exact hclose r (ih r.length (by simp only [← hn, closing, length_append, length_cons]; omega) r rfl)
    cases s with
    | nil => exact hnil
    | cons a r => exact hplain a r ho hc (ih r.length (by simp [← hn]) r rfl)

theorem lex_of_absent {s : List α} (ho : ¬ T.opening <:+: s) (hc : ¬ T.closing <:+: s) :
    T.lex s = s.map .plain := by
  induction s with
  | nil => rfl
  | cons a rest ih =>
    have hrest : rest <:+: a :: rest := (suffix_cons a rest).isInfix
    rw [lex_cons_plain (fun h => ho h.isInfix) (fun h => hc h.isInfix),
      ih (fun h => ho (h.trans hrest)) (fun h => hc (h.trans hrest))]
    rfl

/-! ### Symbols without the mark are plain -/

omit [DecidableEq α] in
theorem not_prefix_of_ne_mark {a : α} (ha : a ≠ T.mark) (r : List α) :
    ¬ T.opening <+: a :: r ∧ ¬ T.closing <+: a :: r := by
  refine ⟨fun h => ?_, fun h => ?_⟩
  · exact ha (cons_prefix_cons.mp h).1.symm
  · exact ha (cons_prefix_cons.mp h).1.symm

theorem lex_append_of_no_mark {r : List α} (h : T.mark ∉ r) (v : List α) :
    T.lex (r ++ v) = r.map .plain ++ T.lex v := by
  induction r with
  | nil => rfl
  | cons a rest ih =>
    have ha : a ≠ T.mark := fun hc => h (by simp [hc])
    obtain ⟨ho, hc⟩ := not_prefix_of_ne_mark (T := T) ha (rest ++ v)
    rw [cons_append, lex_cons_plain ho hc, ih (fun hm => h (by simp [hm]))]
    rfl

omit [DecidableEq α] in
/-- A prefix of `u ++ w` is a prefix of `u`, or is `u` with a prefix of `w`. -/
theorem prefix_append_cases {x u w : List α} (h : x <+: u ++ w) :
    x <+: u ∨ ∃ z, z ≠ [] ∧ x = u ++ z ∧ z <+: w := by
  rcases Nat.le_total x.length u.length with hle | hge
  · exact Or.inl (prefix_of_prefix_length_le h (prefix_append u w) hle)
  by_cases heq : x.length = u.length
  · exact Or.inl (prefix_of_prefix_length_le h (prefix_append u w) heq.le)
  have hlt : u.length < x.length := by omega
  obtain ⟨z, rfl⟩ := prefix_of_prefix_length_le (prefix_append u w) h hge
  refine Or.inr ⟨z, ?_, rfl, (prefix_append_right_inj u).mp h⟩
  intro hz
  simp [hz] at hlt

omit [DecidableEq α] in
theorem prefix_of_prefix_append_mark {rest u w : List α} (hrest : T.mark ∉ rest) (hu : u ≠ [])
    (h : T.mark :: rest <+: u ++ T.mark :: w) : T.mark :: rest <+: u := by
  rcases prefix_append_cases h with hpre | ⟨z, hz, heq, hzw⟩
  · exact hpre
  exfalso
  cases z with
  | nil => exact hz rfl
  | cons b z' =>
    obtain rfl : b = T.mark := (cons_prefix_cons.mp hzw).1
    cases u with
    | nil => exact hu rfl
    | cons a u' =>
      rw [cons_append, List.cons.injEq] at heq
      exact hrest (by rw [heq.2]; simp)

theorem lex_append_mark (u w : List α) :
    T.lex (u ++ T.mark :: w) = T.lex u ++ T.lex (T.mark :: w) := by
  induction u using T.text_induction with
  | hnil => rfl
  | hopen r ih => rw [append_assoc, lex_opening_append, lex_opening_append, ih]; rfl
  | hclose r ih => rw [append_assoc, lex_closing_append, lex_closing_append, ih]; rfl
  | hplain a r ho hc ih =>
    have ho' : ¬ T.opening <+: a :: (r ++ T.mark :: w) := fun h =>
      ho (prefix_of_prefix_append_mark T.mark_not_mem_open (by simp) h)
    have hc' : ¬ T.closing <+: a :: (r ++ T.mark :: w) := fun h =>
      hc (prefix_of_prefix_append_mark T.mark_not_mem_close (by simp) h)
    rw [cons_append, lex_cons_plain ho' hc', lex_cons_plain ho hc, ih]
    rfl

/-! ### The beginning of a tag at the end of a text -/

/-- A nonempty proper prefix of a tag. -/
def Begins (tag y : List α) : Prop := y ≠ [] ∧ y <+: tag ∧ y ≠ tag

/-- The beginning of one of the two tags. -/
def IsBeginning (T : Tags α) (y : List α) : Prop := Begins T.opening y ∨ Begins T.closing y

omit [DecidableEq α] in
theorem Begins.eq_mark_cons {rest y : List α} {m : α} (h : Begins (m :: rest) y) :
    ∃ z, y = m :: z ∧ z <+: rest := by
  obtain ⟨hne, hpre, -⟩ := h
  cases y with
  | nil => exact absurd rfl hne
  | cons a z =>
    obtain ⟨rfl, hz⟩ := cons_prefix_cons.mp hpre
    exact ⟨z, rfl, hz⟩

omit [DecidableEq α] in
theorem IsBeginning.eq_mark_cons {y : List α} (h : T.IsBeginning y) :
    ∃ z, y = T.mark :: z ∧ T.mark ∉ z := by
  rcases h with h | h
  · obtain ⟨z, rfl, hz⟩ := Begins.eq_mark_cons h
    exact ⟨z, rfl, fun hm => T.mark_not_mem_open (hz.subset hm)⟩
  obtain ⟨z, rfl, hz⟩ := Begins.eq_mark_cons h
  exact ⟨z, rfl, fun hm => T.mark_not_mem_close (hz.subset hm)⟩

omit [DecidableEq α] in
theorem IsBeginning.ne_nil {y : List α} (h : T.IsBeginning y) : y ≠ [] := by
  rcases h with h | h <;> exact h.1

omit [DecidableEq α] in
/-- A text ends with at most one word of the shape mark, then no mark. -/
theorem suffix_unique {m : α} {z z' s : List α} (hz : m ∉ z) (hz' : m ∉ z')
    (h : m :: z <:+ s) (h' : m :: z' <:+ s) : z = z' := by
  have key : ∀ {x x' : List α}, m ∉ x' → m :: x <:+ m :: x' → x = x' := by
    intro x x' hx' hsuf
    rcases suffix_cons_iff.mp hsuf with heq | hsuf
    · exact (List.cons.inj heq).2
    · exact absurd (hsuf.subset (by simp)) hx'
  rcases Nat.le_total (m :: z).length (m :: z').length with hle | hle
  · exact key hz' (suffix_of_suffix_length_le h h' hle)
  · exact (key hz (suffix_of_suffix_length_le h' h hle)).symm

omit [DecidableEq α] in
theorem IsBeginning.eq_of_suffix {y y' s : List α} (hy : T.IsBeginning y)
    (hy' : T.IsBeginning y') (h : y <:+ s) (h' : y' <:+ s) : y = y' := by
  obtain ⟨z, rfl, hz⟩ := hy.eq_mark_cons
  obtain ⟨z', rfl, hz'⟩ := hy'.eq_mark_cons
  rw [suffix_unique hz hz' h h']

omit [DecidableEq α] in
theorem IsBeginning.not_prefix {y : List α} (h : T.IsBeginning y) :
    ¬ T.opening <+: y ∧ ¬ T.closing <+: y := by
  rcases h with ⟨-, hpre, hne⟩ | ⟨-, hpre, hne⟩
  · refine ⟨fun ho => hne (hpre.eq_of_length_le ho.length_le), fun hc => ?_⟩
    exact closing_not_prefix_opening (hc.trans hpre)
  refine ⟨fun ho => ?_, fun hc => hne (hpre.eq_of_length_le hc.length_le)⟩
  exact opening_not_prefix_closing (ho.trans hpre)

theorem IsBeginning.lex_append {y v : List α} (h : T.IsBeginning y)
    (ho : ¬ T.opening <+: y ++ v) (hc : ¬ T.closing <+: y ++ v) :
    T.lex (y ++ v) = y.map .plain ++ T.lex v := by
  obtain ⟨z, rfl, hz⟩ := h.eq_mark_cons
  rw [cons_append] at ho hc ⊢
  rw [lex_cons_plain ho hc, lex_append_of_no_mark hz]
  rfl

theorem IsBeginning.lex_eq {y : List α} (h : T.IsBeginning y) : T.lex y = y.map .plain := by
  have hno := h.not_prefix
  have hlex := h.lex_append (v := []) (by simpa using hno.1) (by simpa using hno.2)
  simpa using hlex

theorem lex_append_of_clean {u : List α} (v : List α)
    (h : ∀ y, T.IsBeginning y → ¬ y <:+ u) : T.lex (u ++ v) = T.lex u ++ T.lex v := by
  induction u using T.text_induction with
  | hnil => rfl
  | hopen r ih =>
    rw [append_assoc, lex_opening_append, lex_opening_append,
      ih fun y hy hs => h y hy (hs.trans (suffix_append _ _))]
    rfl
  | hclose r ih =>
    rw [append_assoc, lex_closing_append, lex_closing_append,
      ih fun y hy hs => h y hy (hs.trans (suffix_append _ _))]
    rfl
  | hplain a r ho hc ih =>
    -- a tag that runs over the end of the text would have its beginning there
    have hov : ∀ tag, (∀ y, Begins tag y → T.IsBeginning y) → ¬ tag <+: a :: r →
        ¬ tag <+: a :: (r ++ v) := by
      intro tag htag hno hpre
      rcases prefix_append_cases (u := a :: r) hpre with hpre | ⟨z, hz, heq, -⟩
      · exact hno hpre
      refine h (a :: r) (htag _ ⟨by simp, heq ▸ prefix_append _ _, ?_⟩)
        (suffix_refl _)
      intro hself
      rw [← hself] at heq
      exact hz (self_eq_append_right.mp heq)
    rw [cons_append, lex_cons_plain (hov _ (fun y hy => Or.inl hy) ho)
      (hov _ (fun y hy => Or.inr hy) hc), lex_cons_plain ho hc,
      ih fun y hy hs => h y hy (hs.trans (suffix_cons _ _))]
    rfl

/-- **The end of a text.**  A text ends with the beginning of a tag, or with none;
what comes before it is cut the same way whatever follows. -/
theorem exists_tail (T : Tags α) (u : List α) :
    ∃ u' p, u = u' ++ p ∧ (T.IsBeginning p ∨ p = [] ∧ ∀ y, T.IsBeginning y → ¬ y <:+ u) ∧
      T.lex u = T.lex u' ++ p.map .plain ∧
      ∀ v, T.lex (u ++ v) = T.lex u' ++ T.lex (p ++ v) := by
  by_cases h : ∃ y, T.IsBeginning y ∧ y <:+ u
  · obtain ⟨y, hy, u', rfl⟩ := h
    have hcut : ∀ v, T.lex (u' ++ y ++ v) = T.lex u' ++ T.lex (y ++ v) := by
      intro v
      obtain ⟨z, rfl, -⟩ := hy.eq_mark_cons
      rw [append_assoc, cons_append, lex_append_mark]
    refine ⟨u', y, rfl, Or.inl hy, ?_, hcut⟩
    have hnil := hcut []
    simp only [append_nil] at hnil
    rw [hnil, hy.lex_eq]
  have hclean : ∀ y, T.IsBeginning y → ¬ y <:+ u := fun y hy hs => h ⟨y, hy, hs⟩
  refine ⟨u, [], by simp, Or.inr ⟨rfl, hclean⟩, by simp, fun v => ?_⟩
  simpa using lex_append_of_clean v hclean

theorem lex_cons_cases {s : List α} {t : Token α} {ts : List (Token α)} (h : T.lex s = t :: ts) :
    (t = .opening ∧ ∃ r, s = T.opening ++ r ∧ T.lex r = ts) ∨
      (t = .closing ∧ ∃ r, s = T.closing ++ r ∧ T.lex r = ts) ∨
      ∃ a r, t = .plain a ∧ s = a :: r ∧ T.lex r = ts ∧ ¬ T.opening <+: s ∧ ¬ T.closing <+: s := by
  by_cases ho : T.opening <+: s
  · obtain ⟨r, rfl⟩ := ho
    rw [lex_opening_append, List.cons.injEq] at h
    exact Or.inl ⟨h.1.symm, r, rfl, h.2⟩
  by_cases hc : T.closing <+: s
  · obtain ⟨r, rfl⟩ := hc
    rw [lex_closing_append, List.cons.injEq] at h
    exact Or.inr (Or.inl ⟨h.1.symm, r, rfl, h.2⟩)
  cases s with
  | nil => simp at h
  | cons a r =>
    rw [lex_cons_plain ho hc, List.cons.injEq] at h
    exact Or.inr (Or.inr ⟨a, r, h.1.symm, rfl, h.2, ho, hc⟩)

theorem eq_of_lex_eq_plain {z : List α} : ∀ {s : List α}, T.lex s = z.map .plain → s = z := by
  induction z with
  | nil =>
    intro s h
    cases s with
    | nil => rfl
    | cons a r =>
      by_cases ho : T.opening <+: a :: r
      · obtain ⟨r', hr'⟩ := ho
        rw [← hr', lex_opening_append] at h
        cases h
      by_cases hc : T.closing <+: a :: r
      · obtain ⟨r', hr'⟩ := hc
        rw [← hr', lex_closing_append] at h
        cases h
      rw [lex_cons_plain ho hc] at h
      cases h
  | cons a z ih =>
    intro s h
    rcases lex_cons_cases h with ⟨ht, -⟩ | ⟨ht, -⟩ | ⟨b, r, hb, rfl, hr, -⟩
    · cases ht
    · cases ht
    · rw [ih hr, Token.plain.inj hb]

theorem exists_split {ts ts' : List (Token α)} : ∀ {s : List α}, T.lex s = ts ++ ts' →
      ∃ u v, s = u ++ v ∧ T.lex u = ts ∧ T.lex v = ts' := by
  induction ts with
  | nil =>
    intro s h
    exact ⟨[], s, rfl, rfl, h⟩
  | cons t rest ih =>
    intro s h
    rcases lex_cons_cases h with ⟨rfl, r, rfl, hr⟩ | ⟨rfl, r, rfl, hr⟩ |
        ⟨a, r, rfl, rfl, hr, ho, hc⟩
    · obtain ⟨u, v, rfl, hu, hv⟩ := ih hr
      exact ⟨T.opening ++ u, v, by simp, by rw [lex_opening_append, hu], hv⟩
    · obtain ⟨u, v, rfl, hu, hv⟩ := ih hr
      exact ⟨T.closing ++ u, v, by simp, by rw [lex_closing_append, hu], hv⟩
    obtain ⟨u, v, rfl, hu, hv⟩ := ih hr
    have hpre : a :: u <+: a :: (u ++ v) := by simp
    refine ⟨a :: u, v, by simp, ?_, hv⟩
    rw [lex_cons_plain (fun hx => ho (hx.trans hpre)) (fun hx => hc (hx.trans hpre)), hu]

end Tags

/-! ### Inside and outside a block -/

/-- Where a reader of tokens stands.  Inside a block it is told apart whether the
block was open from the start or was opened on the way. -/
inductive Mode where
  | outside
  | carried
  | opened
deriving DecidableEq

namespace Mode

/-- The reader is in a block. -/
def inside : Mode → Bool
  | outside => false
  | carried => true
  | opened => true

/-- The mode after a token. -/
def next (m : Mode) : Token α → Mode
  | .opening => if m = outside then opened else m
  | .closing => outside
  | .plain _ => m

/-- The mode after a list of tokens. -/
def after (m : Mode) (ts : List (Token α)) : Mode := ts.foldl next m

/-- What is left when the blocks and the tags are cut out. -/
def visible : Mode → List (Token α) → List α
  | _, [] => []
  | outside, .plain a :: ts => a :: visible outside ts
  | m, t :: ts => visible (m.next t) ts

@[simp] theorem after_nil (m : Mode) : m.after ([] : List (Token α)) = m := rfl

theorem after_cons (m : Mode) (t : Token α) (ts : List (Token α)) :
    m.after (t :: ts) = (m.next t).after ts := rfl

theorem after_append (m : Mode) (ts ts' : List (Token α)) :
    m.after (ts ++ ts') = (m.after ts).after ts' := by
  simp [after]

@[simp] theorem after_plain (m : Mode) (y : List α) : m.after (y.map .plain) = m := by
  induction y with
  | nil => rfl
  | cons a y ih => exact ih

@[simp] theorem visible_opening (m : Mode) (ts : List (Token α)) :
    m.visible (.opening :: ts) = (m.next (.opening : Token α)).visible ts := by
  cases m <;> rfl

@[simp] theorem visible_closing (m : Mode) (ts : List (Token α)) :
    m.visible (.closing :: ts) = outside.visible ts := by
  cases m <;> rfl

theorem visible_append (m : Mode) (ts ts' : List (Token α)) :
    m.visible (ts ++ ts') = m.visible ts ++ (m.after ts).visible ts' := by
  induction ts generalizing m with
  | nil => rfl
  | cons t ts ih =>
    cases t with
    | opening => rw [cons_append, visible_opening, visible_opening, ih]; rfl
    | closing => rw [cons_append, visible_closing, visible_closing, ih]; rfl
    | plain a =>
      cases m with
      | outside => exact congrArg (a :: ·) (ih outside)
      | carried => exact ih carried
      | opened => exact ih opened

@[simp] theorem visible_plain_outside (y : List α) : outside.visible (y.map .plain) = y := by
  induction y with
  | nil => rfl
  | cons a y ih => exact congrArg (a :: ·) ih

variable {m : Mode}

theorem visible_plain_inside (h : m.inside = true) (y : List α) :
    m.visible (y.map .plain) = [] := by
  induction y with
  | nil => cases m <;> rfl
  | cons a y ih =>
    cases m with
    | outside => simp [inside] at h
    | carried => exact ih
    | opened => exact ih

theorem visible_of_no_closing (h : m.inside = true) {ts : List (Token α)}
    (hts : .closing ∉ ts) : m.visible ts = [] ∧ m.after ts = m := by
  induction ts with
  | nil => exact ⟨by cases m <;> rfl, rfl⟩
  | cons t ts ih =>
    have hrest := ih (fun hc => hts (by simp [hc]))
    cases t with
    | opening =>
      have hm : m.next (.opening : Token α) = m := by
        cases m with
        | outside => simp [inside] at h
        | carried => rfl
        | opened => rfl
      rw [visible_opening, after_cons, hm]
      exact hrest
    | closing => simp at hts
    | plain a =>
      cases m with
      | outside => simp [inside] at h
      | carried => exact hrest
      | opened => exact hrest

theorem no_closing_of_after_carried {ts : List (Token α)}
    (h : m.after ts = carried) : m = carried ∧ .closing ∉ ts := by
  induction ts generalizing m with
  | nil => exact ⟨h, by simp⟩
  | cons t ts ih =>
    obtain ⟨hm, hno⟩ := ih (m := m.next t) h
    cases t with
    | opening =>
      refine ⟨?_, by simpa using hno⟩
      cases m with
      | outside => simp [next] at hm
      | carried => rfl
      | opened => simp [next] at hm
    | closing => simp [next] at hm
    | plain a => exact ⟨hm, by simpa using hno⟩

theorem visible_inside_eq (m m' : Mode) (h : m.inside = true) (h' : m'.inside = true)
    (ts : List (Token α)) :
    m.visible ts = m'.visible ts ∧ (m.after ts).inside = (m'.after ts).inside := by
  induction ts with
  | nil =>
    refine ⟨?_, by rw [after_nil, after_nil, h, h']⟩
    cases m <;> cases m' <;> rfl
  | cons t ts ih =>
    cases m with
    | outside => simp [inside] at h
    | carried =>
      cases m' with
      | outside => simp [inside] at h'
      | carried => exact ⟨rfl, rfl⟩
      | opened =>
        cases t with
        | opening => exact ih
        | closing => exact ⟨rfl, rfl⟩
        | plain a => exact ih
    | opened =>
      cases m' with
      | outside => simp [inside] at h'
      | opened => exact ⟨rfl, rfl⟩
      | carried =>
        cases t with
        | opening => exact ih
        | closing => exact ⟨rfl, rfl⟩
        | plain a => exact ih

theorem length_visible_inside_le (ts : List (Token α)) :
    (opened.visible ts).length ≤ (outside.visible ts).length := by
  induction ts with
  | nil => exact Nat.le_refl _
  | cons t ts ih =>
    cases t with
    | opening => exact Nat.le_refl _
    | closing => exact Nat.le_refl _
    | plain a => exact Nat.le_succ_of_le ih

theorem exists_open (hm : m ≠ opened) {ts : List (Token α)} (h : m.after ts = opened) :
    ∃ a b, ts = a ++ .opening :: b ∧ m.after a = outside ∧ .closing ∉ b := by
  induction ts using List.reverseRecOn with
  | nil => exact absurd h hm
  | append_singleton ts t ih =>
    rw [after_append, after_cons, after_nil] at h
    cases t with
    | closing => cases h
    | plain c =>
      obtain ⟨a, b, rfl, ha, hb⟩ := ih h
      exact ⟨a, b ++ [.plain c], by simp, ha, by simpa using hb⟩
    | opening =>
      cases hmode : m.after ts with
      | outside => exact ⟨ts, [], rfl, hmode, by simp⟩
      | carried =>
        rw [hmode] at h
        cases h
      | opened =>
        obtain ⟨a, b, rfl, ha, hb⟩ := ih hmode
        exact ⟨a, b ++ [.opening], by simp, ha, by simpa using hb⟩

theorem exists_visible {ts : List (Token α)} {c : α} {A B : List α} :
    ∀ {m : Mode}, m.visible ts = A ++ c :: B →
      ∃ x y, ts = x ++ .plain c :: y ∧ m.after x = outside ∧ m.visible x = A ∧
        outside.visible y = B := by
  induction ts generalizing A with
  | nil =>
    intro m h
    cases m <;> simp [visible] at h
  | cons t ts ih =>
    -- a token that is not seen only moves the mode
    have hskip : ∀ {m : Mode}, m.visible (t :: ts) = (m.next t).visible ts →
        (∀ x, m.visible (t :: x) = (m.next t).visible x) → m.visible (t :: ts) = A ++ c :: B →
        ∃ x y, t :: ts = x ++ .plain c :: y ∧ m.after x = outside ∧ m.visible x = A ∧
          outside.visible y = B := by
      intro m hts hall h
      rw [hts] at h
      obtain ⟨x, y, rfl, hx, hA, hB⟩ := ih h
      exact ⟨t :: x, y, rfl, hx, by rw [hall, hA], hB⟩
    intro m h
    cases t with
    | opening => exact hskip (visible_opening m ts) (visible_opening m) h
    | closing => exact hskip (visible_closing m ts) (visible_closing m) h
    | plain a =>
      cases m with
      | carried => exact hskip rfl (fun _ => rfl) h
      | opened => exact hskip rfl (fun _ => rfl) h
      | outside =>
        cases A with
        | nil =>
          obtain ⟨rfl, hB⟩ := List.cons.inj h
          exact ⟨[], ts, rfl, rfl, rfl, hB⟩
        | cons a' A' =>
          obtain ⟨rfl, hrest⟩ := List.cons.inj h
          obtain ⟨x, y, rfl, hx, hA, hB⟩ := ih hrest
          exact ⟨.plain a :: x, y, rfl, hx, congrArg (a :: ·) hA, hB⟩

theorem last_tag (ts : List (Token α)) : ∃ z : List α, ts = z.map .plain ∨
      ∃ a t, (t = .opening ∨ t = .closing) ∧ ts = a ++ t :: z.map .plain := by
  induction ts using List.reverseRecOn with
  | nil => exact ⟨[], Or.inl rfl⟩
  | append_singleton ts t ih =>
    cases t with
    | opening => exact ⟨[], Or.inr ⟨ts, .opening, Or.inl rfl, rfl⟩⟩
    | closing => exact ⟨[], Or.inr ⟨ts, .closing, Or.inr rfl, rfl⟩⟩
    | plain c =>
      obtain ⟨z, hz | ⟨a, t, ht, hz⟩⟩ := ih
      · exact ⟨z ++ [c], Or.inl (by rw [hz]; simp)⟩
      · exact ⟨z ++ [c], Or.inr ⟨a, t, ht, by rw [hz]; simp⟩⟩

end Mode

end DenseCore.Lib
