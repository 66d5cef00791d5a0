/-
Searching and trimming strings of bytes.

A string is a list of bytes, not necessarily valid UTF-8.  The functions are those
of a byte-string library: `index` and `lastIndex` look for a substring, `removeAll`
deletes every occurrence of one from left to right, `trimSpace` takes white space
off both ends.  White space is a list of encodings, one for each Unicode space, so
trimming never has to decode anything: no encoding is a prefix of another, and the
bytes before an encoding at the end of a string do not matter.
-/
import Mathlib.Data.List.Infix

namespace DenseCore.Lib

open List

abbrev Bytes := List UInt8

/-- The bytes of an ASCII literal. -/
def literal (s : String) : Bytes := s.toList.map fun c => UInt8.ofNat c.toNat

namespace Strings

variable {α : Type*} [DecidableEq α]

/-- Where `pat` first occurs. -/
def index (pat : List α) : List α → Option Nat
  | [] => if pat = [] then some 0 else none
  | a :: rest =>
    if pat.isPrefixOf (a :: rest) then some 0 else (index pat rest).map (· + 1)

/-- Where `pat` last occurs. -/
def lastIndex (pat : List α) : List α → Option Nat
  | [] => if pat = [] then some 0 else none
  | a :: rest =>
    match lastIndex pat rest with
    | some i => some (i + 1)
    | none => if pat.isPrefixOf (a :: rest) then some 0 else none

/-- Delete the occurrences of `pat`, after passing over `skip` symbols. -/
def removeFrom (pat : List α) : Nat → List α → List α
  | _, [] => []
  | skip + 1, _ :: rest => removeFrom pat skip rest
  | 0, a :: rest =>
    if pat.isPrefixOf (a :: rest) then removeFrom pat (pat.length - 1) rest
    else a :: removeFrom pat 0 rest

/-- Delete every occurrence of a non-empty `pat`, from left to right. -/
def removeAll (pat s : List α) : List α := removeFrom pat 0 s

/-- Put `new` in the place of the occurrences of `pat`, after passing over `skip` symbols. -/
def replaceFrom (pat new : List α) : Nat → List α → List α
  | _, [] => []
  | skip + 1, _ :: rest => replaceFrom pat new skip rest
  | 0, a :: rest =>
    if pat.isPrefixOf (a :: rest) then new ++ replaceFrom pat new (pat.length - 1) rest
    else a :: replaceFrom pat new 0 rest

/-- Replace every occurrence of a non-empty `pat`, from left to right. -/
def replaceAll (pat new s : List α) : List α := replaceFrom pat new 0 s

/-- The text without a word at its front. -/
def trimPrefix (pat s : List α) : List α :=
  if pat.isPrefixOf s then s.drop pat.length else s

/-- `pat` occurs at position `i`. -/
def OccursAt (pat s : List α) (i : Nat) : Prop := pat <+: s.drop i

/-- `pat` occurs nowhere. -/
def Absent (pat s : List α) : Prop := ¬ pat <:+: s

/-! ### Occurrences -/

omit [DecidableEq α] in
attribute [local simp] index lastIndex removeFrom

omit [DecidableEq α] in
theorem absent_iff_not_occursAt {pat s : List α} : Absent pat s ↔ ∀ i, ¬ OccursAt pat s i := by
  constructor
  · rintro h i ⟨v, hv⟩
    exact h ⟨s.take i, v, by rw [append_assoc, hv, take_append_drop]⟩
  rintro h ⟨u, v, rfl⟩
  exact h u.length ⟨v, by simp⟩

omit [DecidableEq α] in
theorem Absent.of_cons {pat s : List α} {a : α} (h : Absent pat (a :: s)) : Absent pat s :=
  fun hin => h (hin.trans (suffix_cons a s).isInfix)

omit [DecidableEq α] in
theorem Absent.not_prefix {pat s : List α} (h : Absent pat s) : ¬ pat <+: s :=
  fun hp => h hp.isInfix

omit [DecidableEq α] in
theorem Absent.of_infix {pat s t : List α} (h : Absent pat t) (hst : s <:+: t) : Absent pat s :=
  fun hin => h (hin.trans hst)

/-! ### index -/

variable {t : Bytes} {i : Nat} {b d : UInt8}

/-- `index` finds an occurrence with none before it. -/
theorem index_eq_some {pat s : List α} (h : index pat s = some i) :
    OccursAt pat s i ∧ ∀ j, j < i → ¬ OccursAt pat s j := by
  induction s generalizing i with
  | nil =>
    by_cases hp : pat = []
    · simp only [index, if_pos hp, Option.some.injEq] at h
      subst h
      subst hp
      exact ⟨List.nil_prefix, fun j hj => absurd hj (Nat.not_lt_zero j)⟩
    · simp [index, hp] at h
  | cons a rest ih =>
    rw [index] at h
    split at h
    · rename_i hp
      cases h
      exact ⟨List.isPrefixOf_iff_prefix.mp hp, fun j hj => absurd hj (Nat.not_lt_zero j)⟩
    rename_i hp
    obtain ⟨k, hk, rfl⟩ := Option.map_eq_some_iff.mp h
    obtain ⟨hat, hbefore⟩ := ih hk
    refine ⟨hat, fun j hj => ?_⟩
    cases j with
    | zero => exact fun hat => hp (List.isPrefixOf_iff_prefix.mpr hat)
    | succ j => exact hbefore j (by omega)

/-- `index` finds the first occurrence. -/
theorem index_of_occursAt {pat s : List α} (hat : OccursAt pat s i) (hlen : i ≤ s.length)
    (hbefore : ∀ j, j < i → ¬ OccursAt pat s j) : index pat s = some i := by
  induction s generalizing i with
  | nil =>
    obtain rfl : i = 0 := by simpa using hlen
    have hp : pat = [] := prefix_nil.mp hat
    simp [index, hp]
  | cons a rest ih =>
    rw [index]
    cases i with
    | zero =>
      have hp : pat.isPrefixOf (a :: rest) = true := isPrefixOf_iff_prefix.mpr hat
      rw [if_pos hp]
    | succ i =>
      have hzero : ¬ pat.isPrefixOf (a :: rest) = true := fun hp =>
        hbefore 0 (by omega) (List.isPrefixOf_iff_prefix.mp hp)
      rw [if_neg hzero, ih hat (by simpa using hlen) fun j hj => hbefore (j + 1) (by omega)]
      rfl

theorem index_eq_none {pat s : List α} (h : index pat s = none) : Absent pat s := by
  induction s with
  | nil =>
    intro hin
    have hp : pat = [] := infix_nil.mp hin
    simp [index, hp] at h
  | cons a rest ih =>
    rw [index] at h
    split at h
    · cases h
    rename_i hp
    rw [Option.map_eq_none_iff] at h
    intro hin
    rcases infix_cons_iff.mp hin with hpre | hrest
    · exact hp (List.isPrefixOf_iff_prefix.mpr hpre)
    · exact ih h hrest

theorem index_of_absent {pat s : List α} (h : Absent pat s) : index pat s = none := by
  cases hi : index pat s with
  | none => rfl
  | some i => exact absurd (index_eq_some hi).1 (absent_iff_not_occursAt.mp h i)

/-- An occurrence lies within the string. -/
theorem index_add_length_le {pat s : List α} (h : index pat s = some i) :
    i + pat.length ≤ s.length := by
  induction s generalizing i with
  | nil =>
    by_cases hp : pat = []
    · simp only [index, if_pos hp, Option.some.injEq] at h
      simp [← h, hp]
    · simp [index, hp] at h
  | cons a rest ih =>
    rw [index] at h
    split at h
    · rename_i hp
      cases h
      simpa using (List.isPrefixOf_iff_prefix.mp hp).length_le
    obtain ⟨k, hk, rfl⟩ := Option.map_eq_some_iff.mp h
    have := ih hk
    simp only [length_cons]
    omega

/-- A pattern whose first symbol is nowhere else in it is found behind a text without it. -/
theorem index_of_seam {a : α} {rest s : List α} (ha : a ∉ rest) (hs : Absent (a :: rest) s)
    (t : List α) : index (a :: rest) (s ++ (a :: rest ++ t)) = some s.length := by
  refine index_of_occursAt ?_ ?_ fun j hj hat => ?_
  · rw [OccursAt, drop_left]
    exact prefix_append _ t
  · rw [length_append]
    exact Nat.le_add_right _ _
  rw [OccursAt, drop_append_of_le_length hj.le] at hat
  rcases prefix_or_prefix_of_prefix hat (prefix_append (s.drop j) _) with h | ⟨q, hq⟩
  · exact hs (h.isInfix.trans (drop_suffix j s).isInfix)
  rw [← hq, prefix_append_right_inj] at hat
  obtain ⟨b, u, hbu⟩ : ∃ b u, s.drop j = b :: u := by
    refine exists_cons_of_ne_nil fun hnil => ?_
    rw [drop_eq_nil_iff] at hnil
    omega
  rw [hbu] at hq
  cases q with
  | nil =>
    rw [append_nil] at hq
    exact hs (hq ▸ hbu ▸ (drop_suffix j s).isInfix)
  | cons c q =>
    obtain ⟨rfl, rfl⟩ := List.cons.inj hq
    rw [hbu] at hat
    obtain ⟨v, hv⟩ := hat
    obtain ⟨rfl, -⟩ := List.cons.inj hv
    exact ha (mem_append_right u mem_cons_self)

/-- An occurrence within `s` stays the first one when the string goes on. -/
theorem index_append_of_some {pat s t : List α} (h : index pat s = some i) :
    index pat (s ++ t) = some i := by
  have hlen := index_add_length_le h
  obtain ⟨⟨v, hv⟩, hbefore⟩ := index_eq_some h
  refine index_of_occursAt ⟨v ++ t, ?_⟩ (by simp; omega) fun j hj hocc => ?_
  · rw [drop_append_of_le_length (by omega), ← hv, append_assoc]
  refine hbefore j hj ?_
  obtain ⟨w, hw⟩ := hocc
  rw [drop_append_of_le_length (by omega)] at hw
  refine prefix_of_prefix_length_le ⟨w, hw⟩ (prefix_append _ _) ?_
  rw [length_drop]
  omega

theorem index_prefix (pat s : List α) : index pat (pat ++ s) = some 0 :=
  index_of_occursAt (prefix_append pat s) (Nat.zero_le _)
    fun _ hj => absurd hj (Nat.not_lt_zero _)

/-- The first place of one symbol. -/
theorem index_single {c : α} {x : List α} (hc : c ∉ x) (y : List α) :
    index [c] (x ++ c :: y) = some x.length := by
  induction x with
  | nil => simp [index]
  | cons a rest ih =>
    rw [mem_cons, not_or] at hc
    rw [cons_append, index, if_neg (by simp [hc.1]), ih hc.2]
    rfl

theorem lastIndex_single_none {c : α} {y : List α} (hc : c ∉ y) : lastIndex [c] y = none := by
  induction y with
  | nil => rfl
  | cons a rest ih =>
    rw [mem_cons, not_or] at hc
    simp only [lastIndex, ih hc.2]
    exact if_neg (by simp [hc.1])

theorem lastIndex_single {c : α} {y : List α} (hc : c ∉ y) (x : List α) :
    lastIndex [c] (x ++ c :: y) = some x.length := by
  induction x with
  | nil => simp [lastIndex, lastIndex_single_none hc]
  | cons a rest ih =>
    rw [cons_append, lastIndex, ih]
    rfl

/-! ### removeAll -/

theorem removeFrom_of_absent {pat : List α} : ∀ s, Absent pat s → removeFrom pat 0 s = s := by
  intro s
  induction s with
  | nil => intro _; rfl
  | cons a rest ih =>
    intro h
    have hp : ¬ pat.isPrefixOf (a :: rest) = true := fun hp =>
      h.not_prefix (List.isPrefixOf_iff_prefix.mp hp)
    rw [removeFrom, if_neg hp, ih h.of_cons]

/-- Nothing to delete. -/
theorem removeAll_of_absent {pat s : List α} (h : Absent pat s) : removeAll pat s = s :=
  removeFrom_of_absent s h

theorem removeFrom_skip (pat : List α) : ∀ (u s : List α),
    removeFrom pat u.length (u ++ s) = removeFrom pat 0 s := by
  intro u
  induction u with
  | nil => intro s; rfl
  | cons a rest ih => intro s; exact ih s

/-- One occurrence, at the front. -/
theorem removeAll_of_prefix {pat s : List α} (hpat : pat ≠ []) (h : Absent pat s) :
    removeAll pat (pat ++ s) = s := by
  cases pat with
  | nil => exact absurd rfl hpat
  | cons a rest =>
    show removeFrom (a :: rest) 0 (a :: (rest ++ s)) = s
    have hp : (a :: rest).isPrefixOf (a :: (rest ++ s)) = true :=
      isPrefixOf_iff_prefix.mpr ⟨s, rfl⟩
    rw [removeFrom, if_pos hp]
    show removeFrom (a :: rest) rest.length (rest ++ s) = s
    rw [removeFrom_skip]
    exact removeFrom_of_absent s h

/-! ### replaceAll -/

omit [DecidableEq α] in
/-- A symbol that is not in the front part comes behind it. -/
theorem prefix_of_not_mem {u x : List α} {t s : List α} {c : α} (h : u ++ t = x ++ c :: s)
    (hc : c ∉ u) : ∃ x', x = u ++ x' ∧ t = x' ++ c :: s := by
  rcases append_eq_append_iff.mp h with ⟨a, rfl, ht⟩ | ⟨a, rfl, ht⟩
  · exact ⟨a, rfl, ht⟩
  cases a with
  | nil => exact ⟨[], by simp, by simpa using ht.symm⟩
  | cons d a =>
    obtain ⟨rfl, -⟩ := List.cons.inj ht
    exact absurd (mem_append_right x mem_cons_self) hc

omit [DecidableEq α] in
/-- Texts apart from `pat` stay so around a symbol that is not in it. -/
theorem Absent.append_cons {pat x y : List α} {c : α} (hx : Absent pat x) (hy : Absent pat y)
    (hc : c ∉ pat) : Absent pat (x ++ c :: y) := by
  rintro ⟨u, v, h⟩
  rw [append_assoc] at h
  rcases append_eq_append_iff.mp h with ⟨a, rfl, ha⟩ | ⟨a, rfl, ha⟩
  · obtain ⟨x', rfl, -⟩ := prefix_of_not_mem ha hc
    exact hx ⟨u, x', append_assoc u pat x'⟩
  cases a with
  | nil =>
    cases pat with
    | nil => exact hx nil_infix
    | cons b pat =>
      obtain ⟨rfl, -⟩ := List.cons.inj ha
      exact hc mem_cons_self
  | cons b a =>
    obtain ⟨-, rfl⟩ := List.cons.inj ha
    exact hy ⟨a, v, append_assoc a pat v⟩

theorem prefix_of_prefix_replaceFrom {pat : List α} {c : α} {s : List α} :
    ∀ {p : List α}, c ∉ p → p <+: replaceFrom pat [c] 0 s → p <+: s := by
  induction s with
  | nil => exact fun _ h => h
  | cons a rest ih =>
    intro p hc h
    cases p with
    | nil => exact nil_prefix
    | cons b p =>
      rw [replaceFrom] at h
      split at h
      · obtain ⟨rfl, -⟩ := cons_prefix_cons.mp h
        exact absurd mem_cons_self hc
      obtain ⟨rfl, htail⟩ := cons_prefix_cons.mp h
      have hcp : c ∉ p := fun hmem => hc (mem_cons_of_mem _ hmem)
      exact cons_prefix_cons.mpr ⟨rfl, ih hcp htail⟩

theorem absent_replaceFrom {pat : List α} {c : α} (hpat : pat ≠ []) (hc : c ∉ pat) (s : List α) :
    ∀ skip, Absent pat (replaceFrom pat [c] skip s) := by
  have hnil : Absent pat [] := fun h => hpat (infix_nil.mp h)
  induction s with
  | nil =>
    intro skip
    cases skip <;> exact hnil
  | cons a rest ih =>
    intro skip
    cases skip with
    | succ skip => exact ih skip
    | zero =>
      rw [replaceFrom]
      split
      · exact hnil.append_cons (ih _) hc
      rename_i hno
      rintro h
      rcases infix_cons_iff.mp h with h | h
      · -- an occurrence at the front would be one in the text
        cases pat with
        | nil => exact hpat rfl
        | cons b pat =>
          obtain ⟨rfl, htail⟩ := cons_prefix_cons.mp h
          have hcp : c ∉ pat := fun hmem => hc (mem_cons_of_mem _ hmem)
          exact hno (List.isPrefixOf_iff_prefix.mpr (cons_prefix_cons.mpr
            ⟨rfl, prefix_of_prefix_replaceFrom hcp htail⟩))
      · exact ih 0 h

/-- **A replacement by a symbol that `pat` does not contain** leaves no occurrence. -/
theorem absent_replaceAll {pat : List α} {c : α} (hpat : pat ≠ []) (hc : c ∉ pat) (s : List α) :
    Absent pat (replaceAll pat [c] s) := absent_replaceFrom hpat hc s 0

/-! ### trimPrefix -/

@[simp] theorem trimPrefix_append (pat s : List α) : trimPrefix pat (pat ++ s) = s := by
  have hp : pat.isPrefixOf (pat ++ s) = true :=
    isPrefixOf_iff_prefix.mpr (prefix_append _ _)
  rw [trimPrefix, if_pos hp, drop_left]

theorem trimPrefix_unchanged {pat s : List α} (h : ¬ pat <+: s) : trimPrefix pat s = s :=
  if_neg fun hp => h (List.isPrefixOf_iff_prefix.mp hp)

/-! ### White space -/

/-- The UTF-8 encodings of the Unicode white space. -/
def spaces : List Bytes :=
  [[0x09], [0x0A], [0x0B], [0x0C], [0x0D], [0x20], [0xC2, 0x85], [0xC2, 0xA0],
    [0xE1, 0x9A, 0x80], [0xE2, 0x80, 0x80], [0xE2, 0x80, 0x81], [0xE2, 0x80, 0x82],
    [0xE2, 0x80, 0x83], [0xE2, 0x80, 0x84], [0xE2, 0x80, 0x85], [0xE2, 0x80, 0x86],
    [0xE2, 0x80, 0x87], [0xE2, 0x80, 0x88], [0xE2, 0x80, 0x89], [0xE2, 0x80, 0x8A],
    [0xE2, 0x80, 0xA8], [0xE2, 0x80, 0xA9], [0xE2, 0x80, 0xAF], [0xE2, 0x81, 0x9F],
    [0xE3, 0x80, 0x80]]

/-- Take the words of a code off the front of a string, as long as there is one. -/
def trimWords (words : List Bytes) : Nat → Bytes → Bytes
  | 0, s => s
  | fuel + 1, s =>
    match words.find? (fun w => w.isPrefixOf s) with
    | none => s
    | some w => trimWords words fuel (s.drop w.length)

def trimSpaceLeft (s : Bytes) : Bytes := trimWords spaces s.length s

def trimSpaceRight (s : Bytes) : Bytes :=
  (trimWords (spaces.map List.reverse) s.length s.reverse).reverse

/-- White space off both ends. -/
def trimSpace (s : Bytes) : Bytes := trimSpaceRight (trimSpaceLeft s)

/-- Take the given single bytes off the front. -/
def trimLeft (cutset : Bytes) (s : Bytes) : Bytes := s.dropWhile fun b => cutset.contains b

/-- A string of ASCII blanks. -/
def IsBlank (s : Bytes) : Prop := ∀ b ∈ s, [b] ∈ spaces

/-- A blank of one byte is found by its first byte, also among the reversed codes. -/
theorem find_single {words : List Bytes}
    (hwords : words = spaces ∨ words = spaces.map List.reverse) (hb : [b] ∈ spaces) (s : Bytes) :
    words.find? (fun w => w.isPrefixOf (b :: s)) = some [b] := by
  have hcases : b = 0x09 ∨ b = 0x0A ∨ b = 0x0B ∨ b = 0x0C ∨ b = 0x0D ∨ b = 0x20 := by
    simpa [spaces] using hb
  rcases hwords with rfl | rfl <;>
    rcases hcases with rfl | rfl | rfl | rfl | rfl | rfl <;> simp [spaces]

theorem trimSpaceLeft_cons (hb : [b] ∈ spaces) (s : Bytes) :
    trimSpaceLeft (b :: s) = trimSpaceLeft s := by
  show trimWords spaces (s.length + 1) (b :: s) = _
  rw [trimWords, find_single (Or.inl rfl) hb]
  rfl

variable {u z w : Bytes} {words : List Bytes}

/-- Blanks at the front make no difference to `trimSpace`. -/
theorem trimSpace_blank_append (hu : IsBlank u) (s : Bytes) : trimSpace (u ++ s) = trimSpace s := by
  have hleft : trimSpaceLeft (u ++ s) = trimSpaceLeft s := by
    induction u with
    | nil => rfl
    | cons b rest ih =>
      rw [cons_append, trimSpaceLeft_cons (hu b mem_cons_self)]
      exact ih fun c hc => hu c (mem_cons_of_mem _ hc)
  rw [trimSpace, hleft, trimSpace]

/-! ### Trimming twice -/

/-- No word of the code is at the front. -/
def Trimmed (words : List Bytes) (s : Bytes) : Prop := ∀ w ∈ words, ¬ w <+: s

theorem trimWords_of_trimmed {s : Bytes} (h : Trimmed words s) (fuel : Nat) :
    trimWords words fuel s = s := by
  cases fuel with
  | zero => rfl
  | succ fuel =>
    have hnone : words.find? (fun w => w.isPrefixOf s) = none :=
      find?_eq_none.mpr fun w hw hp => h w hw (List.isPrefixOf_iff_prefix.mp hp)
    rw [trimWords, hnone]

theorem trimmed_trimWords (hwords : ∀ w ∈ words, w ≠ []) (fuel : Nat) :
    ∀ s : Bytes, s.length ≤ fuel → Trimmed words (trimWords words fuel s) := by
  induction fuel with
  | zero =>
    intro s hlen w hw hp
    obtain rfl : s = [] := eq_nil_of_length_eq_zero (by omega)
    exact hwords w hw (prefix_nil.mp hp)
  | succ fuel ih =>
    intro s hlen
    rw [trimWords]
    split
    · rename_i hnone
      intro w hw hp
      exact find?_eq_none.mp hnone w hw (List.isPrefixOf_iff_prefix.mpr hp)
    rename_i w hsome
    have hpos : 0 < w.length :=
      length_pos_iff.mpr (hwords w (mem_of_find?_eq_some hsome))
    refine ih _ ?_
    rw [length_drop]
    omega

theorem trimWords_suffix (words : List Bytes) (fuel : Nat) :
    ∀ s : Bytes, trimWords words fuel s <:+ s := by
  induction fuel with
  | zero => intro s; exact suffix_refl s
  | succ fuel ih =>
    intro s
    rw [trimWords]
    split
    · exact suffix_refl s
    · exact (ih _).trans (drop_suffix _ _)

theorem spaces_ne_nil : ∀ w ∈ spaces, w ≠ [] := by decide

theorem spaces_reverse_ne_nil : ∀ w ∈ spaces.map List.reverse, w ≠ [] := by decide

theorem trimSpace_prefix_trimSpaceLeft (s : Bytes) : trimSpace s <+: trimSpaceLeft s := by
  have hsuffix := trimWords_suffix (spaces.map List.reverse) (trimSpaceLeft s).length
    (trimSpaceLeft s).reverse
  simpa [trimSpace, trimSpaceRight] using reverse_prefix.mpr hsuffix

theorem trimmed_trimSpace (s : Bytes) : Trimmed spaces (trimSpace s) := by
  have hleft : Trimmed spaces (trimSpaceLeft s) :=
    trimmed_trimWords spaces_ne_nil _ s (Nat.le_refl _)
  exact fun w hw hp => hleft w hw (hp.trans (trimSpace_prefix_trimSpaceLeft s))

theorem trimmed_trimSpace_reverse (s : Bytes) :
    Trimmed (spaces.map List.reverse) (trimSpace s).reverse := by
  rw [trimSpace, trimSpaceRight, reverse_reverse]
  exact trimmed_trimWords spaces_reverse_ne_nil _ _ (by simp)

theorem trimSpace_trimSpace (s : Bytes) : trimSpace (trimSpace s) = trimSpace s := by
  have hleft : trimSpaceLeft (trimSpace s) = trimSpace s :=
    trimWords_of_trimmed (trimmed_trimSpace s) _
  rw [trimSpace, hleft, trimSpaceRight, trimWords_of_trimmed (trimmed_trimSpace_reverse s),
    reverse_reverse]

/-- `trimLeft` of blanks takes a blank string off. -/
theorem exists_trimLeft {cutset : Bytes} (hcut : IsBlank cutset) (s : Bytes) :
    ∃ u, IsBlank u ∧ s = u ++ trimLeft cutset s := by
  refine ⟨s.takeWhile fun b => cutset.contains b, ?_, takeWhile_append_dropWhile.symm⟩
  intro b hb
  have hall : (s.takeWhile fun b => cutset.contains b).all (fun b => cutset.contains b) = true :=
    all_takeWhile
  exact hcut b (by simpa using all_eq_true.mp hall b hb)

/-! ### What trimming takes -/

/-- A byte of the encoding of a space. -/
def SpaceByte (b : UInt8) : Prop := ∃ w ∈ spaces, b ∈ w

instance (b : UInt8) : Decidable (SpaceByte b) := by
  unfold SpaceByte
  infer_instance

theorem trimWords_split (words : List Bytes) (fuel : Nat) :
    ∀ s : Bytes, ∃ u, s = u ++ trimWords words fuel s ∧ ∀ b ∈ u, ∃ w ∈ words, b ∈ w := by
  induction fuel with
  | zero => exact fun s => ⟨[], rfl, fun b hb => absurd hb not_mem_nil⟩
  | succ fuel ih =>
    intro s
    rw [trimWords]
    split
    · exact ⟨[], rfl, fun b hb => absurd hb not_mem_nil⟩
    rename_i w hsome
    have hpre : w.isPrefixOf s = true :=
      find?_some (p := fun w : Bytes => w.isPrefixOf s) hsome
    obtain ⟨t, rfl⟩ := isPrefixOf_iff_prefix.mp hpre
    rw [drop_left]
    obtain ⟨u, hu, hbytes⟩ := ih t
    refine ⟨w ++ u, by rw [append_assoc, ← hu], fun b hb => ?_⟩
    rcases mem_append.mp hb with hb | hb
    · exact ⟨w, mem_of_find?_eq_some hsome, hb⟩
    · exact hbytes b hb

theorem trimSpace_split (s : Bytes) :
    ∃ u v, s = u ++ (trimSpace s ++ v) ∧ (∀ b ∈ u, SpaceByte b) ∧ ∀ b ∈ v, SpaceByte b := by
  obtain ⟨u, hu, hubytes⟩ := trimWords_split spaces s.length s
  obtain ⟨v, hv, hvbytes⟩ := trimWords_split (spaces.map List.reverse) (trimSpaceLeft s).length
    (trimSpaceLeft s).reverse
  have hright : trimSpaceLeft s = trimSpace s ++ v.reverse := by
    have h := congrArg List.reverse hv
    rwa [reverse_reverse, reverse_append] at h
  refine ⟨u, v.reverse, ?_, hubytes, fun b hb => ?_⟩
  · rw [← hright]
    exact hu
  obtain ⟨w, hw, hbw⟩ := hvbytes b (mem_reverse.mp hb)
  obtain ⟨w', hw', rfl⟩ := mem_map.mp hw
  exact ⟨w', hw', mem_reverse.mp hbw⟩

theorem trimSpaceLeft_around {x : Bytes} {c : UInt8} (hhead : t.head? = some c)
    (hc : ¬ SpaceByte c) : ∃ x', x' <:+ x ∧ trimSpaceLeft (x ++ t) = x' ++ t := by
  obtain ⟨t', rfl⟩ : ∃ t', t = c :: t' := head?_eq_some_iff.mp hhead
  obtain ⟨u, hs, hu⟩ := trimWords_split spaces (x ++ c :: t').length (x ++ c :: t')
  obtain ⟨x', rfl, hx⟩ := prefix_of_not_mem hs.symm fun hmem => hc (hu c hmem)
  exact ⟨x', suffix_append u x', hx⟩

theorem trimSpaceRight_around (hlast : t.getLast? = some d)
    (hd : ¬ SpaceByte d) : ∃ z', z' <+: z ∧ trimSpaceRight (t ++ z) = t ++ z' := by
  obtain ⟨t', rfl⟩ := getLast?_eq_some_iff.mp hlast
  obtain ⟨v, hs, hv⟩ := trimWords_split (spaces.map List.reverse) (t' ++ [d] ++ z).length
    (t' ++ [d] ++ z).reverse
  have hsplit : (t' ++ [d] ++ z).reverse = z.reverse ++ d :: t'.reverse := by simp
  have hnot : d ∉ v := by
    intro hmem
    obtain ⟨w, hw, hdw⟩ := hv d hmem
    obtain ⟨w', hw', rfl⟩ := mem_map.mp hw
    exact hd ⟨w', hw', mem_reverse.mp hdw⟩
  obtain ⟨z', hz, htrim⟩ := prefix_of_not_mem (hs.symm.trans hsplit) hnot
  refine ⟨z'.reverse, ⟨v.reverse, ?_⟩, ?_⟩
  · rw [← reverse_append, ← hz, reverse_reverse]
  unfold trimSpaceRight
  rw [htrim]
  simp

theorem trimSpace_around {x : Bytes} {c : UInt8} (hhead : t.head? = some c)
    (hlast : t.getLast? = some d) (hc : ¬ SpaceByte c) (hd : ¬ SpaceByte d) :
    ∃ x' z', x' <:+ x ∧ z' <+: z ∧ trimSpace (x ++ (t ++ z)) = x' ++ (t ++ z') := by
  have hhead' : (t ++ z).head? = some c := by
    rw [head?_append, hhead]
    rfl
  obtain ⟨x', hx, hleft⟩ := trimSpaceLeft_around (x := x) hhead' hc
  have hlast' : (x' ++ t).getLast? = some d := by
    rw [getLast?_append, hlast]
    rfl
  obtain ⟨z', hz, hright⟩ := trimSpaceRight_around (z := z) hlast' hd
  refine ⟨x', z', hx, hz, ?_⟩
  rw [trimSpace, hleft, ← append_assoc, hright, append_assoc]

/-- What begins and ends with other bytes stays as it is. -/
theorem trimSpace_self {c : UInt8} (hhead : t.head? = some c)
    (hlast : t.getLast? = some d) (hc : ¬ SpaceByte c) (hd : ¬ SpaceByte d) : trimSpace t = t := by
  obtain ⟨x', z', hx, hz, htrim⟩ := trimSpace_around (x := []) (z := []) hhead hlast hc hd
  rw [suffix_nil.mp hx, prefix_nil.mp hz] at htrim
  simpa using htrim

theorem trimSpaceRight_blank (hw : IsBlank w) (s : Bytes) :
    trimSpaceRight (s ++ w) = trimSpaceRight s := by
  induction w using List.reverseRecOn with
  | nil => rw [append_nil]
  | append_singleton w b ih =>
    have hb : [b] ∈ spaces := hw b (mem_append_right w mem_cons_self)
    rw [← ih fun c hc => hw c (mem_append_left _ hc), ← append_assoc]
    unfold trimSpaceRight
    rw [reverse_append, length_append]
    show (trimWords _ ((s ++ w).length + 1) (b :: (s ++ w).reverse)).reverse = _
    rw [trimWords, find_single (Or.inr rfl) hb]
    rfl

theorem trimSpace_blanks {c : UInt8} (hu : IsBlank u) (hw : IsBlank w)
    (hhead : t.head? = some c) (hlast : t.getLast? = some d) (hc : ¬ SpaceByte c)
    (hd : ¬ SpaceByte d) : trimSpace (u ++ (t ++ w)) = t := by
  have hhead' : (t ++ w).head? = some c := by
    rw [head?_append, hhead]
    rfl
  obtain ⟨x', hx, hleft⟩ := trimSpaceLeft_around (x := []) hhead' hc
  obtain ⟨z', hz, hright⟩ := trimSpaceRight_around (z := []) hlast hd
  rw [suffix_nil.mp hx] at hleft
  rw [prefix_nil.mp hz] at hright
  simp only [append_nil, nil_append] at hleft hright
  rw [trimSpace_blank_append hu, trimSpace, hleft, trimSpaceRight_blank hw, hright]

/-! ### Symbols that are not in the pattern -/

section

variable {pat : List α}

omit [DecidableEq α] in
theorem prefix_append_of_disjoint {v : List α} (hv : ∀ b ∈ v, b ∉ pat) (x : List α) :
    pat <+: x ++ v ↔ pat <+: x := by
  refine ⟨fun h => ?_, fun h => h.trans (prefix_append x v)⟩
  by_cases hlen : pat.length ≤ x.length
  · exact prefix_of_prefix_length_le h (prefix_append x v) hlen
  have hx : x <+: pat := prefix_of_prefix_length_le (prefix_append x v) h (by omega)
  obtain ⟨y, rfl⟩ := hx
  have hy : y <+: v := (prefix_append_right_inj x).mp h
  cases y with
  | nil => exact (append_nil x).symm ▸ prefix_rfl
  | cons b y =>
    exact absurd (mem_append_right x mem_cons_self) (hv b (hy.mem mem_cons_self))

/-- What stands before a text, without the first symbol of the pattern, moves its first
occurrence. -/
theorem index_append_of_not_mem {a : α} {rest u : List α} (hu : a ∉ u) (s : List α) :
    index (a :: rest) (u ++ s) = (index (a :: rest) s).map (· + u.length) := by
  induction u with
  | nil =>
    show index (a :: rest) s = (index (a :: rest) s).map id
    rw [Option.map_id]
    rfl
  | cons b u ih =>
    rw [mem_cons, not_or] at hu
    have hb : ¬ (a :: rest).isPrefixOf (b :: (u ++ s)) = true := fun h =>
      hu.1 (cons_prefix_cons.mp (List.isPrefixOf_iff_prefix.mp h)).1
    rw [cons_append, index, if_neg hb, ih hu.2, Option.map_map]
    rfl

theorem index_append_of_disjoint (hpat : pat ≠ []) {u : List α} (hu : ∀ b ∈ u, b ∉ pat)
    (s : List α) : index pat (u ++ s) = (index pat s).map (· + u.length) := by
  cases pat with
  | nil => exact absurd rfl hpat
  | cons a rest => exact index_append_of_not_mem (fun ha => hu a ha mem_cons_self) s

/-- Without its first symbol the pattern does not occur. -/
theorem index_of_not_mem {a : α} {rest u : List α} (hu : a ∉ u) : index (a :: rest) u = none := by
  have h : index (a :: rest) (u ++ []) = _ := index_append_of_not_mem hu []
  rw [append_nil] at h
  rw [h]
  rfl

/-- What stands behind a text, and is not in the pattern, does not matter. -/
theorem index_append_right_of_disjoint (hpat : pat ≠ []) {v : List α} (hv : ∀ b ∈ v, b ∉ pat)
    (x : List α) : index pat (x ++ v) = index pat x := by
  induction x with
  | nil =>
    have habsent := index_append_of_disjoint hpat hv []
    have hnil : index pat ([] : List α) = none := if_neg hpat
    rw [append_nil, hnil] at habsent
    rw [nil_append, habsent, hnil]
    rfl
  | cons a x ih =>
    have hprefix : pat.isPrefixOf (a :: (x ++ v)) = pat.isPrefixOf (a :: x) := by
      rw [Bool.eq_iff_iff, isPrefixOf_iff_prefix, isPrefixOf_iff_prefix]
      exact prefix_append_of_disjoint hv (a :: x)
    rw [cons_append, index, index, hprefix, ih]

end

/-! ### Texts whose spaces are single bytes -/

theorem spaces_mem (hb : b.toNat < 0x80) (h : SpaceByte b) : [b] ∈ spaces := by
  obtain ⟨w, hw, hbw⟩ := h
  have hall : ∀ w ∈ spaces, ∀ c ∈ w, c.toNat < 0x80 → w = [c] := by
    decide +kernel
  exact hall w hw b hbw hb ▸ hw

theorem exists_core {s : Bytes} (hs : ∀ b ∈ s, SpaceByte b → [b] ∈ spaces) :
    ∃ u w, s = u ++ (trimSpace s ++ w) ∧ (∀ b ∈ u, SpaceByte b) ∧ (∀ b ∈ w, SpaceByte b) ∧
      (∀ c, (trimSpace s).head? = some c → ¬ SpaceByte c) ∧
      ∀ d, (trimSpace s).getLast? = some d → ¬ SpaceByte d := by
  obtain ⟨u, w, hsplit, hu, hw⟩ := trimSpace_split s
  have hmem : ∀ b ∈ trimSpace s, b ∈ s := by
    intro b hb
    rw [hsplit]
    exact mem_append_right u (mem_append_left w hb)
  refine ⟨u, w, hsplit, hu, hw, fun c hc hspace => ?_, fun d hd hspace => ?_⟩
  · obtain ⟨t, ht⟩ := head?_eq_some_iff.mp hc
    have hsingle : [c] ∈ spaces := hs c (hmem c (ht ▸ mem_cons_self)) hspace
    refine trimmed_trimSpace s [c] hsingle ?_
    rw [ht]
    exact prefix_append [c] t
  obtain ⟨t, ht⟩ := getLast?_eq_some_iff.mp hd
  have hsingle : [d] ∈ spaces :=
    hs d (hmem d (ht ▸ mem_append_right t mem_cons_self)) hspace
  refine trimmed_trimSpace_reverse s [d] (mem_map_of_mem (f := List.reverse) hsingle) ?_
  rw [ht, reverse_append]
  exact prefix_append [d] t.reverse

end Strings

end DenseCore.Lib
