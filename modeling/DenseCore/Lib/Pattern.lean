/-
Patterns over any alphabet, matched as a backtracking engine prefers.

A class is a predicate on letters, so that one pattern serves bytes, code points or
tokens.  `rests` lists what is left behind the ways to match at the front, in the
order of preference, and a match is the first of them.  Only classes are repeated,
which keeps every definition structural; what a pattern leaves is then computed from
what its parts leave, one lemma for each way to build a pattern.
-/
import Mathlib.Data.List.Basic

namespace DenseCore.Lib

open List

/-- Patterns whose alternatives are tried in order. -/
inductive Pattern (α : Type) where
  | empty
  | one (cls : α → Bool)
  | many (cls : α → Bool)
  /-- The end of the text, or a letter outside the class, comes next. -/
  | notBefore (cls : α → Bool)
  | seq (p q : Pattern α)
  | alt (p q : Pattern α)

namespace Pattern

variable {α : Type}

/-- What is left behind a greedy run, the longest run first. -/
def runRests (cls : α → Bool) : List α → List (List α)
  | [] => [[]]
  | c :: s => if cls c then runRests cls s ++ [c :: s] else [c :: s]

/-- What is left behind the matches at the front, in the order of preference. -/
def rests : Pattern α → List α → List (List α)
  | empty, s => [s]
  | one _, [] => []
  | one cls, c :: s => if cls c then [s] else []
  | many cls, s => runRests cls s
  | notBefore cls, s => if s.head?.any cls then [] else [s]
  | seq p q, s => (p.rests s).flatMap q.rests
  | alt p q, s => p.rests s ++ q.rests s

variable (p : Pattern α)

/-- What the preferred match at the front leaves. -/
def first (s : List α) : Option (List α) := (p.rests s).head?

/-! ### Derived patterns -/

/-- Once or not at all. -/
def opt : Pattern α := alt p empty

/-- At least once. -/
def plus (cls : α → Bool) : Pattern α := seq (one cls) (many cls)

/-- At most so many times. -/
def atMost : Nat → (α → Bool) → Pattern α
  | 0, _ => empty
  | n + 1, cls => opt (seq (one cls) (atMost n cls))

/-- The first of several patterns that matches. -/
def oneOf (ps : List (Pattern α)) : Pattern α := ps.foldr alt (one fun _ => false)

/-! ### Successive matches -/

/-- The matches from a place on, as where they begin and end: each is the leftmost one
behind the match before it.  Empty matches are passed over. -/
def spansFrom (p : Pattern α) (s : List α) : Nat → Nat → List (Nat × Nat)
  | 0, _ => []
  | fuel + 1, pos =>
    if pos < s.length then
      match p.first (s.drop pos) with
      | some rest =>
        let last := s.length - rest.length
        if pos < last then (pos, last) :: p.spansFrom s fuel last
        else p.spansFrom s fuel (pos + 1)
      | none => p.spansFrom s fuel (pos + 1)
    else []

/-- The ranges of the matches in a text. -/
def spans (s : List α) : List (Nat × Nat) := p.spansFrom s s.length 0

/-! ### What the parts leave -/

section First

attribute [local simp] rests runRests atMost

variable (p q : Pattern α) (cls : α → Bool) (c : α) (s : List α)

theorem first_empty : (empty : Pattern α).first s = some s := rfl

@[simp] theorem first_one_nil : (one cls).first [] = none := rfl

theorem first_one_cons : (one cls).first (c :: s) = if cls c then some s else none := by
  rw [first, rests]
  split <;> rfl

theorem first_notBefore : (notBefore cls).first s = if s.head?.any cls then none else some s := by
  rw [first, rests]
  split <;> rfl

theorem first_alt : (alt p q).first s = (p.first s).or (q.first s) := by
  simp [first, rests]

theorem first_oneOf_nil : (oneOf []).first s = none := by
  cases s <;> rfl

theorem first_oneOf_cons (ps : List (Pattern α)) :
    (oneOf (p :: ps)).first s = (p.first s).or ((oneOf ps).first s) :=
  first_alt p (oneOf ps) s

theorem first_seq : (seq p q).first s = (p.rests s).findSome? q.first := by
  unfold first
  rw [rests]
  induction p.rests s with
  | nil => rfl
  | cons r rs ih =>
    rw [flatMap_cons, head?_append, ih, findSome?_cons]
    cases (q.rests r).head? <;> rfl

theorem first_seq_assoc (r : Pattern α) :
    (seq (seq p q) r).first s = (seq p (seq q r)).first s := by
  simp only [first, rests, flatMap_assoc]

@[simp] theorem first_seq_one_nil : (seq (one cls) q).first [] = none := rfl

theorem first_seq_one_cons :
    (seq (one cls) q).first (c :: s) = if cls c then q.first s else none := by
  rw [first_seq, rests]
  by_cases h : cls c <;> simp [h]

theorem first_seq_opt : (seq (opt p) q).first s = ((seq p q).first s).or (q.first s) := by
  rw [opt, first_seq, first_seq, rests, rests, findSome?_append]
  simp

/-! ### Greedy runs -/

theorem drop_length_takeWhile : s.drop (s.takeWhile cls).length = s.dropWhile cls := by
  induction s with
  | nil => rfl
  | cons c s ih => by_cases h : cls c <;> simp [h, ih]

theorem first_seq_many_nil : (seq (many cls) q).first [] = q.first [] := by
  rw [first_seq, rests, runRests]
  simp

theorem first_seq_many_cons : (seq (many cls) q).first (c :: s) =
    if cls c then ((seq (many cls) q).first s).or (q.first (c :: s)) else q.first (c :: s) := by
  rw [first_seq, first_seq, rests, rests, runRests]
  by_cases h : cls c <;> simp [h, findSome?_append]

theorem first_seq_many_eq_none {q : Pattern α} {cls : α → Bool} {s : List α}
    (h : ∀ k ≤ (s.takeWhile cls).length, q.first (s.drop k) = none) :
    (seq (many cls) q).first s = none := by
  induction s with
  | nil => rw [first_seq_many_nil]; exact h 0 (Nat.zero_le _)
  | cons c s ih =>
    have hfront : q.first (c :: s) = none := h 0 (Nat.zero_le _)
    rw [first_seq_many_cons, hfront]
    by_cases hc : cls c
    · rw [if_pos hc, Option.or_none]
      refine ih fun k hk => h (k + 1) ?_
      simp only [takeWhile_cons, hc, if_true, length_cons]
      omega
    · rw [if_neg hc]

/-- Behind a run, the second part is tried from the end of the run backwards: it takes
the last place where it matches. -/
theorem first_seq_many_eq_some {q : Pattern α} {cls : α → Bool} {s r : List α} {k : Nat}
    (hk : k ≤ (s.takeWhile cls).length) (hmatch : q.first (s.drop k) = some r)
    (hlater : ∀ j, k < j → j ≤ (s.takeWhile cls).length → q.first (s.drop j) = none) :
    (seq (many cls) q).first s = some r := by
  induction s generalizing k with
  | nil =>
    obtain rfl : k = 0 := Nat.le_zero.mp hk
    rw [first_seq_many_nil]
    exact hmatch
  | cons c s ih =>
    rw [first_seq_many_cons]
    by_cases hc : cls c
    · simp only [takeWhile_cons, hc, if_true, length_cons] at hk hlater
      rw [if_pos hc]
      cases k with
      | zero =>
        have hnone : (seq (many cls) q).first s = none :=
          first_seq_many_eq_none fun j hj => hlater (j + 1) (by omega) (by omega)
        rw [hnone, Option.none_or]
        exact hmatch
      | succ k =>
        have hlast : (seq (many cls) q).first s = some r :=
          ih (by omega) hmatch fun j hkj hj => hlater (j + 1) (by omega) (by omega)
        rw [hlast, Option.some_or]
    simp only [takeWhile_cons, hc] at hk
    obtain rfl : k = 0 := Nat.le_zero.mp hk
    rw [if_neg hc]
    exact hmatch

theorem first_run_notBefore : (seq (many cls) (notBefore fun c => !cls c)).first s =
    if (s.takeWhile cls).length = s.length then some []
    else if (s.takeWhile cls).length = 0 then none
    else some (s.drop ((s.takeWhile cls).length - 1)) := by
  induction s with
  | nil => rfl
  | cons c s ih =>
    rw [first_seq_many_cons, first_notBefore, ih, takeWhile_cons]
    by_cases h : cls c
    · simp only [h, if_true, head?_cons, Option.any_some, Bool.not_true,
        Bool.false_eq_true, if_false, length_cons, Nat.succ_ne_zero, Nat.add_sub_cancel,
        Nat.add_right_cancel_iff]
      by_cases hall : (s.takeWhile cls).length = s.length
      · simp [hall]
      · cases hrun : (s.takeWhile cls).length <;> simp_all
    · simp [h]

theorem first_many : (many cls).first s = some (s.dropWhile cls) := by
  rw [first, rests]
  induction s with
  | nil => rfl
  | cons c s ih =>
    rw [runRests, dropWhile_cons]
    by_cases h : cls c <;> simp [h, ih]

/-- A run never fails, so the preferred way to match what stands before it decides. -/
theorem first_seq_run : (seq p (many cls)).first s = (p.first s).map fun r => r.dropWhile cls := by
  rw [first_seq, first]
  cases p.rests s with
  | nil => rfl
  | cons r rs => rw [findSome?_cons, first_many, head?_cons, Option.map_some]

theorem first_plus :
    (plus cls).first s = if s.head?.any cls then some (s.dropWhile cls) else none := by
  cases s with
  | nil => rfl
  | cons c s =>
    rw [plus, first_seq_run, first_one_cons, head?_cons, Option.any_some]
    by_cases h : cls c <;> simp [h]

/-- At most `n` letters of the class, as many as there are. -/
theorem first_atMost (n : Nat) :
    (atMost n cls).first s = some (s.drop (min n (s.takeWhile cls).length)) := by
  induction n generalizing s with
  | zero => rw [atMost, first_empty, Nat.zero_min, drop_zero]
  | succ n ih =>
    rw [atMost, opt, first_alt, first_empty]
    cases s with
    | nil => rfl
    | cons c s =>
      rw [first_seq_one_cons, takeWhile_cons]
      by_cases h : cls c
      · simp [h, ih, Nat.succ_min_succ]
      · simp [h]

end First

/-! ### The matches of a text -/

theorem spansFrom_of_ge {s : List α} {pos : Nat} (fuel : Nat)
    (h : s.length ≤ pos) : p.spansFrom s fuel pos = [] := by
  cases fuel with
  | zero => rfl
  | succ fuel => rw [spansFrom, if_neg (by omega)]

theorem spansFrom_match {p : Pattern α} {s : List α} {pos last : Nat} (fuel : Nat)
    (hlt : pos < last) (hle : last ≤ s.length) (h : p.first (s.drop pos) = some (s.drop last)) :
    p.spansFrom s (fuel + 1) pos = (pos, last) :: p.spansFrom s fuel last := by
  have hlast : s.length - (s.drop last).length = last := by
    rw [length_drop]
    omega
  rw [spansFrom, if_pos (by omega), h]
  simp only [hlast, if_pos hlt]

end Pattern

end DenseCore.Lib
