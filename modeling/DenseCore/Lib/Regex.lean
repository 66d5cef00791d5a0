/-
Regular expressions, matched as a backtracking engine prefers.

A match is the first of all matches at the leftmost place that has one.  `runs` lists
the matches at a place in the order of preference: an alternative before the next, a
greedy repetition from the longest, a lazy one from the shortest.  Only classes of
bytes are repeated, so every definition is structural.  Expressions that match the
empty text are not searched for repeatedly.
-/
import DenseCore.Lib.Strings

namespace DenseCore.Lib

open List

/-- Patterns with groups. -/
inductive Regex where
  | empty
  | text (w : Bytes)
  | one (cls : UInt8 → Bool)
  | many (greedy : Bool) (cls : UInt8 → Bool)
  | seq (a b : Regex)
  | alt (a b : Regex)
  | group (i : Nat) (a : Regex)

namespace Regex

/-- What a match takes, what it leaves, and its groups. -/
structure Match where
  text : Bytes
  rest : Bytes
  groups : List (Nat × Bytes) := []
deriving DecidableEq, Repr

/-- The text of a group, empty if the group took no part. -/
def Match.group (m : Match) (i : Nat) : Bytes := (m.groups.lookup i).getD []

/-- The beginnings of `s` that lie in the class, with what they leave. -/
def repeats (greedy : Bool) (cls : UInt8 → Bool) : Bytes → List (Bytes × Bytes)
  | [] => [([], [])]
  | c :: rest =>
    let more :=
      if cls c then (repeats greedy cls rest).map fun x => (c :: x.1, x.2) else []
    if greedy then more ++ [([], c :: rest)] else ([], c :: rest) :: more

/-- The matches at the beginning of `s`, in the order of preference. -/
def runs : Regex → Bytes → List Match
  | .empty, s => [⟨[], s, []⟩]
  | .text w, s => if w.isPrefixOf s then [⟨w, s.drop w.length, []⟩] else []
  | .one _, [] => []
  | .one cls, c :: rest => if cls c then [⟨[c], rest, []⟩] else []
  | .many greedy cls, s => (repeats greedy cls s).map fun x => ⟨x.1, x.2, []⟩
  | .seq a b, s =>
    (a.runs s).flatMap fun m =>
      (b.runs m.rest).map fun n => ⟨m.text ++ n.text, n.rest, m.groups ++ n.groups⟩
  | .alt a b, s => a.runs s ++ b.runs s
  | .group i a, s => (a.runs s).map fun m => { m with groups := (i, m.text) :: m.groups }

/-- The leftmost match, and what stands before it. -/
def find (r : Regex) : Bytes → Option (Bytes × Match)
  | [] => (r.runs []).head?.map fun m => ([], m)
  | c :: rest =>
    match (r.runs (c :: rest)).head? with
    | some m => some ([], m)
    | none => (r.find rest).map fun x => (c :: x.1, x.2)

/-- The matches from an offset on, none of which overlap. -/
def findAllFrom (r : Regex) : Nat → Bytes → List Match
  | 0, _ => []
  | fuel + 1, s =>
    match r.find s with
    | none => []
    | some (_, m) => m :: r.findAllFrom fuel m.rest

/-- The matches one after the other. -/
def findAll (r : Regex) (s : Bytes) : List Match := r.findAllFrom (s.length + 1) s

/-- The text with its matches replaced. -/
def replaceAllFrom (r : Regex) (template : Match → Bytes) : Nat → Bytes → Bytes
  | 0, s => s
  | fuel + 1, s =>
    match r.find s with
    | none => s
    | some (before, m) => before ++ template m ++ r.replaceAllFrom template fuel m.rest

/-- The text with every match replaced. -/
def replaceAll (r : Regex) (template : Match → Bytes) (s : Bytes) : Bytes :=
  r.replaceAllFrom template (s.length + 1) s

/-- Several expressions in a row. -/
def all (rs : List Regex) : Regex := rs.foldr seq empty

/-! ### Matches are parts of the text -/

attribute [local simp] runs find

variable {cls : UInt8 → Bool} {s : Bytes} {m : Match} {r : Regex}

theorem repeats_eq {greedy : Bool} {x : Bytes × Bytes}
    (h : x ∈ repeats greedy cls s) : x.1 ++ x.2 = s ∧ ∀ c ∈ x.1, cls c = true := by
  induction s generalizing x with
  | nil =>
    simp only [repeats, mem_singleton] at h
    subst h
    exact ⟨rfl, fun c hc => absurd hc not_mem_nil⟩
  | cons c rest ih =>
    have hcases : x = ([], c :: rest) ∨
        cls c = true ∧ ∃ y ∈ repeats greedy cls rest, (c :: y.1, y.2) = x := by
      cases greedy <;> cases hcls : cls c <;>
        simp only [repeats, hcls, Bool.false_eq_true, if_false, if_true, nil_append,
          mem_append, mem_cons, mem_map, not_mem_nil, or_false] at h <;> tauto
    rcases hcases with rfl | ⟨hcls, y, hy, rfl⟩
    · exact ⟨rfl, fun c hc => absurd hc not_mem_nil⟩
    obtain ⟨hsplit, hall⟩ := ih hy
    refine ⟨by rw [cons_append, hsplit], fun d hd => ?_⟩
    rcases mem_cons.mp hd with rfl | hd
    · exact hcls
    · exact hall d hd

theorem mem_runs_text {w : Bytes} (h : m ∈ (text w).runs s) : m.text = w ∧ s = w ++ m.rest := by
  unfold runs at h
  split at h
  · rename_i hpre
    obtain ⟨t, rfl⟩ := isPrefixOf_iff_prefix.mp hpre
    rw [mem_singleton] at h
    subst h
    exact ⟨rfl, by rw [drop_left]⟩
  · exact absurd h not_mem_nil

theorem mem_runs_one (h : m ∈ (one cls).runs s) :
    ∃ c, cls c = true ∧ m.text = [c] ∧ s = c :: m.rest := by
  cases s with
  | nil => exact absurd h not_mem_nil
  | cons c rest =>
    unfold runs at h
    split at h
    · rename_i hcls
      rw [mem_singleton] at h
      subst h
      exact ⟨c, hcls, rfl, rfl⟩
    · exact absurd h not_mem_nil

theorem mem_runs_many {greedy : Bool}
    (h : m ∈ (many greedy cls).runs s) : m.text ++ m.rest = s ∧ ∀ c ∈ m.text, cls c = true := by
  unfold runs at h
  obtain ⟨x, hx, rfl⟩ := mem_map.mp h
  exact repeats_eq hx

theorem mem_runs_seq {a b : Regex} (h : m ∈ (seq a b).runs s) :
    ∃ m₁ ∈ a.runs s, ∃ m₂ ∈ b.runs m₁.rest, m.text = m₁.text ++ m₂.text ∧ m.rest = m₂.rest ∧
      m.groups = m₁.groups ++ m₂.groups := by
  unfold runs at h
  obtain ⟨m₁, h₁, h⟩ := mem_flatMap.mp h
  obtain ⟨m₂, h₂, rfl⟩ := mem_map.mp h
  exact ⟨m₁, h₁, m₂, h₂, rfl, rfl, rfl⟩

theorem text_append_rest (h : m ∈ r.runs s) : m.text ++ m.rest = s := by
  induction r generalizing s m with
  | empty =>
    simp only [runs, mem_singleton] at h
    subst h
    rfl
  | text w =>
    obtain ⟨ht, hs⟩ := mem_runs_text h
    rw [ht, hs]
  | one cls =>
    obtain ⟨c, -, ht, hs⟩ := mem_runs_one h
    rw [ht, hs]
    rfl
  | many greedy cls => exact (mem_runs_many h).1
  | seq a b iha ihb =>
    obtain ⟨m₁, h₁, m₂, h₂, ht, hr, -⟩ := mem_runs_seq h
    rw [ht, hr, append_assoc, ihb h₂, iha h₁]
  | alt a b iha ihb =>
    simp only [runs, mem_append] at h
    rcases h with h | h
    · exact iha h
    · exact ihb h
  | group i a ih =>
    simp only [runs, mem_map] at h
    obtain ⟨m', h', rfl⟩ := h
    show m'.text ++ m'.rest = s
    exact ih h'

theorem find_eq_some {before : Bytes} (h : r.find s = some (before, m)) :
    ∃ t, s = before ++ t ∧ m ∈ r.runs t := by
  induction s generalizing before with
  | nil =>
    unfold find at h
    obtain ⟨m', hm', heq⟩ := Option.map_eq_some_iff.mp h
    cases heq
    exact ⟨[], rfl, mem_of_mem_head? hm'⟩
  | cons c rest ih =>
    unfold find at h
    split at h
    · rename_i m' hm'
      cases h
      exact ⟨c :: rest, rfl, mem_of_mem_head? hm'⟩
    obtain ⟨⟨before', m'⟩, hfind, heq⟩ := Option.map_eq_some_iff.mp h
    cases heq
    obtain ⟨t, rfl, hm⟩ := ih hfind
    exact ⟨t, rfl, hm⟩

/-- Nothing is found where no place has a match. -/
theorem find_eq_none (h : ∀ t, t <:+ s → r.runs t = []) : r.find s = none := by
  induction s with
  | nil =>
    unfold find
    rw [h [] suffix_rfl]
    rfl
  | cons c rest ih =>
    unfold find
    rw [h (c :: rest) suffix_rfl, ih fun t ht => h t (ht.trans (suffix_cons c rest))]
    rfl

theorem replaceAll_of_find_eq_none {template : Match → Bytes}
    (h : r.find s = none) : r.replaceAll template s = s := by
  unfold replaceAll replaceAllFrom
  rw [h]

theorem mem_findAllFrom (fuel : Nat) :
    ∀ s, m ∈ r.findAllFrom fuel s → ∃ before t, s = before ++ t ∧ m ∈ r.runs t := by
  induction fuel with
  | zero => exact fun s h => absurd h not_mem_nil
  | succ fuel ih =>
    intro s h
    unfold findAllFrom at h
    split at h
    · exact absurd h not_mem_nil
    rename_i before m' hfind
    obtain ⟨t, rfl, hm'⟩ := find_eq_some hfind
    rcases mem_cons.mp h with rfl | h
    · exact ⟨before, t, rfl, hm'⟩
    obtain ⟨before', t', hrest, hm⟩ := ih _ h
    refine ⟨before ++ (m'.text ++ before'), t', ?_, hm⟩
    rw [append_assoc, append_assoc, ← hrest, text_append_rest hm']

/-- A match among all is a match at a place of the text. -/
theorem mem_findAll (h : m ∈ r.findAll s) :
    ∃ before t, s = before ++ t ∧ m ∈ r.runs t := mem_findAllFrom _ s h

/-- The bytes that an expression can match. -/
def Over (P : UInt8 → Prop) : Regex → Prop
  | .empty => True
  | .text w => ∀ b ∈ w, P b
  | .one cls => ∀ b, cls b = true → P b
  | .many _ cls => ∀ b, cls b = true → P b
  | .seq a b => a.Over P ∧ b.Over P
  | .alt a b => a.Over P ∧ b.Over P
  | .group _ a => a.Over P

theorem Over.mem_text {P : UInt8 → Prop} (h : r.Over P)
    (hm : m ∈ r.runs s) : ∀ b ∈ m.text, P b := by
  induction r generalizing s m with
  | empty =>
    simp only [runs, mem_singleton] at hm
    subst hm
    exact fun b hb => absurd hb not_mem_nil
  | text w =>
    rw [(mem_runs_text hm).1]
    exact h
  | one cls =>
    obtain ⟨c, hc, ht, -⟩ := mem_runs_one hm
    rw [ht]
    intro b hb
    rw [mem_singleton.mp hb]
    exact h c hc
  | many greedy cls => exact fun b hb => h b ((mem_runs_many hm).2 b hb)
  | seq a b iha ihb =>
    obtain ⟨m₁, h₁, m₂, h₂, ht, -, -⟩ := mem_runs_seq hm
    rw [ht]
    intro b hb
    rcases mem_append.mp hb with hb | hb
    · exact iha h.1 h₁ b hb
    · exact ihb h.2 h₂ b hb
  | alt a b iha ihb =>
    simp only [runs, mem_append] at hm
    rcases hm with hm | hm
    · exact iha h.1 hm
    · exact ihb h.2 hm
  | group i a ih =>
    simp only [runs, mem_map] at hm
    obtain ⟨m', h', rfl⟩ := hm
    show ∀ b ∈ m'.text, P b
    exact ih h h'

/-- An expression without groups. -/
def groupFree : Regex → Bool
  | .seq a b => a.groupFree && b.groupFree
  | .alt a b => a.groupFree && b.groupFree
  | .group _ _ => false
  | _ => true

theorem groups_of_groupFree (h : r.groupFree = true) (hm : m ∈ r.runs s) : m.groups = [] := by
  induction r generalizing s m with
  | empty =>
    simp only [runs, mem_singleton] at hm
    subst hm
    rfl
  | text w =>
    unfold runs at hm
    split at hm
    · rw [mem_singleton.mp hm]
    · exact absurd hm not_mem_nil
  | one cls =>
    cases s with
    | nil => exact absurd hm not_mem_nil
    | cons c rest =>
      unfold runs at hm
      split at hm
      · rw [mem_singleton.mp hm]
      · exact absurd hm not_mem_nil
  | many greedy cls =>
    unfold runs at hm
    obtain ⟨x, -, rfl⟩ := mem_map.mp hm
    rfl
  | seq a b iha ihb =>
    rw [groupFree, Bool.and_eq_true] at h
    obtain ⟨m₁, h₁, m₂, h₂, -, -, hg⟩ := mem_runs_seq hm
    rw [hg, iha h.1 h₁, ihb h.2 h₂]
    rfl
  | alt a b iha ihb =>
    rw [groupFree, Bool.and_eq_true] at h
    simp only [runs, mem_append] at hm
    rcases hm with hm | hm
    · exact iha h.1 hm
    · exact ihb h.2 hm
  | group i a ih => cases h

end Regex

end DenseCore.Lib
