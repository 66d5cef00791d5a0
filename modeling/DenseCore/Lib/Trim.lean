/-
Trimming, word by word.

White space is a code of whole words: none begins or ends with another one, and the
first byte of a word is in no word behind its first place.  So a string has one way to
be read as white space, from either end, and words at an end are trimmed whatever the
bytes before them are.
-/
import DenseCore.Lib.Strings

namespace DenseCore.Lib.Strings

open List

/-! ### Words of a code -/

/-- No word is empty, and none begins with another one. -/
structure PrefixFree (words : List Bytes) : Prop where
  ne_nil : ∀ w ∈ words, w ≠ []
  eq_of_prefix : ∀ v ∈ words, ∀ w ∈ words, v <+: w → v = w

variable {words : List Bytes}

variable {w : Bytes}

theorem PrefixFree.find (h : PrefixFree words) (hw : w ∈ words) (s : Bytes) :
    words.find? (fun v => v.isPrefixOf (w ++ s)) = some w := by
  cases hfind : words.find? (fun v => v.isPrefixOf (w ++ s)) with
  | none =>
    have hpre := find?_eq_none.mp hfind w hw
    exact absurd (List.isPrefixOf_iff_prefix.mpr (prefix_append w s)) hpre
  | some v =>
    have hv : v ∈ words := mem_of_find?_eq_some hfind
    have hpre : v <+: w ++ s := isPrefixOf_iff_prefix.mp
      (find?_some (p := fun v : Bytes => v.isPrefixOf (w ++ s)) hfind)
    rcases prefix_or_prefix_of_prefix hpre (prefix_append w s) with hvw | hwv
    · rw [h.eq_of_prefix v hv w hw hvw]
    · rw [h.eq_of_prefix w hw v hv hwv]

theorem PrefixFree.trimWords_word (h : PrefixFree words) (hw : w ∈ words)
    (fuel : Nat) (t : Bytes) : trimWords words (fuel + 1) (w ++ t) = trimWords words fuel t := by
  rw [trimWords, h.find hw]
  show trimWords words fuel ((w ++ t).drop w.length) = _
  rw [drop_left]

theorem PrefixFree.trimWords_fuel (h : PrefixFree words) :
    ∀ (fuel fuel' : Nat) (s : Bytes), s.length ≤ fuel → s.length ≤ fuel' →
      trimWords words fuel s = trimWords words fuel' s := by
  intro fuel
  induction fuel with
  | zero =>
    intro fuel' s hlen _
    obtain rfl : s = [] := eq_nil_of_length_eq_zero (by omega)
    exact (trimWords_of_trimmed (fun w hw hpre => h.ne_nil w hw (prefix_nil.mp hpre)) _).symm
  | succ fuel ih =>
    intro fuel' s hlen hlen'
    by_cases htrimmed : Trimmed words s
    · rw [trimWords_of_trimmed htrimmed, trimWords_of_trimmed htrimmed]
    obtain ⟨w, hw, t, rfl⟩ : ∃ w ∈ words, w <+: s := by
      by_contra hno
      exact htrimmed fun w hw hpre => hno ⟨w, hw, hpre⟩
    have hpos : 0 < w.length := length_pos_iff.mpr (h.ne_nil w hw)
    rw [length_append] at hlen hlen'
    obtain ⟨n, rfl⟩ : ∃ n, fuel' = n + 1 := ⟨fuel' - 1, by omega⟩
    rw [h.trimWords_word hw, h.trimWords_word hw]
    exact ih n t (by omega) (by omega)

theorem PrefixFree.trimWords_append (h : PrefixFree words) (hw : w ∈ words)
    (t : Bytes) : trimWords words (w ++ t).length (w ++ t) = trimWords words t.length t := by
  have hpos : 0 < w.length := length_pos_iff.mpr (h.ne_nil w hw)
  have hlen : (w ++ t).length = w.length - 1 + t.length + 1 := by
    rw [length_append]
    omega
  rw [hlen, h.trimWords_word hw]
  exact h.trimWords_fuel _ _ t (by omega) (by omega)

theorem exists_words (words : List Bytes) (fuel : Nat) :
    ∀ s : Bytes, ∃ ws : List Bytes, (∀ w ∈ ws, w ∈ words) ∧
      s = ws.flatten ++ trimWords words fuel s := by
  induction fuel with
  | zero => exact fun s => ⟨[], fun w hw => absurd hw not_mem_nil, rfl⟩
  | succ fuel ih =>
    intro s
    rw [trimWords]
    split
    · exact ⟨[], fun w hw => absurd hw not_mem_nil, rfl⟩
    rename_i w hsome
    have hpre : w.isPrefixOf s = true :=
      find?_some (p := fun w : Bytes => w.isPrefixOf s) hsome
    obtain ⟨t, rfl⟩ := isPrefixOf_iff_prefix.mp hpre
    obtain ⟨ws, hws, ht⟩ := ih t
    refine ⟨w :: ws, fun v hv => ?_, ?_⟩
    · rcases mem_cons.mp hv with rfl | hv
      · exact mem_of_find?_eq_some hsome
      · exact hws v hv
    · rw [drop_left, flatten_cons, append_assoc, ← ht]

/-! ### White space -/

theorem prefixFree_spaces : PrefixFree spaces where
  ne_nil := spaces_ne_nil
  eq_of_prefix := by decide

theorem prefixFree_spaces_reverse : PrefixFree (spaces.map List.reverse) where
  ne_nil := spaces_reverse_ne_nil
  eq_of_prefix := by decide

/-- The first byte of a word is no later byte of one. -/
theorem head_not_mem_tail : ∀ v ∈ spaces, ∀ w ∈ spaces, ∀ c, w.head? = some c → c ∉ v.tail := by
  have hall : (spaces.all fun v => spaces.all fun w => v.tail.all fun c =>
      decide (w.head? ≠ some c)) = true := by decide
  intro v hv w hw c hc hmem
  have hne := all_eq_true.mp (all_eq_true.mp (all_eq_true.mp hall v hv) w hw) c hmem
  exact of_decide_eq_true hne hc

theorem trimSpace_sublist (s : Bytes) : Sublist (trimSpace s) s :=
  (trimSpace_prefix_trimSpaceLeft s).sublist.trans (trimWords_suffix spaces _ s).sublist

theorem trimSpaceLeft_word (hw : w ∈ spaces) (t : Bytes) :
    trimSpaceLeft (w ++ t) = trimSpaceLeft t := prefixFree_spaces.trimWords_append hw t

theorem trimSpaceRight_word (hw : w ∈ spaces) (t : Bytes) :
    trimSpaceRight (t ++ w) = trimSpaceRight t := by
  have h := prefixFree_spaces_reverse.trimWords_append (mem_map_of_mem (f := List.reverse) hw)
    t.reverse
  rw [← reverse_append, length_reverse, length_reverse] at h
  rw [trimSpaceRight, h]
  rfl

theorem trimmed_append_word {t : Bytes} (ht : Trimmed spaces t) (hne : t ≠ []) (hw : w ∈ spaces) :
    Trimmed spaces (t ++ w) := by
  intro v hv hpre
  rcases prefix_or_prefix_of_prefix hpre (prefix_append t w) with hvt | ⟨y, rfl⟩
  · exact ht v hv hvt
  have hy : y <+: w := (prefix_append_right_inj t).mp hpre
  cases y with
  | nil =>
    rw [append_nil] at hv
    exact ht t hv prefix_rfl
  | cons c y =>
    obtain ⟨z, hz⟩ := hy
    have hhead : w.head? = some c := by rw [← hz]; rfl
    refine head_not_mem_tail _ hv w hw c hhead ?_
    rw [tail_append_of_ne_nil hne]
    exact mem_append_right _ mem_cons_self

theorem trimSpace_append_word (hw : w ∈ spaces) (s : Bytes) : trimSpace (s ++ w) = trimSpace s := by
  obtain ⟨ws, hws, hs⟩ := exists_words spaces s.length s
  have hdrop : ∀ t, trimSpaceLeft (ws.flatten ++ t) = trimSpaceLeft t := by
    intro t
    clear hs
    induction ws with
    | nil => rfl
    | cons v ws ih =>
      rw [flatten_cons, append_assoc, trimSpaceLeft_word (hws v mem_cons_self)]
      exact ih fun x hx => hws x (mem_cons_of_mem v hx)
  have htrimmed : Trimmed spaces (trimSpaceLeft s) :=
    trimmed_trimWords spaces_ne_nil _ s (Nat.le_refl _)
  have hsplit : s ++ w = ws.flatten ++ (trimSpaceLeft s ++ w) := by
    rw [← append_assoc]
    exact congrArg (· ++ w) hs
  have hleft : trimSpaceLeft (s ++ w) = trimSpaceLeft (trimSpaceLeft s ++ w) := by
    rw [hsplit, hdrop]
  unfold trimSpace
  rw [hleft]
  by_cases hempty : trimSpaceLeft s = []
  · have hword := trimSpaceLeft_word hw []
    rw [append_nil] at hword
    rw [hempty, nil_append, hword]
    rfl
  have hkept : trimSpaceLeft (trimSpaceLeft s ++ w) = trimSpaceLeft s ++ w :=
    trimWords_of_trimmed (trimmed_append_word htrimmed hempty hw) _
  rw [hkept, trimSpaceRight_word hw]

theorem trimSpace_append_words (ws : List Bytes) (hws : ∀ w ∈ ws, w ∈ spaces) (s : Bytes) :
    trimSpace (s ++ ws.flatten) = trimSpace s := by
  induction ws generalizing s with
  | nil => rw [flatten_nil, append_nil]
  | cons w ws ih =>
    rw [flatten_cons, ← append_assoc, ih fun x hx => hws x (mem_cons_of_mem w hx),
      trimSpace_append_word (hws w mem_cons_self)]

theorem trimSpace_append_blank (hw : IsBlank w) (s : Bytes) : trimSpace (s ++ w) = trimSpace s := by
  have hflatten : (w.map fun b => [b]).flatten = w := by
    induction w with
    | nil => rfl
    | cons b w ih => exact congrArg (b :: ·) (ih fun c hc => hw c (mem_cons_of_mem b hc))
  have hwords : ∀ v ∈ w.map (fun b => [b]), v ∈ spaces := by
    intro v hv
    obtain ⟨b, hb, rfl⟩ := mem_map.mp hv
    exact hw b hb
  have h := trimSpace_append_words _ hwords s
  rwa [hflatten] at h

theorem trimSpace_words (s : Bytes) :
    ∃ us vs : List Bytes, (∀ w ∈ us, w ∈ spaces) ∧ (∀ w ∈ vs, w ∈ spaces) ∧
      s = us.flatten ++ (trimSpace s ++ vs.flatten) := by
  obtain ⟨us, hus, hs⟩ := exists_words spaces s.length s
  obtain ⟨vs, hvs, ht⟩ := exists_words (spaces.map List.reverse) (trimSpaceLeft s).length
    (trimSpaceLeft s).reverse
  have hback := congrArg List.reverse ht
  rw [reverse_reverse, reverse_append, reverse_flatten] at hback
  refine ⟨us, (vs.map List.reverse).reverse, hus, fun w hw => ?_, ?_⟩
  · obtain ⟨v, hv, rfl⟩ := mem_map.mp (mem_reverse.mp hw)
    obtain ⟨x, hx, rfl⟩ := mem_map.mp (hvs v hv)
    rwa [reverse_reverse]
  have hrest : trimSpaceLeft s = trimSpace s ++ ((vs.map List.reverse).reverse).flatten := hback
  rw [← hrest]
  exact hs

theorem trimSpace_front {x : Bytes} {c d : UInt8} (hhead : x.head? = some c)
    (hlast : x.getLast? = some d) (hc : ¬ SpaceByte c) (hd : ¬ SpaceByte d) (s : Bytes) :
    ∃ z, trimSpace (x ++ s) = x ++ z ∧ z <+: s ∧ trimSpace z = trimSpace s := by
  obtain ⟨x', z, hx', hz, htrim⟩ := trimSpace_around (x := []) (z := s) hhead hlast hc hd
  obtain rfl := suffix_nil.mp hx'
  simp only [nil_append] at htrim
  refine ⟨z, htrim, hz, ?_⟩
  obtain ⟨us, vs, hus, hvs, hsplit⟩ := trimSpace_words (x ++ s)
  rw [htrim] at hsplit
  -- no word stands before the first byte
  have hus_nil : us.flatten = [] := by
    cases us with
    | nil => rfl
    | cons w us =>
      exfalso
      obtain ⟨b, w', rfl⟩ := exists_cons_of_ne_nil
        (spaces_ne_nil w (hus w mem_cons_self))
      have hb : SpaceByte b := ⟨_, hus _ mem_cons_self, mem_cons_self⟩
      obtain ⟨x', rfl⟩ := head?_eq_some_iff.mp hhead
      exact hc ((List.cons.inj hsplit).1 ▸ hb)
  rw [hus_nil, nil_append, append_assoc] at hsplit
  rw [append_cancel_left hsplit, trimSpace_append_words vs hvs]

end DenseCore.Lib.Strings
