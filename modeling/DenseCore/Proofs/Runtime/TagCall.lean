/-
One call of the tag suppression, read over tokens.

The source searches for tags by position.  Because a tag cannot begin inside
another, the first close tag a search finds is the first close token, and the
loop over positions is a walk over the tokens of the text: what it puts out is
what stays visible when blocks and tags are cut out, and it ends outside a
block, in a block that was open from the start, or in one it opened itself.
`suppressTaggedBlock_eq` says so, with what each of the three ends carries over.
-/
import DenseCore.Runtime.TagSuppression
import DenseCore.Lib.TagStream

namespace DenseCore.Runtime

open Option hiding le_min min

open List

open DenseCore.Lib

variable {T : Tags UInt8}

/-! ### Searching for a tag -/

variable {tag s r current u w text y : Text} {pos : Nat}

theorem findFirst_of_prefix (htag : tag ≠ []) (h : tag <+: s) : findFirst tag s = some 0 := by
  cases s with
  | nil => exact absurd (prefix_nil.mp h) htag
  | cons a r =>
    show (if tag.isPrefixOf (a :: r) then _ else _) = _
    rw [if_pos (List.isPrefixOf_iff_prefix.mpr h)]

theorem findFirst_cons_of_neg {a : UInt8}
    (h : ¬ tag <+: a :: r) : findFirst tag (a :: r) = (findFirst tag r).map (· + 1) := by
  show (if tag.isPrefixOf (a :: r) then _ else _) = _
  rw [if_neg (by simpa [List.isPrefixOf_iff_prefix] using h)]

theorem findFirst_append_of_no_mark {m : UInt8} {rest z : Text} (hz : m ∉ z) (r : Text) :
    findFirst (m :: rest) (z ++ r) = (findFirst (m :: rest) r).map (· + z.length) := by
  induction z with
  | nil => simp
  | cons a z ih =>
    have ha : ¬ m :: rest <+: a :: (z ++ r) := fun h =>
      hz (by simp [(cons_prefix_cons.mp h).1])
    rw [cons_append, findFirst_cons_of_neg ha, ih (fun h => hz (by simp [h])), Option.map_map]
    congr 1

/-- A tag is passed over by the search for the other one. -/
theorem findFirst_closing_opening_append (r : Text) : findFirst T.closing (T.opening ++ r) =
      (findFirst T.closing r).map (· + T.opening.length) := by
  have hno : ¬ T.closing <+: T.mark :: (T.openRest ++ r) := fun h =>
    Tags.not_both_prefix (s := T.opening ++ r) (prefix_append _ _) h
  show findFirst T.closing (T.mark :: (T.openRest ++ r)) = _
  rw [findFirst_cons_of_neg hno]
  unfold Tags.closing
  rw [findFirst_append_of_no_mark T.mark_not_mem_open, Option.map_map]
  congr 1

theorem findFirst_opening_closing_append (r : Text) : findFirst T.opening (T.closing ++ r) =
      (findFirst T.opening r).map (· + T.closing.length) := by
  have hno : ¬ T.opening <+: T.mark :: (T.closeRest ++ r) := fun h =>
    Tags.not_both_prefix (s := T.closing ++ r) h (prefix_append _ _)
  show findFirst T.opening (T.mark :: (T.closeRest ++ r)) = _
  rw [findFirst_cons_of_neg hno]
  unfold Tags.opening
  rw [findFirst_append_of_no_mark T.mark_not_mem_close, Option.map_map]
  congr 1

theorem findFirst_closing (T : Tags UInt8) (s : Text) :
    (findFirst T.closing s = none ∧ .closing ∉ T.lex s) ∨
      ∃ u r, s = u ++ (T.closing ++ r) ∧ findFirst T.closing s = some u.length ∧
        T.lex s = T.lex u ++ .closing :: T.lex r ∧ .closing ∉ T.lex u := by
  induction s using T.text_induction with
  | hnil => exact Or.inl ⟨rfl, by simp⟩
  | hopen r ih =>
    rw [findFirst_closing_opening_append, Tags.lex_opening_append]
    rcases ih with ⟨hnone, hno⟩ | ⟨u, r', rfl, hfound, hlex, hno⟩
    · exact Or.inl ⟨by rw [hnone]; rfl, by simpa using hno⟩
    refine Or.inr ⟨T.opening ++ u, r', by simp, ?_, ?_, ?_⟩
    · rw [hfound]
      simp [Nat.add_comm]
    · rw [Tags.lex_opening_append, hlex]
      rfl
    rw [Tags.lex_opening_append]
    simpa using hno
  | hclose r _ =>
    refine Or.inr ⟨[], r, rfl, ?_, Tags.lex_closing_append r, by simp⟩
    exact findFirst_of_prefix (by simp [Tags.closing]) (prefix_append _ _)
  | hplain a r ho hc ih =>
    rw [findFirst_cons_of_neg hc, Tags.lex_cons_plain ho hc]
    rcases ih with ⟨hnone, hno⟩ | ⟨u, r', rfl, hfound, hlex, hno⟩
    · exact Or.inl ⟨by rw [hnone]; rfl, by simpa using hno⟩
    have hpre : a :: u <+: a :: (u ++ (T.closing ++ r')) := by simp
    have hlexu : T.lex (a :: u) = .plain a :: T.lex u :=
      Tags.lex_cons_plain (fun h => ho (h.trans hpre)) (fun h => hc (h.trans hpre))
    refine Or.inr ⟨a :: u, r', by simp, by rw [hfound]; rfl, ?_, ?_⟩
    · rw [hlexu, hlex]
      rfl
    rw [hlexu]
    simpa using hno

/-- Looking for the next tag of either kind, as the loop does outside a block. -/
inductive NextTag (T : Tags UInt8) (s : Text) : Prop where
  | none (hopen : findFirst T.opening s = Option.none) (hclose : findFirst T.closing s = Option.none)
      (hlex : T.lex s = s.map .plain)
  | opening (u r : Text) (hs : s = u ++ (T.opening ++ r))
      (hopen : findFirst T.opening s = some u.length)
      (hclose : ∀ c, findFirst T.closing s = some c → u.length < c)
      (hlex : T.lex s = u.map .plain ++ .opening :: T.lex r)
  | closing (u r : Text) (hs : s = u ++ (T.closing ++ r))
      (hclose : findFirst T.closing s = some u.length)
      (hopen : ∀ o, findFirst T.opening s = some o → u.length < o)
      (hlex : T.lex s = u.map .plain ++ .closing :: T.lex r)

theorem nextTag (T : Tags UInt8) (s : Text) : NextTag T s := by
  induction s using T.text_induction with
  | hnil => exact .none rfl rfl rfl
  | hopen r _ =>
    refine .opening [] r rfl ?_ ?_ (Tags.lex_opening_append r)
    · exact findFirst_of_prefix (by simp [Tags.opening]) (prefix_append _ _)
    intro c hc
    rw [findFirst_closing_opening_append, map_eq_some_iff] at hc
    obtain ⟨c', -, rfl⟩ := hc
    simp only [Tags.opening, length_nil, length_cons]
    omega
  | hclose r _ =>
    refine .closing [] r rfl ?_ ?_ (Tags.lex_closing_append r)
    · exact findFirst_of_prefix (by simp [Tags.closing]) (prefix_append _ _)
    intro o ho
    rw [findFirst_opening_closing_append, map_eq_some_iff] at ho
    obtain ⟨o', -, rfl⟩ := ho
    simp only [Tags.closing, length_nil, length_cons]
    omega
  | hplain a r ho hc ih =>
    -- everything the search finds in the rest stands one symbol later
    have hfo := findFirst_cons_of_neg ho
    have hfc := findFirst_cons_of_neg hc
    have hlex := Tags.lex_cons_plain ho hc
    cases ih with
    | none hopen hclose hl =>
      exact .none (by rw [hfo, hopen]; rfl) (by rw [hfc, hclose]; rfl) (by rw [hlex, hl]; rfl)
    | opening u r' hs hopen hclose hl =>
      refine .opening (a :: u) r' (by rw [hs]; rfl) (by rw [hfo, hopen]; rfl) ?_
        (by rw [hlex, hl]; rfl)
      intro c hcs
      rw [hfc, map_eq_some_iff] at hcs
      obtain ⟨c', hc', rfl⟩ := hcs
      exact Nat.succ_lt_succ (hclose c' hc')
    | closing u r' hs hclose hopen hl =>
      refine .closing (a :: u) r' (by rw [hs]; rfl) (by rw [hfc, hclose]; rfl) ?_
        (by rw [hlex, hl]; rfl)
      intro o hos
      rw [hfo, map_eq_some_iff] at hos
      obtain ⟨o', ho', rfl⟩ := hos
      exact Nat.succ_lt_succ (hopen o' ho')

/-! ### The loop -/

theorem drop_add_of_eq_append (hs : current.drop pos = s)
    (hsplit : s = u ++ (w ++ r)) : current.drop (u.length + pos + w.length) = r := by
  rw [show u.length + pos + w.length = pos + (u.length + w.length) by omega,
    ← drop_drop, hs, hsplit, ← append_assoc, ← length_append]
  exact drop_left

theorem substr_of_eq_append (hs : current.drop pos = s)
    (hsplit : s = u ++ w) : substr current pos (u.length + pos - pos) = u := by
  rw [Nat.add_sub_cancel]
  unfold substr
  rw [hs, hsplit]
  exact take_left

/-- Outside a block the loop of the code shows what the reading by tokens shows. -/
theorem suppressLoop_outside :
    ∀ (fuel pos : Nat) (out s : Text), current.drop pos = s → s.length < fuel →
      suppressLoop T.opening T.closing current fuel pos false out =
        .left (Mode.outside.after (T.lex s)).inside (out ++ Mode.outside.visible (T.lex s)) := by
  intro fuel
  induction fuel with
  | zero => intro pos out s _ h; omega
  | succ fuel ih =>
    intro pos out s hs hfuel
    unfold suppressLoop
    by_cases hpos : pos < current.length
    · rw [if_pos hpos, if_neg (by simp)]
      dsimp only
      simp only [find, hs]
      cases nextTag T s with
      | none hopen hclose hlex =>
        rw [hopen, hclose, hlex]
        simp [Mode.inside]
      | closing u r hsplit hclose hopen hlex =>
        have hr := drop_add_of_eq_append hs hsplit
        have hlt : r.length < fuel := by
          rw [hsplit] at hfuel
          simp [Tags.closing] at hfuel
          omega
        have hfirst : ((findFirst T.opening s).map (· + pos)).all
            (u.length + pos < ·) = true := by
          cases ho : findFirst T.opening s with
          | none => rfl
          | some o =>
            have := hopen o ho
            simp only [map_some, all_some, decide_eq_true_eq]
            omega
        rw [hclose]
        simp only [map_some, filter_some, hfirst, if_true]
        rw [substr_of_eq_append hs hsplit, ih _ _ r hr hlt, hlex, Mode.after_append,
          Mode.visible_append]
        simp [Mode.after_cons, Mode.next]
      | opening u r hsplit hopen hclose hlex =>
        have hr := drop_add_of_eq_append hs hsplit
        have hnone : ((findFirst T.closing s).map (· + pos)).filter
            (fun c => (some (u.length + pos)).all (c < ·)) = none := by
          cases hc : findFirst T.closing s with
          | none => rfl
          | some c =>
            have := hclose c hc
            simp only [map_some, filter_some, all_some]
            rw [if_neg (by simp; omega)]
        rw [hopen]
        simp only [map_some]
        rw [hnone]
        dsimp only
        rw [hr, substr_of_eq_append hs hsplit]
        -- the block that opens here closes at the first close token behind it
        rcases findFirst_closing T r with ⟨hno, hcl⟩ | ⟨u', r', hr', hfound, hl, hcl⟩
        · obtain ⟨hvis, haft⟩ := Mode.visible_of_no_closing (m := .opened) rfl hcl
          rw [hno, hlex, Mode.after_append, Mode.visible_append]
          simp [Mode.after_cons, Mode.next, hvis, haft, Mode.inside]
        obtain ⟨hvis, haft⟩ := Mode.visible_of_no_closing (m := .opened) rfl hcl
        have hrr := drop_add_of_eq_append hr hr'
        have hlt : r'.length < fuel := by
          rw [hsplit, hr'] at hfuel
          simp [Tags.opening, Tags.closing] at hfuel
          omega
        rw [hfound]
        simp only [map_some]
        rw [ih _ _ r' hrr hlt, hlex, hl, Mode.after_append, Mode.visible_append]
        simp [Mode.after_cons, Mode.next, Mode.after_append, Mode.visible_append, hvis, haft]
    · have hnil : s = [] := by
        rw [← hs]
        exact drop_eq_nil_of_le (by omega)
      rw [if_neg hpos, hnil]
      simp [Mode.inside, Mode.visible]

/-! ### What is held back -/

/-- The end of a text of a given length. -/
def lastOf (text : Text) (n : Nat) : Text := text.drop (text.length - n)

theorem longestMatchFrom_spec (text pattern : Text) (n : Nat) :
    longestMatchFrom text pattern n ≤ n ∧ (0 < longestMatchFrom text pattern n →
        lastOf text (longestMatchFrom text pattern n) =
          pattern.take (longestMatchFrom text pattern n)) ∧
      ∀ k, longestMatchFrom text pattern n < k → k ≤ n → lastOf text k ≠ pattern.take k := by
  induction n with
  | zero => exact ⟨Nat.le_refl _, fun h => absurd h (Nat.lt_irrefl _), fun k hk hk' => by omega⟩
  | succ n ih =>
    unfold longestMatchFrom
    by_cases h : text.drop (text.length - (n + 1)) = pattern.take (n + 1)
    · rw [if_pos h]
      exact ⟨Nat.le_refl _, fun _ => h, fun k hk hk' => by omega⟩
    rw [if_neg h]
    refine ⟨by omega, ih.2.1, fun k hk hk' => ?_⟩
    rcases Nat.lt_or_ge n k with hlt | hge
    · obtain rfl : k = n + 1 := by omega
      exact h
    · exact ih.2.2 k hk hge

theorem lastOf_length_of_suffix (h : y <:+ text) : lastOf text y.length = y := by
  obtain ⟨u, rfl⟩ := h
  simp [lastOf]

theorem lastOf_suffix (text : Text) (n : Nat) : lastOf text n <:+ text := drop_suffix _ _

/-- What `LongestPrefixSuffixMatch` finds at the end of the text: the beginning
of the pattern, or nothing because the text does not end with one. -/
theorem longestPrefixSuffixMatch_spec (text pattern : Text) :
    (longestPrefixSuffixMatch text pattern = 0 ∧ ∀ y, Tags.Begins pattern y → ¬ y <:+ text) ∨
      (Tags.Begins pattern (lastOf text (longestPrefixSuffixMatch text pattern)) ∧
        (lastOf text (longestPrefixSuffixMatch text pattern)).length =
          longestPrefixSuffixMatch text pattern) := by
  unfold longestPrefixSuffixMatch
  by_cases hempty : text.isEmpty || pattern.isEmpty
  · rw [if_pos hempty]
    refine Or.inl ⟨rfl, fun y hy hs => hy.1 ?_⟩
    rcases Bool.or_eq_true_iff.mp hempty with h | h
    · rw [List.isEmpty_iff.mp h] at hs
      exact suffix_nil.mp hs
    have hp := hy.2.1
    rw [List.isEmpty_iff.mp h] at hp
    exact prefix_nil.mp hp
  rw [if_neg hempty]
  obtain ⟨hle, hmatch, hmax⟩ :=
    longestMatchFrom_spec text pattern (min text.length (pattern.length - 1))
  generalize hn : longestMatchFrom text pattern (min text.length (pattern.length - 1)) = n at *
  rcases Nat.eq_zero_or_pos n with hzero | hpos
  · refine Or.inl ⟨hzero, fun y hy hs => ?_⟩
    obtain ⟨hne, hpre, hproper⟩ := hy
    have hlen : y.length < pattern.length := by
      rcases Nat.lt_or_ge y.length pattern.length with h | h
      · exact h
      · exact absurd (hpre.eq_of_length_le h) hproper
    have hylen := length_pos_iff.mpr hne
    refine hmax y.length (by omega) (le_min hs.length_le (by omega)) ?_
    rw [lastOf_length_of_suffix hs]
    exact prefix_iff_eq_take.mp hpre
  have htext : n ≤ text.length := by omega
  have hpat : n < pattern.length := by omega
  have hlast : (lastOf text n).length = n := by
    simp [lastOf]
    omega
  refine Or.inr ⟨⟨?_, ?_, ?_⟩, hlast⟩
  · intro hnil
    rw [hnil] at hlast
    simp at hlast
    omega
  · rw [hmatch hpos]
    exact take_prefix _ _
  intro hself
  rw [hself] at hlast
  omega

/-- The beginning of a tag that the visible text ends with. -/
def held (T : Tags UInt8) (text : Text) : Text :=
  lastOf text (longestTagCarry text T.opening T.closing)

/-- The beginning of a close tag that the text ends with. -/
def heldClose (T : Tags UInt8) (text : Text) : Text :=
  lastOf text (longestPrefixSuffixMatch text T.closing)

theorem lastOf_zero (text : Text) : lastOf text 0 = [] := by simp [lastOf]

theorem held_spec (T : Tags UInt8) (text : Text) :
    (held T text = [] ∧ ∀ y, T.IsBeginning y → ¬ y <:+ text) ∨ T.IsBeginning (held T text) := by
  unfold held longestTagCarry
  rcases longestPrefixSuffixMatch_spec text T.opening with ⟨ho, hno⟩ | ⟨ho, holen⟩
  · rcases longestPrefixSuffixMatch_spec text T.closing with ⟨hc, hnc⟩ | ⟨hc, hclen⟩
    · rw [ho, hc]
      refine Or.inl ⟨lastOf_zero text, fun y hy => ?_⟩
      rcases hy with hy | hy
      · exact hno y hy
      · exact hnc y hy
    rw [ho, Nat.zero_max]
    exact Or.inr (Or.inr hc)
  rcases longestPrefixSuffixMatch_spec text T.closing with ⟨hc, hnc⟩ | ⟨hc, hclen⟩
  · rw [hc, Nat.max_zero]
    exact Or.inr (Or.inl ho)
  -- both carries start at the last mark of the text, so they are one
  have heq := Tags.IsBeginning.eq_of_suffix (T := T) (Or.inl ho) (Or.inr hc)
    (lastOf_suffix _ _) (lastOf_suffix _ _)
  rw [← holen, ← hclen, heq, Nat.max_self, hclen]
  exact Or.inr (Or.inr hc)

theorem held_suffix (T : Tags UInt8) (text : Text) : held T text <:+ text := lastOf_suffix _ _

theorem held_eq_of_suffix (hy : T.IsBeginning y) (h : y <:+ text) : held T text = y := by
  rcases held_spec T text with ⟨-, hno⟩ | hheld
  · exact absurd h (hno y hy)
  · exact hheld.eq_of_suffix hy (held_suffix T text) h

theorem heldClose_spec (T : Tags UInt8) (text : Text) :
    (heldClose T text = [] ∧ ∀ y, Tags.Begins T.closing y → ¬ y <:+ text) ∨
      Tags.Begins T.closing (heldClose T text) := by
  unfold heldClose
  rcases longestPrefixSuffixMatch_spec text T.closing with ⟨hc, hnc⟩ | ⟨hc, -⟩
  · rw [hc]
    exact Or.inl ⟨lastOf_zero text, hnc⟩
  · exact Or.inr hc

theorem heldClose_suffix (T : Tags UInt8) (text : Text) : heldClose T text <:+ text :=
  lastOf_suffix _ _

theorem heldClose_eq_of_suffix (hy : Tags.Begins T.closing y) (h : y <:+ text) :
    heldClose T text = y := by
  rcases heldClose_spec T text with ⟨-, hno⟩ | hheld
  · exact absurd h (hno y hy)
  · exact Tags.IsBeginning.eq_of_suffix (Or.inr hheld) (Or.inr hy) (heldClose_suffix T text) h

/-! ### One call -/

/-- Where a call starts. -/
def TagState.mode (state : TagState) : Mode := if state.inBlock then .carried else .outside

/-- What is emitted when the beginning of a tag is held back. -/
def emitted (T : Tags UInt8) (text : Text) : Text :=
  text.take (text.length - longestTagCarry text T.opening T.closing)

theorem emitted_append_held (T : Tags UInt8) (text : Text) :
    emitted T text ++ held T text = text := take_append_drop _ _

/-- The three ways a call can end. -/
def callResult (T : Tags UInt8) (m : Mode) (current : Text) : Text × TagState :=
  match m.after (T.lex current) with
  | .outside =>
    (emitted T (m.visible (T.lex current)), ⟨false, held T (m.visible (T.lex current))⟩)
  | .carried => ([], ⟨true, heldClose T current⟩)
  | .opened => (m.visible (T.lex current), ⟨true, []⟩)

theorem finish_outside (T : Tags UInt8) (out : Text) :
    (if 0 < longestTagCarry out T.opening T.closing then
        (out.take (out.length - longestTagCarry out T.opening T.closing),
          (⟨false, out.drop (out.length - longestTagCarry out T.opening T.closing)⟩ : TagState))
      else (out, ⟨false, []⟩)) = (emitted T out, ⟨false, held T out⟩) := by
  by_cases h : 0 < longestTagCarry out T.opening T.closing
  · rw [if_pos h]
    rfl
  have hzero : longestTagCarry out T.opening T.closing = 0 := by omega
  rw [if_neg h, held, emitted, hzero, lastOf_zero]
  simp

theorem finish_left (T : Tags UInt8) {m : Mode} {current : Text}
    (hm : m.after (T.lex current) ≠ .carried) :
    (match LoopEnd.left (m.after (T.lex current)).inside (m.visible (T.lex current)) with
      | .returned pending => (([] : Text), (⟨true, pending⟩ : TagState))
      | .left true out => (out, ⟨true, []⟩)
      | .left false out =>
        let carry := longestTagCarry out T.opening T.closing
        if 0 < carry then
          (out.take (out.length - carry), ⟨false, out.drop (out.length - carry)⟩)
        else (out, ⟨false, []⟩)) = callResult T m current := by
  unfold callResult
  cases h : m.after (T.lex current) with
  | outside => exact finish_outside T _
  | carried => exact absurd h hm
  | opened => rfl

/-- **A call reads the tokens of what was pending and what is new.** -/
theorem suppressTaggedBlock_eq (T : Tags UInt8) (state : TagState) (text : Text) :
    suppressTaggedBlock T.opening T.closing state text =
      callResult T state.mode (state.pending ++ text) := by
  obtain ⟨inBlock, pending⟩ := state
  unfold suppressTaggedBlock
  dsimp only
  generalize hcur : pending ++ text = current
  by_cases hempty : current.isEmpty
  · have hnil : current = [] := List.isEmpty_iff.mp hempty
    rw [if_pos hempty, hnil]
    cases inBlock <;> rfl
  rw [if_neg hempty]
  have hpos : 0 < current.length := length_pos_iff.mpr (by simpa using hempty)
  cases inBlock with
  | false =>
    rw [suppressLoop_outside _ 0 [] current (by simp) (by omega), nil_append]
    refine finish_left T (m := .outside) ?_
    intro h
    cases (Mode.no_closing_of_after_carried h).1
  | true =>
    unfold suppressLoop
    rw [if_pos hpos, if_pos rfl, find, drop_zero]
    rcases findFirst_closing T current with ⟨hnone, hno⟩ | ⟨u, r, hsplit, hfound, hlex, hno⟩
    · -- the block does not close in this text
      obtain ⟨-, haft⟩ := Mode.visible_of_no_closing (m := .carried) rfl hno
      rw [hnone]
      show _ = callResult T .carried current
      unfold callResult
      rw [haft]
      dsimp only [map_none]
      by_cases hcarry : 0 < longestPrefixSuffixMatch current T.closing
      · rw [if_pos hcarry]
        rfl
      have hzero : longestPrefixSuffixMatch current T.closing = 0 := by omega
      rw [if_neg hcarry, heldClose, hzero, lastOf_zero]
    obtain ⟨hvis, haft⟩ := Mode.visible_of_no_closing (m := .carried) rfl hno
    have hr : current.drop (u.length + 0 + T.closing.length) = r :=
      drop_add_of_eq_append (drop_zero) hsplit
    have hlen : r.length < current.length := by
      rw [hsplit]
      simp [Tags.closing]
      omega
    rw [hfound]
    dsimp only [map_some]
    rw [suppressLoop_outside _ _ [] r hr hlen, nil_append]
    have hafter : Mode.carried.after (T.lex current) = Mode.outside.after (T.lex r) := by
      rw [hlex, Mode.after_append, haft]
      rfl
    have hvisible : Mode.carried.visible (T.lex current) = Mode.outside.visible (T.lex r) := by
      rw [hlex, Mode.visible_append, hvis, haft, Mode.visible_closing, nil_append]
    rw [← hafter, ← hvisible]
    refine finish_left T (m := .carried) ?_
    rw [hafter]
    intro h
    cases (Mode.no_closing_of_after_carried h).1

end DenseCore.Runtime
