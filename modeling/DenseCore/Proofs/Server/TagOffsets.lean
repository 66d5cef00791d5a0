/-
Tags found in the lower-case copy of a text.

`extractToolBlocks` and `splitReasoningBlocks` look for tags in `strings.ToLower` of a text
and slice the text itself at the places they find.  Where the text in front of every tag
takes as many bytes in lower case as it takes itself, the places are right.  For the blocks
of tool calls this is all there is: a block that is cut elsewhere begins behind its own
first byte, so it would have to end with an earlier closing tag.
-/
import DenseCore.Proofs.Server.LowerCase
import DenseCore.Proofs.Server.ToolReasoning

namespace DenseCore.Server

open Option hiding mem_map_of_mem

open List

open Lib (Bytes literal)
open Lib.Strings (index trimSpace Absent index_of_seam index_of_absent index_eq_none
  index_eq_some OccursAt)

variable {lower : Char → Char} {tag o c x y before body rest text lowered : Bytes}

/-! ### Tags -/

/-- The text in lower case, as far as it is ASCII. -/
def fold (s : Bytes) : Bytes := s.map lowerByte

/-- ASCII, with its first byte nowhere else. -/
structure IsTag (tag : Bytes) : Prop where
  head : ∃ t, tag = 0x3C :: t ∧ 0x3C ∉ t
  ascii : ∀ b ∈ tag, b.toNat < 0x80

theorem openCall_isTag : IsTag openCall := ⟨⟨_, rfl, by decide⟩, by decide +kernel⟩

theorem closeCall_isTag : IsTag closeCall := ⟨⟨_, rfl, by decide⟩, by decide +kernel⟩

theorem openThink_isTag : IsTag (literal "<think>") :=
  ⟨⟨_, rfl, by decide⟩, by decide +kernel⟩

theorem closeThink_isTag : IsTag (literal "</think>") :=
  ⟨⟨_, rfl, by decide⟩, by decide +kernel⟩

@[simp] theorem fold_append (x y : Bytes) : fold (x ++ y) = fold x ++ fold y := map_append

theorem fold_occurs (h : x <:+: y) : fold x <:+: fold y := by
  obtain ⟨s, t, rfl⟩ := h
  rw [fold_append, fold_append]
  exact infix_append _ _ _

@[simp] theorem length_fold (x : Bytes) : (fold x).length = x.length := length_map _

theorem IsTag.index_append (h : IsTag tag) (hx : Absent tag x) (y : Bytes) :
    index tag (x ++ (tag ++ y)) = some x.length := by
  obtain ⟨t, rfl, ht⟩ := h.head
  exact index_of_seam ht hx y

theorem IsTag.length_pos (h : IsTag tag) : 0 < tag.length := by
  obtain ⟨t, rfl, -⟩ := h.head
  exact Nat.succ_pos _

theorem toLower_spelled (h : IsTag tag) (ho : fold o = tag) (x y : Bytes) :
    toLower lower (x ++ (o ++ y)) = toLower lower x ++ (tag ++ toLower lower y) := by
  have hascii : ∀ b ∈ o, b.toNat < 0x80 := fun b hb =>
    lowerByte_lt.mp (h.ascii _ (ho ▸ mem_map_of_mem hb))
  have hhead : Lib.Utf8.AsciiHead (o ++ y) := by
    intro b hb
    cases o with
    | nil =>
      have := h.length_pos
      rw [← ho] at this
      exact absurd this (Nat.lt_irrefl 0)
    | cons a o =>
      obtain rfl : a = b := by simpa using hb
      exact hascii a mem_cons_self
  rw [toLower_append_of_head hhead, toLower_append_ascii hascii]
  exact congrArg (fun z => toLower lower x ++ (z ++ toLower lower y)) ho

theorem length_spelled (ho : fold o = tag) : o.length = tag.length := by
  rw [← ho, length_fold]

/-! ### The blocks of a text -/

/-- The successive segments from an opening tag, in any case, to the next closing tag, or to
the end of the text. -/
inductive ToolSegments : Bytes → List ToolBlock → Prop
  | none {text : Bytes} : Absent openCall (fold text) → ToolSegments text []
  | unclosed {before o body : Bytes} : Absent openCall (fold before) → fold o = openCall →
      Absent closeCall (fold body) →
        ToolSegments (before ++ (o ++ body)) [⟨o ++ body, trimSpace body, true⟩]
  | closed {before o body c rest : Bytes} {blocks : List ToolBlock} :
      Absent openCall (fold before) → fold o = openCall → Absent closeCall (fold body) →
        fold c = closeCall → ToolSegments rest blocks →
          ToolSegments (before ++ (o ++ (body ++ (c ++ rest))))
            (⟨o ++ (body ++ c), trimSpace body, false⟩ :: blocks)

/-- The text in front of every tag of a block takes as many bytes in lower case. -/
inductive EvenCalls (lower : Char → Char) : Bytes → Prop
  | none {text : Bytes} : Absent openCall (fold text) → EvenCalls lower text
  | unclosed {before o body : Bytes} : Absent openCall (fold before) → fold o = openCall →
      Absent closeCall (fold body) → (toLower lower before).length = before.length →
        EvenCalls lower (before ++ (o ++ body))
  | closed {before o body c rest : Bytes} : Absent openCall (fold before) → fold o = openCall →
      Absent closeCall (fold body) → fold c = closeCall →
        (toLower lower before).length = before.length →
          (toLower lower body).length = body.length → EvenCalls lower rest →
            EvenCalls lower (before ++ (o ++ (body ++ (c ++ rest))))

/-- What Unicode says of lower case: outside ASCII only two characters, U+0130 and U+212A,
are lowered to ASCII, to `i` and `k`. -/
def LowersToAscii (lower : Char → Char) : Prop :=
  ∀ ch : Char, 0x80 ≤ ch.toNat → (lower ch).toNat < 0x80 → lower ch = 'i' ∨ lower ch = 'k'

theorem LowersToAscii.unmade (h : LowersToAscii lower) (hascii : ∀ b ∈ tag, b.toNat < 0x80)
    (hi : 0x69 ∉ tag) (hk : 0x6B ∉ tag) : Unmade lower tag := by
  refine fun b hb => ⟨hascii b hb, fun ch hch heq => ?_⟩
  have hlt := hascii b hb
  rcases h ch hch (heq ▸ hlt) with hlow | hlow
  · rw [hlow] at heq
    obtain rfl : b = 0x69 := UInt8.toNat_inj.mp heq.symm
    exact hi hb
  rw [hlow] at heq
  obtain rfl : b = 0x6B := UInt8.toNat_inj.mp heq.symm
  exact hk hb

theorem LowersToAscii.openCall (h : LowersToAscii lower) (hx : Absent openCall (fold x)) :
    Absent openCall (toLower lower x) :=
  fun hin => hx ((h.unmade openCall_isTag.ascii (by decide) (by decide)).spelled hin)

theorem LowersToAscii.closeCall (h : LowersToAscii lower) (hx : Absent closeCall (fold x)) :
    Absent closeCall (toLower lower x) :=
  fun hin => hx ((h.unmade closeCall_isTag.ascii (by decide) (by decide)).spelled hin)

/-! ### A round of the loop -/

section Rounds

variable {fuel pos : Nat}

theorem toolBlocksFrom_none (h : Absent openCall (lowered.drop pos)) :
    toolBlocksFrom text lowered (fuel + 1) pos = some [] := by
  rw [toolBlocksFrom, index_of_absent h]

theorem toolBlocksFrom_unclosed (hlower : LowersToAscii lower)
    (hdrop : lowered.drop pos = toLower lower (before ++ (o ++ body)))
    (hbefore : Absent openCall (fold before)) (ho : fold o = openCall)
    (hbody : Absent closeCall (fold body)) :
    toolBlocksFrom text lowered (fuel + 1) pos = (do
        let full ← slice text ((toLower lower before).length + pos) text.length
        let body ← slice text ((toLower lower before).length + pos + openCall.length) text.length
        return [{ full := full, body := trimSpace body, recovered := true }]) := by
  rw [toLower_spelled openCall_isTag ho] at hdrop
  have hrest : lowered.drop ((toLower lower before).length + pos + openCall.length) =
      toLower lower body := by
    rw [Nat.add_comm _ pos, Nat.add_assoc, ← drop_drop, hdrop, ← drop_drop, drop_left, drop_left]
  rw [toolBlocksFrom, hdrop, openCall_isTag.index_append (hlower.openCall hbefore)]
  dsimp only
  rw [hrest, index_of_absent (hlower.closeCall hbody)]

theorem toolBlocksFrom_closed (text : Bytes) (fuel : Nat) (hlower : LowersToAscii lower)
    (hdrop : lowered.drop pos = toLower lower (before ++ (o ++ (body ++ (c ++ rest)))))
    (hbefore : Absent openCall (fold before)) (ho : fold o = openCall)
    (hbody : Absent closeCall (fold body)) (hc : fold c = closeCall) :
    let start := (toLower lower before).length + pos
    let stop := start + openCall.length + (toLower lower body).length
    toolBlocksFrom text lowered (fuel + 1) pos = (do
          let full ← slice text start (stop + closeCall.length)
          let body ← slice text (start + openCall.length) stop
          let blocks ← toolBlocksFrom text lowered fuel (stop + closeCall.length)
          return { full := full, body := trimSpace body } :: blocks) ∧
      lowered.drop (stop + closeCall.length) = toLower lower rest := by
  intro start stop
  rw [toLower_spelled openCall_isTag ho, toLower_spelled closeCall_isTag hc] at hdrop
  have hbodyStart : lowered.drop (start + openCall.length) =
      toLower lower body ++ (closeCall ++ toLower lower rest) := by
    show lowered.drop ((toLower lower before).length + pos + openCall.length) = _
    rw [Nat.add_comm _ pos, Nat.add_assoc, ← drop_drop, hdrop, ← drop_drop, drop_left, drop_left]
  refine ⟨?_, ?_⟩
  · rw [toolBlocksFrom, hdrop, openCall_isTag.index_append (hlower.openCall hbefore)]
    dsimp only
    rw [hbodyStart, closeCall_isTag.index_append (hlower.closeCall hbody)]
  show lowered.drop (start + openCall.length + (toLower lower body).length + closeCall.length) = _
  rw [Nat.add_assoc (start + openCall.length), ← drop_drop, hbodyStart, ← drop_drop,
    drop_left, drop_left]

theorem slice_middle (x y z : Bytes) {i j : Nat} (hi : i = x.length) (hj : j = i + y.length) :
    slice (x ++ (y ++ z)) i j = some y := by
  subst hi hj
  have hle : x.length + y.length ≤ (x ++ (y ++ z)).length := by
    simp only [length_append]
    omega
  rw [slice, if_pos ⟨Nat.le_add_right _ _, hle⟩, ← append_assoc, ← length_append,
    take_left, drop_left]

theorem slice_rest (x y : Bytes) {i : Nat} (hi : i = x.length) :
    slice (x ++ y) i (x ++ y).length = some y := by
  have h := slice_middle x y [] hi rfl
  rw [append_nil, hi, ← length_append] at h
  rwa [hi]

/-- What was cut out, in its place. -/
theorem slice_behind {pre u : Bytes} {i j : Nat} (h : slice (pre ++ text) i j = some u)
    (hi : pre.length ≤ i) :
    ∃ x y, text = x ++ (u ++ y) ∧ i = pre.length + x.length ∧ j = i + u.length := by
  obtain ⟨hij, hj, rfl⟩ := slice_eq h
  obtain ⟨d, rfl⟩ := Nat.exists_eq_add_of_le hi
  obtain ⟨k, rfl⟩ := Nat.exists_eq_add_of_le hij
  rw [length_append] at hj
  refine ⟨text.take d, text.drop (d + k), ?_, ?_, ?_⟩
  · rw [Nat.add_assoc, take_length_add_append, drop_length_add_append,
      drop_take, Nat.add_sub_cancel_left, ← drop_drop, take_append_drop,
      take_append_drop]
  · rw [length_take]
    omega
  rw [length_drop, length_take, length_append]
  omega

/-- **Where no place is shifted**, the blocks are the segments. -/
theorem EvenCalls.extract (heven : EvenCalls lower text) (hlower : LowersToAscii lower) :
    ∀ (pre : Bytes) {lowered : Bytes} {fuel : Nat}, lowered.drop pre.length = toLower lower text →
      (toLower lower text).length < fuel → ∃ blocks, ToolSegments text blocks ∧
        toolBlocksFrom (pre ++ text) lowered fuel pre.length = some blocks := by
  induction heven with
  | @none text habsent =>
    intro pre lowered fuel hdrop hfuel
    obtain ⟨n, rfl⟩ := Nat.exists_eq_add_one_of_ne_zero (Nat.ne_zero_of_lt hfuel)
    refine ⟨[], ToolSegments.none habsent, toolBlocksFrom_none ?_⟩
    rw [hdrop]
    exact hlower.openCall habsent
  | @unclosed before o body hbefore ho hbody heven =>
    intro pre lowered fuel hdrop hfuel
    obtain ⟨n, rfl⟩ := Nat.exists_eq_add_one_of_ne_zero (Nat.ne_zero_of_lt hfuel)
    refine ⟨_, ToolSegments.unclosed hbefore ho hbody, ?_⟩
    have hopen := length_spelled ho
    have hfull : slice (pre ++ (before ++ (o ++ body))) (before.length + pre.length)
        (pre ++ (before ++ (o ++ body))).length = some (o ++ body) := by
      rw [← append_assoc pre]
      exact slice_rest _ _ (by rw [length_append]; omega)
    have htail : slice (pre ++ (before ++ (o ++ body)))
        (before.length + pre.length + openCall.length)
        (pre ++ (before ++ (o ++ body))).length = some body := by
      rw [← append_assoc before, ← append_assoc pre]
      exact slice_rest _ _ (by simp only [length_append]; omega)
    rw [toolBlocksFrom_unclosed hlower hdrop hbefore ho hbody, heven, hfull, htail]
    rfl
  | @closed before o body c rest hbefore ho hbody hc heven heven' _ ih =>
    intro pre lowered fuel hdrop hfuel
    obtain ⟨n, rfl⟩ := Nat.exists_eq_add_one_of_ne_zero (Nat.ne_zero_of_lt hfuel)
    have hopen := length_spelled ho
    have hclose := length_spelled hc
    obtain ⟨hround, hnext⟩ := toolBlocksFrom_closed
      (pre ++ (before ++ (o ++ (body ++ (c ++ rest))))) n hlower hdrop hbefore ho hbody hc
    rw [heven, heven'] at hround hnext
    have hpre : before.length + pre.length + openCall.length + body.length +
        closeCall.length = (pre ++ (before ++ (o ++ (body ++ c)))).length := by
      simp only [length_append]
      omega
    have htext : pre ++ (before ++ (o ++ (body ++ (c ++ rest)))) =
        pre ++ (before ++ (o ++ (body ++ c))) ++ rest := by simp
    have hfull : slice (pre ++ (before ++ (o ++ (body ++ (c ++ rest)))))
        (before.length + pre.length) (pre ++ (before ++ (o ++ (body ++ c)))).length =
          some (o ++ (body ++ c)) := by
      rw [show pre ++ (before ++ (o ++ (body ++ (c ++ rest)))) =
        pre ++ before ++ (o ++ (body ++ c) ++ rest) by simp]
      refine slice_middle _ _ _ ?_ ?_ <;> simp only [length_append] <;> omega
    have hmiddle : slice (pre ++ (before ++ (o ++ (body ++ (c ++ rest)))))
        (before.length + pre.length + openCall.length)
        (before.length + pre.length + openCall.length + body.length) = some body := by
      rw [show pre ++ (before ++ (o ++ (body ++ (c ++ rest)))) =
        pre ++ (before ++ o) ++ (body ++ (c ++ rest)) by simp]
      refine slice_middle _ _ _ ?_ rfl
      simp only [length_append]
      omega
    rw [hpre] at hround hnext
    have hshorter : (toLower lower rest).length < n := by
      rw [toLower_spelled openCall_isTag ho, toLower_spelled closeCall_isTag hc] at hfuel
      have := openCall_isTag.length_pos
      simp only [length_append] at hfuel
      omega
    obtain ⟨blocks, hsegments, hblocks⟩ := ih _ hnext hshorter
    rw [← htext] at hblocks
    refine ⟨_, ToolSegments.closed hbefore ho hbody hc hsegments, ?_⟩
    rw [hround, hfull, hmiddle, hblocks]
    rfl

end Rounds

/-! ### A block that is cut elsewhere

The tags are searched in a lower case copy. Where the copy has another length, its offsets may end
a block elsewhere, or lie past the end of the text.
-/

theorem IsTag.first_le (h : IsTag tag) (hbefore : Absent tag (fold before)) {o' u v : Bytes}
    (ho : fold o = tag) (ho' : fold o' = tag) (heq : before ++ (o ++ u) = x ++ (o' ++ v)) :
    before.length ≤ x.length := by
  have hindex := h.index_append hbefore (fold u)
  have hfold := congrArg fold heq
  simp only [fold_append, ho, ho'] at hfold
  rw [hfold, length_fold] at hindex
  by_contra hlt
  refine (index_eq_some hindex).2 x.length (Nat.lt_of_not_le hlt) ?_
  rw [OccursAt, ← length_fold x, drop_left]
  exact prefix_append tag _

theorem absent_closeCall (ho : fold o = openCall) (hbody : Absent closeCall (fold body)) :
    Absent closeCall (fold (o ++ body)) := by
  rw [fold_append, ho]
  intro hin
  rcases infix_append_iff.mp hin with h | h | ⟨p, q, hpq, hp, hq⟩
  · exact absurd h.length_le (by decide)
  · exact hbody h
  cases p with
  | nil => exact hbody (by rw [hpq]; exact hq.isInfix)
  | cons a p =>
    obtain ⟨rfl, -⟩ := List.cons.inj hpq
    rcases suffix_cons_iff.mp hp with heq | hp
    · have hpre : openCall <+: closeCall := ⟨q, by rw [hpq, heq]; rfl⟩
      exact absurd (List.isPrefixOf_iff_prefix.mpr hpre) (by decide)
    · exact absurd (hp.subset mem_cons_self) (by decide)

theorem block_not_shifted {z w w' : Bytes} (ho : fold o = openCall)
    (hbody : Absent closeCall (fold body)) (hc : fold c = closeCall) (hz : z ≠ []) (hw : w ≠ [])
    (hsuffix : o ++ (body ++ c) = z ++ w) (hfront : o ++ (body ++ c) = w ++ w') : False := by
  have hmark : 0x3C ∈ fold w := by
    obtain ⟨b, w, rfl⟩ := exists_cons_of_ne_nil hw
    have hfold := congrArg fold hfront
    rw [fold_append, ho, fold_append] at hfold
    show 0x3C ∈ lowerByte b :: fold w
    rw [show lowerByte b = 0x3C from (List.cons.inj hfold).1.symm]
    exact mem_cons_self
  rw [← append_assoc] at hsuffix hfront
  have hcw : c <:+ o ++ body ++ c := suffix_append _ c
  have hww : w <:+ o ++ body ++ c := ⟨z, hsuffix.symm⟩
  rcases Nat.lt_or_ge w.length c.length with hlt | hge
  · obtain ⟨s, rfl⟩ := suffix_of_suffix_length_le hww hcw hlt.le
    obtain ⟨b, s, rfl⟩ := exists_cons_of_ne_nil (show s ≠ [] by
      rintro rfl
      exact Nat.lt_irrefl _ hlt)
    rw [cons_append] at hc
    have htail : fold (s ++ w) = closeCall.tail := (List.cons.inj hc).2
    rw [fold_append] at htail
    exact absurd (htail ▸ mem_append_right (fold s) hmark) (by decide)
  obtain ⟨w₁, rfl⟩ := suffix_of_suffix_length_le hcw hww hge
  have hle := closeCall_isTag.first_le (absent_closeCall ho hbody) hc hc
    (u := []) (v := w') (x := w₁) (by rw [append_nil, hfront, append_assoc])
  have hlength := congrArg List.length hsuffix
  have hpos := length_pos_of_ne_nil hz
  simp only [length_append] at hlength hle
  omega

/-- **A block found elsewhere** is behind its own place, and another opening tag is between
its end and the end of what was found. -/
theorem block_place (hbefore : Absent openCall (fold before)) (ho : fold o = openCall)
    (hbody : Absent closeCall (fold body)) (hc : fold c = closeCall)
    (heq : before ++ (o ++ (body ++ c) ++ rest) = x ++ (o ++ (body ++ c) ++ y))
    (hlater : Absent openCall (fold (rest.take (x.length - before.length)))) :
    before.length = x.length := by
  have hle : before.length ≤ x.length :=
    openCall_isTag.first_le hbefore ho ho (by simpa only [append_assoc] using heq)
  have hinside : ∀ {w : Bytes}, o ++ (body ++ c) <:+: w → ¬ Absent openCall (fold w) := by
    intro w hw habsent
    refine habsent (ho ▸ fold_occurs ?_)
    exact (prefix_append o _).isInfix.trans hw
  generalize hblock : o ++ (body ++ c) = block at heq hinside
  rcases append_eq_append_iff.mp heq with ⟨z, rfl, hz⟩ | ⟨z, rfl, -⟩
  · rw [length_append, Nat.add_sub_cancel_left] at hlater
    by_cases hne : z = []
    · rw [hne, append_nil]
    exfalso
    have hbehind : ∀ {w v : Bytes}, rest = w ++ (block ++ v) →
        z.length = (w ++ block).length → False := by
      intro w v hrest hlength
      refine hinside ?_ hlater
      rw [hrest, hlength, ← append_assoc, take_left]
      exact (suffix_append w _).isInfix
    rcases append_eq_append_iff.mp hz with ⟨w, rfl, hrest⟩ | ⟨w, hw, hrest⟩
    · refine hbehind hrest ?_
      rw [length_append, length_append, Nat.add_comm]
    by_cases hwn : w = []
    · subst hwn
      rw [append_nil] at hw
      have hfront : rest = [] ++ (block ++ y) := hrest.symm
      exact hbehind hfront (by rw [hw, nil_append])
    rcases append_eq_append_iff.mp hrest with ⟨v, hv, -⟩ | ⟨v, hv, -⟩
    · have hlength := congrArg List.length hw
      have hlonger := congrArg List.length hv
      have hpos := length_pos_of_ne_nil hne
      rw [length_append] at hlength hlonger
      omega
    · exact block_not_shifted ho hbody hc hne hwn (hblock.trans hw) (hblock.trans hv)
  · rw [length_append] at hle ⊢
    omega

/-- **Blocks that are the segments were cut at their places**, wherever the loop stands. -/
theorem ToolSegments.even {blocks : List ToolBlock} (hsegments : ToolSegments text blocks)
    (hlower : LowersToAscii lower) :
    ∀ (pre : Bytes) {lowered : Bytes} {fuel pos : Nat}, pre.length ≤ pos →
      lowered.drop pos = toLower lower text → (toLower lower text).length < fuel →
        toolBlocksFrom (pre ++ text) lowered fuel pos = some blocks →
          (pos = pre.length → EvenCalls lower text) ∧
            Absent openCall (fold (text.take (pos - pre.length))) := by
  induction hsegments with
  | @none text habsent =>
    intro pre lowered fuel pos _ _ _ _
    exact ⟨fun _ => EvenCalls.none habsent,
      habsent.of_infix (fold_occurs (List.take_prefix _ text).isInfix)⟩
  | @unclosed before o body hbefore ho hbody =>
    intro pre lowered fuel pos hpos hdrop hfuel hblocks
    obtain ⟨n, rfl⟩ := Nat.exists_eq_add_one_of_ne_zero (Nat.ne_zero_of_lt hfuel)
    rw [toolBlocksFrom_unclosed hlower hdrop hbefore ho hbody] at hblocks
    obtain ⟨full, hfull, hblocks⟩ := bind_eq_some_iff.mp hblocks
    obtain ⟨body', hbody', hblocks⟩ := bind_eq_some_iff.mp hblocks
    obtain ⟨hblock, -⟩ := List.cons.inj (some.inj hblocks)
    obtain rfl : full = o ++ body := congrArg ToolBlock.full hblock
    obtain ⟨hle, hrest⟩ := slice_back hfull
    have hlength := congrArg List.length hrest
    have hplace : (toLower lower before).length + pos = pre.length + before.length := by
      have := openCall_isTag.length_pos
      have := length_spelled ho
      simp only [length_append, length_drop] at hlength hle
      omega
    refine ⟨fun heq => EvenCalls.unclosed hbefore ho hbody (by omega), ?_⟩
    rw [take_append_of_le_length (by omega)]
    exact hbefore.of_infix (fold_occurs (List.take_prefix _ before).isInfix)
  | @closed before o body c rest blocks hbefore ho hbody hc _ ih =>
    intro pre lowered fuel pos hpos hdrop hfuel hblocks
    obtain ⟨n, rfl⟩ := Nat.exists_eq_add_one_of_ne_zero (Nat.ne_zero_of_lt hfuel)
    obtain ⟨hround, hnext⟩ := toolBlocksFrom_closed
      (pre ++ (before ++ (o ++ (body ++ (c ++ rest))))) n hlower hdrop hbefore ho hbody hc
    rw [hround] at hblocks
    obtain ⟨full, hfull, hblocks⟩ := bind_eq_some_iff.mp hblocks
    obtain ⟨body', hbody', hblocks⟩ := bind_eq_some_iff.mp hblocks
    obtain ⟨blocks', hlater, hblocks⟩ := bind_eq_some_iff.mp hblocks
    obtain ⟨hblock, rfl⟩ := List.cons.inj (some.inj hblocks)
    obtain rfl : full = o ++ (body ++ c) := congrArg ToolBlock.full hblock
    obtain ⟨x, y, htext, hplace, hend⟩ := slice_behind hfull (by omega)
    have hbefore_le := openCall_isTag.first_le hbefore ho ho
      (by simpa only [append_assoc] using htext)
    have hpre : pre ++ (before ++ (o ++ (body ++ (c ++ rest)))) =
        pre ++ (before ++ (o ++ (body ++ c))) ++ rest := by simp
    have hopen := length_spelled ho
    have hclose := length_spelled hc
    have hshorter : (toLower lower rest).length < n := by
      rw [toLower_spelled openCall_isTag ho, toLower_spelled closeCall_isTag hc] at hfuel
      have := openCall_isTag.length_pos
      simp only [length_append] at hfuel
      omega
    rw [hpre] at hlater
    obtain ⟨heven, habsent⟩ := ih _ (by simp only [length_append] at hend ⊢; omega)
      hnext hshorter hlater
    have hbehind : (toLower lower before).length + pos + openCall.length +
        (toLower lower body).length + closeCall.length -
          (pre ++ (before ++ (o ++ (body ++ c)))).length = x.length - before.length := by
      simp only [length_append] at hend ⊢
      omega
    rw [hbehind] at habsent
    have hshift := block_place hbefore ho hbody hc
      (by simpa only [append_assoc] using htext) habsent
    simp only [length_append] at hend heven
    refine ⟨fun heq => EvenCalls.closed hbefore ho hbody hc (by omega) (by omega)
      (heven (by omega)), ?_⟩
    rw [take_append_of_le_length (by omega)]
    exact hbefore.of_infix (fold_occurs (List.take_prefix _ before).isInfix)

/-! ### Thoughts -/

/-- The successive pieces of a text outside and inside its thoughts, whose tags are in any
case.  The last thought may be unclosed. -/
inductive ThinkSegments : Bytes → List Bytes → List Bytes → Prop
  | none {text : Bytes} : Absent (literal "<think>") (fold text) → ThinkSegments text [text] []
  | unclosed {before o body : Bytes} : Absent (literal "<think>") (fold before) →
      fold o = literal "<think>" → Absent (literal "</think>") (fold body) →
        ThinkSegments (before ++ (o ++ body)) [before] [body]
  | closed {before o body c rest : Bytes} {outs ins : List Bytes} :
      Absent (literal "<think>") (fold before) → fold o = literal "<think>" →
        Absent (literal "</think>") (fold body) → fold c = literal "</think>" →
          ThinkSegments rest outs ins →
            ThinkSegments (before ++ (o ++ (body ++ (c ++ rest)))) (before :: outs) (body :: ins)

/-- The text in front of every tag of a thought takes as many bytes in lower case, and does
not get a tag there. -/
inductive EvenThink (lower : Char → Char) : Bytes → Prop
  | none {text : Bytes} : Absent (literal "<think>") (toLower lower text) → EvenThink lower text
  | unclosed {before o body : Bytes} : Absent (literal "<think>") (toLower lower before) →
      fold o = literal "<think>" → Absent (literal "</think>") (toLower lower body) →
        (toLower lower before).length = before.length → EvenThink lower (before ++ (o ++ body))
  | closed {before o body c rest : Bytes} : Absent (literal "<think>") (toLower lower before) →
      fold o = literal "<think>" → Absent (literal "</think>") (toLower lower body) →
        fold c = literal "</think>" → (toLower lower before).length = before.length →
          (toLower lower body).length = body.length → EvenThink lower rest →
            EvenThink lower (before ++ (o ++ (body ++ (c ++ rest))))

theorem IsTag.absent_fold (h : IsTag tag) (hx : Absent tag (toLower lower x)) :
    Absent tag (fold x) := by
  rintro ⟨u, v, huv⟩
  obtain ⟨y, z, rfl, hy, -⟩ := map_eq_append_iff.mp huv.symm
  obtain ⟨w, o, rfl, -, ho⟩ := map_eq_append_iff.mp hy
  refine hx ⟨toLower lower w, toLower lower z, ?_⟩
  rw [append_assoc, append_assoc, toLower_spelled h ho]

theorem slice_zero (x y : Bytes) : slice (x ++ y) 0 x.length = some x :=
  slice_middle [] x y rfl (Nat.zero_add _).symm

/-- **Where no tag is shifted**, the pieces are written as they are. -/
theorem EvenThink.split (heven : EvenThink lower text) :
    ∀ {fuel : Nat} (acc : ReasoningSplit), text.length < fuel → ∃ outs ins,
      ThinkSegments text outs ins ∧ splitReasoningLoop lower fuel text acc =
        some ⟨acc.content ++ outs.flatten, ins.foldl addReasoning acc.reasoning⟩ := by
  induction heven with
  | @none text habsent =>
    intro fuel acc hfuel
    obtain ⟨n, rfl⟩ := Nat.exists_eq_add_one_of_ne_zero (Nat.ne_zero_of_lt hfuel)
    refine ⟨[text], [], ThinkSegments.none (openThink_isTag.absent_fold habsent), ?_⟩
    rw [splitReasoningLoop, index_of_absent habsent, flatten_singleton]
    rfl
  | @unclosed before o body hbefore ho hbody heven =>
    intro fuel acc hfuel
    obtain ⟨n, rfl⟩ := Nat.exists_eq_add_one_of_ne_zero (Nat.ne_zero_of_lt hfuel)
    refine ⟨[before], [body], ThinkSegments.unclosed (openThink_isTag.absent_fold hbefore) ho
      (closeThink_isTag.absent_fold hbody), ?_⟩
    have hopen : before.length + 7 = (before ++ o).length := by
      rw [length_append, length_spelled ho]
      rfl
    have htail : slice (before ++ (o ++ body)) (before.length + 7)
        (before ++ (o ++ body)).length = some body := by
      rw [← append_assoc]
      exact slice_rest _ _ hopen
    rw [splitReasoningLoop, toLower_spelled openThink_isTag ho,
      openThink_isTag.index_append hbefore, heven]
    dsimp only
    rw [slice_zero, htail]
    dsimp only [bind, Option.bind]
    rw [index_of_absent hbody, flatten_singleton]
    rfl
  | @closed before o body c rest hbefore ho hbody hc heven heven' _ ih =>
    intro fuel acc hfuel
    obtain ⟨n, rfl⟩ := Nat.exists_eq_add_one_of_ne_zero (Nat.ne_zero_of_lt hfuel)
    have hopen : before.length + 7 = (before ++ o).length := by
      rw [length_append, length_spelled ho]
      rfl
    have hclose : body.length + 8 = (body ++ c).length := by
      rw [length_append, length_spelled hc]
      rfl
    have htail : slice (before ++ (o ++ (body ++ (c ++ rest)))) (before.length + 7)
        (before ++ (o ++ (body ++ (c ++ rest)))).length = some (body ++ (c ++ rest)) := by
      rw [← append_assoc before]
      exact slice_rest _ _ hopen
    have hnext : slice (body ++ (c ++ rest)) (body.length + 8) (body ++ (c ++ rest)).length =
        some rest := by
      rw [← append_assoc]
      exact slice_rest _ _ hclose
    have hshorter : rest.length < n := by
      simp only [length_append] at hfuel hopen
      omega
    obtain ⟨outs, ins, hsegments, hsplit⟩ := ih ⟨acc.content ++ before,
      addReasoning acc.reasoning body⟩ hshorter
    refine ⟨before :: outs, body :: ins, ThinkSegments.closed
      (openThink_isTag.absent_fold hbefore) ho (closeThink_isTag.absent_fold hbody) hc
      hsegments, ?_⟩
    rw [splitReasoningLoop, toLower_spelled openThink_isTag ho,
      openThink_isTag.index_append hbefore, heven]
    dsimp only
    rw [slice_zero, htail]
    dsimp only [bind, Option.bind]
    rw [toLower_spelled closeThink_isTag hc, closeThink_isTag.index_append hbody, heven']
    dsimp only
    rw [slice_zero, hnext]
    dsimp only
    rw [hsplit, flatten_cons, append_assoc]
    rfl

/-- **The blocks are the segments of the text** just where the text in front of every tag of
a block takes as many bytes in lower case as it takes; and where that is so of the tags of
its thoughts, none of which is made by lower case, content and reasoning are the bytes
outside and inside them. -/
theorem extractToolBlocks_segments_iff (hlower : LowersToAscii lower) (text : Bytes) :
    ((∃ blocks, ToolSegments text blocks ∧ extractToolBlocks lower text = some blocks) ↔
        EvenCalls lower text) ∧
      (EvenThink lower text → ∃ outs ins, ThinkSegments text outs ins ∧
        splitReasoningBlocks lower text =
          some ⟨trimSpace outs.flatten, trimSpace (ins.foldl addReasoning [])⟩) := by
  refine ⟨⟨?_, fun heven => ?_⟩, fun heven => ?_⟩
  · rintro ⟨blocks, hsegments, hblocks⟩
    have hloop := hsegments.even hlower [] (Nat.le_refl 0) drop_zero
      (Nat.lt_succ_self _) hblocks
    exact hloop.1 rfl
  · exact heven.extract hlower [] drop_zero (Nat.lt_succ_self _)
  obtain ⟨outs, ins, hsegments, hsplit⟩ := heven.split ⟨[], []⟩
    (Nat.lt_succ_self text.length)
  refine ⟨outs, ins, hsegments, ?_⟩
  rw [splitReasoningBlocks, hsplit]
  rfl

theorem ToolSegments.fold_full {blocks : List ToolBlock} (h : ToolSegments text blocks) :
    ∀ full ∈ blocks.map ToolBlock.full, openCall <+: fold full := by
  have hblock : ∀ {o body : Bytes}, fold o = openCall → openCall <+: fold (o ++ body) := by
    intro o body ho
    rw [fold_append, ho]
    exact prefix_append openCall _
  induction h with
  | none _ => exact fun full hfull => absurd hfull (by simp)
  | unclosed _ ho _ =>
    intro full hfull
    obtain rfl := mem_singleton.mp hfull
    exact hblock ho
  | closed _ ho _ _ _ ih =>
    intro full hfull
    rcases mem_cons.mp hfull with rfl | hfull
    · exact hblock ho
    · exact ih full hfull

/-- Three rows of the Unicode table. -/
def someLower (ch : Char) : Char :=
  if ch.toNat = 0x130 then 'i'
  else if ch.toNat = 0x212A then 'k'
  else if ch.toNat = 0x23A then Char.ofNat 0x2C65
  else ch

theorem someLower_lowersToAscii : LowersToAscii someLower := by
  intro ch hch hlow
  unfold someLower at hlow ⊢
  split
  · exact Or.inl rfl
  split
  · exact Or.inr rfl
  exfalso
  rw [if_neg ‹_›, if_neg ‹_›] at hlow
  split at hlow
  · exact absurd hlow (by decide)
  · omega

/-- A thought and a call behind two bytes of one character. -/
theorem accented_tags_found :
    let text : Bytes := [0xC3, 0xA9] ++ literal "<think>a</think>b<Tool_Call>x</tool_call>"
    (∃ blocks, ToolSegments text blocks ∧ extractToolBlocks someLower text = some blocks) ∧
      ∃ outs ins, ThinkSegments text outs ins ∧ splitReasoningBlocks someLower text =
        some ⟨trimSpace outs.flatten, trimSpace (ins.foldl addReasoning [])⟩ := by
  intro text
  obtain ⟨hcalls, hthink⟩ := extractToolBlocks_segments_iff someLower_lowersToAscii text
  refine ⟨hcalls.mpr ?_, hthink ?_⟩
  · have htext : text = ([0xC3, 0xA9] ++ literal "<think>a</think>b") ++
        (literal "<Tool_Call>" ++ (literal "x" ++ (literal "</tool_call>" ++ []))) := by
      decide +kernel
    rw [htext]
    exact EvenCalls.closed (index_eq_none (by decide +kernel)) (by decide +kernel)
      (index_eq_none (by decide +kernel)) (by decide +kernel) (by decide +kernel)
      (by decide +kernel) (EvenCalls.none (index_eq_none (by decide +kernel)))
  have htext : text = [0xC3, 0xA9] ++ (literal "<think>" ++ (literal "a" ++
      (literal "</think>" ++ literal "b<Tool_Call>x</tool_call>"))) := by
    decide +kernel
  rw [htext]
  exact EvenThink.closed (index_eq_none (by decide +kernel)) (by decide +kernel)
    (index_eq_none (by decide +kernel)) (by decide +kernel) (by decide +kernel)
    (by decide +kernel) (EvenThink.none (index_eq_none (by decide +kernel)))

/-- Behind `İ`, which is one byte shorter in lower case, a block is cut one byte early; behind
letters that grow in lower case the cut is out of range. -/
theorem dotted_capital_shifts_block :
    (¬ ∃ blocks, ToolSegments ([0xC4, 0xB0] ++ literal "<tool_call>x</tool_call>") blocks ∧
        extractToolBlocks someLower ([0xC4, 0xB0] ++ literal "<tool_call>x</tool_call>") =
          some blocks) ∧
      extractToolBlocks someLower
        ((replicate 12 [0xC8, 0xBA]).flatten ++ literal "<tool_call>") = none ∧
      splitReasoningBlocks someLower
        ((replicate 8 [0xC8, 0xBA]).flatten ++ literal "<think>") = none ∧
      (splitReasoningBlocks someLower ([0xC4, 0xB0] ++ literal "<think>a</think>")).map
          ReasoningSplit.reasoning = some (literal ">a") := by
  refine ⟨?_, by decide +kernel, by decide +kernel, by decide +kernel⟩
  rintro ⟨blocks, hsegments, hblocks⟩
  have hfull : (extractToolBlocks someLower
      ([0xC4, 0xB0] ++ literal "<tool_call>x</tool_call>")).map (List.map ToolBlock.full) =
        some [0xB0 :: literal "<tool_call>x</tool_call"] := by decide +kernel
  rw [hblocks] at hfull
  have hmem : 0xB0 :: literal "<tool_call>x</tool_call" ∈ blocks.map ToolBlock.full := by
    rw [some.inj hfull]
    exact mem_singleton_self _
  have hspelled := isPrefixOf_iff_prefix.mpr (hsegments.fold_full _ hmem)
  exact absurd hspelled (by decide +kernel)

end DenseCore.Server
