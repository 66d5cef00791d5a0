/-
Streaming a Qwen 3.6 answer gives what splitting it gives.

After any number of chunks the filter is in one of two states, `Streamed`.  Either
no close tag has arrived, and it holds all the text so far without the open tag; or
the first close tag has, and what it has sent on and what it still holds are the
text behind it, less blanks at its front.  At the end the filter sees the buffer
that the split sees.
-/
import DenseCore.Server.QwenStream

namespace DenseCore.Server

open Lib (Bytes)
open Lib.Strings Option

/-- `<think>` occurs at most once, and only at the front. -/
def ThinkOnlyFirst (text : Bytes) : Prop := ∀ i, OccursAt openTag text i → i = 0

/-! ### The open tag -/

theorem openTag_ne_nil : openTag ≠ [] := by decide

theorem ThinkOnlyFirst.of_prefix {u text : Bytes} (h : ThinkOnlyFirst text) (hu : u <+: text) :
    ThinkOnlyFirst u := by
  obtain ⟨t, rfl⟩ := hu
  intro i ⟨v, hv⟩
  by_cases hi : i ≤ u.length
  · refine h i ⟨v ++ t, ?_⟩
    rw [List.drop_append_of_le_length hi, ← hv, List.append_assoc]
  rw [List.drop_eq_nil_of_le (by omega)] at hv
  exact absurd (List.append_eq_nil_iff.mp hv).1 openTag_ne_nil

theorem ThinkOnlyFirst.absent_rest {s : Bytes} (h : ThinkOnlyFirst (openTag ++ s)) :
    Absent openTag s := by
  refine absent_iff_not_occursAt.mpr fun i hi => ?_
  have hocc : OccursAt openTag (openTag ++ s) (openTag.length + i) := by
    show openTag <+: List.drop (openTag.length + i) (openTag ++ s)
    rw [List.drop_append, List.drop_eq_nil_of_le (by omega), List.nil_append,
      Nat.add_sub_cancel_left]
    exact hi
  have := h _ hocc
  have hlen : openTag.length = 7 := rfl
  omega

theorem ThinkOnlyFirst.absent {s : Bytes} (h : ThinkOnlyFirst s) (hno : ¬ openTag <+: s) :
    Absent openTag s := by
  refine absent_iff_not_occursAt.mpr fun i hi => ?_
  rw [h i hi] at hi
  exact hno hi

theorem removeAll_trimPrefix {u t : Bytes} (h : ThinkOnlyFirst (u ++ t)) :
    removeAll openTag (trimPrefix openTag u ++ t) = trimPrefix openTag (u ++ t) := by
  by_cases hu : openTag <+: u
  · obtain ⟨s, rfl⟩ := hu
    rw [List.append_assoc] at h
    rw [trimPrefix_append, List.append_assoc, trimPrefix_append, removeAll_of_absent h.absent_rest]
  rw [trimPrefix_unchanged hu]
  by_cases hut : openTag <+: u ++ t
  · obtain ⟨s, hs⟩ := hut
    rw [← hs] at h ⊢
    rw [trimPrefix_append, removeAll_of_prefix openTag_ne_nil h.absent_rest]
  · rw [trimPrefix_unchanged hut, removeAll_of_absent (h.absent hut)]

theorem trimPrefix_openTag_append {u : Bytes} (hlen : openTag.length ≤ u.length) (t : Bytes) :
    trimPrefix openTag (u ++ t) = trimPrefix openTag u ++ t := by
  by_cases hu : openTag <+: u
  · obtain ⟨s, rfl⟩ := hu
    rw [trimPrefix_append, List.append_assoc, trimPrefix_append]
  have hut : ¬ openTag <+: u ++ t := fun hp =>
    hu (List.prefix_of_prefix_length_le hp (List.prefix_append u t) hlen)
  rw [trimPrefix_unchanged hu, trimPrefix_unchanged hut]

theorem length_trimPrefix_le (u : Bytes) : (trimPrefix openTag u).length ≤ u.length := by
  unfold trimPrefix
  split
  · simp
  · exact Nat.le_refl _

/-! ### The close tag -/

theorem index_closeTag_openTag_append (s : Bytes) :
    index closeTag (openTag ++ s) = (index closeTag s).map (· + openTag.length) := by
  have hopen : openTag ++ s = 60 :: 116 :: 104 :: 105 :: 110 :: 107 :: 62 :: s := rfl
  have hclose : closeTag = 60 :: 47 :: 116 :: 104 :: 105 :: 110 :: 107 :: 62 :: [] := rfl
  have hlen : openTag.length = 7 := rfl
  rw [hopen, hclose, hlen]
  simp only [index, List.isPrefixOf]
  cases index [60, 47, 116, 104, 105, 110, 107, 62] s <;> simp

theorem index_closeTag_trimPrefix (text : Bytes) :
    (index closeTag text).map (fun idx => trimPrefix openTag (text.take idx)) =
        (index closeTag (trimPrefix openTag text)).map
          (fun idx => (trimPrefix openTag text).take idx) ∧
      (index closeTag text).map (fun idx => text.drop (idx + closeTag.length)) =
        (index closeTag (trimPrefix openTag text)).map
          (fun idx => (trimPrefix openTag text).drop (idx + closeTag.length)) := by
  by_cases hopen : openTag <+: text
  · obtain ⟨s, rfl⟩ := hopen
    rw [index_closeTag_openTag_append, trimPrefix_append]
    cases hidx : index closeTag s with
    | none => exact ⟨rfl, rfl⟩
    | some idx =>
      simp only [map_some, some.injEq]
      constructor
      · rw [Nat.add_comm, List.take_length_add_append, trimPrefix_append]
      rw [show idx + openTag.length + closeTag.length =
        openTag.length + (idx + closeTag.length) by omega, List.drop_length_add_append]
  rw [trimPrefix_unchanged hopen]
  refine ⟨?_, rfl⟩
  cases hidx : index closeTag text with
  | none => rfl
  | some idx =>
    have htake : ¬ openTag <+: text.take idx := fun hp =>
      hopen (hp.trans (List.take_prefix idx text))
    simp only [map_some]
    rw [trimPrefix_unchanged htake]

/-! ### What the filter has done so far -/

namespace Qwen36StreamFilter

theorem flushContentPending_spec (f : Qwen36StreamFilter) (flush : Bool) :
    (f.flushContentPending flush).1 ++ (f.flushContentPending flush).2.pending = f.pending ∧
      (f.flushContentPending flush).2.inReasoning = f.inReasoning := by
  unfold flushContentPending
  split
  · simp
  · simp

/-- The filter after the text `u`, having sent `out`. -/
inductive Streamed (u : Bytes) (out : Bytes × Bytes) (f : Qwen36StreamFilter) : Prop
  /-- no close tag yet: everything is held back, without the open tag -/
  | reasoning (mode : f.inReasoning = true) (held : f.pending = trimPrefix openTag u)
      (unclosed : Absent closeTag (trimPrefix openTag u)) (sent : out = ([], []))
  /-- the first close tag is at `idx`; behind it are blanks, the content that was
  sent and the content that is held -/
  | content (mode : f.inReasoning = false) (idx : Nat) (blanks : Bytes)
      (found : index closeTag (trimPrefix openTag u) = some idx)
      (blank : IsBlank blanks)
      (behind : (trimPrefix openTag u).drop (idx + closeTag.length) =
        blanks ++ (out.1 ++ f.pending))
      (sent : out.2 = trimSpace ((trimPrefix openTag u).take idx))

theorem isBlank_asciiBlanks : IsBlank asciiBlanks := by
  unfold IsBlank
  decide +kernel

/-- One chunk. -/
theorem Streamed.filter {u t : Bytes} {out : Bytes × Bytes} {f : Qwen36StreamFilter}
    (h : Streamed u out f) (htext : ThinkOnlyFirst (u ++ t)) :
    Streamed (u ++ t) (out.1 ++ (f.filter t).1.1, out.2 ++ (f.filter t).1.2) (f.filter t).2 := by
  by_cases ht : t = []
  · subst ht
    simpa [Qwen36StreamFilter.filter] using h
  cases h with
  | reasoning hmode hheld hunclosed hsent =>
    subst hsent
    have hremove : removeAll openTag (f.pending ++ t) = trimPrefix openTag (u ++ t) := by
      rw [hheld, removeAll_trimPrefix htext]
    simp only [Qwen36StreamFilter.filter, if_neg ht, hmode, if_true, filterReasoningPending,
      hremove, List.nil_append]
    cases hidx : index closeTag (trimPrefix openTag (u ++ t)) with
    | none => exact Streamed.reasoning rfl rfl (index_eq_none hidx) rfl
    | some idx =>
      obtain ⟨blanks, hblank, hrest⟩ := exists_trimLeft isBlank_asciiBlanks
        ((trimPrefix openTag (u ++ t)).drop (idx + closeTag.length))
      obtain ⟨hkept, hmode'⟩ := flushContentPending_spec
        { inReasoning := false
          pending := trimLeft asciiBlanks
            ((trimPrefix openTag (u ++ t)).drop (idx + closeTag.length)) } false
      refine Streamed.content hmode' idx blanks hidx hblank ?_ rfl
      dsimp only at hkept ⊢
      rw [hkept]
      exact hrest
  | content hmode idx blanks hidx hblank hbehind hsent =>
    have hlong : openTag.length ≤ u.length := by
      have hbound := index_add_length_le hidx
      have htrim := length_trimPrefix_le u
      have hclose : closeTag.length = openTag.length + 1 := rfl
      omega
    have htrim := trimPrefix_openTag_append hlong t
    have hbound := index_add_length_le hidx
    obtain ⟨hkept, hmode'⟩ :=
      flushContentPending_spec { f with pending := f.pending ++ t } false
    have hfilter : f.filter t = (((({ f with pending := f.pending ++ t } :
        Qwen36StreamFilter).flushContentPending false).1, []),
        (({ f with pending := f.pending ++ t } :
          Qwen36StreamFilter).flushContentPending false).2) := by
      simp only [Qwen36StreamFilter.filter, if_neg ht, hmode]
      rfl
    rw [hfilter]
    refine Streamed.content (hmode'.trans hmode) idx blanks ?_ hblank ?_ ?_
    · rw [htrim]
      exact index_append_of_some hidx
    · rw [htrim, List.drop_append_of_le_length (by omega), hbehind]
      dsimp only at hkept ⊢
      rw [List.append_assoc out.1, hkept]
      simp only [List.append_assoc]
    · rw [htrim, List.take_append_of_le_length (by omega), hsent, List.append_nil]

theorem Streamed.feed (chunks : List Bytes) :
    ∀ {u : Bytes} {out : Bytes × Bytes} {f : Qwen36StreamFilter}, Streamed u out f →
      ThinkOnlyFirst (u ++ chunks.flatten) →
      Streamed (u ++ chunks.flatten)
        (out.1 ++ (f.feed chunks).1.1, out.2 ++ (f.feed chunks).1.2) (f.feed chunks).2 := by
  induction chunks with
  | nil =>
    intro u out f h _
    simpa [Qwen36StreamFilter.feed] using h
  | cons chunk rest ih =>
    intro u out f h htext
    rw [List.flatten_cons, ← List.append_assoc] at htext ⊢
    have hone := h.filter (htext.of_prefix (List.prefix_append _ _))
    simpa [Qwen36StreamFilter.feed, List.append_assoc] using ih hone htext

theorem streamed_new : Streamed [] ([], []) newQwen36StreamFilter :=
  Streamed.reasoning rfl rfl (fun h => by
    have := List.infix_nil.mp h
    exact absurd this (by decide)) rfl

/-! ### The end of the stream -/

/-- What the split makes of a text whose close tag is at `idx` behind the open tag. -/
theorem splitQwenThinkResponse_closed {text : Bytes} {idx : Nat}
    (hidx : index closeTag (trimPrefix openTag text) = some idx) :
    splitQwenThinkResponse text =
      (trimSpace ((trimPrefix openTag text).drop (idx + closeTag.length)),
        trimSpace ((trimPrefix openTag text).take idx)) := by
  obtain ⟨htake, hdrop⟩ := index_closeTag_trimPrefix text
  rw [hidx] at htake hdrop
  cases hfull : index closeTag text with
  | none => simp [hfull] at htake
  | some k =>
    simp only [hfull, map_some, some.injEq] at htake hdrop
    simp only [splitQwenThinkResponse, hfull, htake, hdrop]

theorem splitQwenThinkResponse_unclosed {text : Bytes}
    (h : Absent closeTag (trimPrefix openTag text)) :
    splitQwenThinkResponse text = (splitUnclosedQwenReasoning (trimPrefix openTag text)).getD
        ([], trimSpace (trimPrefix openTag text)) := by
  have hnone := (index_closeTag_trimPrefix text).2
  rw [index_of_absent h] at hnone
  have hfull : index closeTag text = none := by simpa using hnone
  simp only [splitQwenThinkResponse, hfull]
  cases splitUnclosedQwenReasoning (trimPrefix openTag text) <;> rfl

theorem stream_cases {chunks : List Bytes} (htext : ThinkOnlyFirst chunks.flatten) :
    (∃ idx blanks, index closeTag (trimPrefix openTag chunks.flatten) = some idx ∧ IsBlank blanks ∧
      (trimPrefix openTag chunks.flatten).drop (idx + closeTag.length) =
        blanks ++ (stream chunks).1 ∧
      (stream chunks).2 = (splitQwenThinkResponse chunks.flatten).2) ∨
    (Absent closeTag (trimPrefix openTag chunks.flatten) ∧
      stream chunks = splitQwenThinkResponse chunks.flatten) := by
  have hfed := streamed_new.feed chunks htext
  simp only [List.nil_append] at hfed
  cases hfed with
  | reasoning hmode hheld hunclosed hsent =>
    right
    refine ⟨hunclosed, ?_⟩
    have hout : (newQwen36StreamFilter.feed chunks).1 = ([], []) := hsent
    have hflush : (newQwen36StreamFilter.feed chunks).2.flush.1 =
        (splitUnclosedQwenReasoning (trimPrefix openTag chunks.flatten)).getD
          ([], trimSpace (trimPrefix openTag chunks.flatten)) := by
      by_cases hempty : trimPrefix openTag chunks.flatten = []
      · simp only [flush, hheld, hempty, if_true]
        decide
      have hremove := removeAll_trimPrefix (t := []) (by simpa using htext)
      simp only [List.append_nil] at hremove
      have hnone := index_of_absent hunclosed
      simp only [flush, hheld, if_neg hempty, hmode, if_true, filterReasoningPending, hremove,
        hnone]
      cases splitUnclosedQwenReasoning (trimPrefix openTag chunks.flatten) <;> rfl
    rw [splitQwenThinkResponse_unclosed hunclosed, ← hflush]
    simp only [stream, hout, List.nil_append]
  | content hmode idx blanks hidx hblank hbehind hsent =>
    left
    have hflush : (newQwen36StreamFilter.feed chunks).2.flush.1 =
        ((newQwen36StreamFilter.feed chunks).2.pending, []) := by
      by_cases hempty : (newQwen36StreamFilter.feed chunks).2.pending = []
      · simp only [flush, hempty, if_true]
      simp only [flush, if_neg hempty, hmode]
      rfl
    refine ⟨idx, blanks, hidx, hblank, ?_, ?_⟩
    · simp only [stream, hflush]
      exact hbehind
    rw [splitQwenThinkResponse_closed hidx]
    simp only [stream, hflush, List.append_nil]
    exact hsent

/-- **Streaming equals splitting**: however the text is cut, the reasoning is the
same, the content is the same up to white space at its ends, and behind the close
tag the stream drops nothing but blanks at the front. -/
theorem stream_eq_split (chunks : List Bytes) (htext : ThinkOnlyFirst chunks.flatten) :
    (stream chunks).2 = (splitQwenThinkResponse chunks.flatten).2 ∧
      trimSpace (stream chunks).1 = trimSpace (splitQwenThinkResponse chunks.flatten).1 ∧
      ∀ idx, index closeTag chunks.flatten = some idx → ∃ blanks, IsBlank blanks ∧
          chunks.flatten.drop (idx + closeTag.length) = blanks ++ (stream chunks).1 := by
  have hdrop := (index_closeTag_trimPrefix chunks.flatten).2
  rcases stream_cases htext with ⟨idx, blanks, hidx, hblank, hbehind, hreasoning⟩ |
    ⟨hunclosed, heq⟩
  · refine ⟨hreasoning, ?_, ?_⟩
    · rw [splitQwenThinkResponse_closed hidx, hbehind, trimSpace_blank_append hblank,
        trimSpace_trimSpace]
    intro k hk
    rw [hk, hidx] at hdrop
    simp only [map_some, some.injEq] at hdrop
    exact ⟨blanks, hblank, hdrop.trans hbehind⟩
  refine ⟨by rw [heq], by rw [heq], fun k hk => ?_⟩
  rw [hk, index_of_absent hunclosed] at hdrop
  cases hdrop

/-- An answer cut inside both tags and inside the content. -/
theorem stream_cutTags :
    let chunks := [ascii "<th", ascii "ink>plan</thi", ascii "nk>\n", ascii "\nhi </", ascii "b>"]
    stream chunks = (ascii "\nhi </b>", ascii "plan") ∧
      trimSpace (stream chunks).1 = trimSpace (ascii "hi </b>") := by
  intro chunks
  have hlength : chunks.flatten.length = 28 := by decide +kernel
  have hnone : ∀ j < 28, j ≠ 0 → ¬ openTag.isPrefixOf (chunks.flatten.drop j) = true := by
    decide +kernel
  have htext : ThinkOnlyFirst chunks.flatten := by
    intro i hi
    by_contra hne
    by_cases hlt : i < 28
    · exact hnone i hlt hne (List.isPrefixOf_iff_prefix.mpr hi)
    rw [OccursAt, List.drop_eq_nil_of_le (by omega)] at hi
    exact openTag_ne_nil (List.prefix_nil.mp hi)
  have hsplit : splitQwenThinkResponse chunks.flatten = (ascii "hi </b>", ascii "plan") := by
    decide +kernel
  refine ⟨by decide +kernel, ?_⟩
  rw [(stream_eq_split chunks htext).2.1, hsplit]

end Qwen36StreamFilter

end DenseCore.Server
