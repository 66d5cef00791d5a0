/-
Streaming an LFM2 answer shows what sanitizing it shows.

After any number of chunks the filter is in one of four states, `Streamed`: it waits,
since what it holds may still become the open tag; it is inside the block; the text has
begun with something else, and all of it was sent on; or the block is closed, and what
was sent on is the text behind it, less blanks.  Each is a fact about the text alone,
so it does not matter where the text was cut.  The whole answer is trimmed before it is
looked at; on ASCII that moves no tag.
-/
import DenseCore.Lib.Trim
import DenseCore.Proofs.Server.LowerCase
import DenseCore.Server.StreamFilters
import Mathlib.Data.List.TakeWhile

namespace DenseCore.Server

open List

open Lib (Bytes StreamFilter)
open Lib.Strings

namespace Lfm2StreamFilter

/-- ASCII without other white space than blanks, tabs, CR and LF. -/
def Lfm2Text (text : Bytes) : Prop :=
  ∀ b ∈ text, b.toNat < 0x80 ∧ (SpaceByte b → b ∈ asciiBlanks)

/-- The lower case of ASCII. -/
def lowered (s : Bytes) : Bytes := s.map lowerByte

/-- The text in front of which blanks were taken off. -/
def trimmed (s : Bytes) : Bytes := trimLeft asciiBlanks s

/-- The text begins with the open tag, in any case. -/
def Begins (s : Bytes) : Prop := openTag <+: lowered (trimmed s)

/-- What is known of the text that was fed and of what was sent on. -/
inductive Streamed (seen : Bytes) : Bytes → Lfm2StreamFilter → Prop
  | waiting (h : lowered (trimmed seen) <+: openTag) :
      Streamed seen [] { pending := seen, started := false, suppressing := false }
  | inBlock (hbegins : Begins seen) (hopen : index closeTag (lowered seen) = none) :
      Streamed seen [] { pending := seen, started := false, suppressing := true }
  | plain (hother : ¬ Begins seen) (hdecided : ¬ lowered (trimmed seen) <+: openTag) :
      Streamed seen seen { pending := [], started := true, suppressing := false }
  | behind {u sent : Bytes} {idx : Nat} (hbegins : Begins seen)
      (hclose : index closeTag (lowered seen) = some idx) (hu : IsBlank u)
      (hsent : u ++ sent = seen.drop (idx + closeTag.length)) :
      Streamed seen sent { pending := [], started := true, suppressing := false }

variable {lower : Char → Char} {s seen sent : Bytes}

theorem Lfm2Text.toLower (h : Lfm2Text s) : toLower lower s = lowered s :=
  toLower_ascii fun b hb => (h b hb).1

theorem Lfm2Text.of_sublist {t : Bytes} (h : Lfm2Text s) (hsub : Sublist t s) : Lfm2Text t :=
  fun b hb => h b (hsub.subset hb)

theorem Lfm2Text.single (h : Lfm2Text s) : ∀ b ∈ s, SpaceByte b → [b] ∈ spaces :=
  fun b hb => spaces_mem (h b hb).1

theorem trimmed_sublist (s : Bytes) : Sublist (trimmed s) s := dropWhile_sublist _

/-! ### Blanks around the text -/

theorem spaceByte_of_blank : ∀ b ∈ asciiBlanks, SpaceByte b := by
  decide +kernel

theorem blank_of_asciiBlanks {u : Bytes} (hu : ∀ b ∈ u, b ∈ asciiBlanks) : IsBlank u := by
  have hall : ∀ b ∈ asciiBlanks, [b] ∈ spaces := by
    decide +kernel
  exact fun b hb => hall b (hu b hb)

theorem lowered_not_mem {u : Bytes} (hu : IsBlank u) :
    ∀ b ∈ lowered u, b ∉ openTag ∧ b ∉ closeTag := by
  have hall : ∀ w ∈ spaces, ∀ b ∈ w, lowerByte b ∉ openTag ∧ lowerByte b ∉ closeTag := by
    decide +kernel
  intro b hb
  obtain ⟨a, ha, rfl⟩ := mem_map.mp hb
  exact hall [a] (hu a ha) a mem_cons_self

theorem Lfm2Text.exists_split (h : Lfm2Text s) :
    ∃ u w, s = u ++ (trimSpace s ++ w) ∧ (∀ b ∈ u, b ∈ asciiBlanks) ∧ (∀ b ∈ w, b ∈ asciiBlanks) ∧
      trimmed s = if trimSpace s = [] then [] else trimSpace s ++ w := by
  obtain ⟨u, w, hs, hu, hw, hhead, -⟩ := exists_core h.single
  have hblank : ∀ x : Bytes, (∀ b ∈ x, b ∈ s) → (∀ b ∈ x, SpaceByte b) →
      ∀ b ∈ x, b ∈ asciiBlanks := fun x hmem hspace b hb => (h b (hmem b hb)).2 (hspace b hb)
  have hu' := hblank u (fun b hb => hs ▸ mem_append_left _ hb) hu
  have hw' := hblank w
    (fun b hb => hs ▸ mem_append_right u (mem_append_right _ hb)) hw
  refine ⟨u, w, hs, hu', hw', ?_⟩
  have hdrop : trimmed s = (trimSpace s ++ w).dropWhile fun b => asciiBlanks.contains b := by
    have hpos : (u ++ (trimSpace s ++ w)).dropWhile (fun b => asciiBlanks.contains b) =
        (trimSpace s ++ w).dropWhile fun b => asciiBlanks.contains b :=
      dropWhile_append_of_pos fun b hb => contains_iff_mem.mpr (hu' b hb)
    rw [← hs] at hpos
    exact hpos
  rw [hdrop]
  cases hcore : trimSpace s with
  | nil =>
    rw [if_pos rfl, nil_append]
    exact dropWhile_eq_nil_iff.mpr fun b hb => contains_iff_mem.mpr (hw' b hb)
  | cons c rest =>
    have hc : ¬ asciiBlanks.contains c = true := fun hmem =>
      hhead c (by rw [hcore]; rfl) (spaceByte_of_blank c (contains_iff_mem.mp hmem))
    rw [if_neg (cons_ne_nil c rest)]
    exact dropWhile_cons_of_neg hc

theorem Lfm2Text.begins_iff (h : Lfm2Text s) : Begins s ↔ openTag <+: lowered (trimSpace s) := by
  obtain ⟨u, w, -, -, hw, htrimmed⟩ := h.exists_split
  unfold Begins
  rw [htrimmed]
  by_cases hcore : trimSpace s = []
  · rw [if_pos hcore, hcore]
  rw [if_neg hcore, lowered, map_append]
  have hblank := blank_of_asciiBlanks hw
  exact prefix_append_of_disjoint (fun b hb => (lowered_not_mem hblank b hb).1) _

theorem Lfm2Text.index_close (h : Lfm2Text s) :
    ∃ u w, s = u ++ (trimSpace s ++ w) ∧ IsBlank u ∧ IsBlank w ∧ index closeTag (lowered s) =
        (index closeTag (lowered (trimSpace s))).map (· + u.length) := by
  obtain ⟨u, w, hs, hu, hw, -⟩ := h.exists_split
  have hu' := blank_of_asciiBlanks hu
  have hw' := blank_of_asciiBlanks hw
  refine ⟨u, w, hs, hu', hw', ?_⟩
  have hne : closeTag ≠ [] := by decide
  have hlowered : lowered s = lowered u ++ (lowered (trimSpace s) ++ lowered w) := by
    rw [lowered, hs, map_append, map_append, ← hs]
    rfl
  rw [hlowered, index_append_of_disjoint hne fun b hb => (lowered_not_mem hu' b hb).2,
    index_append_right_of_disjoint hne fun b hb => (lowered_not_mem hw' b hb).2]
  simp [lowered]

/-! ### The whole answer -/

theorem slice_from {i : Nat} (h : i ≤ s.length) : slice s i s.length = some (s.drop i) := by
  rw [slice, if_pos ⟨h, Nat.le_refl _⟩, take_length]

theorem close_le {idx : Nat} (h : index closeTag (lowered s) = some idx) :
    idx + closeTag.length ≤ s.length := by
  have hlen := index_add_length_le h
  rwa [lowered, length_map] at hlen

theorem sanitize_behind (h : Lfm2Text s) {idx : Nat} (hbegins : Begins s)
    (hclose : index closeTag (lowered s) = some idx) :
    sanitizeLFM2Response lower s = some (trimSpace (s.drop (idx + closeTag.length))) := by
  obtain ⟨u, w, hs, hu, hw, hindex⟩ := h.index_close
  have htext : Lfm2Text (trimSpace s) := h.of_sublist (trimSpace_sublist s)
  rw [hclose] at hindex
  obtain ⟨i, hi, hidx⟩ := Option.map_eq_some_iff.mp hindex.symm
  have hle := close_le hi
  have hdrop : s.drop (idx + closeTag.length) = (trimSpace s).drop (i + closeTag.length) ++ w := by
    have hpos : idx + closeTag.length = u.length + (i + closeTag.length) := by omega
    rw [hpos]
    conv_lhs => rw [hs]
    rw [drop_length_add_append, drop_append_of_le_length hle]
  unfold sanitizeLFM2Response
  dsimp only
  rw [htext.toLower, if_pos (List.isPrefixOf_iff_prefix.mpr (h.begins_iff.mp hbegins)), hi]
  dsimp only
  rw [slice_from hle, Option.map_some, hdrop, trimSpace_append_blank hw]

theorem sanitize_whole (h : Lfm2Text s) (hno : ¬ Begins s ∨ index closeTag (lowered s) = none) :
    sanitizeLFM2Response lower s = some (trimSpace s) := by
  obtain ⟨u, w, hs, -, -, hindex⟩ := h.index_close
  have htext : Lfm2Text (trimSpace s) := h.of_sublist (trimSpace_sublist s)
  unfold sanitizeLFM2Response
  dsimp only
  rw [htext.toLower]
  by_cases hbegins : openTag <+: lowered (trimSpace s)
  · have hopen := hno.resolve_left fun hother => hother (h.begins_iff.mpr hbegins)
    rw [hopen] at hindex
    have hnone := Option.map_eq_none_iff.mp hindex.symm
    rw [if_pos (List.isPrefixOf_iff_prefix.mpr hbegins), hnone]
  · rw [if_neg fun hpre => hbegins (List.isPrefixOf_iff_prefix.mp hpre)]

/-! ### The stream -/

theorem streamed_start : Streamed [] [] {} := .waiting (List.nil_prefix)

theorem closeBlock_streamed (lower : Char → Char) (h : Lfm2Text seen) (hbegins : Begins seen) :
    ∃ out s', closeBlock lower { pending := seen, started := false, suppressing := true } =
      some (out, s') ∧ Streamed seen out s' := by
  unfold closeBlock
  dsimp only
  rw [h.toLower]
  cases hclose : index closeTag (lowered seen) with
  | none => exact ⟨_, _, rfl, .inBlock hbegins hclose⟩
  | some idx =>
    have hblank : IsBlank asciiBlanks := blank_of_asciiBlanks fun b hb => hb
    obtain ⟨u, hu, hsplit⟩ := exists_trimLeft hblank (seen.drop (idx + closeTag.length))
    dsimp only
    rw [slice_from (close_le hclose)]
    exact ⟨_, _, rfl, .behind hbegins hclose hu hsplit.symm⟩

theorem decide_streamed (h : Lfm2Text seen) (held token : Bytes) (hheld : held ++ token = seen)
    (htoken : token ≠ []) :
    ∃ out s', filter lower { pending := held, started := false, suppressing := false } token =
      some (out, s') ∧ Streamed seen out s' := by
  have hfirst : ¬ (token = [] ∨ false = true) := by simp [htoken]
  have htext : Lfm2Text (trimLeft asciiBlanks seen) := h.of_sublist (trimmed_sublist seen)
  unfold filter
  rw [if_neg hfirst]
  dsimp only
  rw [hheld, if_neg Bool.false_ne_true, htext.toLower]
  by_cases hwait : trimLeft asciiBlanks seen = [] ∨
      (lowered (trimLeft asciiBlanks seen)).isPrefixOf openTag = true
  · rw [if_pos hwait]
    refine ⟨_, _, rfl, .waiting ?_⟩
    rcases hwait with hempty | hpre
    · rw [trimmed, hempty]
      exact nil_prefix
    · exact isPrefixOf_iff_prefix.mp hpre
  rw [if_neg hwait]
  have hdecided : ¬ lowered (trimmed seen) <+: openTag := fun hpre =>
    hwait (Or.inr (List.isPrefixOf_iff_prefix.mpr hpre))
  by_cases hbegins : openTag.isPrefixOf (lowered (trimLeft asciiBlanks seen)) = true
  · rw [if_pos hbegins]
    exact closeBlock_streamed lower h (List.isPrefixOf_iff_prefix.mp hbegins)
  rw [if_neg hbegins]
  have hother : ¬ Begins seen := fun hpre => hbegins (List.isPrefixOf_iff_prefix.mpr hpre)
  exact ⟨_, _, rfl, .plain hother hdecided⟩

/-- Behind its first character a text only grows. -/
theorem trimmed_append (hne : trimmed seen ≠ []) (chunk : Bytes) :
    trimmed (seen ++ chunk) = trimmed seen ++ chunk := by
  have hempty : ¬ (List.dropWhile (fun b => asciiBlanks.contains b) seen).isEmpty = true :=
    fun h => hne (List.isEmpty_iff.mp h)
  show List.dropWhile _ (seen ++ chunk) = _
  rw [dropWhile_append, if_neg hempty]
  rfl

theorem begins_append (h : Begins seen) (chunk : Bytes) : Begins (seen ++ chunk) := by
  have hne : trimmed seen ≠ [] := by
    intro hempty
    rw [Begins, hempty] at h
    exact absurd (prefix_nil.mp h) (by decide)
  rw [Begins, trimmed_append hne, lowered, map_append]
  exact h.trans (prefix_append _ _)

theorem other_append (hother : ¬ Begins seen) (hdecided : ¬ lowered (trimmed seen) <+: openTag)
    (chunk : Bytes) :
    ¬ Begins (seen ++ chunk) ∧ ¬ lowered (trimmed (seen ++ chunk)) <+: openTag := by
  have hne : trimmed seen ≠ [] := by
    intro hempty
    rw [hempty] at hdecided
    exact hdecided nil_prefix
  have hgrown : lowered (trimmed (seen ++ chunk)) = lowered (trimmed seen) ++ lowered chunk := by
    rw [trimmed_append hne, lowered, map_append]
    rfl
  unfold Begins
  rw [hgrown]
  refine ⟨fun hpre => ?_, fun hpre => hdecided ((prefix_append _ _).trans hpre)⟩
  rcases prefix_or_prefix_of_prefix hpre (prefix_append _ _) with hopen | hshort
  · exact hother hopen
  · exact hdecided hshort

/-- **A chunk keeps what is known**, wherever the text was cut. -/
theorem streamed_keeps : (streamFilter lower).Keeps Lfm2Text Streamed := by
  intro seen sent f chunk htext hstreamed
  by_cases hchunk : chunk = []
  · subst hchunk
    refine ⟨[], f, ?_, by simpa using hstreamed⟩
    show filter lower f [] = _
    rw [filter, if_pos (Or.inl rfl)]
  cases hstreamed with
  | waiting h => exact decide_streamed htext seen chunk rfl hchunk
  | inBlock hbegins hopen =>
    have hfirst : ¬ (chunk = [] ∨ false = true) := by simp [hchunk]
    obtain ⟨out, s', hclose, hstreamed⟩ :=
      closeBlock_streamed lower htext (begins_append hbegins chunk)
    refine ⟨out, s', ?_, hstreamed⟩
    show filter lower _ chunk = _
    rw [filter, if_neg hfirst]
    exact hclose
  | plain hother hdecided =>
    obtain ⟨hother', hdecided'⟩ := other_append hother hdecided chunk
    refine ⟨chunk, _, ?_, .plain hother' hdecided'⟩
    show filter lower _ chunk = _
    rw [filter, if_pos (Or.inr rfl)]
  | @behind u sent idx hbegins hclose hu hsent =>
    have hclose' : index closeTag (lowered (seen ++ chunk)) = some idx := by
      rw [lowered, map_append]
      exact index_append_of_some hclose
    refine ⟨chunk, _, ?_, .behind (begins_append hbegins chunk) hclose' hu ?_⟩
    · show filter lower _ chunk = _
      rw [filter, if_pos (Or.inr rfl)]
    · rw [← append_assoc, hsent, drop_append_of_le_length (close_le hclose)]

theorem not_closed_of_waiting (hwait : lowered (trimmed seen) <+: openTag) :
    index closeTag (lowered seen) = none := by
  obtain ⟨u, hu, hsplit⟩ := exists_trimLeft (blank_of_asciiBlanks fun b hb => hb) seen
  have habsent : Absent closeTag (lowered (trimmed seen)) := by
    intro hin
    have hlen := (hin.trans hwait.isInfix).length_le
    exact absurd hlen (by decide)
  have hlowered : lowered seen = lowered u ++ lowered (trimmed seen) := by
    conv_lhs => rw [hsplit, lowered, map_append]
    rfl
  have hne : closeTag ≠ [] := by decide
  rw [hlowered, index_append_of_disjoint hne fun b hb => (lowered_not_mem hu b hb).2,
    index_of_absent habsent]
  rfl

theorem trimSpace_flush (f : Lfm2StreamFilter) : trimSpace f.flush = trimSpace f.pending := by
  unfold flush
  by_cases hpending : f.pending = []
  · rw [if_pos hpending, hpending]
  · rw [if_neg hpending, trimSpace_trimSpace]

theorem flush_streamed (h : Lfm2Text seen) {f : Lfm2StreamFilter}
    (hstreamed : Streamed seen sent f) :
    ∃ content, sanitizeLFM2Response lower seen = some content ∧
      trimSpace (sent ++ f.flush) = trimSpace content := by
  cases hstreamed with
  | waiting hwait =>
    refine ⟨_, sanitize_whole h (Or.inr (not_closed_of_waiting hwait)), ?_⟩
    rw [trimSpace_trimSpace]
    exact trimSpace_flush _
  | inBlock hbegins hopen =>
    refine ⟨_, sanitize_whole h (Or.inr hopen), ?_⟩
    rw [trimSpace_trimSpace]
    exact trimSpace_flush _
  | plain hother hdecided =>
    refine ⟨_, sanitize_whole h (Or.inl hother), ?_⟩
    rw [trimSpace_trimSpace]
    show trimSpace (seen ++ []) = _
    rw [append_nil]
  | behind hbegins hclose hu hsent =>
    refine ⟨_, sanitize_behind h hbegins hclose, ?_⟩
    rw [trimSpace_trimSpace, ← hsent, trimSpace_blank_append hu]
    show trimSpace (sent ++ []) = _
    rw [append_nil]

/-- **The stream of an LFM2 answer is the answer sanitized**, up to white space at its
ends, for every cut into chunks and every table of lower case; no slice is out of range. -/
theorem stream_eq_sanitize (lower : Char → Char) (chunks : List Bytes)
    (htext : Lfm2Text chunks.flatten) :
    ∃ out content, (streamFilter lower).stream chunks = some out ∧
      sanitizeLFM2Response lower chunks.flatten = some content ∧
      trimSpace out = trimSpace content := by
  obtain ⟨out, hout, content, hcontent, hsame⟩ :=
    streamed_keeps.stream
      (fun seen out => ∃ content, sanitizeLFM2Response lower seen = some content ∧
        trimSpace out = trimSpace content)
      streamed_start
      (fun _ _ f hseen hstreamed => ⟨f.flush, rfl, flush_streamed hseen hstreamed⟩)
      chunks fun u hu => htext.of_sublist hu.sublist
  exact ⟨out, content, hout, hcontent, hsame⟩

theorem tag_over_chunks_eq_sanitize :
    ∃ out content, (streamFilter id).stream [ascii " <th", ascii "INK>no</thi", ascii "nk>
 yes "] = some out ∧ sanitizeLFM2Response id (ascii " <thINK>no</think>
 yes ") = some content ∧ trimSpace out = trimSpace content :=
  stream_eq_sanitize id [ascii " <th", ascii "INK>no</thi", ascii "nk>
 yes "]
    (by unfold Lfm2Text; decide +kernel)

end Lfm2StreamFilter

end DenseCore.Server
