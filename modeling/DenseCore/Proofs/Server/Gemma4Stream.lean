/-
Streaming a Gemma4 answer shows its content.

An answer with thinking is a thought channel, a body marker, and the content.  Nothing
is sent on before the body marker has arrived, and everything behind it is, wherever
the answer was cut; so the stream shows the content, less blanks.  The whole answer is
taken apart in three steps that each have a case of their own for an empty part: it
shows the content too, but where that is empty and thinking is off it shows the
reasoning in its place.  `stream_eq_split_iff` says that this is the only difference.
-/
import DenseCore.Lib.Trim
import DenseCore.Proofs.Server.LowerCase
import DenseCore.Server.StreamFilters

namespace DenseCore.Server

open List

open Lib (Bytes StreamFilter)
open Lib.Strings

/-- `<`, with which every marker begins. -/
def markerByte : UInt8 := 0x3C

/-- No character outside ASCII has `<` as its lower case. -/
def KeepsMarker (lower : Char → Char) : Prop :=
  ∀ c : Char, 0x80 ≤ c.toNat → (lower c).toNat ≠ markerByte.toNat

/-- The trimmed content does not begin with a line `thought` or `think silently.`. -/
def NoPrelude (lower : Char → Char) (content : Bytes) : Prop :=
  ∀ p ∈ thoughtLines ++ thinkSilently, ¬ p <+: toLower lower (trimSpace content)

/-- A text without its blanks, a line `thought` and `think silently.` at its front. -/
def behindPrelude (lower : Char → Char) (text : Bytes) : Bytes :=
  stripLowerPrefix lower thinkSilently (stripLowerPrefix lower thoughtLines (trimSpace text))

/-- The opening of the thought channel. -/
def thoughtOpening : Bytes := ascii "<|channel>thought\n"

/-- An answer: the reasoning in the thought channel, and the content. -/
def channelText (reasoning content : Bytes) : Bytes :=
  thoughtOpening ++ (reasoning ++ (bodyMarker ++ content))

variable {lower : Char → Char} {s reasoning content : Bytes}

/-! ### Text without markers -/

theorem index_eq_none_of_marker {marker : Bytes} (hmarker : marker.head? = some markerByte)
    (hs : markerByte ∉ s) : index marker s = none := by
  obtain ⟨rest, rfl⟩ := head?_eq_some_iff.mp hmarker
  exact index_of_not_mem hs

theorem not_prefix_of_marker {marker : Bytes} (hmarker : marker.head? = some markerByte)
    (hs : markerByte ∉ s) : ¬ marker.isPrefixOf s = true := by
  obtain ⟨rest, rfl⟩ := head?_eq_some_iff.mp hmarker
  intro hpre
  exact hs ((List.isPrefixOf_iff_prefix.mp hpre).mem mem_cons_self)

theorem not_prefix_toLower (hlower : KeepsMarker lower) {marker : Bytes}
    (hmarker : marker.head? = some markerByte) (hs : markerByte ∉ s) :
    ¬ marker.isPrefixOf (toLower lower s) = true := by
  obtain ⟨rest, rfl⟩ := head?_eq_some_iff.mp hmarker
  intro hpre
  obtain ⟨t, ht⟩ := isPrefixOf_iff_prefix.mp hpre
  cases s with
  | nil => cases ht
  | cons b s =>
    have hhead := lowerByte_of_head hlower (by decide) ht.symm
    have hb : b = markerByte := by
      unfold lowerByte at hhead
      split at hhead
      · rename_i hcapital
        have hnat := congrArg UInt8.toNat hhead
        rw [UInt8.toNat_add] at hnat
        have hvalue : markerByte.toNat = 0x3C := rfl
        have hstep : (0x20 : UInt8).toNat = 0x20 := rfl
        omega
      · exact hhead
    exact hs (hb ▸ mem_cons_self)

theorem channelOpenings_head : ∀ m ∈ channelOpenings, m.head? = some markerByte := by decide

theorem stripGemma4MalformedLeadingChannel_of (hs : markerByte ∉ trimSpace s) :
    stripGemma4MalformedLeadingChannel s = s := by
  have hno : channelMarker.isPrefixOf (trimSpace s) = false :=
    Bool.eq_false_iff.mpr (not_prefix_of_marker rfl hs)
  unfold stripGemma4MalformedLeadingChannel
  rw [if_pos hno]

theorem visibleCut_of (hs : markerByte ∉ s) : visibleCut s = s.length := by
  have hall : ∀ m ∈ ascii "<|be_thought_out|>" :: channelOpenings ++ [bodyMarker],
      m.head? = some markerByte := by decide
  unfold visibleCut
  generalize ascii "<|be_thought_out|>" :: channelOpenings ++ [bodyMarker] = markers at hall
  induction markers with
  | nil => rfl
  | cons m markers ih =>
    rw [foldl_cons, index_eq_none_of_marker (hall m mem_cons_self) hs]
    exact ih fun x hx => hall x (mem_cons_of_mem m hx)

theorem sanitize_of_prelude {t : Bytes} (hprelude : stripGemma4BareThoughtPrelude lower s = t)
    (ht : markerByte ∉ t) (htrim : trimSpace t = t) :
    sanitizeGemma4VisibleContent lower s = t := by
  unfold sanitizeGemma4VisibleContent
  dsimp only
  rw [hprelude, stripGemma4MalformedLeadingChannel_of (htrim.symm ▸ ht), visibleCut_of ht,
    take_length, htrim]

theorem not_mem_trimSpace {b : UInt8} (hs : b ∉ s) : b ∉ trimSpace s :=
  fun hb => hs ((trimSpace_sublist s).subset hb)

theorem stripLowerPrefix_sublist (prefixes : List Bytes) (s : Bytes) :
    Sublist (stripLowerPrefix lower prefixes s) s := by
  unfold stripLowerPrefix
  split
  · exact (trimSpace_sublist _).trans (drop_sublist _ s)
  · exact Sublist.refl s

theorem trimSpace_stripLowerPrefix (prefixes : List Bytes) (hs : trimSpace s = s) :
    trimSpace (stripLowerPrefix lower prefixes s) = stripLowerPrefix lower prefixes s := by
  unfold stripLowerPrefix
  split
  · exact trimSpace_trimSpace _
  · exact hs

/-- **What is visible of a text without markers** is what stands behind its prelude. -/
theorem sanitize_eq_behindPrelude (hlower : KeepsMarker lower) (hs : markerByte ∉ s) :
    sanitizeGemma4VisibleContent lower s = behindPrelude lower s := by
  have htrimmed := not_mem_trimSpace hs
  have hchannel : (channelOpenings.find? fun channel =>
      channel.isPrefixOf (toLower lower (trimSpace s))) = none :=
    find?_eq_none.mpr fun m hm =>
      not_prefix_toLower hlower (channelOpenings_head m hm) htrimmed
  refine sanitize_of_prelude ?_ (fun hmem => htrimmed ?_) ?_
  · unfold stripGemma4BareThoughtPrelude
    dsimp only
    rw [hchannel]
    rfl
  · exact ((stripLowerPrefix_sublist _ _).trans (stripLowerPrefix_sublist _ _)).subset hmem
  · exact trimSpace_stripLowerPrefix _ (trimSpace_stripLowerPrefix _ (trimSpace_trimSpace s))

theorem behindPrelude_of (hprelude : NoPrelude lower s) : behindPrelude lower s = trimSpace s := by
  have hlines (prefixes : List Bytes)
      (hin : ∀ p ∈ prefixes, p ∈ thoughtLines ++ thinkSilently) :
      stripLowerPrefix lower prefixes (trimSpace s) = trimSpace s := by
    have hnone : (prefixes.find? fun p => p.isPrefixOf (toLower lower (trimSpace s))) = none :=
      find?_eq_none.mpr fun p hp hpre =>
        hprelude p (hin p hp) (List.isPrefixOf_iff_prefix.mp hpre)
    unfold stripLowerPrefix
    rw [hnone]
  unfold behindPrelude
  rw [hlines thoughtLines fun p hp => mem_append_left _ hp,
    hlines thinkSilently fun p hp => mem_append_right _ hp]

/-! ### An answer with no reasoning -/

theorem index_newline_trimSpace (s : Bytes) : index [0x0A] (trimSpace s) ≠ some 0 := by
  intro h
  exact trimmed_trimSpace s [0x0A] (by decide) (index_eq_some h).1

theorem sanitize_empty_reasoning (hcontent : markerByte ∉ content) :
    sanitizeGemma4VisibleContent lower (channelText [] content) = trimSpace content := by
  refine sanitize_of_prelude ?_ (not_mem_trimSpace hcontent) (trimSpace_trimSpace content)
  obtain ⟨z, htrim, -, hz⟩ := trimSpace_front (x := thoughtOpening ++ bodyMarker)
    (c := 0x3C) (d := 0x3E) rfl rfl (by decide) (by decide) content
  obtain ⟨y, hbody, -, hy⟩ := trimSpace_front (x := bodyMarker)
    (c := 0x3C) (d := 0x3E) rfl rfl (by decide) (by decide) z
  have hopening : ascii "<|channel>thought" ++ [0x0A] = thoughtOpening := rfl
  have hfind : (channelOpenings.find? fun channel =>
      channel.isPrefixOf (toLower lower (thoughtOpening ++ bodyMarker ++ z))) =
        some (ascii "<|channel>thought") := by
    have hpre : (ascii "<|channel>thought").isPrefixOf
        (toLower lower (thoughtOpening ++ bodyMarker ++ z)) = true := by
      rw [toLower_append (by decide +kernel), ← hopening, append_assoc, append_assoc]
      exact isPrefixOf_iff_prefix.mpr (prefix_append _ _)
    unfold channelOpenings
    rw [find?_cons, hpre]
  have hdrop : (thoughtOpening ++ bodyMarker ++ z).drop (ascii "<|channel>thought").length =
      [0x0A] ++ (bodyMarker ++ z) := by
    rw [← hopening, append_assoc, append_assoc, drop_left]
  have hblank : IsBlank [0x0A] := by
    intro b hb
    rw [mem_singleton.mp hb]
    decide
  have hcore : trimSpace ((thoughtOpening ++ bodyMarker ++ z).drop
      (ascii "<|channel>thought").length) = bodyMarker ++ y := by
    rw [hdrop, trimSpace_blank_append hblank, hbody]
  have hmarker : bodyMarker.isPrefixOf (bodyMarker ++ y) = true :=
    isPrefixOf_iff_prefix.mpr (prefix_append _ _)
  have hrest : trimSpace (trimPrefix bodyMarker (bodyMarker ++ y)) = trimSpace content := by
    rw [trimPrefix_append, hy, hz]
  have htext : channelText [] content = thoughtOpening ++ bodyMarker ++ content := by
    rw [channelText, nil_append, append_assoc]
  unfold stripGemma4BareThoughtPrelude
  dsimp only
  rw [htext, htrim, hfind]
  dsimp only
  rw [hcore, if_pos hmarker, hrest, if_neg (index_newline_trimSpace content)]

/-! ### The whole answer -/

section

variable (hreasoning : markerByte ∉ reasoning)

include hreasoning

theorem index_body (t : Bytes) :
    index bodyMarker (reasoning ++ (bodyMarker ++ t)) = some reasoning.length := by
  have hmarker : bodyMarker = markerByte :: ascii "channel|>" := rfl
  rw [hmarker, index_append_of_not_mem hreasoning, ← hmarker, index_prefix, Option.map_some,
    Nat.zero_add]

theorem readSegment_thought :
    readSegment (ascii "thought\n" ++ (reasoning ++ (bodyMarker ++ content))) =
      { channel := ascii "thought", beforeClose := reasoning, afterClose := content } := by
  have hnewline : index [0x0A] (ascii "thought\n" ++ (reasoning ++ (bodyMarker ++ content))) =
      some 7 := index_single (x := ascii "thought") (by decide) _
  unfold readSegment
  rw [hnewline]
  dsimp only
  have hline : (ascii "thought\n" ++ (reasoning ++ (bodyMarker ++ content))).drop (7 + 1) =
      reasoning ++ (bodyMarker ++ content) := rfl
  rw [hline, index_body hreasoning]
  dsimp only
  rw [take_left, ← drop_drop, drop_left, drop_left]
  rfl

theorem index_channelMarker_none
    (hcontent : markerByte ∉ content) :
    index channelMarker (ascii "thought\n" ++ (reasoning ++ (bodyMarker ++ content))) = none := by
  have hmarker : channelMarker = markerByte :: ascii "|channel>" := rfl
  have hbody : bodyMarker ++ content = [markerByte] ++ (ascii "channel|>" ++ content) := rfl
  have hrest : markerByte ∉ ascii "channel|>" ++ content := by
    rw [mem_append, not_or]
    exact ⟨by decide, hcontent⟩
  have hclash : ¬ channelMarker.isPrefixOf (bodyMarker ++ content) = true := by
    intro hpre
    cases (cons_prefix_cons.mp (cons_prefix_cons.mp (List.isPrefixOf_iff_prefix.mp hpre)).2).1
  have hnone : index channelMarker (bodyMarker ++ content) = none := by
    rw [hbody, singleton_append] at hclash ⊢
    rw [index, if_neg hclash, hmarker, index_of_not_mem hrest]
    rfl
  rw [hmarker, index_append_of_not_mem (by decide), index_append_of_not_mem hreasoning, ← hmarker,
    hnone]
  rfl

theorem channelLoop_channelText
    (hcontent : markerByte ∉ content) :
    channelLoop ((channelText reasoning content).length + 1) (channelText reasoning content)
      ⟨[], []⟩ = ⟨content, reasoning⟩ := by
  have htext : channelText reasoning content =
      channelMarker ++ (ascii "thought\n" ++ (reasoning ++ (bodyMarker ++ content))) := by
    show thoughtOpening ++ _ = channelMarker ++ (ascii "thought\n" ++ _)
    rw [← append_assoc]
    rfl
  have hlen : ∃ n, (channelText reasoning content).length = n + 1 := ⟨_, rfl⟩
  obtain ⟨n, hn⟩ := hlen
  rw [hn, channelLoop, htext, index_prefix]
  dsimp only
  rw [Nat.zero_add, drop_left, index_channelMarker_none hreasoning hcontent, Option.getD_none,
    take_length, drop_length, take_zero, append_nil, channelLoop, addSegment,
    readSegment_thought hreasoning]
  show (⟨(([] : Bytes) ++ content) ++ [], [] ++ reasoning⟩ : ReasoningSplit) = _
  rw [append_nil, nil_append, nil_append]

end

theorem split_content (hlower : KeepsMarker lower) {req : ThinkingSettings} {modelHint : Bytes}
    (hhint : isGemma4ModelHint lower modelHint = true)
    (hdisabled : gemma4ReasoningEnabled lower req modelHint = false)
    (hreasoning : markerByte ∉ reasoning) (hcontent : markerByte ∉ content)
    (hprelude : NoPrelude lower content) :
    (splitGemma4ReasoningResponse lower req modelHint (channelText reasoning content)).1 =
      if reasoning ≠ [] ∧ content = [] then behindPrelude lower reasoning
      else trimSpace content := by
  have hhint' : ¬ isGemma4ModelHint lower modelHint = false := by simp [hhint]
  have htext : channelText reasoning content =
      ascii "<|channel>thought" ++ ([0x0A] ++ (reasoning ++ (bodyMarker ++ content))) := rfl
  have hopen : ¬ contains (channelText reasoning content) (ascii "<|channel>thought") = false := by
    rw [contains, htext, index_prefix]
    simp
  unfold splitGemma4ReasoningResponse
  rw [if_neg hhint', if_neg hopen]
  dsimp only
  rw [channelLoop_channelText hreasoning hcontent]
  dsimp only
  by_cases hempty : reasoning = []
  · have hshown : ¬ (reasoning ≠ [] ∧ content = []) := fun h => h.1 hempty
    rw [if_pos hempty, if_neg hshown, hempty]
    dsimp only
    exact sanitize_empty_reasoning hcontent
  by_cases hnone : content = []
  · rw [if_neg hempty, if_pos hnone, if_pos hdisabled, if_pos ⟨hempty, hnone⟩]
    dsimp only
    exact sanitize_eq_behindPrelude hlower hreasoning
  have hshown : ¬ (reasoning ≠ [] ∧ content = []) := fun h => hnone h.2
  rw [if_neg hempty, if_neg hnone, if_neg hshown]
  dsimp only
  rw [sanitize_eq_behindPrelude hlower hcontent, behindPrelude_of hprelude]

/-! ### The stream -/

namespace Gemma4StreamFilter

/-- What is known of the text that was fed and of what was sent on. -/
inductive Streamed (reasoning seen : Bytes) : Bytes → Gemma4StreamFilter → Prop
  | holding (h : seen.length < (channelText reasoning []).length) :
      Streamed reasoning seen [] { pending := seen, started := false, channelMode := false }
  | passing {u sent : Bytes} (hu : IsBlank u)
      (hsent : seen = channelText reasoning [] ++ (u ++ sent)) :
      Streamed reasoning seen sent { pending := [], started := true, channelMode := true }

theorem channelText_append (reasoning content : Bytes) :
    channelText reasoning content = channelText reasoning [] ++ content := by
  simp [channelText]

theorem stripGemma4StreamMarkers_of (hs : markerByte ∉ s) : stripGemma4StreamMarkers s = s := by
  unfold stripGemma4StreamMarkers
  rw [index_eq_none_of_marker rfl hs, index_eq_none_of_marker rfl hs]

theorem index_body_channelText (hreasoning : markerByte ∉ reasoning) (t : Bytes) :
    index bodyMarker (channelText reasoning t) =
      some (thoughtOpening.length + reasoning.length) := by
  have hopening : thoughtOpening = markerByte :: ascii "|channel>thought\n" := rfl
  have hclash : ¬ bodyMarker.isPrefixOf (channelText reasoning t) = true := by
    intro hpre
    cases (cons_prefix_cons.mp (cons_prefix_cons.mp (List.isPrefixOf_iff_prefix.mp hpre)).2).1
  have hmarker : bodyMarker = markerByte :: ascii "channel|>" := rfl
  have hrest : index bodyMarker
      (ascii "|channel>thought\n" ++ (reasoning ++ (bodyMarker ++ t))) =
        some (reasoning.length + 17) := by
    rw [hmarker, index_append_of_not_mem (by decide), ← hmarker, index_body hreasoning]
    rfl
  have hcons : channelText reasoning t =
      markerByte :: (ascii "|channel>thought\n" ++ (reasoning ++ (bodyMarker ++ t))) := rfl
  rw [hcons] at hclash ⊢
  rw [index, if_neg hclash, hrest, Option.map_some]
  show some (reasoning.length + 17 + 1) = some (18 + reasoning.length)
  rw [Nat.add_comm 18]

theorem channelText_length (reasoning content : Bytes) : (channelText reasoning content).length =
      thoughtOpening.length + reasoning.length + bodyMarker.length + content.length := by
  simp only [channelText, length_append]
  omega

theorem exists_content {text : Bytes} (htext : text <+: channelText reasoning content)
    (hlong : ¬ text.length < (channelText reasoning []).length) :
    ∃ t, t <+: content ∧ text = channelText reasoning [] ++ t := by
  rw [channelText_append] at htext
  obtain ⟨t, rfl⟩ := prefix_of_prefix_length_le (prefix_append _ _) htext (by omega)
  exact ⟨t, (prefix_append_right_inj _).mp htext, rfl⟩

theorem trimLeft_channelText {text : Bytes} (htext : text <+: channelText reasoning content) :
    trimLeft asciiBlanks text = text := by
  cases text with
  | nil => rfl
  | cons b text =>
    have hb : b = markerByte := by
      obtain ⟨t, ht⟩ := htext
      exact (List.cons.inj ht).1
    have hblank : ¬ asciiBlanks.contains b = true := by
      rw [hb]
      decide
    exact dropWhile_cons_of_neg hblank

theorem filter_holding (hreasoning : markerByte ∉ reasoning) (hcontent : markerByte ∉ content)
    {seen chunk : Bytes} (htext : seen ++ chunk <+: channelText reasoning content)
    (hchunk : chunk ≠ []) :
    ∃ out s', filter { pending := seen, started := false, channelMode := false } chunk =
      (out, s') ∧ Streamed reasoning (seen ++ chunk) out s' := by
  have hstart : channelMarker <+: channelText reasoning content := ⟨_, rfl⟩
  have hlen := channelText_length reasoning []
  have hopening : thoughtOpening.length = 18 := rfl
  unfold filter
  rw [if_neg hchunk, if_neg Bool.false_ne_true]
  dsimp only
  rw [trimLeft_channelText htext]
  by_cases hshort : (seen ++ chunk).isPrefixOf channelMarker = true
  · rw [if_pos hshort]
    refine ⟨_, _, rfl, .holding ?_⟩
    have hle := (List.isPrefixOf_iff_prefix.mp hshort).length_le
    have hmarker : channelMarker.length = 10 := rfl
    omega
  have hbegun : channelMarker.isPrefixOf (seen ++ chunk) = true := by
    refine isPrefixOf_iff_prefix.mpr ?_
    rcases prefix_or_prefix_of_prefix hstart htext with hlong | hpre
    · exact hlong
    · exact absurd (List.isPrefixOf_iff_prefix.mpr hpre) hshort
  rw [if_neg hshort, if_neg (by rw [hbegun]; exact Bool.noConfusion)]
  by_cases hlong : (seen ++ chunk).length < (channelText reasoning []).length
  · -- the body marker is not all there
    have hnone : index bodyMarker (seen ++ chunk) = none := by
      cases hindex : index bodyMarker (seen ++ chunk) with
      | none => rfl
      | some i =>
        exfalso
        obtain ⟨t, ht⟩ := htext
        have hwhole := index_append_of_some (t := t) hindex
        rw [ht, index_body_channelText hreasoning] at hwhole
        have hend := index_add_length_le hindex
        rw [← Option.some.inj hwhole] at hend
        simp only [length_nil] at hlen
        omega
    rw [hnone]
    exact ⟨_, _, rfl, .holding hlong⟩
  · obtain ⟨t, ht, hseen⟩ := exists_content htext hlong
    have htmarker : markerByte ∉ t := fun h => hcontent (ht.mem h)
    have hblank : IsBlank asciiBlanks := by
      unfold IsBlank
      decide +kernel
    obtain ⟨u, hu, hsplit⟩ := exists_trimLeft hblank t
    have hrest : markerByte ∉ trimLeft asciiBlanks t := by
      rw [hsplit] at htmarker
      exact fun h => htmarker (mem_append_right u h)
    have hdrop : (channelText reasoning [] ++ t).drop
        (thoughtOpening.length + reasoning.length + bodyMarker.length) = t := by
      have hwhole : thoughtOpening.length + reasoning.length + bodyMarker.length =
          (channelText reasoning []).length := by
        rw [hlen, length_nil, Nat.add_zero]
      rw [hwhole, drop_left]
    rw [hseen]
    have hindex := index_body_channelText hreasoning t
    rw [channelText_append] at hindex
    rw [hindex]
    dsimp only
    rw [hdrop, stripGemma4StreamMarkers_of hrest]
    exact ⟨_, _, rfl, .passing hu (by rw [← hsplit])⟩

/-- **A chunk keeps what is known**, wherever the answer was cut. -/
theorem streamed_keeps (lower : Char → Char) (env : Option Bytes)
    (hreasoning : markerByte ∉ reasoning) (hcontent : markerByte ∉ content) :
    (streamFilter lower env).Keeps (fun text => text <+: channelText reasoning content)
      (Streamed reasoning) := by
  intro seen sent f chunk htext hstreamed
  by_cases hchunk : chunk = []
  · subst hchunk
    refine ⟨[], f, ?_, by simpa using hstreamed⟩
    show some (filter f []) = _
    rw [filter, if_pos rfl]
  cases hstreamed with
  | holding h =>
    obtain ⟨out, s', hfilter, hstreamed⟩ :=
      filter_holding hreasoning hcontent htext hchunk
    exact ⟨out, s', congrArg some hfilter, hstreamed⟩
  | @passing u sent hu hsent =>
    have hmarker : markerByte ∉ chunk := by
      rw [hsent, channelText_append reasoning content, append_assoc] at htext
      have hrest := (prefix_append_right_inj _).mp htext
      exact fun h => hcontent (hrest.mem (mem_append_right _ h))
    refine ⟨chunk, _, ?_, .passing hu (by rw [hsent]; simp)⟩
    show some (filter _ chunk) = _
    rw [filter, if_neg hchunk, if_pos rfl, if_pos rfl, stripGemma4StreamMarkers_of hmarker]

theorem stream_content (lower : Char → Char) (env : Option Bytes)
    (hreasoning : markerByte ∉ reasoning) (hcontent : markerByte ∉ content)
    {chunks : List Bytes} (hcut : chunks.flatten = channelText reasoning content) :
    ∃ out, (streamFilter lower env).stream chunks = some out ∧
      trimSpace out = trimSpace content := by
  have hstart : Streamed reasoning [] [] {} := by
    refine .holding ?_
    rw [channelText_length]
    exact Nat.succ_pos _
  obtain ⟨out, hout, hresult⟩ := (streamed_keeps lower env hreasoning hcontent).stream
    (fun seen out => seen = channelText reasoning content → trimSpace out = trimSpace content)
    hstart
    (fun seen sent f _ hstreamed => by
      refine ⟨f.flush lower env, rfl, fun hseen => ?_⟩
      cases hstreamed with
      | holding h =>
        rw [hseen, channelText_length, channelText_length, length_nil] at h
        omega
      | passing hu hsent =>
        rw [hsent, channelText_append reasoning content] at hseen
        rw [← append_cancel_left hseen, trimSpace_blank_append hu]
        show trimSpace (sent ++ []) = _
        rw [append_nil])
    chunks (fun u hu => by rw [← hcut]; exact hu)
  exact ⟨out, hout, hresult hcut⟩

theorem behindPrelude_nil (lower : Char → Char) : behindPrelude lower [] = [] := by
  have hne : ∀ p ∈ thoughtLines ++ thinkSilently, p ≠ [] := by decide
  exact behindPrelude_of fun p hp hpre => hne p hp (prefix_nil.mp hpre)

/-- **The stream and the whole answer show the same content** exactly if there is content,
or the reasoning is no more than a prelude. -/
theorem stream_eq_split_iff (lower : Char → Char) (hlower : KeepsMarker lower)
    (req : ThinkingSettings) (modelHint reasoning content : Bytes)
    (hhint : isGemma4ModelHint lower modelHint = true)
    (hdisabled : gemma4ReasoningEnabled lower req modelHint = false)
    (hreasoning : markerByte ∉ reasoning) (hcontent : markerByte ∉ content)
    (hprelude : NoPrelude lower content) (chunks : List Bytes)
    (hcut : chunks.flatten = channelText reasoning content) :
    (∃ out, (streamFilter lower req.env).stream chunks = some out ∧ trimSpace out = trimSpace
          (splitGemma4ReasoningResponse lower req modelHint chunks.flatten).1) ↔
      content ≠ [] ∨ behindPrelude lower reasoning = [] := by
  obtain ⟨out, hout, hsame⟩ := stream_content lower req.env hreasoning hcontent hcut
  rw [hout, hcut, split_content hlower hhint hdisabled hreasoning hcontent hprelude]
  have hstream : ∀ shown : Bytes, (∃ o, some out = some o ∧ trimSpace o = trimSpace shown) ↔
      trimSpace content = trimSpace shown := by
    intro shown
    refine ⟨fun ⟨o, ho, heq⟩ => ?_, fun heq => ⟨out, rfl, hsame.trans heq⟩⟩
    rw [← hsame, Option.some.inj ho, heq]
  rw [hstream]
  by_cases hfallback : reasoning ≠ [] ∧ content = []
  · obtain ⟨-, rfl⟩ := id hfallback
    have htrim : trimSpace (behindPrelude lower reasoning) = behindPrelude lower reasoning :=
      trimSpace_stripLowerPrefix _ (trimSpace_stripLowerPrefix _ (trimSpace_trimSpace _))
    rw [if_pos hfallback, htrim]
    have hnil : trimSpace [] = [] := rfl
    rw [hnil]
    exact ⟨fun h => Or.inr h.symm, fun h => (h.resolve_left fun hne => hne rfl).symm⟩
  rw [if_neg hfallback, trimSpace_trimSpace]
  refine ⟨fun _ => ?_, fun _ => rfl⟩
  by_cases hnone : content = []
  · have hempty : reasoning = [] := by
      by_contra hne
      exact hfallback ⟨hne, hnone⟩
    rw [hempty]
    exact Or.inr (behindPrelude_nil lower)
  · exact Or.inl hnone

theorem keepsMarker_id : KeepsMarker id := by
  intro c hc heq
  have hvalue : markerByte.toNat = 0x3C := rfl
  rw [id_eq] at heq
  omega

theorem reply_stream_eq_split : ∃ out, (streamFilter id none).stream
        [ascii "<|channel>thought\npl", ascii "an<channel|> 4"] = some out ∧
      trimSpace out = trimSpace (splitGemma4ReasoningResponse id {} (ascii "gemma4")
        ([ascii "<|channel>thought\npl", ascii "an<channel|> 4"].flatten)).1 :=
  (stream_eq_split_iff id keepsMarker_id {} (ascii "gemma4")
    (ascii "plan") (ascii " 4") (by decide +kernel) (by decide +kernel) (by decide) (by decide)
    (by unfold NoPrelude; decide +kernel) _ (by decide)).mpr (Or.inl (by decide))

/-- A reply that ends behind its reasoning: the stream shows nothing, the whole answer
the reasoning. -/
theorem no_content_reasoning_shown : isGemma4ModelHint id (ascii "gemma4") = true ∧
      gemma4ReasoningEnabled id {} (ascii "gemma4") = false ∧ NoPrelude id [] ∧
      (streamFilter id none).stream [channelText (ascii "plan") []] = some [] ∧
      (splitGemma4ReasoningResponse id {} (ascii "gemma4") (channelText (ascii "plan") [])).1 =
        ascii "plan" ∧
      trimSpace [] ≠ trimSpace (ascii "plan") := by
  refine ⟨by decide +kernel, by decide +kernel, ?_, by decide +kernel, by decide +kernel,
    by decide +kernel⟩
  unfold NoPrelude
  decide +kernel

end Gemma4StreamFilter

end DenseCore.Server
