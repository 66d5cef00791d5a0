/-
What reaches the client of a request whose text has no tags in it.

On such a text each filter only delays: what it has put out and what it holds back
are together what it was given, and it holds back the beginning of a tag that its
input ends with.  Three of them in a row delay three times.  Nothing drains them
when the request finishes, so the client receives the whole text exactly when it
does not end with the beginning of one of the six tags.
-/
import DenseCore.Proofs.Runtime.Utf8Prefix
import DenseCore.Proofs.Runtime.TagChunks

namespace DenseCore.Runtime

open List

open DenseCore.Lib

variable {T : Tags UInt8}

/-- None of the six tags occurs. -/
def NoTag (text : Text) : Prop :=
  ∀ block : SuppressedBlock, ¬ block.openTag <:+: text ∧ ¬ block.closeTag <:+: text

/-- Neither control marker occurs. -/
def NoMarker (text : Text) : Prop := ∀ marker ∈ controlMarkers, ¬ marker <:+: text

/-- The text ends with some of the first bytes of a tag, but not all of them. -/
def EndsInTagBeginning (text : Text) : Prop :=
  ∃ block : SuppressedBlock, ∃ y, y <:+ text ∧
    (Tags.Begins block.openTag y ∨ Tags.Begins block.closeTag y)

variable {s : StreamState} {t text u out shown : Text} {state : TagState} {req : StreamRequest}

theorem NoTag.of_infix {s : Text} (h : NoTag t) (hst : s <:+: t) : NoTag s :=
  fun block => ⟨fun hin => (h block).1 (hin.trans hst), fun hin => (h block).2 (hin.trans hst)⟩

theorem NoMarker.of_infix {s : Text} (h : NoMarker t) (hst : s <:+: t) : NoMarker s :=
  fun marker hm hin => h marker hm (hin.trans hst)

/-! ### Control markers -/

theorem findFirst_of_absent {pattern : Text} (hne : pattern ≠ [])
    (h : ¬ pattern <:+: text) : findFirst pattern text = none := by
  induction text with
  | nil =>
    show (if pattern.isEmpty then _ else _) = _
    rw [if_neg (by simpa using hne)]
  | cons a rest ih =>
    rw [findFirst_cons_of_neg (fun hp => h hp.isInfix),
      ih (fun hin => h (hin.trans (suffix_cons a rest).isInfix))]
    rfl

theorem eraseMarker_of_absent {marker : Text} (hne : marker ≠ [])
    (h : ¬ marker <:+: text) (fuel pos : Nat) : eraseMarker marker fuel pos text = text := by
  cases fuel with
  | zero => rfl
  | succ fuel =>
    have hdrop : ¬ marker <:+: text.drop pos :=
      fun hin => h (hin.trans (drop_suffix pos text).isInfix)
    rw [eraseMarker, find, findFirst_of_absent hne hdrop]
    rfl

theorem suppressQwenVisibleControlMarkers_of_absent (h : NoMarker text) :
    suppressQwenVisibleControlMarkers text = text := by
  show eraseMarker (bytes "/nothink") _ 0 (eraseMarker (bytes "/no_think") _ 0 text) = text
  rw [eraseMarker_of_absent (by decide) (h _ (by simp [controlMarkers])),
    eraseMarker_of_absent (by decide) (h _ (by simp [controlMarkers]))]

/-! ### A filter as a delay -/

/-- A filter was given `u`: it has put out `out` and holds back what `u` ends with. -/
structure Delayed (T : Tags UInt8) (u out : Text) (state : TagState) : Prop where
  outside : state.inBlock = false
  split : out ++ state.pending = u
  pending : state.pending = held T u

theorem Delayed.out_begins (h : Delayed T u out state) : out <+: u := ⟨_, h.split⟩

/-- A filter has put out all it was given when it holds nothing back. -/
theorem Delayed.out_eq_iff (h : Delayed T u out state) : out = u ↔ held T u = [] := by
  have hsplit := h.split
  rw [h.pending] at hsplit
  constructor
  · rintro rfl
    simpa using hsplit
  intro hnil
  rwa [hnil, append_nil] at hsplit

theorem held_append (u v : Text) : held T (held T u ++ v) = held T (u ++ v) := by
  have hsub : held T u ++ v <:+ u ++ v := by
    obtain ⟨w, hw⟩ := held_suffix T u
    exact ⟨w, by rw [← append_assoc, hw]⟩
  rcases held_spec T (u ++ v) with ⟨hnil, hno⟩ | hheld
  · rcases held_spec T (held T u ++ v) with ⟨hnil', -⟩ | hheld'
    · rw [hnil, hnil']
    · exact absurd ((held_suffix T _).trans hsub) (hno _ hheld')
  refine held_eq_of_suffix hheld ?_
  rcases suffix_append_cases (held_suffix T (u ++ v)) with hs | ⟨x, hx, hxs, heq⟩
  · exact hs.trans (suffix_append _ _)
  rw [heq] at hheld ⊢
  rw [held_eq_of_suffix (isBeginning_of_append hx hheld) hxs]

theorem held_eq_nil_iff (u : Text) : held T u = [] ↔ ∀ y, T.IsBeginning y → ¬ y <:+ u := by
  constructor
  · intro hnil y hy hs
    rw [held_eq_of_suffix hy hs] at hnil
    exact hy.ne_nil hnil
  intro hno
  rcases held_spec T u with ⟨hnil, -⟩ | hheld
  · exact hnil
  · exact absurd (held_suffix T u) (hno _ hheld)

theorem callResult_of_absent {current : Text} (ho : ¬ T.opening <:+: current)
    (hc : ¬ T.closing <:+: current) :
    callResult T .outside current = (emitted T current, ⟨false, held T current⟩) := by
  unfold callResult
  rw [Tags.lex_of_absent ho hc, Mode.after_plain, Mode.visible_plain_outside]

/-- **One call**: what the filter puts out extends what it has put out. -/
theorem Delayed.filter {block : SuppressedBlock}
    (h : Delayed block.tags u out state) (htag : NoTag (u ++ t)) :
    Delayed block.tags (u ++ t) (out ++ (block.filter state t).1) (block.filter state t).2 := by
  have hcall : block.filter state t = (emitted block.tags (state.pending ++ t),
      ⟨false, held block.tags (state.pending ++ t)⟩) := by
    have hsuffix : state.pending ++ t <:+ u ++ t := ⟨out, by rw [← append_assoc, h.split]⟩
    obtain ⟨ho, hc⟩ := htag.of_infix hsuffix.isInfix block
    rw [← block.opening_tags] at ho
    rw [← block.closing_tags] at hc
    unfold SuppressedBlock.filter
    rw [← block.opening_tags, ← block.closing_tags, suppressTaggedBlock_eq, TagState.mode,
      h.outside]
    exact callResult_of_absent ho hc
  rw [hcall]
  refine ⟨rfl, ?_, ?_⟩
  · show out ++ emitted _ _ ++ held _ _ = _
    rw [append_assoc, emitted_append_held, ← append_assoc, h.split]
  show held _ _ = _
  rw [h.pending, held_append]

theorem Delayed.skip (h : Delayed T u out state)
    (hnil : state.pending = []) (ht : T.mark ∉ t) : Delayed T (u ++ t) (out ++ t) state := by
  have hsplit := h.split
  rw [hnil, append_nil] at hsplit
  refine ⟨h.outside, by rw [hnil, append_nil, hsplit], ?_⟩
  rw [hnil, eq_comm, held_eq_nil_iff]
  intro y hy hs
  rcases suffix_append_cases hs with hin | ⟨x, hx, hxs, rfl⟩
  · obtain ⟨z, rfl, -⟩ := hy.eq_mark_cons
    exact ht (hin.subset (by simp))
  · exact (held_eq_nil_iff u).mp (h.pending.symm.trans hnil) x (isBeginning_of_append hx hy) hxs

/-! ### The three filters -/

/-- The filters were given `u`, one after the other, and have put out `shown`. -/
structure Filtered (s : StreamState) (u shown : Text) : Prop where
  chain : ∃ out1 out2, Delayed SuppressedBlock.think.tags u out1 s.think ∧
    Delayed SuppressedBlock.toolCall.tags out1 out2 s.toolCall ∧
    Delayed SuppressedBlock.toolResponse.tags out2 shown s.toolResponse

theorem held_nil (T : Tags UInt8) : held T [] = [] := by
  rw [held_eq_nil_iff]
  intro y hy hs
  exact hy.ne_nil (suffix_nil.mp hs)

theorem Filtered.start : Filtered {} [] [] :=
  ⟨[], [], ⟨rfl, rfl, (held_nil _).symm⟩, ⟨rfl, rfl, (held_nil _).symm⟩,
    ⟨rfl, rfl, (held_nil _).symm⟩⟩

theorem Filtered.shown_begins (h : Filtered s u shown) : shown <+: u := by
  obtain ⟨out1, out2, h1, h2, h3⟩ := h.chain
  exact (h3.out_begins.trans h2.out_begins).trans h1.out_begins

theorem Filtered.suppressBlocks (h : Filtered s u shown) (htag : NoTag (u ++ t)) :
    Filtered (suppressBlocks s t).2 (u ++ t) (shown ++ (suppressBlocks s t).1) := by
  obtain ⟨out1, out2, h1, h2, h3⟩ := h.chain
  unfold DenseCore.Runtime.suppressBlocks
  by_cases hmay : mayContainTag s t
  · rw [if_pos hmay]
    have g1 := h1.filter htag
    have c1 := htag.of_infix g1.out_begins.isInfix
    have g2 := h2.filter c1
    have c2 := c1.of_infix g2.out_begins.isInfix
    exact ⟨_, _, g1, g2, h3.filter c2⟩
  rw [if_neg hmay]
  simp only [mayContainTag, h1.outside, h2.outside, h3.outside, Bool.false_or,
    Bool.or_eq_true, Bool.not_eq_eq_eq_not, Bool.not_true, not_or,
    isEmpty_eq_false_iff, ne_eq, not_not, contains_iff_mem] at hmay
  obtain ⟨⟨⟨e1, e2⟩, e3⟩, hlt⟩ := hmay
  exact ⟨_, _, h1.skip e1 hlt, h2.skip e2 hlt, h3.skip e3 hlt⟩

theorem isBeginning_tags_iff (block : SuppressedBlock) (y : Text) : block.tags.IsBeginning y ↔
      (Tags.Begins block.openTag y ∨ Tags.Begins block.closeTag y) := by
  rw [← block.opening_tags, ← block.closing_tags]
  rfl

theorem not_endsInTagBeginning_iff (u : Text) :
    ¬ EndsInTagBeginning u ↔ ∀ block : SuppressedBlock, held block.tags u = [] := by
  constructor
  · intro hno block
    rw [held_eq_nil_iff]
    exact fun y hy hs => hno ⟨block, y, hs, (isBeginning_tags_iff block y).mp hy⟩
  rintro hnil ⟨block, y, hs, hy⟩
  exact (held_eq_nil_iff u).mp (hnil block) y ((isBeginning_tags_iff block y).mpr hy) hs

theorem Filtered.shown_eq_iff (h : Filtered s u shown) : shown = u ↔ ¬ EndsInTagBeginning u := by
  obtain ⟨out1, out2, h1, h2, h3⟩ := h.chain
  rw [not_endsInTagBeginning_iff]
  constructor
  · rintro rfl
    -- all three filters have put out all they were given
    have e1 : out1 = shown := h1.out_begins.eq_of_length_le
      (h3.out_begins.trans h2.out_begins).length_le
    subst e1
    have e2 : out2 = out1 := h2.out_begins.eq_of_length_le h3.out_begins.length_le
    subst e2
    intro block
    cases block with
    | think => exact h1.out_eq_iff.mp rfl
    | toolCall => exact h2.out_eq_iff.mp rfl
    | toolResponse => exact h3.out_eq_iff.mp rfl
  intro hnil
  obtain rfl := h1.out_eq_iff.mpr (hnil .think)
  obtain rfl := h2.out_eq_iff.mpr (hnil .toolCall)
  exact h3.out_eq_iff.mpr (hnil .toolResponse)

/-! ### A run -/

/-- A request in the middle of its text: `passed` has gone through the filters,
`shown` has come out, and `rest` has not been generated. -/
structure Streaming (s : StreamState) (passed shown rest : Text) : Prop where
  joined : Joined passed s.utf8Pending rest
  filtered : Filtered s passed shown

theorem Filtered.congr {s' : StreamState} (h : Filtered s u shown)
    (h1 : s'.think = s.think) (h2 : s'.toolCall = s.toolCall)
    (h3 : s'.toolResponse = s.toolResponse) : Filtered s' u shown := by
  obtain ⟨out1, out2, hd⟩ := h.chain
  exact ⟨out1, out2, by rwa [h1, h2, h3]⟩

theorem suppressBlocks_utf8Pending (s : StreamState) (t : Text) :
    (suppressBlocks s t).2.utf8Pending = s.utf8Pending := by
  unfold suppressBlocks
  split <;> rfl

theorem Filtered.visibleText (hreq : req.suppressesTags) (h : Filtered s u shown)
    (htag : NoTag (u ++ t))
    (hmarker : NoMarker (u ++ t)) :
    Filtered (visibleText req s t).2 (u ++ t) (shown ++ (visibleText req s t).1) ∧
      (visibleText req s t).2.utf8Pending = s.utf8Pending := by
  have hjson : req.jsonMode = false := by
    simp only [StreamRequest.suppressesTags, Bool.and_eq_true, Bool.not_eq_true'] at hreq
    exact hreq.1.1.1
  unfold DenseCore.Runtime.visibleText
  cases t with
  | nil => simpa [hjson] using h
  | cons a t =>
    have hnext := h.suppressBlocks htag
    have hinfix : (DenseCore.Runtime.suppressBlocks s (a :: t)).1 <:+: u ++ a :: t :=
      (suffix_append _ _).isInfix.trans hnext.shown_begins.isInfix
    have hon : (!(a :: t).isEmpty && req.suppressesTags) = true := by simp [hreq]
    simp only [hon, if_true, suppressQwenVisibleControlMarkers_of_absent
      (hmarker.of_infix hinfix), ite_self]
    exact ⟨hnext, suppressBlocks_utf8Pending s _⟩

theorem emit_flatten (hreq : req.suppressesTags) (text : Text) :
    (emit req text).flatten = if req.hasCallback then text else [] := by
  have htok : req.tokenResultCallback = false := by
    simp only [StreamRequest.suppressesTags, Bool.and_eq_true, Bool.not_eq_true'] at hreq
    exact hreq.1.1.2
  unfold emit
  rw [htok]
  cases text <;> cases req.hasCallback <;> simp

/-- The text of a token, and what the filters know when it has gone through. -/
def shownText (req : StreamRequest) (s : StreamState) (tok : GeneratedToken) : Text × StreamState :=
  visibleText req { s with utf8Pending := (reassemble s.utf8Pending tok.piece).2 }
    (reassemble s.utf8Pending tok.piece).1

theorem generateToken_spec (req : StreamRequest) (s : StreamState) (tok : GeneratedToken) :
    (generateToken req s tok).2.1 = emit req (shownText req s tok).1 ∧
      (generateToken req s tok).1.utf8Pending = (shownText req s tok).2.utf8Pending ∧
      ∀ u shown, Filtered (shownText req s tok).2 u shown →
        Filtered (generateToken req s tok).1 u shown :=
  ⟨rfl, rfl, fun _ _ h => h.congr rfl rfl rfl⟩

/-- **One token.** -/
theorem Streaming.generateToken (hreq : req.suppressesTags) {tok : GeneratedToken}
    {passed rest : Text}
    (h : Streaming s passed shown (tok.piece ++ rest))
    (htag : NoTag (passed ++ s.utf8Pending ++ (tok.piece ++ rest)))
    (hmarker : NoMarker (passed ++ s.utf8Pending ++ (tok.piece ++ rest))) :
    ∃ passed' more, Streaming (generateToken req s tok).1 passed' (shown ++ more) rest ∧
      passed' ++ (generateToken req s tok).1.utf8Pending = passed ++ s.utf8Pending ++ tok.piece ∧
      (generateToken req s tok).2.1.flatten = if req.hasCallback then more else [] := by
  obtain ⟨hsplit, hjoined⟩ := h.joined.piece
  have hwhole : passed ++ s.utf8Pending ++ (tok.piece ++ rest) =
      passed ++ (reassemble s.utf8Pending tok.piece).1 ++
        ((reassemble s.utf8Pending tok.piece).2 ++ rest) := by
    rw [← append_assoc, ← append_assoc, append_assoc passed, ← hsplit]
    simp
  have hinfix := List.IsPrefix.isInfix
    (prefix_append (passed ++ (reassemble s.utf8Pending tok.piece).1)
      ((reassemble s.utf8Pending tok.piece).2 ++ rest))
  rw [hwhole] at htag hmarker
  have hfilter : Filtered { s with utf8Pending := (reassemble s.utf8Pending tok.piece).2 }
      passed shown := h.filtered.congr rfl rfl rfl
  obtain ⟨hvis, hpending⟩ :=
    hfilter.visibleText hreq (htag.of_infix hinfix) (hmarker.of_infix hinfix)
  obtain ⟨hout, hwaiting, hkeeps⟩ := generateToken_spec req s tok
  change (shownText req s tok).2.utf8Pending = _ at hpending
  rw [hout, hwaiting, hpending]
  refine ⟨_, _, ⟨?_, hkeeps _ _ hvis⟩, ?_, emit_flatten hreq _⟩
  · rwa [hwaiting, hpending]
  · rw [append_assoc, hsplit, append_assoc]

/-- **A whole run** ends with nothing waiting for a boundary, and has emitted what
the filters have let through. -/
theorem Streaming.generate (hreq : req.suppressesTags)
    {tokens : List GeneratedToken} {passed : Text} {out : List Text}
    (h : Streaming s passed shown (generatedText tokens))
    (htag : NoTag (passed ++ s.utf8Pending ++ generatedText tokens))
    (hmarker : NoMarker (passed ++ s.utf8Pending ++ generatedText tokens))
    (hrun : generate req s tokens = some out) :
    ∃ s' more, Filtered s' (passed ++ s.utf8Pending ++ generatedText tokens) (shown ++ more) ∧
      out.flatten = if req.hasCallback then more else [] := by
  induction tokens generalizing s passed shown out with
  | nil => cases hrun
  | cons tok rest ih =>
    have htext : generatedText (tok :: rest) = tok.piece ++ generatedText rest := rfl
    rw [htext] at h htag hmarker ⊢
    obtain ⟨passed', more, hnext, hpassed, hout⟩ := h.generateToken hreq htag hmarker
    rw [← append_assoc, ← hpassed] at htag hmarker ⊢
    unfold DenseCore.Runtime.generate at hrun
    generalize DenseCore.Runtime.generateToken req s tok = r at *
    obtain ⟨s', emitted, cause⟩ := r
    cases cause with
    | none =>
      obtain ⟨later, hlater, rfl⟩ := Option.map_eq_some_iff.mp hrun
      obtain ⟨last, evenMore, hlast, hflat⟩ := ih hnext htag hmarker hlater
      refine ⟨last, more ++ evenMore, by rwa [← append_assoc], ?_⟩
      rw [flatten_append, hout, hflat]
      split <;> simp
    | some cause =>
      -- the last token: nothing waits, so the flush emits nothing
      by_cases hlast : rest.isEmpty
      · obtain rfl := List.isEmpty_iff.mp hlast
        have hwaiting : s'.utf8Pending = [] := hnext.joined.eq_nil
        dsimp only at hrun hout ⊢
        rw [if_pos hlast, flushTail, hwaiting] at hrun
        obtain rfl : emitted = out := by simpa using hrun
        refine ⟨s', more, ?_, hout⟩
        rw [hwaiting]
        simpa [generatedText] using hnext.filtered
      · simp [hlast] at hrun

/-- **When a request shows its whole text**: exactly when somebody receives it and
it does not end with the beginning of a tag.  For every request with the filters
on, and every run that finishes. -/
theorem emitted_eq_text_iff {req : StreamRequest} (hreq : req.suppressesTags)
    {tokens : List GeneratedToken} {out : List Text}
    (hrun : generate req {} tokens = some out)
    (hvalid : Utf8.Valid (generatedText tokens)) (htag : NoTag (generatedText tokens))
    (hmarker : NoMarker (generatedText tokens)) :
    out.flatten = generatedText tokens ↔ generatedText tokens = [] ∨
        req.hasCallback ∧ ¬ EndsInTagBeginning (generatedText tokens) := by
  have hstart : Streaming {} [] [] (generatedText tokens) := ⟨Joined.start hvalid, Filtered.start⟩
  obtain ⟨s', shown, hfiltered, hout⟩ := hstart.generate hreq htag hmarker hrun
  simp only [nil_append] at hfiltered
  rw [hout]
  cases hcall : req.hasCallback with
  | false =>
    rw [if_neg Bool.false_ne_true]
    constructor
    · exact fun h => Or.inl h.symm
    rintro (h | ⟨h, -⟩)
    · exact h.symm
    · cases h
  | true =>
    rw [if_pos rfl, hfiltered.shown_eq_iff]
    constructor
    · exact fun h => Or.inr ⟨rfl, h⟩
    rintro (hnil | ⟨-, h⟩)
    · rintro ⟨block, y, hs, hy⟩
      rw [hnil] at hs
      exact ((isBeginning_tags_iff block y).mpr hy).ne_nil (suffix_nil.mp hs)
    · exact h

/-- An arrow over two tokens, cut at its `<`: the second token lets it through. -/
theorem generate_leftArrow :
    ∃ out, generate { maxTokens := 2 } {} [⟨bytes "a <", false⟩, ⟨bytes "- b", false⟩] = some out ∧
      out.flatten = bytes "a <- b" := by
  have hrun : generate { maxTokens := 2 } {} [⟨bytes "a <", false⟩, ⟨bytes "- b", false⟩] =
      some [bytes "a ", bytes "<- b"] := by decide +kernel
  refine ⟨_, hrun, ?_⟩
  refine (emitted_eq_text_iff rfl hrun ⟨"a <- b".toList, by decide +kernel⟩ ?_ ?_).mpr
    (Or.inr ⟨rfl, ?_⟩)
  · intro block
    cases block <;> decide +kernel
  · unfold NoMarker
    decide +kernel
  rw [not_endsInTagBeginning_iff]
  intro block
  cases block <;> decide +kernel

/-- **A comparison at the end loses its sign**: the text `1 <` is emitted as `1 `. -/
theorem generate_loses_lessThan :
    ¬ ∀ (req : StreamRequest) (tokens : List GeneratedToken) (out : List Text),
      req.suppressesTags → generate req {} tokens = some out →
      Utf8.Valid (generatedText tokens) → NoTag (generatedText tokens) →
      NoMarker (generatedText tokens) → out.flatten = generatedText tokens := by
  intro hall
  have hrun : generate { maxTokens := 1 } {} [⟨bytes "1 <", false⟩] = some [bytes "1 "] := by
    decide +kernel
  have hloss := hall { maxTokens := 1 } _ _ rfl hrun ⟨"1 <".toList, by decide +kernel⟩ ?_ ?_
  · revert hloss
    decide +kernel
  · intro block
    cases block <;> decide +kernel
  unfold NoMarker
  decide +kernel

end DenseCore.Runtime
