/-
Which texts the tag suppression reads the same however they are cut.

The state between two calls forgets things.  A call that opens a block and ends
inside it drops the beginning of a close tag it has already seen; a call that
ends outside holds back the end of what it has put out, which need not be the
end of what it was given.  `Steady` says when neither can be noticed, and it is
exact: a text is steady just when every way of cutting it into chunks gives what
one call gives.

The argument for a steady text merges the first chunk into the rest.  One more
call from the state after a chunk does what one call would have done from before
it, and the rest of the text, read from that state, is steady again.
-/
import DenseCore.Proofs.Runtime.TagCall

namespace DenseCore.Runtime

open List

open DenseCore.Lib

variable {T : Tags UInt8}

/-! ### Steady texts

What is kept between two calls is less than the whole text tells. A text is steady if no cut can
show what is forgotten: the beginning of a close tag that is dropped, or the text around a block
that is cut out.
-/

/-- The tokens begin with a tag. -/
def StartsWithTag (ts : List (Token UInt8)) : Prop :=
  ∃ rest, ts = .opening :: rest ∨ ts = .closing :: rest

/-- A close tag that ends a block opened on the way is followed by another tag. -/
def ClosesFollowed (m : Mode) (ts : List (Token UInt8)) : Prop :=
  ∀ a b, ts = a ++ .closing :: b → m.after a = .opened → StartsWithTag b

/-- A text whose chunks can be cut anywhere.  Read from mode `m`:

  * a close tag that ends a block opened in the text is followed by a tag;
  * if the text ends in such a block, it does not end with the beginning of a
    close tag;
  * what is left when the blocks and tags are cut out has no tag in it, and if
    the text ends outside a block, the beginning of a tag it ends with is the
    end of the text itself. -/
structure Steady (T : Tags UInt8) (m : Mode) (text : Text) : Prop where
  followed : ClosesFollowed m (T.lex text)
  openEnd : m.after (T.lex text) = .opened → ∀ y, Tags.Begins T.closing y → ¬ y <:+ text
  noOpening : ¬ T.opening <:+: m.visible (T.lex text)
  noClosing : ¬ T.closing <:+: m.visible (T.lex text)
  endHeld : m.after (T.lex text) = .outside →
    ∀ y, T.IsBeginning y → y <:+ m.visible (T.lex text) → y <:+ text

variable {m : Mode} {p v y u current text : Text} {r : Text × TagState} {inBlock : Bool}

variable {ts : List (Token UInt8)} {tag x : Text}

theorem ClosesFollowed.drop {ts' : List (Token UInt8)}
    (h : ClosesFollowed m (ts ++ ts')) : ClosesFollowed (m.after ts) ts' := by
  intro a b hab ha
  refine h (ts ++ a) b (by rw [hab, append_assoc]) ?_
  rw [Mode.after_append, ha]

theorem ClosesFollowed.tail {t : Token UInt8}
    (h : ClosesFollowed m (t :: ts)) : ClosesFollowed (m.next t) ts := by
  intro a b hab ha
  exact h (t :: a) b (by rw [hab]; rfl) ha

theorem ClosesFollowed.plain_append
    (h : ClosesFollowed m ts) (y : Text) : ClosesFollowed m (y.map .plain ++ ts) := by
  induction y with
  | nil => exact h
  | cons c y ih =>
    intro a b hab ha
    cases a with
    | nil => simp at hab
    | cons t a' =>
      rw [map_cons, cons_append, cons_append, List.cons.injEq] at hab
      obtain ⟨rfl, hab⟩ := hab
      exact ih a' b hab ha

theorem ClosesFollowed.opening_cons (hm : m.inside = true) (h : ClosesFollowed m ts) :
    ClosesFollowed m (.opening :: ts) := by
  intro a b hab ha
  cases a with
  | nil => simp at hab
  | cons t a' =>
    rw [cons_append, List.cons.injEq] at hab
    obtain ⟨rfl, hab⟩ := hab
    refine h a' b hab ?_
    cases m with
    | outside => simp [Mode.inside] at hm
    | carried => exact ha
    | opened => exact ha

theorem ClosesFollowed.carried_of_opened
    (h : ClosesFollowed .opened ts) : ClosesFollowed .carried ts := by
  have key : ∀ a : List (Token UInt8), Mode.carried.after a = .opened →
      Mode.opened.after a = .opened := by
    intro a
    induction a with
    | nil => intro ha; cases ha
    | cons t a ih =>
      intro ha
      cases t with
      | opening => exact ih ha
      | closing => exact ha
      | plain c => exact ih ha
  intro a b hab ha
  exact h a b hab (key a ha)

theorem ClosesFollowed.carried_of_outside (hts : StartsWithTag ts)
    (h : ClosesFollowed .outside ts) : ClosesFollowed .carried ts := by
  obtain ⟨rest, rfl | rfl⟩ := hts
  · have hrest : ClosesFollowed .opened rest := h.tail
    exact hrest.carried_of_opened.opening_cons rfl
  have hrest : ClosesFollowed .outside rest := h.tail
  intro a b hab ha
  cases a with
  | nil => cases ha
  | cons t a' =>
    rw [cons_append, List.cons.injEq] at hab
    obtain ⟨rfl, hab⟩ := hab
    exact hrest a' b hab ha

/-! ### A beginning at the end of a chunk -/

theorem inside_beginning (hm : m.inside = true)
    (hp : T.IsBeginning p) (hno : ¬ T.closing <+: p ++ v) :
    m.visible (T.lex (p ++ v)) = m.visible (T.lex v) ∧
      m.after (T.lex (p ++ v)) = m.after (T.lex v) ∧
      (ClosesFollowed m (T.lex (p ++ v)) → ClosesFollowed m (T.lex v)) := by
  by_cases ho : T.opening <+: p ++ v
  · rcases Tags.prefix_append_cases ho with hpre | ⟨z, hz, heq, v', rfl⟩
    · exact absurd hpre hp.not_prefix.1
    -- the beginning becomes an open tag, which means nothing inside a block
    have hzm : T.mark ∉ z := by
      obtain ⟨w, rfl, -⟩ := hp.eq_mark_cons
      unfold Tags.opening at heq
      rw [cons_append, List.cons.injEq] at heq
      intro hc
      exact T.mark_not_mem_open (by rw [heq.2]; simp [hc])
    have hopen : m.next (.opening : Token UInt8) = m := by
      cases m with
      | outside => simp [Mode.inside] at hm
      | carried => rfl
      | opened => rfl
    rw [← append_assoc, ← heq, Tags.lex_opening_append, Tags.lex_append_of_no_mark hzm]
    refine ⟨?_, ?_, fun hf => ?_⟩
    · rw [Mode.visible_opening, hopen, Mode.visible_append, Mode.visible_plain_inside hm,
        Mode.after_plain, nil_append]
    · rw [Mode.after_cons, hopen, Mode.after_append, Mode.after_plain]
    have hrest := hf.tail
    rw [hopen] at hrest
    exact hrest.plain_append z
  · rw [hp.lex_append ho hno]
    refine ⟨?_, ?_, fun hf => ?_⟩
    · rw [Mode.visible_append, Mode.visible_plain_inside hm, Mode.after_plain, nil_append]
    · rw [Mode.after_append, Mode.after_plain]
    have hrest := ClosesFollowed.drop hf
    rwa [Mode.after_plain] at hrest

theorem begins_of_append (hx : x ≠ []) (h : Tags.Begins tag (x ++ v)) : Tags.Begins tag x := by
  obtain ⟨-, hpre, hne⟩ := h
  refine ⟨hx, (prefix_append x v).trans hpre, ?_⟩
  intro heq
  apply hne
  refine hpre.eq_of_length_le ?_
  rw [← heq]
  simp

theorem isBeginning_of_append (hx : x ≠ []) (h : T.IsBeginning (x ++ v)) : T.IsBeginning x := by
  rcases h with h | h
  · exact Or.inl (begins_of_append hx h)
  · exact Or.inr (begins_of_append hx h)

/-- A suffix of `u ++ v` lies in `v`, or is the end of `u` with all of `v`. -/
theorem suffix_append_cases (h : y <:+ u ++ v) : y <:+ v ∨ ∃ x, x ≠ [] ∧ x <:+ u ∧ y = x ++ v := by
  by_cases hle : y.length ≤ v.length
  · exact Or.inl (suffix_of_suffix_length_le h (suffix_append u v) hle)
  obtain ⟨x, rfl⟩ :=
    suffix_of_suffix_length_le (suffix_append u v) h (by omega)
  refine Or.inr ⟨x, ?_, ?_, rfl⟩
  · intro hx
    simp [hx] at hle
  obtain ⟨w, hw⟩ := h
  rw [← append_assoc] at hw
  exact ⟨w, append_cancel_right hw⟩

/-! ### One chunk, and then the rest -/

/-- What a call leaves for the rest of the text `v` to be read as it would have
been read in one go: the same is seen, the same block is open at the end. -/
structure Continues (T : Tags UInt8) (m : Mode) (current v : Text) (r : Text × TagState) :
    Prop where
  visible : r.1 ++ r.2.mode.visible (T.lex (r.2.pending ++ v)) = m.visible (T.lex (current ++ v))
  inside : (r.2.mode.after (T.lex (r.2.pending ++ v))).inside =
    (m.after (T.lex (current ++ v))).inside
  carried : m.after (T.lex (current ++ v)) = .carried →
    r.2.mode.after (T.lex (r.2.pending ++ v)) = .carried ∧ r.2.pending = heldClose T current
  followed : ClosesFollowed r.2.mode (T.lex (r.2.pending ++ v))
  suffix : r.2.inBlock = true → r.2.pending <:+ current
  kept : ∀ p, T.IsBeginning p → p <:+ current → T.IsBeginning (p ++ v) →
    m.after (T.lex (current ++ v)) = .outside → r.2.pending = p

/-- What the end of a chunk is, once more: the tail `p`, with the mode before it. -/
structure ChunkEnd (T : Tags UInt8) (m : Mode) (current u p : Text) : Prop where
  split : current = u ++ p
  tail : T.IsBeginning p ∨ p = [] ∧ ∀ y, T.IsBeginning y → ¬ y <:+ current
  after : m.after (T.lex u) = m.after (T.lex current)
  visible : m.visible (T.lex current) =
    m.visible (T.lex u) ++ (m.after (T.lex u)).visible (p.map .plain)
  lex : ∀ v, T.lex (current ++ v) = T.lex u ++ T.lex (p ++ v)

theorem chunkEnd (T : Tags UInt8) (m : Mode) (current : Text) :
    ∃ u p, ChunkEnd T m current u p := by
  obtain ⟨u, p, hsplit, htail, hlex, happ⟩ := T.exists_tail current
  refine ⟨u, p, hsplit, htail, ?_, ?_, happ⟩
  · rw [hlex, Mode.after_append, Mode.after_plain]
  · rw [hlex, Mode.visible_append]

theorem ChunkEnd.eq_of_beginning
    (h : ChunkEnd T m current u p) (hy : T.IsBeginning y) (hs : y <:+ current) : p = y := by
  rcases h.tail with hp | ⟨-, hclean⟩
  · exact hp.eq_of_suffix hy ⟨u, h.split.symm⟩ hs
  · exact absurd hs (hclean y hy)

theorem not_completed {rest o h : Text} (htag : tag = T.mark :: rest)
    (hrest : T.mark ∉ rest) (hh : h ≠ []) (hpre : ¬ tag <+: h)
    (hno : ¬ tag <:+: o ++ h ++ Mode.outside.visible (T.lex v)) : ¬ tag <+: h ++ v := by
  intro hc
  rcases Tags.prefix_append_cases hc with hp | ⟨z, -, heq, v', rfl⟩
  · exact hpre hp
  have hz : T.mark ∉ z := by
    cases h with
    | nil => exact absurd rfl hh
    | cons a h' =>
      rw [htag, cons_append, List.cons.injEq] at heq
      intro hm
      exact hrest (by rw [heq.2]; simp [hm])
  apply hno
  rw [Tags.lex_append_of_no_mark hz, Mode.visible_append, Mode.visible_plain_outside,
    Mode.after_plain, heq]
  exact ⟨o, Mode.outside.visible (T.lex v'), by simp⟩

/-- A call that ends outside the blocks. -/
theorem continues_outside (hend : ChunkEnd T m current u p)
    (hm : m.after (T.lex current) = .outside) (hsteady : Steady T m (current ++ v)) :
    Continues T m current v (callResult T m current) := by
  have hu : m.after (T.lex u) = .outside := hend.after.trans hm
  have hW : m.visible (T.lex current) = m.visible (T.lex u) ++ p := by
    rw [hend.visible, hu, Mode.visible_plain_outside]
  have hres : callResult T m current =
      (emitted T (m.visible (T.lex current)), ⟨false, held T (m.visible (T.lex current))⟩) := by
    unfold callResult
    rw [hm]
  have hemit := emitted_append_held T (m.visible (T.lex current))
  have hlex := hend.lex v
  rw [hres]
  rcases hend.tail with hp | ⟨rfl, hclean⟩
  · -- the end of what is seen is the end of the chunk
    have hheld : held T (m.visible (T.lex current)) = p :=
      held_eq_of_suffix hp ⟨_, hW.symm⟩
    have hout : emitted T (m.visible (T.lex current)) = m.visible (T.lex u) := by
      rw [hheld, hW] at hemit
      rw [hW]
      exact append_cancel_right hemit
    rw [hheld, hout]
    refine ⟨?_, ?_, ?_, ?_, fun h => by simp at h, ?_⟩
    · show _ ++ Mode.outside.visible _ = _
      rw [hlex, Mode.visible_append, hu]
    · show (Mode.outside.after _).inside = _
      rw [hlex, Mode.after_append, hu]
    · intro hcar
      rw [hlex, Mode.after_append, hu] at hcar
      cases (Mode.no_closing_of_after_carried hcar).1
    · show ClosesFollowed .outside _
      have hf := hsteady.followed
      rw [hlex] at hf
      rw [← hu]
      exact hf.drop
    intro q hq hqs _ _
    exact hend.eq_of_beginning hq hqs
  · -- nothing of the chunk is held back, but what is seen may still end so
    rw [nil_append] at hlex
    rw [append_nil] at hW
    have hcur : T.lex u = T.lex current := by rw [hend.split, append_nil]
    have hvis : m.visible (T.lex (current ++ v)) =
        m.visible (T.lex current) ++ Mode.outside.visible (T.lex v) := by
      rw [hlex, Mode.visible_append, hu, hcur]
    have haft : m.after (T.lex (current ++ v)) = Mode.outside.after (T.lex v) := by
      rw [hlex, Mode.after_append, hu]
    have hfol : ClosesFollowed .outside (T.lex v) := by
      have hf := hsteady.followed
      rw [hlex] at hf
      rw [← hu]
      exact hf.drop
    have hkept : ∀ q, T.IsBeginning q → q <:+ current → T.IsBeginning (q ++ v) →
        m.after (T.lex (current ++ v)) = .outside →
        held T (m.visible (T.lex current)) = q := fun q hq hqs => absurd hqs (hclean q hq)
    have hlexheld : T.lex (held T (m.visible (T.lex current)) ++ v) =
        (held T (m.visible (T.lex current))).map .plain ++ T.lex v := by
      rcases held_spec T (m.visible (T.lex current)) with ⟨hnil, -⟩ | hh
      · rw [hnil]
        rfl
      have hno := hsteady.noOpening
      have hnc := hsteady.noClosing
      rw [hvis, ← hemit] at hno hnc
      exact hh.lex_append
        (not_completed rfl T.mark_not_mem_open hh.ne_nil hh.not_prefix.1 hno)
        (not_completed rfl T.mark_not_mem_close hh.ne_nil hh.not_prefix.2 hnc)
    refine ⟨?_, ?_, ?_, ?_, fun h => by simp at h, hkept⟩
    · show _ ++ Mode.outside.visible _ = _
      rw [hlexheld, Mode.visible_append, Mode.visible_plain_outside, Mode.after_plain, hvis,
        ← append_assoc, hemit]
    · show (Mode.outside.after _).inside = _
      rw [hlexheld, Mode.after_append, Mode.after_plain, haft]
    · intro hcar
      rw [haft] at hcar
      cases (Mode.no_closing_of_after_carried hcar).1
    show ClosesFollowed .outside _
    rw [hlexheld]
    exact hfol.plain_append _

/-- A call that ends inside a block opened by an earlier call. -/
theorem continues_carried (hend : ChunkEnd T m current u p)
    (hm : m.after (T.lex current) = .carried) (hsteady : Steady T m (current ++ v)) :
    Continues T m current v (callResult T m current) := by
  obtain ⟨rfl, hno⟩ := Mode.no_closing_of_after_carried hm
  have hu : Mode.carried.after (T.lex u) = .carried := hend.after.trans hm
  have hseen : Mode.carried.visible (T.lex u) = [] := by
    have hnou := (Mode.no_closing_of_after_carried hu).2
    exact (Mode.visible_of_no_closing rfl hnou).1
  have hres : callResult T .carried current = ([], ⟨true, heldClose T current⟩) := by
    unfold callResult
    rw [hm]
  have hlex := hend.lex v
  -- whatever is carried over, inside a block the rest reads as it would behind `p`
  have hrest : Mode.carried.visible (T.lex (heldClose T current ++ v)) =
        Mode.carried.visible (T.lex (p ++ v)) ∧
      Mode.carried.after (T.lex (heldClose T current ++ v)) = Mode.carried.after (T.lex (p ++ v)) ∧
      (ClosesFollowed .carried (T.lex (p ++ v)) →
        ClosesFollowed .carried (T.lex (heldClose T current ++ v))) := by
    rcases heldClose_spec T current with ⟨hnil, hnone⟩ | hheld
    · rw [hnil, nil_append]
      rcases hend.tail with hp | ⟨rfl, -⟩
      · have hnot : ¬ T.closing <+: p ++ v := by
          intro hc
          rcases Tags.prefix_append_cases hc with hpre | ⟨z, hz, heq, -⟩
          · exact hp.not_prefix.2 hpre
          refine hnone p ⟨hp.ne_nil, ⟨z, heq.symm⟩, ?_⟩ ⟨u, hend.split.symm⟩
          intro hself
          rw [← hself] at heq
          exact hz (self_eq_append_right.mp heq)
        obtain ⟨h₁, h₂, h₃⟩ := inside_beginning (m := .carried) rfl hp hnot
        exact ⟨h₁.symm, h₂.symm, h₃⟩
      · exact ⟨rfl, rfl, id⟩
    · have hp : p = heldClose T current :=
        hend.eq_of_beginning (Or.inr hheld) (heldClose_suffix T current)
      rw [hp]
      exact ⟨rfl, rfl, id⟩
  have hwhole : Mode.carried.after (T.lex (current ++ v)) =
      Mode.carried.after (T.lex (heldClose T current ++ v)) := by
    rw [hlex, Mode.after_append, hu, hrest.2.1]
  rw [hres]
  refine ⟨?_, ?_, ?_, ?_, fun _ => heldClose_suffix T current, ?_⟩
  · show [] ++ Mode.carried.visible _ = _
    rw [nil_append, hrest.1, hlex, Mode.visible_append, hseen, hu, nil_append]
  · show (Mode.carried.after _).inside = _
    rw [hwhole]
  · intro hcar
    refine ⟨?_, rfl⟩
    show Mode.carried.after _ = _
    rw [← hwhole, hcar]
  · show ClosesFollowed .carried _
    have hf := hsteady.followed
    rw [hlex] at hf
    have hdrop := hf.drop
    rw [hu] at hdrop
    exact hrest.2.2 hdrop
  intro q hq hqs hqv hout
  -- the rest is plain, so the block would still be open
  rw [hlex, hend.eq_of_beginning hq hqs, hqv.lex_eq, Mode.after_append, Mode.after_plain,
    hu] at hout
  cases hout

/-- A call that ends inside a block that it opened. -/
theorem continues_opened (hend : ChunkEnd T m current u p)
    (hm : m.after (T.lex current) = .opened) (hsteady : Steady T m (current ++ v)) :
    Continues T m current v (callResult T m current) := by
  have hu : m.after (T.lex u) = .opened := hend.after.trans hm
  have hW : m.visible (T.lex current) = m.visible (T.lex u) := by
    rw [hend.visible, hu, Mode.visible_plain_inside rfl, append_nil]
  have hres : callResult T m current = (m.visible (T.lex current), ⟨true, []⟩) := by
    unfold callResult
    rw [hm]
  have hlex := hend.lex v
  have hfol : ClosesFollowed .opened (T.lex (p ++ v)) := by
    have hf := hsteady.followed
    rw [hlex] at hf
    rw [← hu]
    exact hf.drop
  -- from inside the block the rest reads as behind `p`, even where the beginning
  -- of a close tag was lost: then another tag follows at once
  have hrest : Mode.carried.visible (T.lex v) = Mode.opened.visible (T.lex (p ++ v)) ∧
      (Mode.carried.after (T.lex v)).inside = (Mode.opened.after (T.lex (p ++ v))).inside ∧
      ClosesFollowed .carried (T.lex v) := by
    rcases hend.tail with hp | ⟨rfl, -⟩
    · by_cases hc : T.closing <+: p ++ v
      · rcases Tags.prefix_append_cases hc with hpre | ⟨z, hz, heq, v', rfl⟩
        · exact absurd hpre hp.not_prefix.2
        have hzm : T.mark ∉ z := by
          obtain ⟨w, rfl, -⟩ := hp.eq_mark_cons
          unfold Tags.closing at heq
          rw [cons_append, List.cons.injEq] at heq
          intro hmem
          exact T.mark_not_mem_close (by rw [heq.2]; simp [hmem])
        rw [← append_assoc, ← heq, Tags.lex_closing_append] at hfol ⊢
        rw [Tags.lex_append_of_no_mark hzm]
        have hstarts : StartsWithTag (T.lex v') := hfol [] _ rfl rfl
        have hout : ClosesFollowed .outside (T.lex v') := hfol.tail
        have hcarried := ClosesFollowed.carried_of_outside hstarts hout
        rw [Mode.visible_append, Mode.visible_plain_inside rfl, Mode.after_plain,
          Mode.after_append, Mode.after_plain, Mode.visible_closing, Mode.after_cons,
          nil_append]
        obtain ⟨rest, hrest | hrest⟩ := hstarts
        · have heqv := Mode.visible_inside_eq .carried .opened rfl rfl rest
          refine ⟨?_, ?_, hcarried.plain_append z⟩
          · rw [hrest, Mode.visible_opening, Mode.visible_opening]
            exact heqv.1
          rw [hrest, Mode.after_cons, Mode.after_cons]
          exact heqv.2
        refine ⟨?_, ?_, hcarried.plain_append z⟩
        · rw [hrest, Mode.visible_closing, Mode.visible_closing]
        rw [hrest]
        rfl
      · obtain ⟨h₁, h₂, h₃⟩ := inside_beginning (m := .opened) rfl hp hc
        have heqv := Mode.visible_inside_eq .carried .opened rfl rfl (T.lex v)
        exact ⟨heqv.1.trans h₁.symm, by rw [heqv.2, h₂], (h₃ hfol).carried_of_opened⟩
    · have heqv := Mode.visible_inside_eq .carried .opened rfl rfl (T.lex v)
      exact ⟨heqv.1, heqv.2, hfol.carried_of_opened⟩
  rw [hres]
  refine ⟨?_, ?_, ?_, hrest.2.2, fun _ => nil_suffix, ?_⟩
  · show _ ++ Mode.carried.visible (T.lex v) = _
    rw [hrest.1, hlex, Mode.visible_append, hu, hW]
  · show (Mode.carried.after (T.lex v)).inside = _
    rw [hrest.2.1, hlex, Mode.after_append, hu]
  · intro hcar
    rw [hlex, Mode.after_append, hu] at hcar
    cases (Mode.no_closing_of_after_carried hcar).1
  intro q hq hqs hqv hout
  rw [hlex, hend.eq_of_beginning hq hqs, hqv.lex_eq, Mode.after_append, Mode.after_plain,
    hu] at hout
  cases hout

/-- Whatever the chunk ends in, a steady text goes on as if it had not been cut. -/
theorem Steady.continues (h : Steady T m (current ++ v)) :
    Continues T m current v (callResult T m current) := by
  obtain ⟨u, p, hend⟩ := chunkEnd T m current
  cases hm : m.after (T.lex current) with
  | outside => exact continues_outside hend hm h
  | carried => exact continues_carried hend hm h
  | opened => exact continues_opened hend hm h

/-! ### A steady text may be cut into chunks -/

/-- What a state may carry into the next call. -/
def TagState.Carries (T : Tags UInt8) (state : TagState) : Prop :=
  state.pending = [] ∨ (state.inBlock = false ∧ T.IsBeginning state.pending) ∨
    (state.inBlock = true ∧ Tags.Begins T.closing state.pending)

theorem callResult_carries (T : Tags UInt8) (m : Mode) (current : Text) :
    (callResult T m current).2.Carries T := by
  unfold callResult
  cases m.after (T.lex current) with
  | outside =>
    rcases held_spec T (m.visible (T.lex current)) with ⟨h, -⟩ | h
    · exact Or.inl h
    · exact Or.inr (Or.inl ⟨rfl, h⟩)
  | carried =>
    rcases heldClose_spec T current with ⟨h, -⟩ | h
    · exact Or.inl h
    · exact Or.inr (Or.inr ⟨rfl, h⟩)
  | opened => exact Or.inl rfl

theorem callResult_pending {state : TagState} (h : state.Carries T) :
    callResult T state.mode state.pending = ([], state) := by
  obtain ⟨inBlock, pending⟩ := state
  rcases h with rfl | ⟨hb, hp⟩ | ⟨hb, hp⟩
  · cases inBlock <;> rfl
  · dsimp only at hb hp
    subst hb
    show callResult T .outside pending = _
    unfold callResult
    rw [hp.lex_eq, Mode.after_plain]
    dsimp only
    have hheld : held T pending = pending := held_eq_of_suffix hp (suffix_refl _)
    have hemit := emitted_append_held T pending
    rw [hheld] at hemit
    rw [Mode.visible_plain_outside, hheld, append_left_eq_self.mp hemit]
  dsimp only at hb hp
  subst hb
  show callResult T .carried pending = _
  have hp' : T.IsBeginning pending := Or.inr hp
  unfold callResult
  rw [hp'.lex_eq, Mode.after_plain]
  dsimp only
  rw [heldClose_eq_of_suffix hp (suffix_refl _)]

theorem heldClose_append (current v : Text) :
    heldClose T (heldClose T current ++ v) = heldClose T (current ++ v) := by
  have hsub : heldClose T current ++ v <:+ current ++ v := by
    obtain ⟨w, hw⟩ := heldClose_suffix T current
    exact ⟨w, by rw [← append_assoc, hw]⟩
  rcases heldClose_spec T (current ++ v) with ⟨hnil, hno⟩ | hheld
  · rcases heldClose_spec T (heldClose T current ++ v) with ⟨hnil', -⟩ | hheld'
    · rw [hnil, hnil']
    · exact absurd ((heldClose_suffix T _).trans hsub) (hno _ hheld')
  refine heldClose_eq_of_suffix hheld ?_
  rcases suffix_append_cases (heldClose_suffix T (current ++ v)) with hs | ⟨x, hx, hxs, heq⟩
  · exact hs.trans (suffix_append _ _)
  -- it starts in the first part, where it is the whole of what was kept
  rw [heq] at hheld ⊢
  rw [heldClose_eq_of_suffix (begins_of_append hx hheld) hxs]

theorem Continues.beginning_suffix
    (hc : Continues T m current v r) (hsteady : Steady T m (current ++ v))
    (hm : m.after (T.lex (current ++ v)) = .outside) (hy : T.IsBeginning y)
    (hs : y <:+ m.visible (T.lex (current ++ v))) : y <:+ r.2.pending ++ v := by
  rcases suffix_append_cases (hsteady.endHeld hm y hy hs) with hv | ⟨x, hx, hxs, rfl⟩
  · exact hv.trans (suffix_append _ _)
  · rw [hc.kept x (isBeginning_of_append hx hy) hxs hy hm]

theorem suffix_visible_of_suffix (hy : T.IsBeginning y)
    (hs : y <:+ text) (hm : m.after (T.lex text) = .outside) : y <:+ m.visible (T.lex text) := by
  obtain ⟨u, rfl⟩ := hs
  obtain ⟨z, rfl, hz⟩ := hy.eq_mark_cons
  rw [Tags.lex_append_mark, hy.lex_eq] at hm ⊢
  rw [Mode.after_append, Mode.after_plain] at hm
  rw [Mode.visible_append, hm, Mode.visible_plain_outside]
  exact suffix_append _ _

/-- The text that is kept is steady again. -/
theorem Continues.steady (hc : Continues T m current v r) (hcar : r.2.Carries T)
    (hsteady : Steady T m (current ++ v)) : Steady T r.2.mode (r.2.pending ++ v) := by
  have hseen : r.2.mode.visible (T.lex (r.2.pending ++ v)) <:+
      m.visible (T.lex (current ++ v)) := ⟨r.1, hc.visible⟩
  refine ⟨hc.followed, ?_, ?_, ?_, ?_⟩
  · intro hopen y hy hs
    have hM : m.after (T.lex (current ++ v)) = .opened := by
      have hin := hc.inside
      rw [hopen] at hin
      cases hM : m.after (T.lex (current ++ v)) with
      | outside =>
        rw [hM] at hin
        cases hin
      | carried =>
        have := (hc.carried hM).1
        rw [hopen] at this
        cases this
      | opened => rfl
    refine hsteady.openEnd hM y hy ?_
    rcases suffix_append_cases hs with hv | ⟨x, hx, hxs, rfl⟩
    · exact hv.trans (suffix_append _ _)
    cases hb : r.2.inBlock with
    | true =>
      obtain ⟨w, hw⟩ := hxs.trans (hc.suffix hb)
      exact ⟨w, by rw [← hw, append_assoc]⟩
    | false =>
      -- all that is left would be the beginning of a tag, and no block is open
      exfalso
      have hbx : T.IsBeginning x := isBeginning_of_append hx (Or.inr hy)
      have hpend : x = r.2.pending := by
        rcases hcar with hnil | ⟨-, hp⟩ | ⟨hb', -⟩
        · rw [hnil] at hxs
          exact absurd (suffix_nil.mp hxs) hx
        · exact hbx.eq_of_suffix hp hxs (suffix_refl _)
        rw [hb] at hb'
        cases hb'
      have hall : T.IsBeginning (r.2.pending ++ v) := by
        rw [← hpend]
        exact Or.inr hy
      rw [hall.lex_eq, Mode.after_plain, TagState.mode, hb] at hopen
      cases hopen
  · intro hin
    exact hsteady.noOpening (hin.trans hseen.isInfix)
  · intro hin
    exact hsteady.noClosing (hin.trans hseen.isInfix)
  · intro hout y hy hs
    have hM : m.after (T.lex (current ++ v)) = .outside := by
      have hin := hc.inside
      rw [hout] at hin
      cases hM : m.after (T.lex (current ++ v)) with
      | outside => rfl
      | carried | opened =>
        rw [hM] at hin
        cases hin
    exact hc.beginning_suffix hsteady hM hy (hs.trans hseen)

/-- **Merging two calls.**  On a steady text the call on a chunk and one call on
the rest do together what one call does. -/
theorem Continues.merge (hc : Continues T m current v r) (hsteady : Steady T m (current ++ v)) :
    (r.1 ++ (callResult T r.2.mode (r.2.pending ++ v)).1,
      (callResult T r.2.mode (r.2.pending ++ v)).2) = callResult T m (current ++ v) := by
  have hvis := hc.visible
  have hin := hc.inside
  cases hM : m.after (T.lex (current ++ v)) with
  | outside =>
    have hM' : r.2.mode.after (T.lex (r.2.pending ++ v)) = .outside := by
      rw [hM] at hin
      cases h : r.2.mode.after (T.lex (r.2.pending ++ v)) with
      | outside => rfl
      | carried | opened =>
        rw [h] at hin
        cases hin
    unfold callResult
    rw [hM, hM']
    dsimp only
    generalize hW : m.visible (T.lex (current ++ v)) = W at *
    generalize hW' : r.2.mode.visible (T.lex (r.2.pending ++ v)) = W' at *
    have hsub : W' <:+ W := ⟨r.1, hvis⟩
    have hheld : held T W' = held T W := by
      rcases held_spec T W with ⟨hnil, hno⟩ | hh
      · rcases held_spec T W' with ⟨hnil', -⟩ | hh'
        · rw [hnil, hnil']
        · exact absurd ((held_suffix T W').trans hsub) (hno _ hh')
      refine held_eq_of_suffix hh ?_
      have hs := hc.beginning_suffix hsteady hM hh (by rw [hW]; exact held_suffix T W)
      rw [← hW']
      exact suffix_visible_of_suffix hh hs hM'
    have hout : r.1 ++ emitted T W' = emitted T W := by
      have h₁ := emitted_append_held T W'
      rw [hheld] at h₁
      refine (append_left_inj (held T W)).mp ?_
      rw [append_assoc, h₁, hvis, emitted_append_held]
    rw [hheld, hout]
  | carried =>
    obtain ⟨hM', hpend⟩ := hc.carried hM
    have hno := (Mode.no_closing_of_after_carried hM').2
    obtain ⟨hmode, hnoW⟩ := Mode.no_closing_of_after_carried hM
    have hmode' := (Mode.no_closing_of_after_carried hM').1
    have hW' : r.2.mode.visible (T.lex (r.2.pending ++ v)) = [] := by
      rw [hmode']
      exact (Mode.visible_of_no_closing rfl hno).1
    have hW : m.visible (T.lex (current ++ v)) = [] := by
      rw [hmode]
      exact (Mode.visible_of_no_closing rfl hnoW).1
    rw [hW', hW, append_nil] at hvis
    unfold callResult
    rw [hM, hM', hvis, hpend]
    dsimp only
    rw [heldClose_append]
    rfl
  | opened =>
    rw [hM] at hin
    unfold callResult
    rw [hM]
    cases hM' : r.2.mode.after (T.lex (r.2.pending ++ v)) with
    | outside =>
      rw [hM'] at hin
      cases hin
    | opened =>
      dsimp only
      rw [hvis]
    | carried =>
      obtain ⟨hmode', hno⟩ := Mode.no_closing_of_after_carried hM'
      have hW' : r.2.mode.visible (T.lex (r.2.pending ++ v)) = [] := by
        rw [hmode']
        exact (Mode.visible_of_no_closing rfl hno).1
      have hb : r.2.inBlock = true := by
        unfold TagState.mode at hmode'
        by_contra hb
        rw [if_neg hb] at hmode'
        cases hmode'
      have hnil : heldClose T (r.2.pending ++ v) = [] := by
        rcases heldClose_spec T (r.2.pending ++ v) with ⟨hnil, -⟩ | hheld
        · exact hnil
        refine absurd ?_ (hsteady.openEnd hM _ hheld)
        obtain ⟨w, hw⟩ := hc.suffix hb
        refine (heldClose_suffix T _).trans ⟨w, ?_⟩
        rw [← append_assoc, hw]
      rw [hW'] at hvis
      dsimp only
      rw [hnil, hvis]

theorem suppressChunks_cons (o c : Text) (state : TagState) (chunk : Text) (rest : List Text) :
    suppressChunks o c state (chunk :: rest) = ((suppressTaggedBlock o c state chunk).1 ++
          (suppressChunks o c (suppressTaggedBlock o c state chunk).2 rest).1,
        (suppressChunks o c (suppressTaggedBlock o c state chunk).2 rest).2) := rfl

/-- **A steady text reads the same in any chunks.**  By induction on the chunks,
merging each into the rest. -/
theorem Steady.suppressChunks_eq (chunks : List Text) : ∀ state : TagState, state.Carries T →
      Steady T state.mode (state.pending ++ chunks.flatten) →
      suppressChunks T.opening T.closing state chunks =
        callResult T state.mode (state.pending ++ chunks.flatten) := by
  induction chunks with
  | nil =>
    intro state hcar _
    rw [flatten_nil, append_nil, callResult_pending hcar]
    rfl
  | cons chunk rest ih =>
    intro state hcar hsteady
    rw [flatten_cons, ← append_assoc] at hsteady ⊢
    have hc := hsteady.continues
    have hnext := ih _ (callResult_carries T state.mode (state.pending ++ chunk))
      (hc.steady (callResult_carries _ _ _) hsteady)
    rw [← hc.merge hsteady, ← hnext, suppressChunks_cons, suppressTaggedBlock_eq]

/-! ### A text that may be cut into chunks is steady

Each clause that fails names a place in the text, and a cut there gives another result than the
text in one piece.
-/

/-- Every way of cutting the text gives what one call gives. -/
def ChunkInvariant (openTag closeTag : Text) (inBlock : Bool) (text : Text) : Prop :=
  ∀ chunks : List Text, chunks.flatten = text →
    suppressChunks openTag closeTag ⟨inBlock, []⟩ chunks =
      suppressTaggedBlock openTag closeTag ⟨inBlock, []⟩ text

/-- The mode a fresh state starts in. -/
abbrev startMode (inBlock : Bool) : Mode := TagState.mode ⟨inBlock, []⟩

theorem startMode_ne_opened (inBlock : Bool) : startMode inBlock ≠ .opened := by
  cases inBlock <;> simp [startMode, TagState.mode]

theorem callResult_seen (T : Tags UInt8) (m : Mode) (current : Text) :
    (callResult T m current).2.inBlock = (m.after (T.lex current)).inside ∧
      (callResult T m current).1 ++
        (if (callResult T m current).2.inBlock then [] else (callResult T m current).2.pending) =
          m.visible (T.lex current) := by
  unfold callResult
  cases hm : m.after (T.lex current) with
  | outside => exact ⟨rfl, emitted_append_held T _⟩
  | carried =>
    obtain ⟨rfl, hno⟩ := Mode.no_closing_of_after_carried hm
    exact ⟨rfl, (Mode.visible_of_no_closing rfl hno).1.symm⟩
  | opened => exact ⟨rfl, append_nil _⟩

/-- The two calls of a text cut in two, against the one. -/
structure CutAgrees (T : Tags UInt8) (m : Mode) (u v : Text) (r : Text × TagState) : Prop where
  visible : r.1 ++ r.2.mode.visible (T.lex (r.2.pending ++ v)) = m.visible (T.lex (u ++ v))
  inside : (r.2.mode.after (T.lex (r.2.pending ++ v))).inside = (m.after (T.lex (u ++ v))).inside
  state : (callResult T r.2.mode (r.2.pending ++ v)).2 = (callResult T m (u ++ v)).2

theorem ChunkInvariant.cut (h : ChunkInvariant T.opening T.closing inBlock (u ++ v)) :
    CutAgrees T (startMode inBlock) u v (callResult T (startMode inBlock) u) := by
  have hcut := h [u, v] (by simp)
  rw [suppressChunks_cons, suppressChunks_cons, suppressTaggedBlock_eq, suppressTaggedBlock_eq,
    suppressTaggedBlock_eq] at hcut
  simp only [suppressChunks, append_nil, nil_append] at hcut
  generalize callResult T (TagState.mode ⟨inBlock, []⟩) u = r at hcut ⊢
  have hout := congrArg Prod.fst hcut
  have hstate := congrArg Prod.snd hcut
  dsimp only at hout hstate
  have hfirst := callResult_seen T r.2.mode (r.2.pending ++ v)
  have hwhole := callResult_seen T (startMode inBlock) (u ++ v)
  refine ⟨?_, ?_, hstate⟩
  · rw [← hfirst.2, ← hwhole.2, ← append_assoc, hout, hstate]
  · rw [← hfirst.1, ← hwhole.1, hstate]

theorem isBeginning_mark : T.IsBeginning [T.mark] := by
  refine Or.inr ⟨by simp, by simp [Tags.closing], ?_⟩
  intro hself
  apply T.close_not_prefix
  have hnil : T.closeRest = [] := by simpa [Tags.closing] using hself.symm
  rw [hnil]
  exact nil_prefix

theorem lex_append_singleton_mark (u : Text) :
    T.lex (u ++ [T.mark]) = T.lex u ++ [.plain T.mark] := by
  rw [Tags.lex_append_mark, isBeginning_mark.lex_eq]
  rfl

theorem callResult_opened (h : m.after (T.lex current) = .opened) :
    callResult T m current = (m.visible (T.lex current), ⟨true, []⟩) := by
  unfold callResult
  rw [h]

theorem callResult_outside (h : m.after (T.lex current) = .outside) : callResult T m current =
      (emitted T (m.visible (T.lex current)), ⟨false, held T (m.visible (T.lex current))⟩) := by
  unfold callResult
  rw [h]

section

variable (h : ChunkInvariant T.opening T.closing inBlock text)

include h

theorem ChunkInvariant.closesFollowed :
    ClosesFollowed (startMode inBlock) (T.lex text) := by
  intro a b hab ha
  obtain ⟨u, w, rfl, hu, hw⟩ := Tags.exists_split hab
  rcases Tags.lex_cons_cases hw with ⟨ht, -⟩ | ⟨-, r, rfl, hr⟩ | ⟨c, r, ht, -⟩
  · cases ht
  · -- cut behind the mark of the close tag
    have hcut : u ++ (T.closing ++ r) = (u ++ [T.mark]) ++ (T.closeRest ++ r) := by
      simp [Tags.closing]
    have hfirst : (startMode inBlock).after (T.lex (u ++ [T.mark])) = .opened := by
      rw [lex_append_singleton_mark, Mode.after_append, hu, ha]
      rfl
    have hseen : (startMode inBlock).visible (T.lex (u ++ [T.mark])) =
        (startMode inBlock).visible a := by
      rw [lex_append_singleton_mark, Mode.visible_append, hu, ha]
      exact append_nil _
    have hagree := (hcut ▸ h).cut
    rw [callResult_opened hfirst, hseen] at hagree
    have hvis := hagree.visible
    have hin := hagree.inside
    change (startMode inBlock).visible a ++ Mode.carried.visible (T.lex (T.closeRest ++ r)) = _
      at hvis
    change (Mode.carried.after (T.lex (T.closeRest ++ r))).inside = _ at hin
    rw [← hcut, Tags.lex_append_of_no_mark T.mark_not_mem_close, hab, hr, Mode.visible_append,
      Mode.visible_append, ha, Mode.visible_plain_inside rfl, Mode.after_plain,
      Mode.visible_closing, nil_append, append_cancel_left_eq] at hvis
    rw [← hcut, Tags.lex_append_of_no_mark T.mark_not_mem_close, hab, hr, Mode.after_append,
      Mode.after_append, ha, Mode.after_plain, Mode.after_cons] at hin
    cases b with
    | nil => cases hin
    | cons t b =>
      cases t with
      | opening => exact ⟨b, Or.inl rfl⟩
      | closing => exact ⟨b, Or.inr rfl⟩
      | plain c =>
        exfalso
        have hlen := congrArg List.length hvis
        have hle := Mode.length_visible_inside_le b
        rw [show Mode.carried.visible (.plain c :: b) = Mode.carried.visible b from rfl,
          show Mode.outside.visible (.plain c :: b) = c :: Mode.outside.visible b from rfl,
          (Mode.visible_inside_eq .carried .opened rfl rfl b).1, length_cons] at hlen
        omega
  · cases ht

theorem ChunkInvariant.openEnd
    (hm : (startMode inBlock).after (T.lex text) = .opened) :
    ∀ y, Tags.Begins T.closing y → ¬ y <:+ text := by
  intro y hy hs
  obtain ⟨a, b, hab, ha, hb⟩ := Mode.exists_open (startMode_ne_opened inBlock) hm
  obtain ⟨u, w, rfl, hu, hw⟩ := Tags.exists_split hab
  rcases Tags.lex_cons_cases hw with ⟨-, r, rfl, hr⟩ | ⟨ht, -⟩ | ⟨c, r, ht, -⟩
  · -- cut behind the open tag
    have hcut : u ++ (T.opening ++ r) = (u ++ T.opening) ++ r := by simp
    have hlex : T.lex (u ++ T.opening) = a ++ [.opening] := by
      unfold Tags.opening
      rw [Tags.lex_append_mark, hu]
      have hone := Tags.lex_opening_append (T := T) []
      rw [append_nil] at hone
      exact congrArg (a ++ ·) hone
    have hfirst : (startMode inBlock).after (T.lex (u ++ T.opening)) = .opened := by
      rw [hlex, Mode.after_append, ha]
      rfl
    have hagree := (hcut ▸ h).cut
    rw [callResult_opened hfirst] at hagree
    have hstate := hagree.state
    rw [← hcut, callResult_opened hm] at hstate
    change (callResult T .carried r).2 = _ at hstate
    have hcar : Mode.carried.after (T.lex r) = .carried := by
      rw [hr]
      exact (Mode.visible_of_no_closing rfl hb).2
    have hpend : heldClose T r = [] := by
      unfold callResult at hstate
      rw [hcar] at hstate
      exact congrArg TagState.pending hstate
    rw [hcut] at hs
    rcases suffix_append_cases hs with hsr | ⟨x, hx, hxs, rfl⟩
    · rw [heldClose_eq_of_suffix hy hsr] at hpend
      exact hy.1 hpend
    -- it would contain the open tag
    have hbx := begins_of_append hx hy
    obtain ⟨z, rfl, hz⟩ := Tags.IsBeginning.eq_mark_cons (T := T) (Or.inr hbx)
    have hzo := Tags.suffix_unique hz T.mark_not_mem_open hxs (suffix_append _ _)
    apply Tags.opening_not_prefix_closing (T := T)
    unfold Tags.opening
    rw [← hzo]
    exact hbx.2.1
  · cases ht
  · cases ht

theorem ChunkInvariant.no_tag (rest : Text) (c : UInt8)
    (htag : T.mark :: (rest ++ [c]) = T.opening ∨ T.mark :: (rest ++ [c]) = T.closing) :
    ¬ T.mark :: (rest ++ [c]) <:+: (startMode inBlock).visible (T.lex text) := by
  intro hin
  obtain ⟨A, B, hAB⟩ := hin
  have hsplit : (startMode inBlock).visible (T.lex text) = (A ++ T.mark :: rest) ++ c :: B := by
    rw [← hAB]
    simp
  obtain ⟨x, y, hxy, hx, hA, hB⟩ := Mode.exists_visible hsplit
  obtain ⟨u, w, rfl, hu, hw⟩ := Tags.exists_split hxy
  rcases Tags.lex_cons_cases hw with ⟨ht, -⟩ | ⟨ht, -⟩ | ⟨d, v, hd, rfl, hv, -⟩
  · cases ht
  · cases ht
  obtain rfl : c = d := Token.plain.inj hd
  have hbegin : T.IsBeginning (T.mark :: rest) := by
    have hpre : T.mark :: rest <+: T.mark :: (rest ++ [c]) := by simp
    have hne : T.mark :: rest ≠ T.mark :: (rest ++ [c]) := by simp
    rcases htag with ht | ht
    · exact Or.inl ⟨by simp, ht ▸ hpre, ht ▸ hne⟩
    · exact Or.inr ⟨by simp, ht ▸ hpre, ht ▸ hne⟩
  have hfirst : (startMode inBlock).after (T.lex u) = .outside := by rw [hu, hx]
  have hheld : held T ((startMode inBlock).visible (T.lex u)) = T.mark :: rest := by
    rw [hu, hA]
    exact held_eq_of_suffix hbegin (suffix_append _ _)
  have hemit : emitted T ((startMode inBlock).visible (T.lex u)) = A := by
    have he := emitted_append_held T ((startMode inBlock).visible (T.lex u))
    rw [hheld, hu, hA] at he
    rw [hu, hA]
    exact append_cancel_right he
  have hvis := h.cut.visible
  rw [callResult_outside hfirst, hheld, hemit, hsplit] at hvis
  change A ++ Mode.outside.visible (T.lex (T.mark :: rest ++ c :: v)) = _ at hvis
  rw [append_assoc, append_cancel_left_eq,
    show T.mark :: rest ++ c :: v = (T.mark :: (rest ++ [c])) ++ v by simp] at hvis
  have hlen := congrArg List.length hvis
  have hle := Mode.length_visible_inside_le (T.lex v)
  rw [← hB, ← hv] at hlen
  rcases htag with ht | ht
  · rw [ht, Tags.lex_opening_append, Mode.visible_opening] at hlen
    change (Mode.opened.visible _).length = _ at hlen
    simp at hlen
    omega
  rw [ht, Tags.lex_closing_append, Mode.visible_closing] at hlen
  simp at hlen
  omega

theorem ChunkInvariant.endHeld
    (hm : (startMode inBlock).after (T.lex text) = .outside) :
    ∀ y, T.IsBeginning y → y <:+ (startMode inBlock).visible (T.lex text) → y <:+ text := by
  intro y hy hs
  obtain ⟨z, hz | ⟨a, t, ht, hz⟩⟩ := Mode.last_tag (T.lex text)
  · -- no tag at all
    rw [Tags.eq_of_lex_eq_plain hz]
    rw [hz, Mode.after_plain] at hm
    rwa [hz, hm, Mode.visible_plain_outside] at hs
  obtain ⟨u, w, rfl, hu, hw⟩ := Tags.exists_split hz
  have haft := hm
  rw [hz, Mode.after_append, Mode.after_cons, Mode.after_plain] at haft
  rcases Tags.lex_cons_cases hw with ⟨rfl, -⟩ | ⟨rfl, r, rfl, hr⟩ | ⟨c, r, rfl, -⟩
  · -- an open tag leaves a block open
    exfalso
    cases hmode : (startMode inBlock).after a <;> rw [hmode] at haft <;> cases haft
  · obtain rfl : r = z := Tags.eq_of_lex_eq_plain hr
    have hsw := hs
    rw [hz, Mode.visible_append, Mode.visible_closing, Mode.visible_plain_outside] at hsw
    rcases suffix_append_cases hsw with hsr | ⟨x, hx, hxs, rfl⟩
    · exact hsr.trans ((suffix_append _ _).trans (suffix_append _ _))
    -- the text is cut behind the mark of this last tag
    exfalso
    have hcut : u ++ (T.closing ++ r) = (u ++ [T.mark]) ++ (T.closeRest ++ r) := by
      simp [Tags.closing]
    have hagree := (hcut ▸ h).cut
    have hlexu := lex_append_singleton_mark (T := T) u
    rw [hu] at hlexu
    cases hmode : (startMode inBlock).after a with
    | outside =>
      have hfirst : (startMode inBlock).after (T.lex (u ++ [T.mark])) = .outside := by
        rw [hlexu, Mode.after_append, hmode]
        rfl
      have hheld : held T ((startMode inBlock).visible (T.lex (u ++ [T.mark]))) = [T.mark] := by
        rw [hlexu, Mode.visible_append, hmode]
        exact held_eq_of_suffix isBeginning_mark (suffix_append _ _)
      have hstate := hagree.state
      rw [callResult_outside hfirst, hheld, ← hcut, callResult_outside hm,
        held_eq_of_suffix hy hs] at hstate
      change (callResult T .outside (T.closing ++ r)).2 = _ at hstate
      have hsecond : Mode.outside.after (T.lex (T.closing ++ r)) = .outside := by
        rw [Tags.lex_closing_append, hr, Mode.after_cons, Mode.after_plain]
        rfl
      rw [callResult_outside hsecond, Tags.lex_closing_append, hr, Mode.visible_closing,
        Mode.visible_plain_outside] at hstate
      have hpend : held T r = x ++ r := congrArg TagState.pending hstate
      have hlen := (held_suffix T r).length_le
      rw [hpend, length_append] at hlen
      have hpos := length_pos_iff.mpr hx
      omega
    | carried =>
      obtain ⟨hstart, hno⟩ := Mode.no_closing_of_after_carried hmode
      rw [hstart, (Mode.visible_of_no_closing rfl hno).1] at hxs
      exact hx (suffix_nil.mp hxs)
    | opened =>
      have hfirst : (startMode inBlock).after (T.lex (u ++ [T.mark])) = .opened := by
        rw [hlexu, Mode.after_append, hmode]
        rfl
      have hin := hagree.inside
      rw [callResult_opened hfirst, ← hcut, hm] at hin
      change (Mode.carried.after (T.lex (T.closeRest ++ r))).inside = _ at hin
      rw [Tags.lex_append_of_no_mark T.mark_not_mem_close, hr, Mode.after_append,
        Mode.after_plain, Mode.after_plain] at hin
      cases hin
  · rcases ht with ht | ht <;> cases ht

end

theorem exists_tag_last (rest other : Text) (m : UInt8) (h : ¬ rest <+: other) :
    ∃ init c, m :: rest = m :: (init ++ [c]) := by
  rcases eq_nil_or_concat rest with rfl | ⟨init, c, rfl⟩
  · exact absurd nil_prefix h
  · exact ⟨init, c, by simp⟩

theorem ChunkInvariant.steady (h : ChunkInvariant T.opening T.closing inBlock text) :
    Steady T (startMode inBlock) text := by
  refine ⟨h.closesFollowed, h.openEnd, ?_, ?_, h.endHeld⟩
  · obtain ⟨rest, c, htag⟩ := exists_tag_last T.openRest T.closeRest T.mark T.open_not_prefix
    have hno := h.no_tag rest c (Or.inl htag.symm)
    rwa [← htag] at hno
  obtain ⟨rest, c, htag⟩ := exists_tag_last T.closeRest T.openRest T.mark T.close_not_prefix
  have hno := h.no_tag rest c (Or.inr htag.symm)
  rwa [← htag] at hno

theorem Steady.chunkInvariant (h : Steady T (startMode inBlock) text) :
    ChunkInvariant T.opening T.closing inBlock text := by
  intro chunks hchunks
  rw [suppressTaggedBlock_eq, ← hchunks]
  rw [← hchunks] at h
  exact Steady.suppressChunks_eq chunks ⟨inBlock, []⟩ (Or.inl rfl) h

/-! ### The blocks of the worker -/

/-- The mark of every tag is `<`. -/
def SuppressedBlock.tags (block : SuppressedBlock) : Tags UInt8 where
  mark := 60
  openRest := block.openTag.drop 1
  closeRest := block.closeTag.drop 1
  mark_not_mem_open := by cases block <;> decide
  mark_not_mem_close := by cases block <;> decide
  open_not_prefix := by cases block <;> decide
  close_not_prefix := by cases block <;> decide

theorem SuppressedBlock.opening_tags (block : SuppressedBlock) :
    block.tags.opening = block.openTag := by
  cases block <;> decide

theorem SuppressedBlock.closing_tags (block : SuppressedBlock) :
    block.tags.closing = block.closeTag := by
  cases block <;> decide

/-- **Which texts are read the same in any chunks: exactly the steady ones.**
For each of the worker's tag pairs and both start states. -/
theorem suppressTaggedBlock_chunkInvariant_iff_steady (block : SuppressedBlock)
    (inBlock : Bool) (text : Text) :
    (∀ chunks : List Text, chunks.flatten = text →
        suppressChunks block.openTag block.closeTag ⟨inBlock, []⟩ chunks =
          suppressTaggedBlock block.openTag block.closeTag ⟨inBlock, []⟩ text) ↔
      Steady block.tags (startMode inBlock) text := by
  rw [← block.opening_tags, ← block.closing_tags]
  exact ⟨ChunkInvariant.steady, Steady.chunkInvariant⟩

/-- `<think>plan</think>Hi` in two pieces, cut inside the close tag: the answer
stays hidden. -/
theorem suppressChunks_think_cut :
    ¬ ∀ chunks : List Text, chunks.flatten = bytes "<think>plan</think>Hi" →
      suppressChunks SuppressedBlock.think.openTag SuppressedBlock.think.closeTag {} chunks =
        suppressTaggedBlock SuppressedBlock.think.openTag SuppressedBlock.think.closeTag {}
          (bytes "<think>plan</think>Hi") := by
  intro h
  have hcut := h [bytes "<think>plan</thi", bytes "nk>Hi"] (by decide +kernel)
  revert hcut
  decide +kernel

end DenseCore.Runtime
