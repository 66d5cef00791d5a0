/-
What an earlier request leaves in the grammar of the next.

`Reset` and `SetupJsonGrammar` between them set three of the constraint's fields.  The
depth of the braces needs no more, since the first brace sets it.  The depth of the
brackets and the escape flag are as the earlier request left them, and each of them
shows: an array does not close, or a quote does not end its string.
-/
import DenseCore.Runtime.RequestReuse

namespace DenseCore.RequestReuse

open Lib Sampling GrammarConstraint List

/-! ### The property -/

/-- The state of a constraint, if it is on. -/
def stateOn (g : GrammarConstraint) : Option JSONState :=
  if g.enabled && g.isJsonMode then some g.state else none

/-- Two constraints go through the same states and leave the same tokens, whatever is
sampled. -/
def SameGrammar (g h : GrammarConstraint) : Prop :=
  ∀ texts : List Bytes, stateOn (texts.foldl updateState g) = stateOn (texts.foldl updateState h) ∧
      ∀ (α : Type) (logits : List (Option α)) (vocab : List Bytes),
        applyGrammarMask logits (texts.foldl updateState g) vocab =
          applyGrammarMask logits (texts.foldl updateState h) vocab

/-- The object may go back into use: no constraint will be set up, or nothing is left
of an earlier one. -/
def Request.Clean (r : Request) (vocab : Option (List Bytes)) (jsonMode : Int) : Prop :=
  jsonMode ≠ 0 → vocab.any (· ≠ []) = true → r.grammar.inEscape = false ∧ r.grammar.bracketDepth = 0

/-! ### What the machine shows -/

/-- The part of the constraint that decides what it does. -/
def visible (g : GrammarConstraint) : GrammarConstraint :=
  { g with
    accumulated := []
    braceDepth := if g.state = .expectObjectStart then 0 else g.braceDepth }

/-- **One character does the same to what shows.** -/
theorem readChar_visible (g : GrammarConstraint) (c : UInt8) :
    visible (g.readChar c) = visible ((visible g).readChar c) := by
  obtain ⟨enabled, isJsonMode, state, braceDepth, bracketDepth, inEscape, accumulated⟩ := g
  show visible (readChar _ c) = visible (readChar
    ⟨enabled, isJsonMode, state, if state = .expectObjectStart then 0 else braceDepth,
      bracketDepth, inEscape, []⟩ c)
  -- Both sides take the same branches, and in each of them the results show the same.
  cases state <;> simp only [reduceCtorEq, if_false, if_true, readChar,
      closeBrace, stringChar, afterComma,
      apply_ite visible] <;>
    rfl

variable {g h : GrammarConstraint}

section

variable (heq : visible g = visible h)

include heq

theorem read_visible (text : Bytes) :
    visible (text.foldl readChar g) = visible (text.foldl readChar h) := by
  induction text generalizing g h with
  | nil => exact heq
  | cons c rest ih =>
    refine ih ?_
    rw [readChar_visible g c, readChar_visible h c, heq]

theorem visible_fields :
    g.enabled = h.enabled ∧ g.isJsonMode = h.isJsonMode ∧ g.state = h.state :=
  ⟨congrArg (·.enabled) heq, congrArg (·.isJsonMode) heq, congrArg (·.state) heq⟩

theorem updateState_visible
    (text : Bytes) : visible (g.updateState text) = visible (h.updateState text) := by
  obtain ⟨henabled, hjson, -⟩ := visible_fields heq
  have hoff : (!g.enabled || !g.isJsonMode) = (!h.enabled || !h.isJsonMode) := by
    rw [henabled, hjson]
  unfold updateState
  rw [hoff]
  split
  · exact heq
  refine read_visible ?_ text
  exact heq

theorem applyGrammarMask_visible {α : Type} (logits : List (Option α)) (vocab : List Bytes) :
    applyGrammarMask logits g vocab = applyGrammarMask logits h vocab := by
  obtain ⟨henabled, hjson, hstate⟩ := visible_fields heq
  unfold applyGrammarMask unmasked
  rw [henabled, hjson, hstate]

theorem sameGrammar_of_visible : SameGrammar g h := by
  intro texts
  have hall : visible (texts.foldl updateState g) = visible (texts.foldl updateState h) := by
    induction texts generalizing g h with
    | nil => exact heq
    | cons text rest ih => exact ih (updateState_visible heq text)
  refine ⟨?_, fun α logits vocab => applyGrammarMask_visible hall logits vocab⟩
  obtain ⟨henabled, hjson, hstate⟩ := visible_fields hall
  unfold stateOn
  rw [henabled, hjson, hstate]

end

/-! ### What is left of an earlier request -/

/-- What `SetupJsonGrammar` makes of a constraint. -/
def switchedOn (g : GrammarConstraint) : GrammarConstraint :=
  { g with enabled := true, isJsonMode := true, state := .expectObjectStart }

theorem reuse_json (r : Request) (id : Int) (token : Bytes) (rest : List Bytes) {jsonMode : Int}
    (hjson : jsonMode ≠ 0) :
    (r.reuse id (some (token :: rest)) jsonMode).grammar = switchedOn r.grammar := by
  have hon : (jsonMode != 0) = true := bne_iff_ne.mpr hjson
  unfold Request.reuse Request.initCommon Request.setupJsonGrammar
  rw [hon]
  rfl

theorem reuse_off (r : Request) (id : Int) {vocab : Option (List Bytes)} {jsonMode : Int}
    (hoff : ¬ (jsonMode ≠ 0 ∧ vocab.any (· ≠ []) = true)) :
    (r.reuse id vocab jsonMode).grammar =
      { r.grammar with enabled := false, isJsonMode := false } := by
  unfold Request.reuse Request.initCommon Request.setupJsonGrammar
  split
  · rfl
  rename_i hjson
  have hon : jsonMode ≠ 0 := by
    rw [Bool.not_eq_false] at hjson
    exact bne_iff_ne.mp hjson
  split
  · exact absurd ⟨hon, rfl⟩ hoff
  · rfl

theorem updateState_off (hoff : g.enabled = false) (texts : List Bytes) :
    texts.foldl updateState g = g := by
  induction texts with
  | nil => rfl
  | cons text rest ih =>
    have hstep : g.updateState text = g := by
      unfold updateState
      rw [hoff]
      rfl
    rw [foldl_cons, hstep]
    exact ih

theorem sameGrammar_off (hg : g.enabled = false) (hh : h.enabled = false) : SameGrammar g h := by
  intro texts
  rw [updateState_off hg, updateState_off hh]
  refine ⟨?_, fun α logits vocab => ?_⟩
  · unfold stateOn
    rw [hg, hh]
    rfl
  unfold applyGrammarMask unmasked
  rw [hg, hh]
  rfl

theorem escape_shows (he : g.inEscape = true) :
    stateOn ((switchedOn g).updateState (literal "\x7b\"\"")) = some .inKey := by
  obtain ⟨enabled, isJsonMode, state, braceDepth, bracketDepth, inEscape, accumulated⟩ := g
  subst he
  rfl

theorem read_openArray (braceDepth bracketDepth : Int) (accumulated : Bytes) :
    (literal "\x7b\"\":[").foldl readChar
        ⟨true, true, .expectObjectStart, braceDepth, bracketDepth, false, accumulated⟩ =
      ⟨true, true, .inArray, 1, bracketDepth + 1, false, accumulated⟩ := rfl

theorem readChar_closeArray (hin : g.state = .inArray) :
    (g.readChar 0x5D).state = if g.bracketDepth - 1 = 0 then .expectCommaOrEnd else .inArray := by
  unfold readChar
  rw [hin]
  rfl

theorem brackets_show (he : g.inEscape = false) (hb : g.bracketDepth ≠ 0) :
    stateOn ((switchedOn g).updateState (literal "\x7b\"\":[]")) = some .inArray := by
  obtain ⟨enabled, isJsonMode, state, braceDepth, bracketDepth, inEscape, accumulated⟩ := g
  subst he
  have hopen : ¬ bracketDepth + 1 - 1 = 0 := by
    have hne : bracketDepth ≠ 0 := hb
    omega
  have htext : literal "\x7b\"\":[]" = literal "\x7b\"\":[" ++ [0x5D] := rfl
  unfold updateState switchedOn stateOn
  simp only [Bool.not_true, Bool.or_self, Bool.false_eq_true, if_false]
  rw [htext, foldl_append, read_openArray, foldl_cons, foldl_nil]
  have hclosed := readChar_closeArray (g := ⟨true, true, .inArray, 1, bracketDepth + 1, false,
    accumulated ++ (literal "\x7b\"\":[" ++ [0x5D])⟩) rfl
  rw [if_neg hopen] at hclosed
  rw [hclosed]
  rfl

/-! ### The result -/

/-- **A reused request has the grammar of a new one exactly when its object is clean.** -/
theorem reuse_same_grammar (r : Request) (id id' : Int) (vocab : Option (List Bytes))
    (jsonMode : Int) :
    SameGrammar (r.reuse id vocab jsonMode).grammar
        (({} : Request).reuse id' vocab jsonMode).grammar ↔
      r.Clean vocab jsonMode := by
  by_cases hon : jsonMode ≠ 0 ∧ vocab.any (· ≠ []) = true
  · obtain ⟨token, rest, rfl⟩ : ∃ token rest, vocab = some (token :: rest) := by
      match vocab, hon.2 with
      | some (token :: rest), _ => exact ⟨token, rest, rfl⟩
    rw [reuse_json r id token rest hon.1, reuse_json {} id' token rest hon.1]
    constructor
    · intro hsame _ _
      have hescape : r.grammar.inEscape = false := by
        by_contra he
        have hshown := (hsame [literal "\x7b\"\""]).1
        rw [foldl_cons, foldl_nil, escape_shows ((Bool.not_eq_false _).mp he)] at hshown
        cases hshown
      refine ⟨hescape, ?_⟩
      by_contra hb
      have hshown := (hsame [literal "\x7b\"\":[]"]).1
      rw [foldl_cons, foldl_nil, brackets_show hescape hb] at hshown
      cases hshown
    intro hclean
    obtain ⟨he, hb⟩ := hclean hon.1 hon.2
    refine sameGrammar_of_visible ?_
    unfold visible switchedOn
    rw [he, hb]
    rfl
  · rw [reuse_off r id hon, reuse_off {} id' hon]
    refine ⟨fun _ hjson hvocab => absurd ⟨hjson, hvocab⟩ hon, fun _ => sameGrammar_off rfl rfl⟩

/-- A request whose client's array was still open when it ended: the next request's
first array does not close. -/
theorem open_array_leaks :
    let vocab : Option (List Bytes) := some [literal "\x7b", literal "a"]
    let first := ({} : Request).reuse 0 vocab 1
    let used : Request :=
      { first with grammar := first.grammar.updateState (literal "\x7b\"a\":[") }
    stateOn ((used.reuse 1 vocab 1).grammar.updateState (literal "\x7b\"\":[]")) = some .inArray ∧
      stateOn ((({} : Request).reuse 1 vocab 1).grammar.updateState (literal "\x7b\"\":[]")) =
        some .expectCommaOrEnd ∧
      ¬ SameGrammar (used.reuse 1 vocab 1).grammar (({} : Request).reuse 1 vocab 1).grammar := by
  refine ⟨rfl, rfl, fun hsame => ?_⟩
  cases (hsame [literal "\x7b\"\":[]"]).1

end DenseCore.RequestReuse
