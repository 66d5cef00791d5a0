/-
When JSON mode is sound.

The machine has no stack, and the mask looks at some tokens only in part.  The text that
has been read stands at a place in a stack of objects and arrays, and the state of the
machine fits that place (`Stands`).  A token that the mask looks at as a whole is then
read as the grammar has it, but for what `Overlooked` lists; of numbers, literals and
whatever is let through in an array, the mask sees too little, and there every byte must
have its place.  Two branches for arrays lose the place for lack of a stack
(`KeepsArrays`).  With these conditions `COMPLETED` is reached only behind the object.
-/
import DenseCore.Sampling.Grammar
import DenseCore.Lib.JsonPlaces
import DenseCore.Lib.Trace

namespace DenseCore.Sampling

open DenseCore.Lib DenseCore.Lib.Json List

namespace GrammarConstraint

/-! ### The condition on a token -/

/-- The mask looks at the whole token: it is not let through as a number, for a literal
in it, or for a byte that an array may have. -/
def checked (state : JSONState) (token : Bytes) : Bool :=
  match state with
  | .expectValue =>
    isWhitespaceToken token || isExactJsonStructuralToken token 0x22 ||
      isExactJsonStructuralToken token 0x7B || isExactJsonStructuralToken token 0x5B
  | .inNumber =>
    isWhitespaceToken token || isExactJsonStructuralToken token 0x2C ||
      isExactJsonStructuralToken token 0x7D || isExactJsonStructuralToken token 0x5D
  | .inArray => false
  | _ => true

/-- Behind a value: a closing byte is that of the innermost frame, and no quote follows. -/
def EndsFrame (st : List Frame) (c : UInt8) : Prop :=
  c ≠ 0x22 ∧ (c = 0x7D → st.head? = some .object) ∧ (c = 0x5D → st.head? = some .array)

/-- What the mask overlooks at a byte of a token that it looks at: whether a string, a
number or a literal that ends is well formed, which frame is closed, and that no brace
closes behind a comma. -/
def Overlooked (st : List Frame) (c : UInt8) : Place → Prop
  | .string _ body => c = 0x22 → escapeOpen body = false → StringBody body
  | .number text => IsNumber text ∧ EndsFrame st c
  | .word text => IsWord text ∧ EndsFrame st c
  | .key => c ≠ 0x7D
  | .after => EndsFrame st c
  | _ => True

/-- The branches of the machine that need a stack: a comma of an array is read in
`IN_ARRAY`, and the bracket that leaves `IN_ARRAY` closes an outermost array. -/
structure KeepsArrays (g : GrammarConstraint) (st : List Frame) (c : UInt8) : Prop where
  comma : c = 0x2C → st.head? = some .array → g.state.inString = false → g.state = .inArray
  bracket : c = 0x5D → g.state = .inArray → g.bracketDepth = 1 ∨ st.tail.head? = some .array

/-- Along a token, from a place in the text: `all` says whether the mask has looked at all
of it. -/
def Fits (all : Bool) : GrammarConstraint → Place × List Frame → Bytes → Prop
  | _, _, [] => True
  | g, q, c :: rest =>
    KeepsArrays g q.2 c ∧
      (if all then Overlooked q.2 c q.1 else (advancePlace c q.2 q.1).isSome) ∧
      ∀ q', advancePlace c q.2 q.1 = some q' → Fits all (g.readChar c) q' rest

/-- The token has nothing in it that is left to the model. -/
def Fills (g : GrammarConstraint) (token : Bytes) : Prop :=
  ∀ q, place g.accumulated = some q → Fits (checked g.state token) g q token

/-! ### The machine at a place

The state of the mask is tied to a place in the grammar. A byte that keeps the text a prefix
moves both alike, except where the mask knows less than the grammar.
-/

/-- The places at which the machine is in a state. -/
inductive Stands : JSONState → Place → List Frame → Prop
  | start : Stands .expectObjectStart .start []
  | opened {outer : List Frame} : Stands .expectKeyOrEnd .opened (.object :: outer)
  | key {outer : List Frame} : Stands .expectKeyOrEnd .key (.object :: outer)
  | closed {f : Frame} {outer : List Frame} : Stands .expectKeyOrEnd .after (f :: outer)
  | inKey {body : Bytes} {outer : List Frame} :
      Stands .inKey (.string true body) (.object :: outer)
  | colon {outer : List Frame} : Stands .expectColon .colon (.object :: outer)
  | value {outer : List Frame} : Stands .expectValue .value (.object :: outer)
  | inString {body : Bytes} {f : Frame} {outer : List Frame} :
      Stands .inStringValue (.string false body) (f :: outer)
  | after {f : Frame} {outer : List Frame} : Stands .expectCommaOrEnd .after (f :: outer)
  | word {text : Bytes} {outer : List Frame} :
      Stands .expectCommaOrEnd (.word text) (.object :: outer)
  | number {text : Bytes} {outer : List Frame} :
      Stands .inNumber (.number text) (.object :: outer)
  | behindNumber {outer : List Frame} : Stands .inNumber .after (.object :: outer)
  | arrayOpened {outer : List Frame} : Stands .inArray .opened (.array :: outer)
  | arrayValue {outer : List Frame} : Stands .inArray .value (.array :: outer)
  | arrayAfter {outer : List Frame} : Stands .inArray .after (.array :: outer)
  | arrayNumber {text : Bytes} {outer : List Frame} :
      Stands .inArray (.number text) (.array :: outer)
  | arrayWord {text : Bytes} {outer : List Frame} : Stands .inArray (.word text) (.array :: outer)
  | done : Stands .completed .after []

/-- The place is behind a backslash that the next byte completes. -/
def escapeAt : Place → Bool
  | .string _ body => escapeOpen body
  | _ => false

/-- The machine knows where the text stands, as far as it counts. -/
structure Tracks (g : GrammarConstraint) (p : Place) (st : List Frame) : Prop where
  stands : Stands g.state p st
  depth : g.braceDepth = st.count .object
  base : ∀ h : st ≠ [], st.getLast h = .object
  escape : g.inEscape = escapeAt p

variable {g : GrammarConstraint} {p p' : Place} {st st' outer : List Frame} {c : UInt8}
  {token : Bytes} {f : Frame}

theorem Tracks.depth_pos (h : Tracks g p (f :: outer)) : 0 < g.braceDepth := by
  have hmem : Frame.object ∈ f :: outer := by
    rw [← h.base (cons_ne_nil f outer)]
    exact getLast_mem _
  have := count_pos_iff.mpr hmem
  have := h.depth
  omega

theorem Tracks.base_tail (h : Tracks g p (f :: outer)) :
    ∀ h : outer ≠ [], outer.getLast h = .object := by
  intro hne
  rw [← h.base (cons_ne_nil f outer), getLast_cons hne]

theorem Tracks.outside (h : Tracks g .after st) : g.state.inString = false := by
  have hstands := h.stands
  generalize g.state = state at hstands
  cases hstands <;> rfl

theorem readChar_blank (hout : g.state.inString = false) (hc : isBlank c = true) :
    g.readChar c = g := by
  unfold GrammarConstraint.readChar
  rw [if_pos]
  simp [hout, show isWs c = true from hc]

/-- The brace that closes an object: the depth falls to 0 with the outermost one. -/
theorem Tracks.closeBrace (h : Tracks g p (.object :: outer)) (hescape : g.inEscape = false)
    {state : JSONState} (hstate : state = .expectKeyOrEnd ∨ state = .expectCommaOrEnd) :
    Tracks (g.closeBrace state) .after outer := by
  have hdepth : g.braceDepth - 1 = outer.count .object := by
    have := h.depth
    rw [count_cons_self] at this
    omega
  refine ⟨?_, hdepth, h.base_tail, hescape⟩
  show Stands (if g.braceDepth - 1 = 0 then .completed else state) .after outer
  cases outer with
  | nil =>
    rw [if_pos (by simpa using hdepth)]
    exact .done
  | cons f outer =>
    have hmem : Frame.object ∈ f :: outer := by
      rw [← h.base_tail (cons_ne_nil f outer)]
      exact getLast_mem _
    have := count_pos_iff.mpr hmem
    rw [if_neg (by omega)]
    rcases hstate with rfl | rfl
    · exact .closed
    · exact .after

/-- The bracket that closes an array, whatever is counted of it. -/
theorem Tracks.closeBracket (h : Tracks g p (.array :: outer)) (hescape : g.inEscape = false)
    {state : JSONState} (hstands : Stands state .after outer) (n : Int) :
    Tracks { g with bracketDepth := n, state := state } .after outer := by
  refine ⟨hstands, ?_, h.base_tail, hescape⟩
  have := h.depth
  rwa [count_cons_of_ne (by simp)] at this

theorem Tracks.outer_ne (h : Tracks g p (.array :: outer)) : outer ≠ [] := by
  rintro rfl
  exact absurd (h.base (cons_ne_nil _ _)) (by simp)

theorem Tracks.comma (h : Tracks g .after st) (hkeeps : KeepsArrays g st 0x2C)
    (hstep : readComma st = some (p', st')) : Tracks (g.readChar 0x2C) p' st' := by
  unfold readComma at hstep
  split at hstep
  · cases hstep
    have hread : g.readChar 0x2C = { g with state := .expectKeyOrEnd } := by
      have hpos := h.depth_pos
      obtain ⟨enabled, isJsonMode, state, braceDepth, bracketDepth, inEscape, accumulated⟩ := g
      have hstands : Stands state .after _ := h.stands
      cases hstands
      · rfl
      · simpa [GrammarConstraint.readChar, JSONState.inString, isWs, afterComma] using hpos
      · simpa [GrammarConstraint.readChar, JSONState.inString, isWs, afterComma] using hpos
    rw [hread]
    exact ⟨.key, h.depth, h.base, h.escape⟩
  · cases hstep
    have hstate : g.state = .inArray := hkeeps.comma rfl rfl h.outside
    have hread : g.readChar 0x2C = g := by
      unfold GrammarConstraint.readChar
      simp [hstate, JSONState.inString, isWs]
    rw [hread]
    refine ⟨?_, h.depth, h.base, h.escape⟩
    rw [hstate]
    exact .arrayValue
  · cases hstep

theorem Tracks.brace (h : Tracks g .after st) (hstep : closeFrame st .object = some (p', st')) :
    Tracks (g.readChar 0x7D) p' st' := by
  unfold closeFrame at hstep
  split at hstep
  · split at hstep
    · rename_i hf
      subst hf
      cases hstep
      have hread : ∃ state, (state = .expectKeyOrEnd ∨ state = .expectCommaOrEnd) ∧
          g.readChar 0x7D = g.closeBrace state := by
        obtain ⟨enabled, isJsonMode, state, braceDepth, bracketDepth, inEscape, accumulated⟩ := g
        have hstands : Stands state .after _ := h.stands
        cases hstands
        · exact ⟨.expectKeyOrEnd, Or.inl rfl, rfl⟩
        · exact ⟨.expectCommaOrEnd, Or.inr rfl, rfl⟩
        · exact ⟨.expectCommaOrEnd, Or.inr rfl, rfl⟩
      obtain ⟨state, hstate, heq⟩ := hread
      rw [heq]
      exact h.closeBrace h.escape hstate
    · cases hstep
  · cases hstep

theorem stands_after_of_ne (hst : st ≠ []) : Stands .expectCommaOrEnd .after st := by
  obtain ⟨f, outer, rfl⟩ := exists_cons_of_ne_nil hst
  exact .after

/-- The bracket of an array, read in `IN_ARRAY`. -/
theorem Tracks.leaveArray (h : Tracks g p (.array :: outer)) (hstate : g.state = .inArray)
    (hescape : g.inEscape = false) (hkeeps : KeepsArrays g (.array :: outer) 0x5D) :
    Tracks (g.readChar 0x5D) .after outer := by
  have hread : g.readChar 0x5D = { g with
      bracketDepth := g.bracketDepth - 1,
      state := if g.bracketDepth - 1 = 0 then .expectCommaOrEnd else .inArray } := by
    unfold GrammarConstraint.readChar
    simp [hstate, JSONState.inString, isWs]
  rw [hread]
  refine h.closeBracket hescape ?_ _
  split
  · exact stands_after_of_ne h.outer_ne
  rename_i hdepth
  have houter : outer.head? = some .array :=
    (hkeeps.bracket rfl hstate).resolve_left fun hone => hdepth (by omega)
  cases outer with
  | nil => cases houter
  | cons f outer =>
    obtain rfl := Option.some.inj houter
    exact .arrayAfter

theorem Tracks.bracket (h : Tracks g .after st) (hkeeps : KeepsArrays g st 0x5D)
    (hstep : closeFrame st .array = some (p', st')) : Tracks (g.readChar 0x5D) p' st' := by
  unfold closeFrame at hstep
  split at hstep
  · split at hstep
    · rename_i hf
      subst hf
      cases hstep
      obtain ⟨f, outer, rfl⟩ := exists_cons_of_ne_nil h.outer_ne
      by_cases harray : g.state = .inArray
      · exact h.leaveArray harray h.escape hkeeps
      obtain ⟨enabled, isJsonMode, state, braceDepth, bracketDepth, inEscape, accumulated⟩ := g
      have hstands : Stands state .after _ := h.stands
      cases hstands
      · exact h.closeBracket h.escape .closed bracketDepth
      · exact h.closeBracket h.escape .after (bracketDepth - 1)
      · exact absurd rfl harray
    · cases hstep
  · cases hstep

/-- **A byte behind a value.** -/
theorem Tracks.ends (h : Tracks g .after st) (hkeeps : KeepsArrays g st c)
    (hstep : readAfter c st = some (p', st')) : Tracks (g.readChar c) p' st' := by
  unfold Json.readAfter at hstep
  split at hstep
  · rename_i hc
    cases hstep
    rw [readChar_blank h.outside hc]
    exact h
  split at hstep
  · rename_i hc
    subst hc
    exact h.comma hkeeps hstep
  split at hstep
  · rename_i hc
    subst hc
    exact h.brace hstep
  split at hstep
  · rename_i hc
    subst hc
    exact h.bracket hkeeps hstep
  · cases hstep

/-- The bytes that some state without strings has a branch for. -/
def structural : Bytes := [0x5D, 0x2C, 0x22, 0x7B, 0x7D]

theorem notMem_structural {ok : UInt8 → Bool} (hno : structural.all (fun d => !ok d) = true)
    (hc : ok c = true) : c ≠ 0x5D ∧ c ≠ 0x2C ∧ c ≠ 0x22 ∧ c ≠ 0x7B ∧ c ≠ 0x7D := by
  have hne : ∀ d ∈ structural, c ≠ d := by
    rintro d hd rfl
    exact absurd hc (by simpa using all_eq_true.mp hno c hd)
  exact ⟨hne _ (by decide), hne _ (by decide), hne _ (by decide), hne _ (by decide),
    hne _ (by decide)⟩

/-- Bytes for which the state has no branch are skipped. -/
theorem readChar_skip (h : g.state = .inArray ∧ c ∉ [0x5D, 0x2C, 0x22, 0x7B] ∨
    (g.state = .inNumber ∨ g.state = .expectCommaOrEnd) ∧ c ∉ [0x2C, 0x7D, 0x5D]) :
    g.readChar c = g := by
  unfold GrammarConstraint.readChar
  split
  · rfl
  simp only [mem_cons, not_mem_nil, or_false, not_or] at h
  obtain ⟨hstate, h₁, h₂, h₃, h₄⟩ | ⟨hstate | hstate, h₁, h₂, h₃⟩ := h
  · simp [hstate, h₁, h₂, h₃, h₄]
  · simp [hstate, h₁, h₂, h₃]
  · simp [hstate, h₁, h₂, h₃]

theorem Tracks.base_push (h : Tracks g p (f :: outer)) (f' : Frame) :
    ∀ hne : f' :: f :: outer ≠ [], (f' :: f :: outer).getLast hne = .object := by
  intro _
  rw [getLast_cons (cons_ne_nil f outer)]
  exact h.base _

/-- A brace opens one more object. -/
theorem Tracks.openBrace (h : Tracks g p (f :: outer)) (hescape : g.inEscape = false) :
    Tracks { g with braceDepth := g.braceDepth + 1, state := .expectKeyOrEnd } .opened
      (.object :: f :: outer) := by
  refine ⟨.opened, ?_, h.base_push _, hescape⟩
  have := h.depth
  rw [count_cons_self]
  dsimp only
  omega

theorem Tracks.openBracket (h : Tracks g p (f :: outer)) (hescape : g.inEscape = false) (n : Int) :
    Tracks { g with bracketDepth := n, state := .inArray } .opened (.array :: f :: outer) := by
  refine ⟨.arrayOpened, ?_, h.base_push _, hescape⟩
  rw [count_cons_of_ne (by simp)]
  exact h.depth

/-- **The first byte of a member's value.** -/
theorem Tracks.memberValue (h : Tracks g .value (.object :: outer)) (hs : g.state = .expectValue)
    (hstep : readValue c (.object :: outer) .value = some (p', st')) :
    Tracks (g.readChar c) p' st' := by
  have hescape : g.inEscape = false := h.escape
  have hread : g.readChar c = if isWs c then g
      else if c = 0x22 then { g with state := .inStringValue }
      else if c = 0x7B then { g with braceDepth := g.braceDepth + 1, state := .expectKeyOrEnd }
      else if c = 0x5B then { g with bracketDepth := g.bracketDepth + 1, state := .inArray }
      else if beginsNumber c then { g with state := .inNumber }
      else if beginsWord c then { g with state := .expectCommaOrEnd }
      else g := by
    unfold GrammarConstraint.readChar
    simp only [hs, JSONState.inString, decide_false, Bool.or_false, Bool.not_false, Bool.true_and,
      reduceCtorEq]
    rfl
  rw [hread]
  unfold Json.readValue at hstep
  split at hstep
  · rename_i hc
    cases hstep
    rw [if_pos (show isWs c = true from hc)]
    exact h
  rename_i hblank
  rw [if_neg (show ¬ isWs c = true from hblank)]
  split at hstep
  · cases hstep
    rw [if_pos ‹_›]
    exact ⟨.inString, h.depth, h.base, hescape⟩
  rw [if_neg ‹_›]
  split at hstep
  · cases hstep
    rw [if_pos ‹_›]
    exact h.openBrace hescape
  rw [if_neg ‹_›]
  split at hstep
  · cases hstep
    rw [if_pos ‹_›]
    exact h.openBracket hescape _
  rw [if_neg ‹_›]
  split at hstep
  · cases hstep
    rw [if_pos ‹_›]
    exact ⟨.number, h.depth, h.base, hescape⟩
  rw [if_neg ‹_›]
  split at hstep
  · rename_i hword
    cases hstep
    rw [if_pos hword]
    exact ⟨.word, h.depth, h.base, hescape⟩
  · cases hstep

/-- **The first byte of an element.** -/
theorem Tracks.element (h : Tracks g p (.array :: outer)) (hs : g.state = .inArray)
    (hp : p = .opened ∨ p = .value)
    (hstep : readValue c (.array :: outer) p = some (p', st')) : Tracks (g.readChar c) p' st' := by
  have hescape : g.inEscape = false := by rcases hp with rfl | rfl <;> exact h.escape
  have hout : g.state.inString = false := by rw [hs]; rfl
  -- Where the machine skips a byte the array goes on.
  have hskip : ∀ {q : Place}, Stands .inArray q (.array :: outer) →
      escapeAt q = false → c ∉ [0x5D, 0x2C, 0x22, 0x7B] →
      Tracks (g.readChar c) q (.array :: outer) := by
    intro q hstands hq hc
    rw [readChar_skip (Or.inl ⟨hs, hc⟩)]
    exact ⟨hs ▸ hstands, h.depth, h.base, hescape.trans hq.symm⟩
  unfold Json.readValue at hstep
  split at hstep
  · rename_i hc
    cases hstep
    rw [readChar_blank hout hc]
    exact h
  split at hstep
  · rename_i hc
    subst hc
    cases hstep
    rw [show g.readChar 0x22 = { g with state := .inStringValue } by
      unfold GrammarConstraint.readChar
      simp [hs, JSONState.inString, isWs]]
    exact ⟨.inString, h.depth, h.base, hescape⟩
  split at hstep
  · rename_i hc
    subst hc
    cases hstep
    rw [show g.readChar 0x7B =
        { g with braceDepth := g.braceDepth + 1, state := .expectKeyOrEnd } by
      unfold GrammarConstraint.readChar
      simp [hs, JSONState.inString, isWs]]
    exact h.openBrace hescape
  rename_i hquote hbrace
  split at hstep
  · rename_i hc
    subst hc
    cases hstep
    rw [readChar_skip (Or.inl ⟨hs, by decide⟩)]
    have hopened := h.openBracket hescape g.bracketDepth
    rwa [← hs] at hopened
  split at hstep
  · rename_i hnumber
    cases hstep
    have := notMem_structural (by decide) hnumber
    exact hskip .arrayNumber rfl (by simp_all)
  split at hstep
  · rename_i hword
    cases hstep
    have := notMem_structural (by decide) hword
    exact hskip .arrayWord rfl (by simp_all)
  · cases hstep

theorem escapeOpen_concat (body : Bytes) (c : UInt8) :
    escapeOpen (body ++ [c]) = if c = 0x5C then !escapeOpen body else false := foldl_append

/-- **A byte of a string.** -/
theorem Tracks.stringChar {isKey : Bool} {body : Bytes} {closed : JSONState}
    (h : Tracks g (.string isKey body) st)
    (hread : g.readChar c = g.stringChar c closed)
    (hclosed : Stands closed (if isKey then .colon else .after) st)
    (hstays : Stands g.state (.string isKey (body ++ [c])) st)
    (hstep : advancePlace c st (.string isKey body) = some (p', st')) :
    Tracks (g.readChar c) p' st' := by
  have hescape : g.inEscape = escapeOpen body := h.escape
  rw [hread]
  unfold GrammarConstraint.stringChar
  simp only [advancePlace] at hstep
  split at hstep
  · rename_i hquote
    split at hstep
    · cases hstep
      rw [if_pos (by simp [hquote.1, hescape, hquote.2])]
      refine ⟨hclosed, h.depth, h.base, ?_⟩
      cases isKey <;> exact hescape.trans hquote.2
    · cases hstep
  rename_i hquote
  cases hstep
  rw [if_neg (by simpa [hescape] using hquote)]
  split
  · rename_i hback
    refine ⟨hstays, h.depth, h.base, ?_⟩
    show (!g.inEscape) = escapeOpen (body ++ [c])
    rw [escapeOpen_concat, if_pos hback, hescape]
  · rename_i hback
    refine ⟨hstays, h.depth, h.base, ?_⟩
    show false = escapeOpen (body ++ [c])
    rw [escapeOpen_concat, if_neg hback]

/-- **A byte of a number or a literal**, or the first one behind it. -/
theorem Tracks.scalar {q : Place} {inside : Bool} {ok : Prop} {_ : Decidable ok} (h : Tracks g p st)
    (hp : escapeAt p = false) (hafter : Stands g.state .after st) (hstays : Stands g.state q st)
    (hq : escapeAt q = false) (hkeeps : KeepsArrays g st c)
    (hskip : inside = true → g.readChar c = g)
    (hstep : (if inside = true then some (q, st) else if ok then readAfter c st else none) =
      some (p', st')) : Tracks (g.readChar c) p' st' := by
  have hescape : g.inEscape = false := h.escape.trans hp
  split at hstep
  · rename_i hc
    cases hstep
    rw [hskip hc]
    exact ⟨hstays, h.depth, h.base, hescape.trans hq.symm⟩
  split at hstep
  · exact Tracks.ends ⟨hafter, h.depth, h.base, hescape⟩ hkeeps hstep
  · cases hstep

/-- **A byte where a key may begin.** -/
theorem Tracks.memberKey (h : Tracks g p (.object :: outer)) (hs : g.state = .expectKeyOrEnd)
    (hescape : g.inEscape = false) (hstep : readKey c (.object :: outer) p = some (p', st')) :
    Tracks (g.readChar c) p' st' := by
  unfold Json.readKey at hstep
  split at hstep
  · rename_i hc
    cases hstep
    rw [readChar_blank (by rw [hs]; rfl) hc]
    exact h
  split at hstep
  · rename_i hc
    subst hc
    cases hstep
    rw [show g.readChar 0x22 = { g with state := .inKey } by
      unfold GrammarConstraint.readChar
      simp [hs, JSONState.inString, isWs]]
    exact ⟨.inKey, h.depth, h.base, hescape⟩
  · cases hstep

/-- **One byte**: the machine follows the text wherever the byte has a place in it. -/
theorem Tracks.readChar (h : Tracks g p st) (hkeeps : KeepsArrays g st c)
    (hstep : advancePlace c st p = some (p', st')) : Tracks (g.readChar c) p' st' := by
  obtain ⟨state, hs⟩ : ∃ state, g.state = state := ⟨_, rfl⟩
  have hstands : Stands state p st := hs ▸ h.stands
  cases hstands with
  | start =>
    simp only [advancePlace] at hstep
    split at hstep
    · rename_i hc
      cases hstep
      rw [readChar_blank (by rw [hs]; rfl) hc]
      exact h
    split at hstep
    · rename_i hc
      subst hc
      cases hstep
      rw [show g.readChar 0x7B = { g with state := .expectKeyOrEnd, braceDepth := 1 } by
        unfold GrammarConstraint.readChar
        simp [hs, JSONState.inString, isWs]]
      exact ⟨.opened, rfl, fun _ => rfl, h.escape⟩
    · cases hstep
  | opened =>
    simp only [advancePlace] at hstep
    split at hstep
    · rename_i hc
      subst hc
      cases hstep
      rw [show g.readChar 0x7D = g.closeBrace .expectKeyOrEnd by
        unfold GrammarConstraint.readChar
        simp [hs, JSONState.inString, isWs]]
      exact h.closeBrace h.escape (Or.inl rfl)
    · exact h.memberKey hs h.escape hstep
  | key =>
    simp only [advancePlace, head?_cons, if_true] at hstep
    exact h.memberKey hs h.escape hstep
  | closed => exact h.ends hkeeps hstep
  | inKey =>
    refine h.stringChar ?_ .colon (hs ▸ .inKey) hstep
    unfold GrammarConstraint.readChar
    rw [hs]
    rfl
  | colon =>
    simp only [advancePlace] at hstep
    split at hstep
    · rename_i hc
      cases hstep
      rw [readChar_blank (by rw [hs]; rfl) hc]
      exact h
    split at hstep
    · rename_i hc
      subst hc
      cases hstep
      rw [show g.readChar 0x3A = { g with state := .expectValue } by
        unfold GrammarConstraint.readChar
        simp [hs, JSONState.inString, isWs]]
      exact ⟨.value, h.depth, h.base, h.escape⟩
    · cases hstep
  | value => exact h.memberValue hs hstep
  | inString =>
    refine h.stringChar ?_ .after (hs ▸ .inString) hstep
    unfold GrammarConstraint.readChar
    rw [hs]
    rfl
  | after => exact h.ends hkeeps hstep
  | word =>
    simp only [advancePlace] at hstep
    refine h.scalar rfl (hs ▸ .after) (hs ▸ .word) rfl hkeeps (fun hc => readChar_skip ?_) hstep
    have := notMem_structural (by decide) hc
    exact Or.inr ⟨Or.inr hs, by simp_all⟩
  | number =>
    simp only [advancePlace] at hstep
    refine h.scalar rfl (hs ▸ .behindNumber) (hs ▸ .number) rfl hkeeps
      (fun hc => readChar_skip ?_) hstep
    have := notMem_structural (by decide) hc
    exact Or.inr ⟨Or.inl hs, by simp_all⟩
  | behindNumber => exact h.ends hkeeps hstep
  | arrayOpened =>
    simp only [advancePlace] at hstep
    split at hstep
    · rename_i hc
      subst hc
      cases hstep
      exact h.leaveArray hs h.escape hkeeps
    · exact h.element hs (Or.inl rfl) hstep
  | arrayValue => exact h.element hs (Or.inr rfl) hstep
  | arrayAfter => exact h.ends hkeeps hstep
  | arrayNumber =>
    simp only [advancePlace] at hstep
    refine h.scalar rfl (hs ▸ .arrayAfter) (hs ▸ .arrayNumber) rfl hkeeps
      (fun hc => readChar_skip ?_) hstep
    have := notMem_structural (by decide) hc
    exact Or.inl ⟨hs, by simp_all⟩
  | arrayWord =>
    simp only [advancePlace] at hstep
    refine h.scalar rfl (hs ▸ .arrayAfter) (hs ▸ .arrayWord) rfl hkeeps
      (fun hc => readChar_skip ?_) hstep
    have := notMem_structural (by decide) hc
    exact Or.inl ⟨hs, by simp_all⟩
  | done => exact h.ends hkeeps hstep

/-! ### What the mask ensures

In each state a token that is not masked has one of few forms. Whether it keeps to the
grammar depends on the place alone, which is where the condition comes from.
-/

/-- The bytes besides white space that a token which the mask looks at may have. -/
def awaited (state : JSONState) (c : UInt8) : Bool :=
  match state with
  | .expectObjectStart => c = 0x7B
  | .expectKeyOrEnd => c = 0x22 || c = 0x7D
  | .inKey | .inStringValue => true
  | .expectColon => c = 0x3A
  | .expectValue => c = 0x22 || c = 0x7B || c = 0x5B
  | .inNumber | .expectCommaOrEnd => c = 0x2C || c = 0x7D || c = 0x5D
  | .inArray | .completed => false

/-- Every byte of the text is white space or awaited in the state that reads it. -/
def Awaits : GrammarConstraint → Bytes → Prop
  | _, [] => True
  | g, c :: rest => (isWs c = true ∨ awaited g.state c = true) ∧ Awaits (g.readChar c) rest

theorem awaits_blank {w : Bytes} (hw : ∀ c ∈ w, isWs c = true) : ∀ g, Awaits g w := by
  induction w with
  | nil => exact fun _ => trivial
  | cons c rest ih =>
    exact fun g => ⟨Or.inl (hw c (by simp)), ih (fun d hd => hw d (by simp [hd])) _⟩

theorem stringChar_state (hquote : c ≠ 0x22) (closed : JSONState) :
    (g.stringChar c closed).state = g.state := by
  unfold GrammarConstraint.stringChar
  rw [if_neg (by simp [hquote])]
  split <;> rfl

theorem readChar_string (hin : g.state.inString = true) (c : UInt8) :
    ∃ closed, g.readChar c = g.stringChar c closed := by
  unfold GrammarConstraint.readChar
  rw [hin]
  cases hs : g.state <;> simp [hs, JSONState.inString] at hin <;> exact ⟨_, rfl⟩

/-- White space changes no state, not even in a string. -/
theorem readChar_blank_state (hc : isWs c = true) : (g.readChar c).state = g.state := by
  cases hin : g.state.inString with
  | false => rw [readChar_blank hin hc]
  | true =>
    have hquote : c ≠ 0x22 := by
      rintro rfl
      exact absurd hc (by decide)
    obtain ⟨closed, hread⟩ := readChar_string hin c
    rw [hread, stringChar_state hquote]

theorem awaits_exact {w₁ w₂ : Bytes} (h₁ : ∀ c ∈ w₁, isWs c = true) (h₂ : ∀ c ∈ w₂, isWs c = true)
    {x : UInt8} : ∀ g : GrammarConstraint, awaited g.state x = true → Awaits g (w₁ ++ x :: w₂) := by
  induction w₁ with
  | nil => exact fun g hx => ⟨Or.inr hx, awaits_blank h₂ _⟩
  | cons c rest ih =>
    intro g hx
    have hc : isWs c = true := h₁ c (by simp)
    refine ⟨Or.inl hc, ih (fun d hd => h₁ d (by simp [hd])) _ ?_⟩
    rwa [readChar_blank_state hc]

theorem exists_of_exact {x : UInt8} (h : isExactJsonStructuralToken token x = true) :
    ∃ w₁ w₂, (∀ c ∈ w₁, isWs c = true) ∧ (∀ c ∈ w₂, isWs c = true) ∧ token = w₁ ++ x :: w₂ := by
  have htrim : ((token.dropWhile isWs).reverse.dropWhile isWs).reverse = [x] :=
    of_decide_eq_true h
  have hfront := takeWhile_append_dropWhile (p := isWs) (l := token)
  have hback := takeWhile_append_dropWhile (p := isWs) (l := (token.dropWhile isWs).reverse)
  rw [reverse_eq_iff.mp htrim] at hback
  refine ⟨token.takeWhile isWs, ((token.dropWhile isWs).reverse.takeWhile isWs).reverse, ?_, ?_, ?_⟩
  · exact fun c hc => all_eq_true.mp all_takeWhile c hc
  · exact fun c hc => all_eq_true.mp all_takeWhile c (mem_reverse.mp hc)
  · have hrest := congrArg reverse hback
    simp only [reverse_append, reverse_reverse] at hrest
    conv_lhs => rw [← hfront, ← hrest]
    simp

theorem awaits_content (hcontent : ∀ c ∈ token, c ≠ 0x22) : ∀ g : GrammarConstraint,
    g.state.inString = true → Awaits g token := by
  induction token with
  | nil => exact fun _ _ => trivial
  | cons c rest ih =>
    intro g hin
    refine ⟨Or.inr ?_, ih (fun d hd => hcontent d (by simp [hd])) _ ?_⟩
    · cases hs : g.state <;> simp [hs, JSONState.inString] at hin <;> rfl
    · obtain ⟨closed, hread⟩ := readChar_string hin c
      rw [hread, stringChar_state (hcontent c (by simp))]
      exact hin

/-- **What the mask leaves**, of the tokens that it looks at as a whole. -/
theorem awaits_of_unmasked (hon : (!g.enabled || !g.isJsonMode) = false)
    (hunmasked : g.unmasked token = true) (hchecked : checked g.state token = true) :
    Awaits g token := by
  have hexact : ∀ x, isExactJsonStructuralToken token x = true → awaited g.state x = true →
      Awaits g token := by
    intro x hx hstate
    obtain ⟨w₁, w₂, h₁, h₂, rfl⟩ := exists_of_exact hx
    exact awaits_exact h₁ h₂ g hstate
  have hblank : isWhitespaceToken token = true → Awaits g token := by
    intro h
    exact awaits_blank (all_eq_true.mp (Bool.and_eq_true_iff.mp h).2) g
  have hcontent : isJsonStringContentToken token = true → g.state.inString = true →
      Awaits g token := by
    intro h hin
    refine awaits_content (fun c hc => ?_) g hin
    have := all_eq_true.mp (Bool.and_eq_true_iff.mp h).2 c hc
    rintro rfl
    simp at this
  unfold GrammarConstraint.unmasked at hunmasked
  rw [hon, Bool.false_or] at hunmasked
  rcases Bool.or_eq_true_iff.mp hunmasked with hws | hfits
  · exact hblank hws
  cases hs : g.state <;> rw [hs] at hfits hchecked hexact hcontent <;>
    simp only [fitsState, checked, Bool.or_eq_true] at hfits hchecked
  case expectObjectStart => exact hexact _ hfits rfl
  case expectColon => exact hexact _ hfits rfl
  case expectKeyOrEnd => exact hfits.elim (hexact _ · rfl) (hexact _ · rfl)
  case inKey => exact hfits.elim (hexact _ · rfl) (hcontent · rfl)
  case inStringValue => exact hfits.elim (hexact _ · rfl) (hcontent · rfl)
  case expectCommaOrEnd =>
    rcases hfits with (h | h) | h
    · exact hexact _ h rfl
    · exact hexact _ h rfl
    · exact hexact _ h rfl
  case expectValue =>
    rcases hchecked with ((h | h) | h) | h
    · exact hblank h
    · exact hexact _ h rfl
    · exact hexact _ h rfl
    · exact hexact _ h rfl
  case inNumber =>
    rcases hchecked with ((h | h) | h) | h
    · exact hblank h
    · exact hexact _ h rfl
    · exact hexact _ h rfl
    · exact hexact _ h rfl
  case inArray => cases hchecked
  case completed => cases hfits

/-- Behind a value the awaited bytes advance the text, if they end the right frame. -/
theorem readAfter_isSome (hst : st ≠ [])
    (hc : isBlank c = true ∨ c = 0x2C ∨ c = 0x7D ∨ c = 0x5D) (hends : EndsFrame st c) :
    (readAfter c st).isSome := by
  obtain ⟨f, outer, rfl⟩ := exists_cons_of_ne_nil hst
  unfold Json.readAfter
  split
  · rfl
  rename_i hblank
  rcases hc.resolve_left hblank with rfl | rfl | rfl
  · cases f <;> rfl
  · obtain rfl := Option.some.inj (hends.2.1 rfl)
    rfl
  · obtain rfl := Option.some.inj (hends.2.2 rfl)
    rfl

/-- **An awaited byte has its place**, but for what the mask overlooks. -/
theorem Tracks.advance_isSome (h : Tracks g p st)
    (hc : isWs c = true ∨ awaited g.state c = true) (hover : Overlooked st c p) :
    (advancePlace c st p).isSome := by
  have hblank : isWs c = isBlank c := rfl
  rw [hblank] at hc
  have hstands := h.stands
  generalize g.state = state at hc hstands
  have hstring : ∀ isKey body, p = .string isKey body → (advancePlace c st p).isSome := by
    rintro isKey body rfl
    simp only [advancePlace]
    split
    · rename_i hquote
      rw [if_pos (hover hquote.1 hquote.2)]
      rfl
    · rfl
  cases hstands with
  | start =>
    rcases hc with hc | hc
    · simp [advancePlace, hc]
    · rw [of_decide_eq_true hc]
      rfl
  | opened =>
    simp only [advancePlace]
    split
    · rfl
    rename_i hopen
    rcases hc with hc | hc
    · simp [readKey, hc]
    · rcases Bool.or_eq_true_iff.mp hc with hc | hc
      · rw [of_decide_eq_true hc]
        rfl
      · exact absurd (of_decide_eq_true hc) hopen
  | key =>
    simp only [advancePlace, head?_cons, if_true]
    rcases hc with hc | hc
    · simp [readKey, hc]
    · rcases Bool.or_eq_true_iff.mp hc with hc | hc
      · rw [of_decide_eq_true hc]
        rfl
      · exact absurd (of_decide_eq_true hc) hover
  | closed =>
    refine readAfter_isSome (cons_ne_nil _ _) (hc.imp_right fun hc => ?_) hover
    rcases Bool.or_eq_true_iff.mp hc with hc | hc
    · exact absurd (of_decide_eq_true hc) hover.1
    · exact Or.inr (Or.inl (of_decide_eq_true hc))
  | inKey => exact hstring _ _ rfl
  | colon =>
    rcases hc with hc | hc
    · simp [advancePlace, hc]
    · rw [of_decide_eq_true hc]
      rfl
  | value =>
    rcases hc with hc | hc
    · simp [advancePlace, readValue, hc]
    · rcases Bool.or_eq_true_iff.mp hc with hc | hc
      · rcases Bool.or_eq_true_iff.mp hc with hc | hc <;> obtain rfl := of_decide_eq_true hc <;> rfl
      · obtain rfl := of_decide_eq_true hc
        rfl
  | inString => exact hstring _ _ rfl
  | after | behindNumber =>
    refine readAfter_isSome (cons_ne_nil _ _) (hc.imp_right fun hc => ?_) hover
    simpa [awaited, or_assoc] using hc
  | word | number =>
    simp only [advancePlace]
    split
    · rfl
    rw [if_pos hover.1]
    exact readAfter_isSome (cons_ne_nil _ _)
      (hc.imp_right fun hc => by simpa [awaited, or_assoc] using hc) hover.2
  | arrayOpened =>
    simp only [advancePlace]
    split
    · rfl
    · simp [readValue, hc.resolve_right Bool.false_ne_true]
  | arrayValue => simp [advancePlace, readValue, hc.resolve_right Bool.false_ne_true]
  | arrayAfter =>
    exact readAfter_isSome (cons_ne_nil _ _) (Or.inl (hc.resolve_right Bool.false_ne_true)) hover
  | arrayNumber | arrayWord =>
    simp only [advancePlace]
    split
    · rfl
    rw [if_pos hover.1]
    exact readAfter_isSome (cons_ne_nil _ _) (Or.inl (hc.resolve_right Bool.false_ne_true)) hover.2
  | done =>
    rcases hc with hc | hc
    · simp [advancePlace, Json.readAfter, hc]
    · cases hc

/-! ### What has been accumulated does not matter to the machine -/

theorem readChar_withAccumulated (g : GrammarConstraint) (text : Bytes) (c : UInt8) :
    ({ g with accumulated := text } : GrammarConstraint).readChar c =
      { g.readChar c with accumulated := text } := by
  obtain ⟨enabled, isJsonMode, state, braceDepth, bracketDepth, inEscape, accumulated⟩ := g
  cases state <;> simp only [GrammarConstraint.readChar, GrammarConstraint.closeBrace, stringChar,
    afterComma] <;> (repeat' split) <;> rfl

theorem Fits.withAccumulated {all : Bool} {q : Place × List Frame} (h : Fits all g q token)
    (text : Bytes) : Fits all { g with accumulated := text } q token := by
  induction token generalizing g q with
  | nil => trivial
  | cons c rest ih =>
    refine ⟨⟨h.1.comma, h.1.bracket⟩, h.2.1, fun q' hq => ?_⟩
    rw [readChar_withAccumulated]
    exact ih (h.2.2 q' hq)

theorem Awaits.withAccumulated (h : Awaits g token) (text : Bytes) :
    Awaits { g with accumulated := text } token := by
  induction token generalizing g with
  | nil => trivial
  | cons c rest ih =>
    refine ⟨h.1, ?_⟩
    rw [readChar_withAccumulated]
    exact ih h.2

theorem readChar_frame (g : GrammarConstraint) (c : UInt8) :
    (g.readChar c).enabled = g.enabled ∧ (g.readChar c).isJsonMode = g.isJsonMode ∧
      (g.readChar c).accumulated = g.accumulated := by
  obtain ⟨enabled, isJsonMode, state, braceDepth, bracketDepth, inEscape, accumulated⟩ := g
  cases state <;> simp only [GrammarConstraint.readChar, GrammarConstraint.closeBrace,
    stringChar] <;> (repeat' split) <;> exact ⟨rfl, rfl, rfl⟩

theorem read_frame (g : GrammarConstraint) (token : Bytes) :
    (token.foldl GrammarConstraint.readChar g).enabled = g.enabled ∧
      (token.foldl GrammarConstraint.readChar g).isJsonMode = g.isJsonMode ∧
      (token.foldl GrammarConstraint.readChar g).accumulated = g.accumulated := by
  induction token generalizing g with
  | nil => exact ⟨rfl, rfl, rfl⟩
  | cons c rest ih =>
    obtain ⟨he, hj, ha⟩ := ih (g.readChar c)
    obtain ⟨he', hj', ha'⟩ := readChar_frame g c
    exact ⟨he.trans he', hj.trans hj', ha.trans ha'⟩

/-! ### Runs -/

/-- **A whole token.** -/
theorem Tracks.read {all : Bool} {text : Bytes} (hplace : place text = some (p, st))
    (h : Tracks g p st) (hfits : Fits all g (p, st) token) (hawaits : all = true → Awaits g token) :
    ∃ p' st', place (text ++ token) = some (p', st') ∧
      Tracks (token.foldl GrammarConstraint.readChar g) p' st' := by
  induction token generalizing g p st text with
  | nil => exact ⟨p, st, by rwa [append_nil], h⟩
  | cons c rest ih =>
    obtain ⟨hkeeps, hbyte, hrest⟩ := hfits
    have hsome : (advancePlace c st p).isSome := by
      cases all with
      | true => exact h.advance_isSome (hawaits rfl).1 hbyte
      | false => exact hbyte
    obtain ⟨⟨p', st'⟩, hstep⟩ := Option.isSome_iff_exists.mp hsome
    have htoken := ih (place_step hplace hstep) (h.readChar hkeeps hstep) (hrest _ hstep)
      fun hall => (hawaits hall).2
    rwa [append_assoc] at htoken

/-- What holds after every token. -/
structure Following (g : GrammarConstraint) : Prop where
  enabled : g.enabled = true
  isJsonMode : g.isJsonMode = true
  tracks : ∃ p st, place g.accumulated = some (p, st) ∧ Tracks g p st

theorem Following.updateState (h : Following g) (hunmasked : g.unmasked token = true)
    (hfills : Fills g token) : Following (g.updateState token) := by
  have hon : (!g.enabled || !g.isJsonMode) = false := by simp [h.enabled, h.isJsonMode]
  obtain ⟨p, st, hplace, htracks⟩ := h.tracks
  unfold GrammarConstraint.updateState
  rw [hon, if_neg Bool.false_ne_true]
  obtain ⟨he, hj, ha⟩ := read_frame { g with accumulated := g.accumulated ++ token } token
  refine ⟨he.trans h.enabled, hj.trans h.isJsonMode, ?_⟩
  rw [ha]
  exact Tracks.read hplace ⟨htracks.stands, htracks.depth, htracks.base, htracks.escape⟩
    ((hfills _ hplace).withAccumulated _)
    fun hall => (awaits_of_unmasked hon hunmasked hall).withAccumulated _

theorem following_jsonGrammar : Following jsonGrammar :=
  ⟨rfl, rfl, .start, [], rfl, .start, rfl, fun h => absurd rfl h, rfl⟩

theorem Following.sampleStep {vocab : List Bytes} {g' : GrammarConstraint} {token : Nat}
    (h : Following g) (hfills : Fills g (vocab.getD token []))
    (hstep : sampleStep vocab g token = some g') : Following g' := by
  unfold DenseCore.Sampling.sampleStep at hstep
  cases htext : vocab[token]? with
  | none =>
    rw [htext] at hstep
    cases hstep
  | some text =>
    rw [getD_eq_getElem?_getD, htext] at hfills
    rw [htext] at hstep
    dsimp only at hstep
    split at hstep
    · rename_i hunmasked
      rw [← Option.some.inj hstep]
      exact h.updateState hunmasked hfills
    · cases hstep

/-- **JSON mode is sound where the mask sees enough**: in every run whose tokens have
nothing in them that it overlooks, for every vocabulary, the text is an object when the
state is `COMPLETED`. -/
theorem completed_sound {vocab : List Bytes} {g : GrammarConstraint}
    (hrun : Runs (DenseCore.Sampling.sampleStep vocab)
      (fun g token => Fills g (vocab.getD token [])) jsonGrammar g)
    (hdone : g.state = .completed) : IsObjectText g.accumulated := by
  have hfollowing : Following g := hrun.inv following_jsonGrammar
    fun a e b ha hok hstep => ha.sampleStep hok hstep
  obtain ⟨p, st, hplace, htracks⟩ := hfollowing.tracks
  have hstands := htracks.stands
  rw [hdone] at hstands
  cases hstands
  exact isObjectText_of_place hplace

/-! ### Small vocabularies -/

/-- The bytes of `{"a:1,}`, each a token. -/
def smallVocab : List Bytes := [[0x7B], [0x22], [0x61], [0x3A], [0x31], [0x2C], [0x7D]]

/-- The object of one member that the small vocabulary can write. -/
def memberText : Bytes := [0x7B, 0x22, 0x61, 0x22, 0x3A, 0x31, 0x7D]

/-- A token of one byte outside arrays. -/
theorem fills_byte {all : Bool} {q : Place × List Frame} (hplace : place g.accumulated = some q)
    (hall : checked g.state [c] = all) (hstate : g.state ≠ .inArray)
    (hopen : q.2.head? ≠ some .array)
    (hbyte : if all then Overlooked q.2 c q.1 else (advancePlace c q.2 q.1).isSome) :
    Fills g [c] := by
  intro q' hq'
  obtain rfl := Option.some.inj (hplace.symm.trans hq')
  rw [hall]
  exact ⟨⟨fun _ h _ => absurd h hopen, fun _ h => absurd h hstate⟩, hbyte, fun _ _ => trivial⟩

/-- The object is sampled token by token, and at its end the state is `COMPLETED`. -/
theorem memberText_completes : ∃ g, Runs (DenseCore.Sampling.sampleStep smallVocab)
        (fun g token => Fills g (smallVocab.getD token [])) jsonGrammar g ∧
      g.state = .completed ∧ g.accumulated = memberText ∧ IsObjectText g.accumulated := by
  have hbody : StringBody [0x61] := .unescaped 'a' (by decide) (by decide) (by decide) .nil
  have hone : IsNumber [0x31] := by
    refine ⟨[], [0x31], [], [], Or.inl rfl, Or.inr ⟨⟨by decide, ?_⟩, by decide⟩, Or.inl rfl,
      Or.inl rfl, rfl⟩
    intro c hc
    obtain rfl := mem_singleton.mp hc
    exact ⟨by decide, by decide⟩
  have hkey : place [0x7B, 0x22, 0x61] = some (.string true [0x61], [.object]) := rfl
  have hclosed : place [0x7B, 0x22, 0x61, 0x22] = some (.colon, [.object]) := by
    refine place_step hkey ?_
    simp [advancePlace, escapeOpen, hbody]
  have hcolon : place [0x7B, 0x22, 0x61, 0x22, 0x3A] = some (.value, [.object]) :=
    place_step hclosed rfl
  have hvalue : place [0x7B, 0x22, 0x61, 0x22, 0x3A, 0x31] = some (.number [0x31], [.object]) :=
    place_step hcolon rfl
  let at_ (state : JSONState) (text : Bytes) : GrammarConstraint :=
    { jsonGrammar with state := state, braceDepth := 1, accumulated := text }
  have hfills : Fills jsonGrammar [0x7B] ∧ Fills (at_ .expectKeyOrEnd [0x7B]) [0x22] ∧
      Fills (at_ .inKey [0x7B, 0x22]) [0x61] ∧ Fills (at_ .inKey [0x7B, 0x22, 0x61]) [0x22] ∧
      Fills (at_ .expectColon [0x7B, 0x22, 0x61, 0x22]) [0x3A] ∧
      Fills (at_ .expectValue [0x7B, 0x22, 0x61, 0x22, 0x3A]) [0x31] ∧
      Fills (at_ .inNumber [0x7B, 0x22, 0x61, 0x22, 0x3A, 0x31]) [0x7D] :=
    ⟨fills_byte (q := (.start, [])) rfl rfl (by decide) (by decide) trivial,
      fills_byte (q := (.opened, [.object])) rfl rfl (by decide) (by decide) trivial,
      fills_byte (q := (.string true [], [.object])) rfl rfl (by decide) (by decide)
        fun h => absurd h (by decide),
      fills_byte hkey rfl (by decide) (by decide) fun _ _ => hbody,
      fills_byte hclosed rfl (by decide) (by decide) trivial,
      fills_byte hcolon rfl (by decide) (by decide) rfl,
      fills_byte hvalue rfl (by decide) (by decide)
        ⟨hone, by decide, fun _ => rfl, fun h => absurd h (by decide)⟩⟩
  obtain ⟨h₁, h₂, h₃, h₄, h₅, h₆, h₇⟩ := hfills
  have hrun : Runs (DenseCore.Sampling.sampleStep smallVocab)
      (fun g token => Fills g (smallVocab.getD token [])) jsonGrammar
      { jsonGrammar with state := .completed, accumulated := memberText } :=
    ((((((Runs.refl.tail (e := 0) h₁ rfl).tail (e := 1) h₂ rfl).tail (e := 2) h₃ rfl).tail
      (e := 1) h₄ rfl).tail (e := 3) h₅ rfl).tail (e := 4) h₆ rfl).tail (e := 6) h₇ rfl
  exact ⟨_, hrun, rfl, rfl, completed_sound hrun rfl⟩

/-- **A trailing comma**: a closing brace is left unmasked behind a comma, and the state
reaches `COMPLETED` with a text that is no JSON. -/
theorem trailingComma_completes : ¬ ∀ (vocab : List Bytes) (g : GrammarConstraint),
      Runs (DenseCore.Sampling.sampleStep vocab) (fun _ _ => True) jsonGrammar g →
      g.state = .completed → IsObjectText g.accumulated := by
  intro hall
  have hlist : (runList (DenseCore.Sampling.sampleStep smallVocab) jsonGrammar
      [0, 1, 2, 1, 3, 4, 5, 6]).isSome ∧
      ((runList (DenseCore.Sampling.sampleStep smallVocab) jsonGrammar
        [0, 1, 2, 1, 3, 4, 5, 6]).all fun g => g.state = .completed &&
          g.accumulated = 0x7B :: [0x22, 0x61, 0x22, 0x3A, 0x31] ++ [0x2C, 0x7D]) := by
    decide +kernel
  obtain ⟨g, hg⟩ := Option.isSome_iff_exists.mp hlist.1
  rw [hg] at hlist
  obtain ⟨hdone, htext⟩ := Bool.and_eq_true_iff.mp hlist.2
  have hobject := hall smallVocab g (Runs.of_list hg) (of_decide_eq_true hdone)
  rw [of_decide_eq_true htext] at hobject
  exact not_isObjectText_comma _ hobject

end GrammarConstraint

end DenseCore.Sampling
