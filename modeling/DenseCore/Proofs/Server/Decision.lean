/-
The prompt of a decision, and that the order of the options does not matter.

`Build` cuts the options, the head and the state to three budgets.  Whatever it cuts,
each option keeps its mask, so the markers stay the places of the masks: the ids are
taken apart block by block, and only the options' blocks hold one.

`Decode` puts the probabilities back in canonical order before it reads them.  The
largest logit and the sum do not depend on the order, so permuting the logits permutes
the probabilities, and the permutation is undone.
-/
import DenseCore.Server.Decision
import Mathlib.Data.List.Perm.Subperm
import Mathlib.Data.Rat.Floor

namespace DenseCore.Server.Decision

open List hiding not_le not_lt

open Lib Lib.Strings

/-! ### Places of a token -/

/-- Where `x` stands, counting from `k`. -/
def places (x : Int) (k : Nat) (ids : List Int) : List Nat :=
  ((ids.zipIdx k).filter fun p => p.1 = x).map Prod.snd

/-- Where the blocks begin, counting from `k`. -/
def starts : Nat → List (List Int) → List Nat
  | _, [] => []
  | k, o :: rest => k :: starts (k + o.length) rest

theorem places_append (x : Int) (k : Nat) (a b : List Int) :
    places x k (a ++ b) = places x k a ++ places x (k + a.length) b := by
  unfold places
  rw [zipIdx_append, filter_append, map_append]

theorem places_of_not_mem {x : Int} (k : Nat) {ids : List Int} (h : x ∉ ids) :
    places x k ids = [] := by
  unfold places
  rw [map_eq_nil_iff, filter_eq_nil_iff]
  rintro ⟨y, i⟩ hmem hy
  refine h ?_
  rw [← of_decide_eq_true hy]
  exact fst_mem_of_mem_zipIdx hmem

theorem places_cons_self (x : Int) (k : Nat) (ids : List Int) :
    places x k (x :: ids) = k :: places x (k + 1) ids := by
  unfold places
  rw [zipIdx_cons, filter_cons_of_pos (by simp), map_cons]

/-- A block of an option: the mask, and no other. -/
def IsOption (mask : Int) (o : List Int) : Prop := ∃ t, o = mask :: t ∧ mask ∉ t

variable {opts : List (List Int)} {k m : Nat}

theorem places_flatten {mask : Int} (h : ∀ o ∈ opts, IsOption mask o) (k : Nat) :
    places mask k opts.flatten = starts k opts := by
  induction opts generalizing k with
  | nil => rfl
  | cons o rest ih =>
    obtain ⟨t, rfl, ht⟩ := h o mem_cons_self
    rw [flatten_cons, places_append, places_cons_self, places_of_not_mem _ ht,
      ih (fun o ho => h o (mem_cons_of_mem _ ho)), starts]
    rfl

theorem starts_length (k : Nat) (opts : List (List Int)) :
    (starts k opts).length = opts.length := by
  induction opts generalizing k with
  | nil => rfl
  | cons o rest ih => rw [starts, length_cons, length_cons, ih]

theorem starts_le (h : m ∈ starts k opts) : k ≤ m ∧ m ≤ k + opts.flatten.length := by
  induction opts generalizing k with
  | nil => cases h
  | cons o rest ih =>
    rw [flatten_cons, length_append]
    rcases mem_cons.mp h with rfl | h
    · omega
    have := ih h
    omega

/-- Each block stands where it begins. -/
theorem prefix_drop_starts {i : Nat} {o : List Int}
    (hm : (starts k opts)[i]? = some m) (ho : opts[i]? = some o) (tail : List Int) :
    o <+: (opts.flatten ++ tail).drop (m - k) := by
  induction opts generalizing k i with
  | nil => cases ho
  | cons first rest ih =>
    rw [flatten_cons, append_assoc]
    cases i with
    | zero =>
      cases hm
      cases ho
      rw [Nat.sub_self, drop_zero]
      exact prefix_append _ _
    | succ i =>
      rw [starts, getElem?_cons_succ] at hm
      have hge := (starts_le (mem_of_getElem? hm)).1
      have hsplit : m - k = first.length + (m - (k + first.length)) := by omega
      rw [hsplit, ← drop_drop, drop_left]
      exact ih hm ho

/-! ### The parts of the prompt -/

section Build

variable {R ε : Type} {tokenize : Bytes → Except ε (List Int)} {c : Config R} {q : Question}

/-- What the configuration must be for the masks to mark the options: the mask is no
other token, its text has no blank and does not occur where nothing is blanked, and
a place fits in an `int32`. -/
structure Config.Marks (c : Config R) (type : Bytes) : Prop where
  cls_ne : c.cls ≠ c.mask
  sep_ne : c.sep ≠ c.mask
  text_ne : c.maskText ≠ []
  no_blank : (32 : UInt8) ∉ c.maskText
  absent_type : Absent c.maskText (type ++ literal " question:")
  maxLen_lt : c.maxLen < 2 ^ 31

/-- The mask's token only comes from the mask's text. -/
def MaskFree (tokenize : Bytes → Except ε (List Int)) (c : Config R) : Prop :=
  ∀ text ids, Absent c.maskText text → tokenize text = .ok ids → c.mask ∉ ids

variable {type : Bytes} {order : List Nat} {head : List Int}

theorem Config.Marks.absent_clean (hc : c.Marks type) (s : Bytes) :
    Absent c.maskText (clean c.maskText s) := by
  rw [clean, if_neg hc.text_ne]
  exact absent_replaceAll hc.text_ne hc.no_blank s

theorem Config.Marks.absent_headText (hc : c.Marks q.type) : Absent c.maskText (headText c q) := by
  have hsplit : headText c q =
      (q.type ++ literal " question:") ++ 32 :: clean c.maskText q.instructions := by
    rw [headText, show literal " question: " = literal " question:" ++ [32] from rfl]
    simp
  rw [hsplit]
  exact hc.absent_type.append_cons (hc.absent_clean _) hc.no_blank

theorem Config.Marks.absent_optionText (hc : c.Marks type) (option : Bytes) :
    Absent c.maskText (optionText c option) := by
  have hnil : Absent c.maskText [] := fun h => hc.text_ne (infix_nil.mp h)
  exact hnil.append_cons (hc.absent_clean option) hc.no_blank

/-- The block of an option: the mask and the first tokens of its text. -/
def OptionBlock (tokenize : Bytes → Except ε (List Int)) (c : Config R) (q : Question) (ix : Nat)
    (o : List Int) : Prop :=
  ∃ option tok t, q.options[ix]? = some option ∧ tokenize (optionText c option) = .ok tok ∧
    t <+: tok ∧ t.length ≤ 48 ∧ o = c.mask :: t

variable {ix n : Nat} {o state : List Int} {opts : List (List Int)}

theorem OptionBlock.isOption (hc : c.Marks type) (hfree : MaskFree tokenize c)
    (h : OptionBlock tokenize c q ix o) : IsOption c.mask o := by
  obtain ⟨option, tok, t, -, htok, ht, -, rfl⟩ := h
  exact ⟨t, rfl, fun hmem => hfree _ _ (hc.absent_optionText option) htok (ht.subset hmem)⟩

theorem isOption_of_blocks (hc : c.Marks type) (hfree : MaskFree tokenize c)
    (h : Forall₂ (OptionBlock tokenize c q) order opts) :
    ∀ o ∈ opts, IsOption c.mask o := by
  induction h with
  | nil => exact fun _ ho => nomatch ho
  | cons hblock _ ih => exact forall_mem_cons.mpr ⟨hblock.isOption hc hfree, ih⟩

theorem OptionBlock.take (h : OptionBlock tokenize c q ix o) :
    OptionBlock tokenize c q ix (o.take (n + 1)) := by
  obtain ⟨option, tok, t, hoption, htok, ht, hlen, rfl⟩ := h
  refine ⟨option, tok, t.take n, hoption, htok, (List.take_prefix n t).trans ht, ?_, rfl⟩
  rw [length_take]
  omega

/-- **The loop over the order** fails with the tokenizer, or gives one block each. -/
theorem readOptions_spec (h : ∀ ix ∈ order, ix < q.options.length) :
    (∃ text e, tokenize text = .error e ∧ readOptions tokenize c q order = .error (.tokenizer e)) ∨
      ∃ opts, readOptions tokenize c q order = .ok opts ∧
        Forall₂ (OptionBlock tokenize c q) order opts := by
  induction order with
  | nil => exact Or.inr ⟨[], rfl, Forall₂.nil⟩
  | cons ix rest ih =>
    obtain ⟨option, hoption⟩ : ∃ option, q.options[ix]? = some option :=
      ⟨_, getElem?_eq_getElem (h ix mem_cons_self)⟩
    rw [readOptions]
    simp only [hoption]
    cases htok : tokenize (optionText c option) with
    | error e => exact Or.inl ⟨_, e, htok, rfl⟩
    | ok tok =>
      have hblock : OptionBlock tokenize c q ix (c.mask :: tok.take 48) :=
        ⟨option, tok, tok.take 48, hoption, htok, take_prefix 48 tok, length_take_le 48 tok, rfl⟩
      rcases ih fun ix hix => h ix (mem_cons_of_mem _ hix) with
        ⟨text, e, he, hrest⟩ | ⟨opts, hrest, hopts⟩
      · refine Or.inl ⟨text, e, he, ?_⟩
        rw [hrest]
        rfl
      refine Or.inr ⟨_, ?_, Forall₂.cons hblock hopts⟩
      rw [hrest]
      rfl

/-- **Cutting to the budget of the head** keeps a beginning of the head and every mask. -/
theorem fitHead_spec (head : List Int)
    (hne : order ≠ []) (hopts : Forall₂ (OptionBlock tokenize c q) order opts) :
    ∃ head' opts', (fitHead c head opts : Except (BuildError ε) _) = .ok (head', opts') ∧
      head' <+: head ∧ Forall₂ (OptionBlock tokenize c q) order opts' := by
  have hopts_ne : opts ≠ [] := by
    rintro rfl
    cases hopts
    exact hne rfl
  unfold fitHead
  simp only [if_neg hopts_ne]
  split
  · refine ⟨_, _, rfl, take_prefix _ head, ?_⟩
    obtain ⟨n, hn⟩ : ∃ n : Nat, (max 4 ((goInt (c.headMaxLen - 16)).tdiv opts.length)).toNat =
        n + 1 := ⟨(max 4 ((goInt (c.headMaxLen - 16)).tdiv opts.length)).toNat - 1, by omega⟩
    rw [hn, forall₂_map_right_iff]
    exact hopts.imp fun _ _ h => h.take
  · exact ⟨_, _, rfl, take_prefix _ head, hopts⟩

/-- The head of the prompt: the first tokens of its text. -/
def HeadBlock (tokenize : Bytes → Except ε (List Int)) (c : Config R) (q : Question)
    (head : List Int) : Prop :=
  ∃ tok, tokenize (headText c q) = .ok tok ∧ head <+: tok

theorem promptParts_spec (hne : q.order ≠ []) (horder : ∀ ix ∈ q.order, ix < q.options.length) :
    (∃ text e, tokenize text = .error e ∧ promptParts tokenize c q = .error (.tokenizer e)) ∨
      ∃ head opts, promptParts tokenize c q = .ok (head, opts) ∧ HeadBlock tokenize c q head ∧
        Forall₂ (OptionBlock tokenize c q) q.order opts := by
  unfold promptParts
  cases htok : tokenize (headText c q) with
  | error e => exact Or.inl ⟨_, e, htok, rfl⟩
  | ok tok =>
    dsimp only
    rcases readOptions_spec horder with ⟨text, e, he, hread⟩ | ⟨opts, hread, hopts⟩
    · refine Or.inl ⟨text, e, he, ?_⟩
      rw [hread]
      rfl
    obtain ⟨head', opts', hfit, hhead, hopts'⟩ := fitHead_spec tok hne hopts
    refine Or.inr ⟨head', opts', ?_, ⟨tok, htok, hhead⟩, hopts'⟩
    rw [hread]
    exact hfit

/-! ### The sequence

The options are laid one behind another, so the place of each marker is the length of what
stands before it.
-/

theorem layOptions_eq (opts : List (List Int)) (ids markers : List Int) :
    layOptions opts ids markers =
      (ids ++ opts.flatten, markers ++ (starts ids.length opts).map fun n : Nat => goInt32 n) := by
  induction opts generalizing ids markers with
  | nil => simp [layOptions, starts]
  | cons o rest ih =>
    rw [layOptions, ih, starts, flatten_cons, map_cons, length_append]
    simp

theorem goInt_of_nonneg {x : Int} (h0 : 0 ≤ x) (h : x < 2 ^ 63) : goInt x = x :=
  Int.bmod_eq_of_le (by omega) (by omega)

theorem goInt32_natCast (h : (n : Int) < 2 ^ 31) : goInt32 n = n :=
  Int.bmod_eq_of_le (by omega) (by omega)

/-- The length of the sequence without any state. -/
def fixedLength (head : List Int) (opts : List (List Int)) : Nat :=
  1 + head.length + 1 + opts.flatten.length + 2

/-- What `Build` returns for a head, the blocks of the options and a state. -/
structure Layout (c : Config R) (head : List Int) (opts : List (List Int)) (state : List Int)
    (left : Bool) (s : Sequence) : Prop where
  ids_eq : ∃ kept, s.ids = c.cls :: head ++ [c.sep] ++ opts.flatten ++ [c.sep] ++ kept ++ [c.sep] ∧
    kept.length = s.stateUsed ∧ if left then kept <:+ state else kept <+: state
  length_le : (s.ids.length : Int) ≤ c.maxLen
  /-- no more of the state fits -/
  longest : ∀ n ≤ state.length, (fixedLength head opts + n : Int) ≤ c.maxLen → n ≤ s.stateUsed
  markers_length : s.markers.length = opts.length
  starts_at : ∀ (i : Nat) (o : List Int) (m : Int), opts[i]? = some o → s.markers[i]? = some m →
    o <+: s.ids.drop m.toNat
  places_eq : (places c.mask 0 s.ids).map Int.ofNat = s.markers

theorem assemble_tooLong (state : List Int) (left : Bool) (h : c.maxLen < fixedLength head opts) :
    (assemble c head opts state left : Except (BuildError ε) _) = .error .tooLong := by
  unfold assemble
  simp only [layOptions_eq]
  refine if_pos (lt_of_lt_of_le h ?_)
  simp only [length_append, length_cons, length_nil]
  unfold fixedLength
  omega

theorem kept_spec (state : List Int) {used : Nat} (left : Bool) (h : used ≤ state.length) :
    ∃ kept, (if left then state.drop (state.length - used) else state.take used) = kept ∧
      kept.length = used ∧ (if left then kept <:+ state else kept <+: state) ∧ kept ⊆ state := by
  refine ⟨_, rfl, ?_⟩
  cases left with
  | true =>
    refine ⟨?_, drop_suffix _ state, drop_subset _ state⟩
    simp only [if_true, length_drop]
    omega
  | false =>
    refine ⟨?_, take_prefix _ state, take_subset _ state⟩
    simp only [Bool.false_eq_true, if_false, length_take]
    omega

/-- **A prompt that fits** is laid out with as much of the state as there is room for. -/
theorem assemble_layout (left : Bool) (hc : c.Marks type) (hhead : c.mask ∉ head)
    (hopts : ∀ o ∈ opts, IsOption c.mask o) (hstate : c.mask ∉ state)
    (h : (fixedLength head opts : Int) ≤ c.maxLen) :
    ∃ s, (assemble c head opts state left : Except (BuildError ε) _) = .ok s ∧
      Layout c head opts state left s := by
  have hmax := hc.maxLen_lt
  unfold fixedLength at h
  have hlen : (c.cls :: head ++ [c.sep] ++ opts.flatten ++ [c.sep]).length =
      head.length + opts.flatten.length + 3 := by
    simp only [length_append, length_cons, length_nil]
    omega
  have hroom : goInt (c.maxLen - (c.cls :: head ++ [c.sep] ++ opts.flatten ++ [c.sep]).length - 1) =
      c.maxLen - (head.length + opts.flatten.length + 3 : Nat) - 1 := by
    rw [hlen]
    exact goInt_of_nonneg (by omega) (by omega)
  obtain ⟨used, hused⟩ : ∃ used : Nat, (min (max 0 (c.maxLen -
      (head.length + opts.flatten.length + 3 : Nat) - 1)) (state.length : Int)).toNat = used :=
    ⟨_, rfl⟩
  obtain ⟨kept, hkept, hkept_length, hkept_affix, hkept_subset⟩ :=
    kept_spec state left (by omega : used ≤ state.length)
  have hblocks : c.cls :: head ++ [c.sep] ++ opts.flatten ++ [c.sep] ++ kept ++ [c.sep] =
      (c.cls :: head ++ [c.sep]) ++ (opts.flatten ++ ([c.sep] ++ kept ++ [c.sep])) := by
    simp only [append_assoc]
  have hids_length : (c.cls :: head ++ [c.sep] ++ opts.flatten ++ [c.sep] ++ kept ++
      [c.sep]).length = head.length + opts.flatten.length + 4 + used := by
    rw [length_append, length_append, hlen, hkept_length, length_singleton]
    omega
  have hmarkers : ∀ n ∈ starts (c.cls :: head ++ [c.sep]).length opts,
      goInt32 (n : Int) = Int.ofNat n := by
    intro n hn
    have hle := (starts_le hn).2
    simp only [length_append, length_cons, length_nil] at hle
    exact goInt32_natCast (by omega)
  refine ⟨{ ids := c.cls :: head ++ [c.sep] ++ opts.flatten ++ [c.sep] ++ kept ++ [c.sep]
            markers := (starts (c.cls :: head ++ [c.sep]).length opts).map Int.ofNat
            stateTokens := state.length, stateUsed := used, distinct := opts.dedup.length }, ?_, ?_⟩
  · unfold assemble
    simp only [layOptions_eq, nil_append, hroom, hused, hkept]
    rw [if_neg (by rw [hids_length]; omega), map_congr_left hmarkers]
  constructor
  · exact ⟨kept, rfl, hkept_length, hkept_affix⟩
  · dsimp only
    rw [hids_length]
    omega
  · intro n hn hfits
    unfold fixedLength at hfits
    dsimp only
    omega
  · rw [length_map, starts_length]
  · intro i o m ho hm
    rw [getElem?_map, Option.map_eq_some_iff] at hm
    obtain ⟨n, hn, rfl⟩ := hm
    have hge := (starts_le (mem_of_getElem? hn)).1
    have hblock := prefix_drop_starts hn ho ([c.sep] ++ kept ++ [c.sep])
    have hsplit : n = (c.cls :: head ++ [c.sep]).length +
        (n - (c.cls :: head ++ [c.sep]).length) := by omega
    rw [hblocks, Int.ofNat_eq_natCast, Int.toNat_natCast, hsplit, ← drop_drop, drop_left]
    exact hblock
  -- only the blocks of the options hold a mask
  have hfront : c.mask ∉ c.cls :: head ++ [c.sep] := by
    simp only [mem_append, mem_cons, not_mem_nil, or_false, not_or]
    exact ⟨⟨hc.cls_ne.symm, hhead⟩, hc.sep_ne.symm⟩
  have hback : c.mask ∉ [c.sep] ++ kept ++ [c.sep] := by
    simp only [mem_append, mem_singleton, not_or]
    exact ⟨⟨hc.sep_ne.symm, fun hmem => hstate (hkept_subset hmem)⟩, hc.sep_ne.symm⟩
  dsimp only
  rw [hblocks, places_append _ _ (c.cls :: head ++ [c.sep]),
    places_append _ _ opts.flatten, places_of_not_mem _ hfront, places_of_not_mem _ hback,
    places_flatten hopts, nil_append, append_nil, Nat.zero_add]

/-- **The layout of the prompt.** `Build` fails with the tokenizer, or because the prompt
does not fit even without any state, or lays the prompt out. -/
theorem build_layout (state : List Int) (left : Bool) (hc : c.Marks q.type)
    (hfree : MaskFree tokenize c) (hstate : c.mask ∉ state)
    (hk : 1 ≤ q.options.length ∧ q.options.length ≤ 64)
    (horder : q.order.Perm (range q.options.length)) :
    (∃ text e, tokenize text = .error e ∧ build tokenize c q state left = .error (.tokenizer e)) ∨
      ∃ head opts, promptParts tokenize c q = .ok (head, opts) ∧ HeadBlock tokenize c q head ∧
        Forall₂ (OptionBlock tokenize c q) q.order opts ∧
        if c.maxLen < fixedLength head opts then
          build tokenize c q state left = .error .tooLong
        else
          ∃ s, build tokenize c q state left = .ok s ∧ Layout c head opts state left s := by
  have hne : q.order ≠ [] := by
    rintro hnil
    have hlen := horder.length_eq
    rw [hnil, length_range, length_nil] at hlen
    omega
  have hlt : ∀ ix ∈ q.order, ix < q.options.length :=
    fun ix hix => mem_range.mp (horder.mem_iff.mp hix)
  unfold build
  rcases promptParts_spec hne hlt with ⟨text, e, he, hparts⟩ | ⟨head, opts, hparts, hhead, hopts⟩
  · refine Or.inl ⟨text, e, he, ?_⟩
    rw [hparts]
    rfl
  refine Or.inr ⟨head, opts, hparts, hhead, hopts, ?_⟩
  rw [hparts]
  have hmasks := isOption_of_blocks hc hfree hopts
  obtain ⟨tok, htok, hbegin⟩ := hhead
  have hmem : c.mask ∉ head :=
    fun hmem => hfree _ _ hc.absent_headText htok (hbegin.subset hmem)
  split
  · rename_i hlong
    exact assemble_tooLong state left hlong
  rename_i hfits
  exact assemble_layout left hc hmem hmasks hstate (Int.not_lt.mp hfits)

end Build

/-! ### Two prompts -/

def demoConfig (maskText : Bytes) : Config ℚ where
  maxLen := 32
  headMaxLen := 24
  cls := 1
  sep := 2
  mask := 3
  maskText := maskText
  temperature _ := .finite 1
  buckets := []

def demoQuestion : Question where
  type := literal "choice"
  instructions := literal "pick [MASK]"
  keys := [literal "a", literal "b"]
  options := [literal "a", literal "b"]
  legend := []
  order := [1, 0]
  qtype := 0

/-- A token for each byte, but one for the text of the mask. -/
def byteTokens (maskText text : Bytes) : Except Empty (List Int) :=
  if (index maskText text).isSome then .ok [3] else .ok (text.map fun b => 100 + b.toNat)

theorem byteTokens_maskFree (maskText : Bytes) :
    MaskFree (byteTokens maskText) (demoConfig maskText) := by
  intro text ids habsent hids
  unfold byteTokens at hids
  rw [index_of_absent (show Absent maskText text from habsent)] at hids
  obtain rfl := Except.ok.inj hids
  intro hmem
  obtain ⟨b, -, hb⟩ := mem_map.mp hmem
  have : (demoConfig maskText).mask = 3 := rfl
  omega

theorem demoConfig_marks : (demoConfig (literal "[MASK]")).Marks demoQuestion.type where
  cls_ne := by decide
  sep_ne := by decide
  text_ne := by decide
  no_blank := by decide
  absent_type := index_eq_none (by decide)
  maxLen_lt := by decide

def demoState : List Int := [50, 51, 52, 53, 54, 55]

theorem twoOptions_run :
    build (byteTokens (literal "[MASK]")) (demoConfig (literal "[MASK]")) demoQuestion demoState
        true =
      .ok
        { ids := [1, 199, 204, 211, 205, 199, 201, 132, 213, 217, 201, 215, 216, 205, 211, 210, 158,
            132, 212, 2, 3, 132, 198, 3, 132, 197, 2, 52, 53, 54, 55, 2]
          markers := [20, 23], stateTokens := 6, stateUsed := 4, distinct := 2 } := by
  decide +kernel

theorem twoOptions_layout : ∃ head opts s,
      promptParts (byteTokens (literal "[MASK]")) (demoConfig (literal "[MASK]")) demoQuestion =
        .ok (head, opts) ∧
      build (byteTokens (literal "[MASK]")) (demoConfig (literal "[MASK]")) demoQuestion demoState
        true = .ok s ∧
      s.markers = [20, 23] ∧
      Layout (demoConfig (literal "[MASK]")) head opts demoState true s := by
  rcases build_layout (q := demoQuestion) demoState true demoConfig_marks
    (byteTokens_maskFree (literal "[MASK]")) (by decide) (by decide) (by decide) with
    ⟨_, e, -, -⟩ | ⟨head, opts, hparts, -, -, hlayout⟩
  · exact e.elim
  rw [twoOptions_run] at hlayout
  split at hlayout
  · cases hlayout
  obtain ⟨s, hs, hlayout⟩ := hlayout
  refine ⟨head, opts, s, hparts, ?_, ?_, hlayout⟩
  · rw [twoOptions_run, hs]
  · rw [← Except.ok.inj hs]

/-- A mask's text that occurs in every head: the head is a mask too. -/
theorem question_mask_in_head :
    (demoConfig (literal "question")).cls ≠ (demoConfig (literal "question")).mask ∧
      (demoConfig (literal "question")).sep ≠ (demoConfig (literal "question")).mask ∧
      (demoConfig (literal "question")).cls ≠ (demoConfig (literal "question")).sep ∧
      MaskFree (byteTokens (literal "question")) (demoConfig (literal "question")) ∧
      demoQuestion.order.Perm (range demoQuestion.options.length) ∧
      ∃ s, build (byteTokens (literal "question")) (demoConfig (literal "question")) demoQuestion
          [] false = .ok s ∧
        s.markers = [3, 6] ∧ places 3 0 s.ids = [1, 3, 6] := by
  refine ⟨by decide, by decide, by decide, byteTokens_maskFree _, by decide, ?_⟩
  refine ⟨{ ids := [1, 3, 2, 3, 132, 198, 3, 132, 197, 2, 2], markers := [3, 6], stateTokens := 0
            stateUsed := 0, distinct := 2 }, ?_, rfl, by decide⟩
  decide +kernel

/-! ### option_order -/

/-- An order that is read has each index at most once. -/
theorem readOrder_spec {list : List OrderEntry} :
    ∀ {seen order : List Nat}, readOrder k list seen = .ok order → seen.Nodup →
      (∀ ix ∈ seen, ix < k) →
      order.Nodup ∧ (∀ ix ∈ order, ix < k) ∧ order.length = seen.length + list.length := by
  induction list with
  | nil =>
    intro seen order h hnodup hlt
    rw [readOrder] at h
    obtain rfl := Except.ok.inj h
    exact ⟨hnodup, hlt, rfl⟩
  | cons entry rest ih =>
    intro seen order h hnodup hlt
    cases entry with
    | other => cases h
    | number text =>
      rw [readOrder] at h
      split at h
      · cases h
      rename_i ix _
      split at h
      · cases h
      rename_i hok
      simp only [not_or, not_lt, not_le] at hok
      obtain ⟨h0, hix, hnew⟩ := hok
      have hnodup' : (seen ++ [ix.toNat]).Nodup :=
        nodup_append.mpr ⟨hnodup, nodup_singleton _, fun a ha b hb hab =>
          hnew (by rwa [← mem_singleton.mp hb, ← hab])⟩
      have hlt' : ∀ i ∈ seen ++ [ix.toNat], i < k := by
        intro i hi
        rcases mem_append.mp hi with hi | hi
        · exact hlt i hi
        rw [mem_singleton.mp hi]
        omega
      obtain ⟨horder, hbound, hlen⟩ := ih h hnodup' hlt'
      refine ⟨horder, hbound, ?_⟩
      simp only [hlen, length_append, length_cons, length_nil]
      omega

/-- **An accepted order is a permutation.** -/
theorem parseOrder_perm {field : OrderField} {order : List Nat}
    (h : parseOrder k field = .ok order) : order.Perm (range k) := by
  cases field with
  | absent =>
    obtain rfl := Except.ok.inj h
    exact Perm.refl _
  | other => cases h
  | entries list =>
    rw [parseOrder] at h
    split at h
    · cases h
    rename_i hlen
    obtain ⟨hnodup, hlt, hlength⟩ := readOrder_spec h nodup_nil (fun _ hi => nomatch hi)
    have hsub : order ⊆ range k := fun ix hix => mem_range.mpr (hlt ix hix)
    refine (hnodup.subperm hsub).perm_of_length_le ?_
    rw [length_range, hlength, length_nil, Nat.zero_add]
    exact Nat.le_of_eq (not_ne_iff.mp hlen).symm

/-! ### The order of the logits -/

section Finite

variable {R : Type}

variable {order : List Nat}

theorem readFinite_map {logits : Nat → Number R} {value : Nat → R}
    (h : ∀ ix ∈ order, logits ix = .finite (value ix)) :
    readFinite (order.map logits) = some (order.map value) := by
  induction order with
  | nil => rfl
  | cons ix rest ih =>
    rw [map_cons, h ix mem_cons_self, readFinite, ih (fun i hi => h i (mem_cons_of_mem _ hi))]
    rfl

theorem readFinite_none {logits : List (Number R)} {x : Number R} (hx : x ∈ logits)
    (h : ∀ v, x ≠ .finite v) : readFinite logits = none := by
  induction logits with
  | nil => cases hx
  | cons y rest ih =>
    cases y with
    | infinite => rfl
    | nan => rfl
    | finite v =>
      rw [readFinite]
      rcases mem_cons.mp hx with rfl | hx
      · exact absurd rfl (h v)
      rw [ih hx]
      rfl

/-! ### Canonical order -/

theorem toCanonical_spec (p : Nat → R) :
    ∀ canonical : List R, (∀ ix ∈ order, ix < canonical.length) →
      ∃ r, toCanonical order (order.map p) canonical = .ok r ∧ r.length = canonical.length ∧
        (∀ j, j ∉ order → r[j]? = canonical[j]?) ∧ ∀ j ∈ order, r[j]? = some (p j) := by
  induction order with
  | nil =>
    intro canonical _
    exact ⟨canonical, rfl, rfl, fun _ _ => rfl, fun _ hj => nomatch hj⟩
  | cons ix rest ih =>
    intro canonical hlt
    have hix : ix < canonical.length := hlt ix mem_cons_self
    obtain ⟨r, hr, hlen, hout, hin⟩ := ih (canonical.set ix (p ix)) fun i hi => by
      rw [length_set]
      exact hlt i (mem_cons_of_mem _ hi)
    rw [length_set] at hlen
    refine ⟨r, ?_, hlen, ?_, ?_⟩
    · rw [map_cons, toCanonical, if_pos hix, hr]
    · intro j hj
      rw [mem_cons, not_or] at hj
      rw [hout j hj.2, getElem?_set_ne (Ne.symm hj.1)]
    intro j hj
    by_cases hrest : j ∈ rest
    · exact hin j hrest
    -- a later option does not come here, so this one stays
    obtain rfl : j = ix := (mem_cons.mp hj).resolve_right hrest
    rw [hout j hrest, getElem?_set_self hix]

/-- **Canonical order undoes the permutation.** -/
theorem toCanonical_perm [Zero R] {k : Nat} (h : order.Perm (range k)) (p : Nat → R) :
    toCanonical order (order.map p) (replicate k 0) = .ok ((range k).map p) := by
  have hlt : ∀ ix ∈ order, ix < (replicate k (0 : R)).length := by
    intro ix hix
    rw [length_replicate]
    exact mem_range.mp (h.mem_iff.mp hix)
  obtain ⟨r, hr, hlen, -, hin⟩ := toCanonical_spec p _ hlt
  rw [length_replicate] at hlen
  rw [hr]
  refine congrArg Except.ok (ext_getElem? fun j => ?_)
  by_cases hj : j < k
  · rw [hin j (h.mem_iff.mpr (mem_range.mpr hj)), getElem?_map, getElem?_range hj]
    rfl
  · rw [getElem?_eq_none (by omega), getElem?_eq_none (by simp; omega)]

end Finite

/-! ### Probabilities -/

section Decode

variable {R : Type} [LinearOrder R]

/-- One round of the loop for the largest value. -/
def larger (mx : Option R) (v : R) : Option R := some (mx.elim v fun m => max m v)

theorem largest_eq_foldl (values : List R) (mx : Option R) :
    largest values mx = values.foldl larger mx := by
  induction values generalizing mx with
  | nil => rfl
  | cons v rest ih => cases mx <;> exact ih _

theorem largest_perm {values values' : List R} (h : values.Perm values') :
    largest values none = largest values' none := by
  rw [largest_eq_foldl, largest_eq_foldl]
  refine h.foldl_eq' (fun v _ w _ mx => ?_) none
  cases mx with
  | none => exact congrArg some (max_comm v w)
  | some m => exact congrArg some (max_right_comm m v w)

variable [Field R] {exp log : R → R}

/-- **The probabilities follow their options.** For logits that are all finite each option
has a probability that does not depend on the order. -/
theorem softmax_perm (exp : R → R) {order order' : List Nat} {logits : Nat → Number R} {value : Nat → R}
    (hperm : order.Perm order') (hne : order ≠ [])
    (hvalue : ∀ ix ∈ order, logits ix = .finite (value ix)) (temp : R) :
    ∃ p : Nat → R, softmax exp (order.map logits) temp = .ok (order.map p) ∧
      softmax exp (order'.map logits) temp = .ok (order'.map p) := by
  have hne' : order' ≠ [] := fun hnil => hne (perm_nil.mp (hnil ▸ hperm))
  have hvalue' : ∀ ix ∈ order', logits ix = .finite (value ix) :=
    fun ix hix => hvalue ix (hperm.mem_iff.mpr hix)
  have hmx := largest_perm (hperm.map value)
  unfold softmax
  rw [readFinite_map hvalue, readFinite_map hvalue']
  simp only [List.isEmpty_iff, map_eq_nil_iff, hne, hne', if_false, map_map, hmx]
  have hsum := ((hperm.map value).map fun v =>
    exp ((v - (largest (order'.map value) none).getD 0) / temp)).sum_eq
  rw [map_map, map_map] at hsum
  rw [hsum]
  exact ⟨_, rfl, rfl⟩

theorem softmax_nonfinite {logits : List (Number R)} {x : Number R} (hx : x ∈ logits)
    (h : ∀ v, x ≠ .finite v) (temp : R) : softmax exp logits temp = .error .nonfinite := by
  unfold softmax
  rw [if_neg (by simpa using ne_nil_of_mem hx), readFinite_none hx h]

/-! ### The answer -/

variable [FloorRing R]

/-- **The order of the options does not matter.** For every order that the request may
give, decoding the logits listed in that order is decoding them in canonical order. -/
theorem decode_order (c : Config R) (q : Question) (field : OrderField) (order : List Nat)
    (horder : parseOrder q.options.length field = .ok order) (logits : Nat → Number R)
    (act : List (Number R)) :
    decode exp log c { q with order := order } (order.map logits) act =
      decode exp log c { q with order := range q.options.length }
        ((range q.options.length).map logits) act := by
  have hperm := parseOrder_perm horder
  have hlen : order.length = q.options.length := by rw [hperm.length_eq, length_range]
  unfold decode
  simp only [length_map, hlen, length_range, ne_eq, not_true_eq_false, if_false]
  by_cases hempty : order = []
  · -- no options: there is only one order
    have hnil : range q.options.length = [] := perm_nil.mp (hempty ▸ hperm).symm
    rw [hempty, hnil]
  by_cases hfinite : ∀ ix ∈ order, ∃ v, logits ix = .finite v
  · choose! value hvalue using hfinite
    obtain ⟨p, hp, hp'⟩ := softmax_perm exp hperm hempty hvalue
      (temperatureOf c q q.options.length)
    have htemp : ∀ o, temperatureOf c { q with order := o } q.options.length =
        temperatureOf c q q.options.length := fun _ => rfl
    simp only [htemp, hp, hp']
    simp only [bind, Except.bind, toCanonical_perm hperm p, toCanonical_perm (Perm.refl _) p]
    rfl
  simp only [not_forall, not_exists] at hfinite
  obtain ⟨ix, hix, hne⟩ := hfinite
  rw [softmax_nonfinite (mem_map_of_mem hix) hne,
    softmax_nonfinite (mem_map_of_mem (hperm.mem_iff.mp hix)) hne]
  rfl

end Decode

/-- Three options in an order that is not its own inverse. -/
def cycleQuestion : Question where
  type := literal "choice"
  instructions := literal "pick"
  keys := [literal "a", literal "b", literal "c"]
  options := [literal "a", literal "b", literal "c"]
  legend := []
  order := []
  qtype := 0

def cycleLogits (ix : Nat) : Number ℚ := .finite (if ix = 2 then 3 else ix)

theorem cycle_decode :
    parseOrder 3 (.entries [.number [49], .number [50], .number [48]]) = .ok [1, 2, 0] ∧
      decode (fun x => 1 / (1 + x * x)) (fun x => x - 1) (demoConfig [])
          { cycleQuestion with order := [1, 2, 0] } ([1, 2, 0].map cycleLogits)
          [.finite 0, .finite 1] =
        decode (fun x => 1 / (1 + x * x)) (fun x => x - 1) (demoConfig [])
          { cycleQuestion with order := range 3 } ((range 3).map cycleLogits)
          [.finite 0, .finite 1] :=
  ⟨by decide +kernel, decode_order (demoConfig []) cycleQuestion
      (.entries [.number [49], .number [50], .number [48]]) [1, 2, 0] (by decide +kernel)
      cycleLogits [.finite 0, .finite 1]⟩

end DenseCore.Server.Decision
