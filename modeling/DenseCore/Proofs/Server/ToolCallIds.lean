/-
The ids of the tool calls in one answer.

An id is given by the model or generated, and a generated id is `call_` and a number.
In a list of calls the number is the place in the list.  In a `<tool_call>` block of
tags it is the number of the block.  A block of JSON is read as a list of its own, so
its number is 0 whatever block it is.  `Origin` says which of these a call is, and two
calls can only share an id if the model gave a generated one or if two origins of one
answer carry the same number.
-/
import DenseCore.Server.ToolParser
import Mathlib.Data.List.NodupEquivFin

namespace DenseCore.Server

open List

open Lib (Bytes literal)

/-! ### Origins

An id is given by the model or made from a number. Whether two calls share one is decided by
where they come from, before any of them is parsed.
-/

/-- Where the id of a call comes from. -/
inductive Origin where
  /-- the model gave it -/
  | given (id : Bytes)
  /-- the call is in a list, at place `i` -/
  | listed (i : Nat)
  /-- the call is the body of a block, as JSON -/
  | jsonBlock
  /-- the call is block `i`, as tags -/
  | xmlBlock (i : Nat)
deriving DecidableEq

/-- The id that a call from there gets. -/
def Origin.label : Origin → Bytes
  | .given id => id
  | .listed i => callId i
  | .jsonBlock => callId 0
  | .xmlBlock i => callId i

/-- The id that the model gave. -/
def Origin.given? : Origin → Option Bytes
  | .given id => some id
  | _ => none

variable {o : Origin} {xs : List (ToolCall × Origin)} {family : ParserFamily}

theorem Origin.eq_given {id : Bytes} (h : o.given? = some id) : o = .given id := by
  cases o with
  | given id' =>
    cases h
    rfl
  | listed i => cases h
  | jsonBlock => cases h
  | xmlBlock i => cases h

/-- The ids that the model gave, in order. -/
def givenIds (os : List Origin) : List Bytes := os.filterMap Origin.given?

/-- The origin of a raw call in a list. -/
def listedOrigin (item : RawToolCall) (i : Nat) : Origin :=
  if item.id = [] then .listed i else .given item.id

/-- `decodeToolCandidate`, with the origin of every call. -/
def decodeTagged (src : Bytes) : Except ToolError (List (ToolCall × Origin)) :=
  (findRawCalls src).bind fun raw =>
    (rawCallsToDomain raw).map fun calls =>
      calls.zip (raw.zipIdx.map fun x => listedOrigin x.1 x.2)

/-- The origins of the calls that are read as JSON. -/
def hermesOrigins (lower : Char → Char) (text : Bytes) : List Origin :=
  match hermesLoop lower decodeTagged text (jsonCandidates text) none with
  | .ok (calls, _) => calls.map Prod.snd
  | .error _ => []

/-- The one raw call that a text decodes to. -/
def soleCall (src : Bytes) : Option RawToolCall :=
  match findRawCalls src, decodeToolCandidate src with
  | .ok [item], .ok _ => some item
  | _, _ => none

/-- The raw call of a block of JSON. -/
def blockCall (body : Bytes) : Option RawToolCall :=
  match decodeToolCandidate body with
  | .ok _ => soleCall body
  | .error _ => (repairJSON body).bind soleCall

/-- The origin of the call in a block. -/
def blockOrigin (body : Bytes) (i : Nat) : Origin :=
  if isJsonBlock body then
    match blockCall body with
    | some item => if item.id = [] then .jsonBlock else .given item.id
    | none => .xmlBlock i
  else .xmlBlock i

/-- The origins of the calls in the blocks. -/
def qwenOrigins (blocks : List ToolBlock) : List Origin :=
  blocks.zipIdx.map fun x => blockOrigin x.1.body x.2

/-- The origins of the calls in a text of a family. -/
def originsOf (lower : Char → Char) (family : ParserFamily) (text : Bytes) : List Origin :=
  match family, extractToolBlocks lower text with
  | .qwenXML, some (block :: blocks) => qwenOrigins (block :: blocks)
  | _, _ => hermesOrigins lower text

/-- The origins of the calls in an output. -/
def outputOrigins (lower : Char → Char) (output : Bytes) (family : ParserFamily) : List Origin :=
  match splitReasoningBlocks lower output with
  | some reasoned => originsOf lower family reasoned.content
  | none => []

/-- When generated ids stay out of each other's way, and out of the way of given ones. -/
structure IdsApart (os : List Origin) : Prop where
  oneJsonBlock : os.count .jsonBlock ≤ 1
  noFirstBlock : .jsonBlock ∈ os → .xmlBlock 0 ∉ os
  notGenerated : ∀ id, .given id ∈ os → ∀ o ∈ os, o.given? = none → id ≠ o.label

/-! ### Lists of origins -/

theorem callId_injective : Function.Injective callId := fun _ _ h =>
  Lib.Float64.decimal_injective (append_cancel_left h)

theorem callId_ne_nil (i : Nat) : callId i ≠ [] := by
  unfold callId
  exact cons_ne_nil _ _

/-- Numbers are places: in a list of calls, or among blocks. -/
inductive Placed (os : List Origin) : Prop
  | list (h : ∀ i (o : Origin), os[i]? = some o → o = .listed i ∨ ∃ id, o = .given id)
  | blocks (h : ∀ i (o : Origin), os[i]? = some o →
      o = .xmlBlock i ∨ o = .jsonBlock ∨ ∃ id, o = .given id)

theorem nodup_iff_getElem? {α : Type} {l : List α} :
    l.Nodup ↔ ∀ (i j : Nat) a b, i < j → l[i]? = some a → l[j]? = some b → a ≠ b := by
  unfold List.Nodup
  rw [pairwise_iff_getElem]
  constructor
  · intro h i j a b hij ha hb
    obtain ⟨hi, rfl⟩ := List.getElem?_eq_some_iff.mp ha
    obtain ⟨hj, rfl⟩ := List.getElem?_eq_some_iff.mp hb
    exact h i j hi hj hij
  intro h i j hi hj hij
  exact h i j _ _ hij (getElem?_eq_getElem hi) (getElem?_eq_getElem hj)

variable {os : List Origin} {i : Nat} {call : ToolCall} {calls calls' : List ToolCall}
  {src text content body : Bytes} {lower : Char → Char} {recovered : Bool}
  {normalized : NormalizedTools}

theorem given_ne (hgiven : (givenIds os).Nodup) {j : Nat} {x y : Bytes}
    (hij : i < j) (hi : os[i]? = some (.given x)) (hj : os[j]? = some (.given y)) : x ≠ y := by
  unfold givenIds at hgiven
  rw [List.Nodup, pairwise_filterMap, pairwise_iff_getElem] at hgiven
  obtain ⟨hi', heqi⟩ := List.getElem?_eq_some_iff.mp hi
  obtain ⟨hj', heqj⟩ := List.getElem?_eq_some_iff.mp hj
  refine hgiven i j hi' hj' hij x ?_ y ?_
  · rw [heqi]
    rfl
  rw [heqj]
  rfl

/-- **When the ids of a list of origins are distinct.** -/
theorem nodup_labels_iff (hplaced : Placed os) (hgiven : (givenIds os).Nodup) :
    (os.map Origin.label).Nodup ↔ IdsApart os := by
  constructor
  · intro hnodup
    have hlabels : ∀ (i j : Nat) (a b : Origin), i ≠ j → os[i]? = some a → os[j]? = some b →
        a.label ≠ b.label := by
      intro i j a b hij ha hb
      have hmap := nodup_iff_getElem?.mp hnodup
      rcases Nat.lt_or_gt_of_ne hij with hlt | hgt
      · exact hmap i j _ _ hlt (by rw [getElem?_map, ha]; rfl) (by rw [getElem?_map, hb]; rfl)
      exact (hmap j i _ _ hgt (by rw [getElem?_map, hb]; rfl) (by rw [getElem?_map, ha]; rfl)).symm
    have hmem : ∀ a ∈ os, ∀ b ∈ os, a ≠ b → a.label ≠ b.label := by
      intro a ha b hb hne
      obtain ⟨i, hi⟩ := List.mem_iff_getElem?.mp ha
      obtain ⟨j, hj⟩ := List.mem_iff_getElem?.mp hb
      refine hlabels i j a b ?_ hi hj
      rintro rfl
      rw [hi] at hj
      exact hne (Option.some.inj hj)
    refine ⟨?_, ?_, ?_⟩
    · exact List.nodup_iff_count_le_one.mp (List.Nodup.of_map _ hnodup) _
    · intro hjson hxml
      exact hmem _ hjson _ hxml (by simp) rfl
    intro id hid o ho hgenerated
    refine hmem _ hid o ho ?_
    rintro rfl
    cases hgenerated
  · rintro ⟨hone, hfirst, happart⟩
    rw [nodup_iff_getElem?]
    intro i j x y hij hx hy
    rw [getElem?_map] at hx hy
    obtain ⟨a, ha, rfl⟩ := Option.map_eq_some_iff.mp hx
    obtain ⟨b, hb, rfl⟩ := Option.map_eq_some_iff.mp hy
    have hamem : a ∈ os := mem_of_getElem? ha
    have hbmem : b ∈ os := mem_of_getElem? hb
    have hgenerated : ∀ m n, a = .listed m ∨ a = .xmlBlock m → b = .listed n ∨ b = .xmlBlock n →
        m ≠ n → a.label ≠ b.label := by
      rintro m n (rfl | rfl) (rfl | rfl) hmn heq <;> exact hmn (callId_injective heq)
    have hcases : a.given? = none → b.given? = none → a.label ≠ b.label := by
      intro hagen hbgen
      cases hplaced with
      | list h =>
        rcases h i a ha with hai | ⟨id, rfl⟩
        · rcases h j b hb with hbj | ⟨id, rfl⟩
          · exact hgenerated i j (Or.inl hai) (Or.inl hbj) (Nat.ne_of_lt hij)
          · cases hbgen
        · cases hagen
      | blocks h =>
        rcases h i a ha with rfl | rfl | ⟨id, rfl⟩
        · rcases h j b hb with rfl | rfl | ⟨id, rfl⟩
          · exact hgenerated i j (Or.inr rfl) (Or.inr rfl) (Nat.ne_of_lt hij)
          · intro heq
            obtain rfl : i = 0 := callId_injective heq
            exact hfirst hbmem hamem
          · cases hbgen
        · rcases h j b hb with rfl | rfl | ⟨id, rfl⟩
          · intro heq
            obtain rfl : 0 = j := callId_injective heq
            exact hfirst hamem hbmem
          · obtain ⟨hi, heqi⟩ := List.getElem?_eq_some_iff.mp ha
            obtain ⟨hj, heqj⟩ := List.getElem?_eq_some_iff.mp hb
            have htwice : List.Duplicate Origin.jsonBlock os :=
              List.duplicate_iff_exists_distinct_get.mpr
                ⟨⟨i, hi⟩, ⟨j, hj⟩, hij, heqi.symm, heqj.symm⟩
            have := List.duplicate_iff_two_le_count.mp htwice
            omega
          · cases hbgen
        · cases hagen
    cases hagiven : a.given? with
    | none =>
      cases hbgiven : b.given? with
      | none => exact hcases hagiven hbgiven
      | some id =>
        obtain rfl : b = .given id := Origin.eq_given hbgiven
        exact (happart id hbmem a hamem hagiven).symm
    | some id =>
      obtain rfl : a = .given id := Origin.eq_given hagiven
      cases hbgiven : b.given? with
      | none => exact happart id hamem b hbmem hbgiven
      | some id' =>
        obtain rfl : b = .given id' := Origin.eq_given hbgiven
        exact given_ne hgiven hij ha hb

/-! ### Calls in a list -/

theorem label_listedOrigin (item : RawToolCall) (i : Nat) :
    (listedOrigin item i).label = firstNonEmpty item.id (callId i) := by
  unfold listedOrigin firstNonEmpty
  split <;> rfl

theorem rawCallToDomain_id {item : RawToolCall}
    (h : rawCallToDomain i item = .ok call) : call.id = firstNonEmpty item.id (callId i) := by
  unfold rawCallToDomain at h
  split at h
  · cases h
  cases hargs : normalizeArguments (rawCallArguments item) with
  | error e =>
    rw [hargs] at h
    cases h
  | ok args =>
    rw [hargs] at h
    cases h
    rfl

theorem rawCallsFrom_ids {raw : List RawToolCall} (h : rawCallsFrom i raw = .ok calls) :
    calls.map (·.id) = (raw.zipIdx i).map fun x => (listedOrigin x.1 x.2).label := by
  induction raw generalizing i calls with
  | nil =>
    cases h
    rfl
  | cons item rest ih =>
    rw [rawCallsFrom] at h
    cases hcall : rawCallToDomain i item with
    | error e =>
      rw [hcall] at h
      cases h
    | ok call =>
      rw [hcall] at h
      cases hcalls : rawCallsFrom (i + 1) rest with
      | error e =>
        rw [hcalls] at h
        cases h
      | ok calls' =>
        rw [hcalls] at h
        cases h
        rw [map_cons, ih hcalls, rawCallToDomain_id hcall, ← label_listedOrigin]
        rfl

theorem decodeTagged_eq_ok (h : decodeTagged src = .ok xs) :
    ∃ raw calls, findRawCalls src = .ok raw ∧ rawCallsToDomain raw = .ok calls ∧
      xs.map Prod.fst = calls ∧ xs.map Prod.snd = raw.zipIdx.map fun x => listedOrigin x.1 x.2 := by
  unfold decodeTagged at h
  cases hraw : findRawCalls src with
  | error e =>
    rw [hraw] at h
    cases h
  | ok raw =>
    rw [hraw] at h
    cases hcalls : rawCallsToDomain raw with
    | error e =>
      simp only [Except.bind, hcalls] at h
      cases h
    | ok calls =>
      simp only [Except.bind, hcalls] at h
      cases h
      have hlength : calls.length = raw.length := by
        have := congrArg List.length (rawCallsFrom_ids hcalls)
        simpa using this
      refine ⟨raw, calls, rfl, hcalls, ?_, ?_⟩
      · exact map_fst_zip (by simp [hlength])
      · exact map_snd_zip (by simp [hlength])

theorem decodeToolCandidate_eq (src : Bytes) :
    decodeToolCandidate src = (decodeTagged src).map (List.map Prod.fst) := by
  cases htagged : decodeTagged src with
  | ok xs =>
    obtain ⟨raw, calls, hraw, hcalls, hfst, -⟩ := decodeTagged_eq_ok htagged
    unfold decodeToolCandidate
    rw [hraw]
    show rawCallsToDomain raw = .ok (xs.map Prod.fst)
    rw [hcalls, hfst]
  | error e =>
    unfold decodeTagged at htagged
    unfold decodeToolCandidate
    cases hraw : findRawCalls src with
    | error e' =>
      rw [hraw] at htagged
      obtain rfl : e' = e := Except.error.inj htagged
      rfl
    | ok raw =>
      rw [hraw] at htagged
      show rawCallsToDomain raw = .error e
      cases hcalls : rawCallsToDomain raw with
      | error e' =>
        simp only [Except.bind, hcalls] at htagged
        obtain rfl : e' = e := Except.error.inj htagged
        rfl
      | ok calls =>
        simp only [Except.bind, hcalls] at htagged
        cases htagged

theorem decodeTagged_labels (h : decodeTagged src = .ok xs) :
    xs.map (·.1.id) = xs.map (·.2.label) ∧ Placed (xs.map Prod.snd) := by
  obtain ⟨raw, calls, -, hcalls, hfst, hsnd⟩ := decodeTagged_eq_ok h
  constructor
  · have hids : xs.map (·.1.id) = calls.map (·.id) := by
      rw [← hfst, map_map]
      rfl
    have hlabels : xs.map (·.2.label) = (raw.zipIdx.map fun x => listedOrigin x.1 x.2).map
        Origin.label := by
      rw [← hsnd, map_map]
      rfl
    rw [hids, hlabels, rawCallsFrom_ids hcalls, map_map]
    rfl
  refine .list fun i o ho => ?_
  rw [hsnd, getElem?_map, getElem?_zipIdx] at ho
  simp only [Nat.zero_add, Option.map_map, Option.map_eq_some_iff] at ho
  obtain ⟨item, -, rfl⟩ := ho
  show listedOrigin item i = .listed i ∨ ∃ id, listedOrigin item i = .given id
  unfold listedOrigin
  split
  · exact Or.inl rfl
  · exact Or.inr ⟨item.id, rfl⟩

/-! ### The loop over the candidates -/

section Loop

variable {α β : Type} {lower : Char → Char} {decode : Bytes → Except ToolError (List α)}

theorem tryCandidate_map (f : α → β) (c : JsonCandidate) :
    tryCandidate (fun src => (decode src).map (List.map f)) c =
      (tryCandidate decode c).map fun x => (x.1.map f, x.2) := by
  unfold tryCandidate
  simp only
  cases decode ((repairJSON c.jsonText).getD c.jsonText) with
  | ok xs =>
    cases xs with
    | cons x xs => rfl
    | nil =>
      cases repairJSON c.jsonText with
      | none => rfl
      | some repaired =>
        simp only [Except.map]
        cases decode repaired with
        | ok ys => cases ys <;> rfl
        | error e => rfl
  | error e =>
    cases repairJSON c.jsonText with
    | none => rfl
    | some repaired =>
      simp only [Except.map]
      cases decode repaired with
      | ok ys => cases ys <;> rfl
      | error e => rfl

theorem hermesLoop_map (f : α → β) (text : Bytes) (cs : List JsonCandidate)
    (lastErr : Option ToolError) :
    hermesLoop lower (fun src => (decode src).map (List.map f)) text cs lastErr =
      (hermesLoop lower decode text cs lastErr).map fun x => (x.1.map f, x.2) := by
  induction cs generalizing lastErr with
  | nil =>
    unfold hermesLoop
    cases looksLikeToolCall lower text <;> cases lastErr <;> rfl
  | cons c rest ih =>
    unfold hermesLoop
    rw [tryCandidate_map]
    cases tryCandidate decode c with
    | ok x => rfl
    | error e => exact ih e

theorem tryCandidate_ok {c : JsonCandidate} {xs : List α} {recovered : Bool}
    (h : tryCandidate decode c = .ok (xs, recovered)) : ∃ src, decode src = .ok xs := by
  unfold tryCandidate at h
  simp only at h
  split at h
  · rename_i x xs' hdecode
    cases h
    exact ⟨_, hdecode⟩
  split at h
  · cases h
  split at h
  · rename_i x xs' hdecode
    cases h
    exact ⟨_, hdecode⟩
  · cases h

theorem hermesLoop_ok {text : Bytes} {cs : List JsonCandidate} {lastErr : Option ToolError}
    {xs : List α} {content : Bytes} {recovered : Bool}
    (h : hermesLoop lower decode text cs lastErr = .ok (xs, content, recovered)) :
    xs = [] ∨ ∃ src, decode src = .ok xs := by
  induction cs generalizing lastErr with
  | nil =>
    unfold hermesLoop at h
    split at h
    · cases h
    cases h
    exact Or.inl rfl
  | cons c rest ih =>
    unfold hermesLoop at h
    split at h
    · rename_i calls recovered' htry
      cases h
      exact Or.inr (tryCandidate_ok htry)
    · exact ih h

end Loop

/-- **The ids of a JSON answer** are the labels of its origins. -/
theorem parseHermesJSON_ids (h : parseHermesJSON lower text = .ok (calls, content, recovered)) :
    calls.map (·.id) = (hermesOrigins lower text).map Origin.label ∧
      Placed (hermesOrigins lower text) := by
  unfold parseHermesJSON at h
  unfold hermesOrigins
  rw [funext decodeToolCandidate_eq, hermesLoop_map] at h
  cases hloop : hermesLoop lower decodeTagged text (jsonCandidates text) none with
  | error e =>
    rw [hloop] at h
    cases h
  | ok x =>
    obtain ⟨xs, content', recovered'⟩ := x
    rw [hloop] at h
    cases h
    rcases hermesLoop_ok hloop with rfl | ⟨src, hsrc⟩
    · exact ⟨rfl, .list fun i o ho => by cases ho⟩
    obtain ⟨hlabels, hplaced⟩ := decodeTagged_labels hsrc
    refine ⟨?_, hplaced⟩
    rw [map_map, map_map]
    exact hlabels

/-! ### Blocks -/

theorem fillIn_id_of_ne_nil (h : call.id ≠ []) : (fillIn i call).id = call.id := if_neg h

theorem firstNonEmpty_ne_nil {a b : Bytes} (h : b ≠ []) : firstNonEmpty a b ≠ [] := by
  unfold firstNonEmpty
  split
  · exact h
  · assumption

theorem soleCall_of_decode (h : decodeToolCandidate src = .ok [call]) :
    ∃ item, soleCall src = some item ∧ call.id = firstNonEmpty item.id (callId 0) := by
  have hdecode := h
  rw [decodeToolCandidate_eq] at h
  cases htagged : decodeTagged src with
  | error e =>
    rw [htagged] at h
    cases h
  | ok xs =>
    rw [htagged] at h
    obtain ⟨raw, calls, hraw, hcalls, hfst, -⟩ := decodeTagged_eq_ok htagged
    obtain rfl : calls = [call] := hfst.symm.trans (Except.ok.inj h)
    have hids := rawCallsFrom_ids hcalls
    cases raw with
    | nil => cases hids
    | cons item rest =>
      cases rest with
      | cons item' rest => exact absurd (congrArg List.length hids) (by simp)
      | nil =>
        refine ⟨item, ?_, ?_⟩
        · unfold soleCall
          rw [hraw, hdecode]
        rw [← label_listedOrigin]
        exact (List.cons.inj hids).1

theorem soleCall_of_not_one
    (h : decodeToolCandidate src = .ok calls) (hone : ∀ call, calls ≠ [call]) :
    soleCall src = none := by
  unfold soleCall
  split
  · rename_i item calls' hraw hdecode
    rw [h] at hdecode
    unfold decodeToolCandidate at h
    rw [hraw] at h
    have hlength := congrArg List.length (rawCallsFrom_ids h)
    rw [length_map] at hlength
    obtain ⟨call, hcall⟩ := List.length_eq_one_iff.mp hlength
    exact absurd hcall (hone call)
  · rfl

theorem label_jsonOrigin (item : RawToolCall) :
    (if item.id = [] then Origin.jsonBlock else .given item.id).label =
      firstNonEmpty item.id (callId 0) := by
  unfold firstNonEmpty
  split <;> rfl

/-- The id of a call that was parsed is the one its origin gives it. -/
theorem parseJsonBlock_id
    (h : parseJsonBlock body = .ok (call, recovered)) (hjson : isJsonBlock body = true) :
    (fillIn i call).id = (blockOrigin body i).label := by
  have hsole : ∀ item, blockCall body = some item → call.id = firstNonEmpty item.id (callId 0) →
      (fillIn i call).id = (blockOrigin body i).label := by
    intro item hitem hid
    have hne : call.id ≠ [] := by
      rw [hid]
      exact firstNonEmpty_ne_nil (callId_ne_nil 0)
    unfold blockOrigin
    rw [fillIn_id_of_ne_nil hne, if_pos hjson, hitem, hid, ← label_jsonOrigin]
  unfold parseJsonBlock at h
  split at h
  · rename_i call' hdecode
    cases h
    obtain ⟨item, hitem, hid⟩ := soleCall_of_decode hdecode
    refine hsole item ?_ hid
    unfold blockCall
    rw [hdecode]
    exact hitem
  · cases h
  rename_i e hdecode
  split at h
  · cases h
  rename_i repaired hrepaired
  have hblock : blockCall body = soleCall repaired := by
    unfold blockCall
    rw [hdecode, hrepaired]
    rfl
  split at h
  · rename_i call' hagain
    cases h
    obtain ⟨item, hitem, hid⟩ := soleCall_of_decode hagain
    exact hsole item (hblock.trans hitem) hid
  · rename_i calls hother hagain
    cases h
    have hnone := soleCall_of_not_one hagain hother
    unfold blockOrigin
    rw [if_pos hjson, hblock, hnone]
    rfl
  · cases h

theorem parseXmlBlock_id
    (h : parseXmlBlock body i = .ok (call, recovered)) : call.id = callId i := by
  unfold parseXmlBlock at h
  split at h
  · cases h
    rfl
  split at h
  · split at h
    · cases h
    rename_i v hv
    cases hargs : normalizeArguments (some v) with
    | error e =>
      rw [hargs] at h
      cases h
    | ok args =>
      rw [hargs] at h
      cases h
      rfl
  · cases h

theorem parseQwenBlock_id (h : parseQwenBlock body i = .ok (call, recovered)) :
    (fillIn i call).id = (blockOrigin body i).label := by
  unfold parseQwenBlock at h
  split at h
  · rename_i hjson
    exact parseJsonBlock_id h hjson
  rename_i hjson
  have hid := parseXmlBlock_id h
  rw [fillIn_id_of_ne_nil (by rw [hid]; exact callId_ne_nil i), hid]
  unfold blockOrigin
  rw [if_neg hjson]
  rfl

theorem qwenLoop_ids {blocks : List ToolBlock} {clean : Bytes}
    (h : qwenLoop i blocks clean = .ok (calls, content, recovered)) :
    ((calls.zipIdx i).map fun x => (fillIn x.2 x.1).id) =
      ((blocks.zipIdx i).map fun x => blockOrigin x.1.body x.2).map Origin.label := by
  induction blocks generalizing i clean calls content recovered with
  | nil =>
    cases h
    rfl
  | cons block rest ih =>
    rw [qwenLoop] at h
    cases hblock : parseQwenBlock block.body i with
    | error e =>
      rw [hblock] at h
      cases h
    | ok x =>
      obtain ⟨call, blockRecovered⟩ := x
      rw [hblock] at h
      cases hrest : qwenLoop (i + 1) rest (removeFirst clean block.full) with
      | error e =>
        simp only [bind, Except.bind, hrest] at h
        cases h
      | ok y =>
        obtain ⟨calls', content', others⟩ := y
        simp only [bind, Except.bind, hrest, pure, Except.pure, Except.ok.injEq, Prod.mk.injEq] at h
        obtain ⟨rfl, -, -⟩ := h
        rw [zipIdx_cons, zipIdx_cons, map_cons, map_cons, map_cons,
          ih hrest, parseQwenBlock_id hblock]

theorem placed_qwenOrigins (blocks : List ToolBlock) : Placed (qwenOrigins blocks) := by
  refine .blocks fun i o ho => ?_
  unfold qwenOrigins at ho
  rw [getElem?_map, getElem?_zipIdx] at ho
  simp only [Nat.zero_add, Option.map_map, Option.map_eq_some_iff] at ho
  obtain ⟨block, -, rfl⟩ := ho
  show blockOrigin block.body i = .xmlBlock i ∨ blockOrigin block.body i = .jsonBlock ∨
    ∃ id, blockOrigin block.body i = .given id
  unfold blockOrigin
  split
  · split
    · split
      · exact Or.inr (Or.inl rfl)
      · exact Or.inr (Or.inr ⟨_, rfl⟩)
    · exact Or.inl rfl
  · exact Or.inl rfl

/-! ### The whole output -/

theorem finishCalls_ids (h : finishCalls normalized i calls = .ok calls') :
    calls'.map (·.id) = (calls.zipIdx i).map fun x => (fillIn x.2 x.1).id := by
  induction calls generalizing i calls' with
  | nil =>
    cases h
    rfl
  | cons call rest ih =>
    rw [finishCalls] at h
    split at h
    · cases h
    cases hrest : finishCalls normalized (i + 1) rest with
    | error e =>
      rw [hrest] at h
      cases h
    | ok rest' =>
      rw [hrest] at h
      cases h
      rw [map_cons, ih hrest, zipIdx_cons, map_cons]

theorem finishCalls_of_ids
    (h : finishCalls normalized 0 calls = .ok calls') (hne : ∀ call ∈ calls, call.id ≠ []) :
    calls'.map (·.id) = calls.map (·.id) := by
  rw [finishCalls_ids h]
  have hcongr : ∀ x ∈ calls.zipIdx, (fillIn x.2 x.1).id = x.1.id := fun x hx =>
    fillIn_id_of_ne_nil (hne x.1 (fst_mem_of_mem_zipIdx hx))
  rw [map_congr_left hcongr]
  have hfst : calls.zipIdx.map Prod.fst = calls := zipIdx_map_fst 0 calls
  calc calls.zipIdx.map (fun x => x.1.id) = (calls.zipIdx.map Prod.fst).map (·.id) := by
        rw [map_map]
        rfl
    _ = calls.map (·.id) := by rw [hfst]

theorem label_ne_nil (h : ∀ o ∈ os, o ≠ .given []) (ho : o ∈ os) : o.label ≠ [] := by
  cases o with
  | given id =>
    intro hnil
    exact h _ ho (congrArg Origin.given hnil)
  | listed i | xmlBlock i => exact callId_ne_nil i
  | jsonBlock => exact callId_ne_nil 0

theorem hermesOrigins_ne_nil : ∀ o ∈ hermesOrigins lower text, o ≠ .given [] := by
  intro o ho
  unfold hermesOrigins at ho
  cases hloop : hermesLoop lower decodeTagged text (jsonCandidates text) none with
  | error e =>
    rw [hloop] at ho
    cases ho
  | ok x =>
    obtain ⟨xs, content, recovered⟩ := x
    rw [hloop] at ho
    rcases hermesLoop_ok hloop with rfl | ⟨src, hsrc⟩
    · cases ho
    obtain ⟨raw, calls, -, -, -, hsnd⟩ := decodeTagged_eq_ok hsrc
    simp only at ho
    rw [hsnd] at ho
    obtain ⟨y, -, rfl⟩ := List.mem_map.mp ho
    unfold listedOrigin
    split
    · exact Origin.noConfusion
    rename_i hid
    intro heq
    exact hid (Origin.given.inj heq)

theorem hermes_ids (h : parseHermesJSON lower text = .ok (calls, content, recovered))
    (hfinish : finishCalls normalized 0 calls = .ok calls') :
    calls'.map (·.id) = (hermesOrigins lower text).map Origin.label ∧
      Placed (hermesOrigins lower text) := by
  obtain ⟨hids, hplaced⟩ := parseHermesJSON_ids h
  refine ⟨?_, hplaced⟩
  rw [finishCalls_of_ids hfinish, hids]
  intro call hcall
  have hid : call.id ∈ (hermesOrigins lower text).map Origin.label := by
    rw [← hids]
    exact mem_map_of_mem hcall
  obtain ⟨o, ho, heq⟩ := List.mem_map.mp hid
  rw [← heq]
  exact label_ne_nil hermesOrigins_ne_nil ho

theorem parseCalls_ids (h : parseCalls lower family text = .ok (calls, content, recovered))
    (hfinish : finishCalls normalized 0 calls = .ok calls') :
    calls'.map (·.id) = (originsOf lower family text).map Origin.label ∧
      Placed (originsOf lower family text) := by
  cases family with
  | hermes | generic => exact hermes_ids h hfinish
  | qwenXML =>
    unfold parseCalls parseQwenXML at h
    unfold originsOf
    cases hblocks : extractToolBlocks lower text with
    | none =>
      rw [hblocks] at h
      cases h
    | some blocks =>
      rw [hblocks] at h
      cases blocks with
      | nil => exact hermes_ids h hfinish
      | cons block rest =>
        refine ⟨?_, placed_qwenOrigins (block :: rest)⟩
        rw [finishCalls_ids hfinish]
        exact qwenLoop_ids h

/-- **The ids of an answer** are the labels of its origins. -/
theorem parseOutput_ids {output : Bytes} {result : ParseResult}
    (h : parseOutput lower output family normalized = .ok result) :
    result.toolCalls.map (·.id) = (outputOrigins lower output family).map Origin.label ∧
      Placed (outputOrigins lower output family) := by
  unfold parseOutput at h
  unfold outputOrigins
  split at h
  · cases h
  rename_i reasoned hreasoned
  rw [hreasoned]
  simp only at h
  split at h
  · cases h
  rename_i calls content recovered hcalls
  split at h
  · cases h
  rename_i calls' hfinish
  cases h
  exact parseCalls_ids hcalls hfinish

/-- **When the ids of an answer are distinct**: the model gave no generated id, at most one
JSON block has no id, and if one has none the first block is not a block of tags. -/
theorem parseOutput_ids_nodup_iff {lower : Char → Char} {output : Bytes} {family : ParserFamily}
    {normalized : NormalizedTools} {result : ParseResult}
    (h : parseOutput lower output family normalized = .ok result)
    (hgiven : (givenIds (outputOrigins lower output family)).Nodup) :
    (result.toolCalls.map (·.id)).Nodup ↔ IdsApart (outputOrigins lower output family) := by
  obtain ⟨hids, hplaced⟩ := parseOutput_ids h
  rw [hids]
  exact nodup_labels_iff hplaced hgiven

/-! ### Two calls -/

/-- A tool without parameters. -/
def readFileTools : NormalizedTools :=
  { byName := [(literal "read_file", { name := literal "read_file" })] }

/-- A call of `read_file` for one file. -/
def readFileText (path : String) : Bytes :=
  0x7B :: literal "\"name\":\"read_file\",\"arguments\":" ++ 0x7B ::
    literal "\"path\":\"" ++ literal path ++ literal "\"" ++ [0x7D, 0x7D]

/-- The two calls as a list. -/
def twoListed : Bytes := 0x5B :: readFileText "a" ++ 0x2C :: readFileText "b" ++ [0x5D]

/-- The two calls as blocks. -/
def twoBlocks : Bytes :=
  openCall ++ readFileText "a" ++ closeCall ++ openCall ++ readFileText "b" ++ closeCall

theorem exists_result {r : Except ParseFailure ParseResult} {ids : List Bytes}
    (h : r.toOption.map (fun result => result.toolCalls.map (·.id)) = some ids) :
    ∃ result, r = .ok result ∧ result.toolCalls.map (·.id) = ids := by
  cases r with
  | error e => cases h
  | ok result => exact ⟨result, rfl, Option.some.inj h⟩

theorem listed_ids_nodup : ∃ result, parseOutput id twoListed .generic readFileTools = .ok result ∧
      (result.toolCalls.map (·.id)).Nodup := by
  have hids : (parseOutput id twoListed .generic readFileTools).toOption.map
      (fun result => result.toolCalls.map (·.id)) = some [callId 0, callId 1] := by decide +kernel
  obtain ⟨result, hresult, -⟩ := exists_result hids
  have horigins : outputOrigins id twoListed .generic = [.listed 0, .listed 1] := by decide +kernel
  refine ⟨result, hresult, (parseOutput_ids_nodup_iff hresult ?_).mpr ?_⟩
  · rw [horigins]
    exact nodup_nil
  · rw [horigins]
    exact ⟨by decide, by decide, fun id h => by simp at h⟩

/-- Each block is a list of its own, so both calls are `call_0`. -/
theorem two_blocks_share_an_id :
    ∃ result, parseOutput id twoBlocks .qwenXML readFileTools = .ok result ∧
      (givenIds (outputOrigins id twoBlocks .qwenXML)).Nodup ∧
        ¬ (result.toolCalls.map (·.id)).Nodup := by
  have hids : (parseOutput id twoBlocks .qwenXML readFileTools).toOption.map
      (fun result => result.toolCalls.map (·.id)) = some [callId 0, callId 0] := by decide +kernel
  obtain ⟨result, hresult, hsame⟩ := exists_result hids
  have hgiven : givenIds (outputOrigins id twoBlocks .qwenXML) = [] := by decide +kernel
  refine ⟨result, hresult, ?_, ?_⟩
  · rw [hgiven]
    exact nodup_nil
  rw [hsame]
  simp

end DenseCore.Server
