/-
What a candidate text is decoded to.

A text without a comma before a closing bracket is not repaired.  If it is the JSON of
one call, the call is found with its name and its arguments; a value whose keys are
made of structural bytes has no field of a call, whatever else it is.
-/
import DenseCore.Lib.JsonPieces
import DenseCore.Server.ToolParser

namespace DenseCore.Server

open List

open Lib (Bytes Regex literal)
open Lib.Regex (all)
open Lib.Json
open Lib.Json.Scan (structural)
open Lib.Strings (trimSpace)

/-! ### Nothing to repair -/

/-- A comma with only white space between it and a closing bracket. -/
def HasTrailingComma (s : Bytes) : Prop :=
  ∃ x w c y, s = x ++ 0x2C :: (w ++ c :: y) ∧ (∀ b ∈ w, isReSpace b = true) ∧ (c = 0x7D ∨ c = 0x5D)

theorem hasTrailingComma_cons {b : UInt8} {rest : Bytes} : HasTrailingComma (b :: rest) ↔
      (b = 0x2C ∧ ∃ c ∈ (rest.dropWhile isReSpace).head?, c = 0x7D ∨ c = 0x5D) ∨
        HasTrailingComma rest := by
  constructor
  · rintro ⟨x, w, c, y, hsplit, hw, hc⟩
    cases x with
    | nil =>
      obtain ⟨rfl, rfl⟩ := List.cons.inj hsplit
      have hclose : isReSpace c = false := by
        rcases hc with rfl | rfl <;> rfl
      refine Or.inl ⟨rfl, c, ?_, hc⟩
      rw [dropWhile_append_of_pos hw, dropWhile_cons, if_neg (by simp [hclose])]
      rfl
    | cons d x =>
      obtain ⟨-, rfl⟩ := List.cons.inj hsplit
      exact Or.inr ⟨x, w, c, y, rfl, hw, hc⟩
  rintro (⟨rfl, c, hhead, hc⟩ | ⟨x, w, c, y, rfl, hw, hc⟩)
  · obtain ⟨y, hy⟩ := List.head?_eq_some_iff.mp hhead
    refine ⟨[], rest.takeWhile isReSpace, c, y, ?_, fun d hd => ?_, hc⟩
    · rw [← hy, takeWhile_append_dropWhile]
      rfl
    · exact List.all_eq_true.mp all_takeWhile d hd
  · exact ⟨b :: x, w, c, y, rfl, hw, hc⟩

instance decidableHasTrailingComma : (s : Bytes) → Decidable (HasTrailingComma s)
  | [] => isFalse fun ⟨x, w, c, y, h, _⟩ => by simp at h
  | _ :: rest =>
    have := decidableHasTrailingComma rest
    decidable_of_iff _ hasTrailingComma_cons.symm

variable {s k name : Bytes}

theorem HasTrailingComma.of_infix {t : Bytes} (h : HasTrailingComma s) (hst : s <:+: t) :
    HasTrailingComma t := by
  obtain ⟨x, w, c, y, rfl, hw, hc⟩ := h
  obtain ⟨u, v, rfl⟩ := hst
  exact ⟨u ++ x, w, c, y ++ v, by simp, hw, hc⟩

theorem repairRE_find_eq_none (h : ¬ HasTrailingComma s) : repairRE.find s = none := by
  refine Regex.find_eq_none fun t ht => List.eq_nil_iff_forall_not_mem.mpr fun m hm => h ?_
  obtain ⟨x, rfl⟩ := ht
  obtain ⟨m₁, h₁, m₂, h₂, -, -, -⟩ := Regex.mem_runs_seq hm
  obtain ⟨m₃, h₃, m₄, h₄, -, -, -⟩ := Regex.mem_runs_seq h₂
  obtain ⟨m₅, h₅, -, -, -, -, -⟩ := Regex.mem_runs_seq h₄
  obtain ⟨-, rfl⟩ := Regex.mem_runs_text h₁
  obtain ⟨hspace, hall⟩ := Regex.mem_runs_many h₃
  obtain ⟨m₆, h₆, rfl⟩ := List.mem_map.mp h₅
  obtain ⟨c, hc, -, hrest⟩ := Regex.mem_runs_one h₆
  refine ⟨x, m₃.text, c, m₆.rest, ?_, hall, by simpa using hc⟩
  rw [← hspace, hrest]
  rfl

theorem repairJSON_eq_none (h : ¬ HasTrailingComma s) : repairJSON s = none := by
  have hreplace : repairRE.replaceAll (fun m => m.group 1) s = s :=
    Regex.replaceAll_of_find_eq_none (repairRE_find_eq_none h)
  have hloop : repairLoop (s.length + 1) s = s := by
    rw [repairLoop, hreplace]
    exact if_pos rfl
  unfold repairJSON
  simp only [hloop, if_true]

/-! ### The calls of a value -/

/-- What `findRawCalls` does with a value. -/
def rawCallsOf (v : Value Bytes) : Except ToolError (List RawToolCall) :=
  match setStruct setEnvelope [] v with
  | some (c :: cs) => .ok (c :: cs)
  | _ =>
    match toolCallsOf v with
    | none => singleOrMany v
    | some list =>
      match setCallList [] list with
      | none => .error .badJson
      | some (c :: cs) => .ok (c :: cs)
      | some [] => singleOrMany v

theorem findRawCalls_eq (htrim : trimSpace s = s) (hrepair : ¬ HasTrailingComma s) :
    findRawCalls s = (parse s).elim (.error .noToolCallsShape) rawCallsOf := by
  unfold findRawCalls rawCallsOf
  simp only [htrim, repairJSON_eq_none hrepair, Option.getD_none]
  cases parse s with
  | none => rfl
  | some v => rfl

/-! ### Values without the fields of a call -/

theorem mem_foldName (hk : Structural k) {c : UInt8} (hc : c ∈ foldName k) :
    c ∈ k ∨ c + 0x20 ∈ k := by
  induction k using foldName.induct with
  | case1 rest ih => exact absurd (hk 0xC5 mem_cons_self) (by decide)
  | case2 rest ih => exact absurd (hk 0xE2 mem_cons_self) (by decide)
  | case3 d rest h₁ h₂ ih =>
    rw [foldName] at hc
    · rcases List.mem_cons.mp hc with rfl | hc
      · split
        · right
          rw [UInt8.sub_add_cancel]
          exact mem_cons_self
        · exact Or.inl mem_cons_self
      rcases ih (fun b hb => hk b (mem_cons_of_mem d hb)) hc with h | h
      · exact Or.inl (mem_cons_of_mem d h)
      · exact Or.inr (mem_cons_of_mem d h)
    · exact h₁
    · exact h₂
  | case4 => exact absurd hc not_mem_nil

variable {w nText aText : Bytes} {members args : List (Bytes × Value Bytes)} {v : Value Bytes}

theorem foldName_ne (hk : Structural k) (c : UInt8) (hc : c ∈ w)
    (hupper : structural c = false) (hlower : structural (c + 0x20) = false) : foldName k ≠ w := by
  rintro rfl
  rcases mem_foldName hk hc with h | h
  · rw [hk c h] at hupper
    cases hupper
  rw [hk _ h] at hlower
  cases hlower

theorem setFields_unknown {α : Type} {set : Bytes → Value Bytes → α → Option α}
    (h : ∀ k ∈ members.map Prod.fst, ∀ v s, set (foldName k) v s = some s) (s : α) :
    setFields set members s = some s := by
  induction members with
  | nil => rfl
  | cons entry rest ih =>
    obtain ⟨key, v⟩ := entry
    rw [setFields, h key mem_cons_self, Option.bind_some]
    exact ih fun k hk => h k (mem_cons_of_mem _ hk)

theorem setEnvelope_unknown (hk : Structural k) (v : Value Bytes)
    (calls : List RawToolCall) : setEnvelope (foldName k) v calls = some calls :=
  if_neg (foldName_ne hk 0x4F (by decide) rfl rfl)

theorem setCallField_unknown (hk : Structural k) (v : Value Bytes) (c : RawToolCall) :
    setCallField (foldName k) v c = some c := by
  unfold setCallField
  rw [if_neg (foldName_ne hk 0x44 (by decide) rfl rfl),
    if_neg (foldName_ne hk 0x59 (by decide) rfl rfl),
    if_neg (foldName_ne hk 0x4D (by decide) rfl rfl),
    if_neg (foldName_ne hk 0x4D (by decide) rfl rfl),
    if_neg (foldName_ne hk 0x43 (by decide) rfl rfl)]

theorem setStruct_unknown (hkeys : ∀ k ∈ keys v, Structural k) (old : RawToolCall) :
    setStruct setCallField old v = none ∨ setStruct setCallField old v = some old := by
  cases v with
  | object members =>
    exact Or.inr (setFields_unknown (fun k hk v s => setCallField_unknown (hkeys k hk) v s) old)
  | null => exact Or.inr rfl
  | bool b => exact Or.inl rfl
  | number n => exact Or.inl rfl
  | string s => exact Or.inl rfl
  | array items => exact Or.inl rfl

theorem setCalls_unknown {items : List (Value Bytes)}
    (hkeys : ∀ w ∈ items, ∀ k ∈ keys w, Structural k) {calls : List RawToolCall}
    (h : setCalls [] items = some calls) : ∀ c ∈ calls, rawCallName c = [] := by
  induction items generalizing calls with
  | nil =>
    cases h
    exact fun c hc => absurd hc not_mem_nil
  | cons v rest ih =>
    obtain ⟨c, hc, hrest⟩ := Option.bind_eq_some_iff.mp h
    obtain ⟨cs, hcs, rfl⟩ := Option.map_eq_some_iff.mp hrest
    rcases setStruct_unknown (hkeys v mem_cons_self) {} with hnone | hsame
    · rw [headD_nil, hnone] at hc
      cases hc
    rw [headD_nil, hsame] at hc
    cases hc
    intro d hd
    rcases List.mem_cons.mp hd with rfl | hd
    · rfl
    · exact ih (fun w hw => hkeys w (mem_cons_of_mem v hw)) hcs d hd

theorem rawCallsToDomain_unnamed {c : RawToolCall} {cs : List RawToolCall}
    (h : rawCallName c = []) : rawCallsToDomain (c :: cs) = .error .missingFunctionName := by
  unfold rawCallsToDomain
  rw [rawCallsFrom, rawCallToDomain, if_pos h]
  rfl

theorem lookup_eq_none_of_structural
    (hkeys : ∀ k ∈ members.map Prod.fst, Structural k) (c : UInt8) (hc : c ∈ w)
    (hplain : structural c = false) : members.reverse.lookup w = none := by
  rw [lookup_eq_none_iff]
  intro entry hentry
  rw [bne_iff_ne]
  rintro rfl
  have hmem := mem_map_of_mem (f := Prod.fst) (List.mem_reverse.mp hentry)
  rw [hkeys _ hmem c hc] at hplain
  cases hplain

/-- **A value with structural keys** is no call. -/
theorem decode_of_structuralKeys (h : StructuralKeys v) :
    ∃ e, (rawCallsOf v).bind rawCallsToDomain = .error e := by
  have hmany : ∃ e, (singleOrMany.many v).bind rawCallsToDomain = .error e := by
    unfold singleOrMany.many
    cases hlist : setCallList [] v with
    | none => exact ⟨_, rfl⟩
    | some calls =>
      cases calls with
      | nil => exact ⟨_, rfl⟩
      | cons c cs =>
        cases v with
        | array items =>
          exact ⟨_, rawCallsToDomain_unnamed
            (setCalls_unknown (h.2 items rfl) hlist c mem_cons_self)⟩
        | null => cases hlist
        | bool b => cases hlist
        | number n => cases hlist
        | string s => cases hlist
        | object members => cases hlist
  have hsingle : ∃ e, (singleOrMany v).bind rawCallsToDomain = .error e := by
    unfold singleOrMany
    rcases setStruct_unknown h.1 {} with hnone | hsame
    · rw [hnone]
      exact hmany
    rw [hsame]
    exact hmany
  have henvelope : setStruct setEnvelope [] v = none ∨ setStruct setEnvelope [] v = some [] := by
    cases v with
    | object members =>
      exact Or.inr (setFields_unknown (fun k hk v s => setEnvelope_unknown (h.1 k hk) v s) [])
    | null => exact Or.inr rfl
    | bool b => exact Or.inl rfl
    | number n => exact Or.inl rfl
    | string s => exact Or.inl rfl
    | array items => exact Or.inl rfl
  have hlookup : toolCallsOf v = none := by
    cases v with
    | object members => exact lookup_eq_none_of_structural h.1 0x6F (by decide) rfl
    | null => rfl
    | bool b => rfl
    | number n => rfl
    | string s => rfl
    | array items => rfl
  unfold rawCallsOf
  rcases henvelope with hnone | hempty
  · rw [hnone, hlookup]
    exact hsingle
  rw [hempty, hlookup]
  exact hsingle

/-! ### One call -/

/-- The JSON text of a call with the given texts of its name and arguments. -/
def callText (nText aText : Bytes) : Bytes :=
  0x7B :: (literal "\"name\": " ++ (nText ++ (literal ", \"arguments\": " ++ (aText ++ [0x7D]))))

/-- The value of that text. -/
def callValue (name : Bytes) (args : List (Bytes × Value Bytes)) : Value Bytes :=
  .object [(literal "name", .string name), (literal "arguments", .object args)]

theorem reads_callText
    (hname : Reads (.value (.string name)) nText) (hargs : Reads (.value (.object args)) aText) :
    Reads (.value (callValue name args)) (callText nText aText) := by
  have hspace : Blank [0x20] := by
    intro c hc
    rw [List.mem_singleton.mp hc]
    rfl
  have hnameKey : IsBody (literal "name") (literal "name") := by
    constructor <;> decide +kernel
  have hargsKey : IsBody (literal "arguments") (literal "arguments") := by
    constructor <;> decide +kernel
  have hmembers := Reads.moreMembers hnameKey Blank.nil hspace hname Blank.nil hspace
    (Reads.member hargsKey Blank.nil hspace hargs Blank.nil)
  refine Eq.mp (congrArg (Reads _) ?_) (Reads.object Blank.nil hmembers)
  have hbefore : literal "\"name\": " = quoted (literal "name") ++ [0x3A, 0x20] := rfl
  have hbetween : literal ", \"arguments\": " =
      0x2C :: 0x20 :: (quoted (literal "arguments") ++ [0x3A, 0x20]) := rfl
  unfold callText
  rw [hbefore, hbetween]
  simp

/-- The raw call that is found in it. -/
def rawCall (name : Bytes) (args : List (Bytes × Value Bytes)) : RawToolCall :=
  { name := name, arguments := some (.object args) }

theorem rawCallsOf_callValue (args : List (Bytes × Value Bytes)) (hne : name ≠ []) :
    rawCallsOf (callValue name args) = .ok [rawCall name args] := by
  have henvelope : setStruct setEnvelope [] (callValue name args) = some [] := rfl
  have hlookup : toolCallsOf (callValue name args) = none := rfl
  have hsingle : setStruct setCallField {} (callValue name args) = some (rawCall name args) := rfl
  have hname : rawCallName (rawCall name args) = name := if_neg (by simp [rawCall])
  unfold rawCallsOf
  rw [henvelope, hlookup]
  unfold singleOrMany
  simp only [hsingle, hname, if_pos hne]

/-- The call that is made of it. -/
def callOf (name : Bytes) (obj : Any) : ToolCall :=
  { id := callId 0, type := functionToolType, function := { name := name, arguments := marshal obj } }

theorem rawCallsToDomain_rawCall (args : List (Bytes × Value Bytes)) (hne : name ≠ []) :
    rawCallsToDomain [rawCall name args] =
      (decodeAny (.object args)).elim (.error .badJson) fun obj => .ok [callOf name obj] := by
  have hname : rawCallName (rawCall name args) = name := if_neg (by simp [rawCall])
  have hargs : rawCallArguments (rawCall name args) = some (.object args) := rfl
  unfold rawCallsToDomain
  rw [rawCallsFrom, rawCallToDomain, hname, if_neg hne, hargs]
  unfold normalizeArguments
  simp only
  cases decodeAny (.object args) with
  | none => rfl
  | some obj => rfl

/-- **What the call text is decoded to**: one call, unless a number is too large. -/
theorem decode_callText
    (hname : Reads (.value (.string name)) nText) (hargs : Reads (.value (.object args)) aText)
    (hne : name ≠ []) (hrepair : ¬ HasTrailingComma (callText nText aText))
    (htrim : trimSpace (callText nText aText) = callText nText aText) :
    decodeToolCandidate (callText nText aText) =
      (decodeAny (.object args)).elim (.error .badJson) fun obj => .ok [callOf name obj] := by
  unfold decodeToolCandidate
  rw [findRawCalls_eq htrim hrepair, (reads_callText hname hargs).parse, Option.elim_some,
    rawCallsOf_callValue args hne]
  exact rawCallsToDomain_rawCall args hne

end DenseCore.Server
