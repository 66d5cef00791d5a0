/-
What the arguments of a tool call become on their way to the tool.

The text of a call is found in the output, decoded, and its arguments are marshalled
again.  On the way three stages write on what they should only read: the repair takes a
comma before a bracket also out of a string, reasoning tags and closing tags are found
inside strings too, and every number passes through a double.  Where none of them finds
anything, the arguments that come out stand for the value that went in
(`arguments_survive_iff`).
-/
import DenseCore.Proofs.Server.LowerCase
import DenseCore.Proofs.Server.Marshal
import DenseCore.Proofs.Server.ToolCandidates
import DenseCore.Proofs.Server.ToolReasoning

namespace DenseCore.Server

open List Option

open Lib (Bytes literal)
open Lib.Json
open Lib.Float64 (Finite exact parseFloat formatFloat formatFloat_spec)
open Lib.Strings (index trimSpace IsBlank SpaceByte)

/-! ### Marshalling and reading -/

/-- The number that is printed for a double. -/
def printed (x : Finite) : ℚ := (exact (formatFloat x)).getD 0

theorem exact_formatFloat (x : Finite) : exact (formatFloat x) = some (printed x) := by
  obtain ⟨-, y, hy⟩ := formatFloat_spec x
  unfold parseFloat at hy
  obtain ⟨r, hr, -⟩ := bind_eq_some_iff.mp hy
  unfold printed exact
  rw [hr]
  rfl

/-- The number that comes out for a literal: through a double and back to decimals. -/
def doubled (lit : Bytes) : Option ℚ := (parseFloat lit).map printed

variable {obj : Any} {normalized : NormalizedTools}

theorem read_marshal (hvalid : obj.Valid) (hordered : obj.Ordered) :
    (parse (marshal obj)).bind (·.read exact) = some (obj.map printed) := by
  rw [parse_marshal hvalid, bind_some, Value.map_read]
  simp only [exact_formatFloat]
  exact hordered.read_eq printed

/-- The arguments that come out, against those that went in. -/
theorem read_doubled (a : Value Bytes) :
    a.read doubled = (decodeAny a).map (Value.map printed) := a.read_map parseFloat printed

variable {args : List (Bytes × Value Bytes)} {name output : Bytes} {lower : Char → Char}
  {family : ParserFamily} {reasoned : ReasoningSplit}

theorem unmarshalAny_marshal
    (hargs : (Value.object args).Valid) (hobj : decodeAny (.object args) = some obj) :
    ∃ ws, unmarshalAny (marshal obj) = some (.object ws) ∧
      ∀ k ∈ args.map Prod.fst, k ∈ ws.map Prod.fst := by
  have hvalid : obj.Valid := hargs.read hobj
  have hordered := Value.ordered_of_read _ hobj
  have hagain : ∀ x, ∃ y, parseFloat (formatFloat x) = some y := fun x => (formatFloat_spec x).2
  choose again hagain using hagain
  obtain ⟨ms, hms, rfl⟩ := map_eq_some_iff.mp hobj
  refine ⟨mapMembers again ms, ?_, fun k hk => ?_⟩
  · unfold unmarshalAny decodeAny
    rw [parse_marshal hvalid, bind_some, Value.map_read]
    simp only [hagain]
    exact hordered.read_eq again
  rw [mapMembers_keys]
  exact mem_keys_readMembers hms (Or.inr hk)

/-! ### Validation -/

/-- The tool passes validation: it is declared, no other one is forced, and its required
arguments are given. -/
structure Accepts (normalized : NormalizedTools) (name : Bytes) (given : List Bytes) : Prop where
  forced : normalized.choice.mode = .forced → name = normalized.choice.forcedName
  declared : ∃ tool, normalized.byName.lookup name = some tool ∧
    ∀ argument ∈ requiredArguments tool, argument ∈ given

theorem Accepts.validate
    (h : Accepts normalized name (args.map Prod.fst)) (hargs : (Value.object args).Valid)
    (hobj : decodeAny (.object args) = some obj) :
    validateToolCall (callOf name obj) normalized = none := by
  obtain ⟨tool, hlookup, hrequired⟩ := h.declared
  obtain ⟨ws, hws, hkeys⟩ := unmarshalAny_marshal hargs hobj
  have hne : normalized.byName ≠ [] := by
    intro hnil
    rw [hnil] at hlookup
    cases hlookup
  have hforced : ¬ (normalized.choice.mode = .forced ∧ name ≠ normalized.choice.forcedName) :=
    fun hboth => hboth.2 (h.forced hboth.1)
  have hmissing : validateToolCall.missing (callOf name obj) tool (ws.map Prod.fst) = none := by
    unfold validateToolCall.missing
    rw [map_eq_none_iff, find?_eq_none]
    intro argument hargument
    have hgiven := hkeys argument (hrequired argument hargument)
    simpa using hgiven
  have htype : ¬ ((callOf name obj).type ≠ [] ∧ (callOf name obj).type ≠ functionToolType) :=
    fun hboth => hboth.2 rfl
  have hname : (callOf name obj).function.name = name := rfl
  have harguments : (callOf name obj).function.arguments = marshal obj := rfl
  unfold validateToolCall
  simp only [hname, harguments, hlookup, hws, hmissing]
  rw [if_neg hne, if_neg hforced, if_neg htype]

theorem fillIn_callOf (i : Nat) (name : Bytes) (obj : Any) :
    fillIn i (callOf name obj) = callOf name obj := rfl

/-! ### The text in the output -/

/-- The output of the model: the call text `t` in prose, or between the tags of a
block, where no stage that searches the whole text finds anything in it. -/
inductive Delivered (lower : Char → Char) (t : Bytes) : ParserFamily → Bytes → Prop
  | prose {family : ParserFamily} {before after : Bytes} (hfamily : family ≠ .qwenXML)
      (hbefore : Prose before) (hafter : Prose after) (hspared : Spared lower t after before)
      (hslices : (splitReasoningBlocks lower (before ++ (t ++ after))).isSome) :
      Delivered lower t family (before ++ (t ++ after))
  | tags {w₁ w₂ : Bytes} {n : Nat} (h₁ : Blank w₁) (h₂ : Blank w₂)
      (hthink : index (literal "<think>")
        (toLower lower (openCall ++ (w₁ ++ (t ++ (w₂ ++ closeCall))))) = none)
      (hclose : index closeCall (toLower lower (w₁ ++ (t ++ (w₂ ++ closeCall)))) = some n)
      (hn : w₁.length + t.length ≤ n ∧ n ≤ w₁.length + t.length + w₂.length)
      (hopen : index openCall ((toLower lower (openCall ++ (w₁ ++ (t ++ (w₂ ++ closeCall))))).drop
          (openCall.length + n + closeCall.length)) = none) :
      Delivered lower t .qwenXML (openCall ++ (w₁ ++ (t ++ (w₂ ++ closeCall))))

section

variable {lower : Char → Char} {t : Bytes} {v : Value Bytes}

/-- The search gives the calls of the text, or none if it has none. -/
def Yields (d : Except ToolError (List ToolCall))
    (r : Except ToolError (List ToolCall × Bytes × Bool)) : Prop :=
  match d with
  | .ok calls => ∃ content recovered, r = .ok (calls, content, recovered)
  | .error _ => (∃ e, r = .error e) ∨ ∃ content recovered, r = .ok ([], content, recovered)

/-- A text decodes to one call or to none. -/
def OneOrNone (d : Except ToolError (List ToolCall)) : Prop :=
  (∃ x, d = .ok [x]) ∨ ∃ e, d = .error e

theorem parseHermesJSON_yields (ht : IsCall t v) (hargs : literal "arguments" <:+: t)
    (hrepair : ¬ HasTrailingComma t) (hone : OneOrNone (decodeToolCandidate t))
    {before after : Bytes} (hbefore : Prose before) (hafter : Prose after) :
    Yields (decodeToolCandidate t) (parseHermesJSON lower (before ++ (t ++ after))) := by
  obtain ⟨c, hc, htext⟩ := exists_candidate ht hbefore hafter hargs
  rcases hone with ⟨x, hx⟩ | ⟨e, he⟩
  · rw [hx]
    refine hermesLoop_one lower _ (fun d hd => ?_) ⟨c, hc, by rw [htext, hx]⟩ none
    obtain ⟨hnone, hdecode⟩ := decode_candidate ht hbefore hafter hrepair hd
    rw [hx] at hdecode
    exact ⟨hnone, hdecode⟩
  rw [he]
  have hnone : ∀ d ∈ jsonCandidates (before ++ (t ++ after)), repairJSON d.jsonText = none ∧
      ∃ e, decodeToolCandidate d.jsonText = .error e := by
    intro d hd
    obtain ⟨hnone, hdecode⟩ := decode_candidate ht hbefore hafter hrepair hd
    refine ⟨hnone, hdecode.elim id fun hsame => ⟨e, by rw [hsame, he]⟩⟩
  rcases hermesLoop_none lower (before ++ (t ++ after)) hnone none with herror | hok
  · exact Or.inl herror
  · exact Or.inr ⟨_, _, hok⟩

theorem parseJsonBlock_yields (ht : IsCall t v) (hrepair : ¬ HasTrailingComma t)
    (hone : OneOrNone (decodeToolCandidate t)) (full clean : Bytes) :
    Yields (decodeToolCandidate t) (qwenLoop 0 [{ full := full, body := t }] clean) := by
  have hblock : parseQwenBlock t 0 = parseJsonBlock t := by
    unfold parseQwenBlock isJsonBlock
    rw [ht.trimSpace_eq, ht.head]
    exact if_pos (decide_eq_true rfl)
  rcases hone with ⟨x, hx⟩ | ⟨e, he⟩
  · have hjson : parseJsonBlock t = .ok (x, false) := by
      unfold parseJsonBlock
      rw [hx]
    rw [hx]
    refine ⟨trimSpace (removeFirst clean full), false, ?_⟩
    simp only [qwenLoop, hblock, hjson]
    rfl
  have hjson : parseJsonBlock t = .error e := by
    unfold parseJsonBlock
    rw [he, repairJSON_eq_none hrepair]
  rw [he]
  refine Or.inl ⟨e, ?_⟩
  simp only [qwenLoop, hblock, hjson]
  rfl

theorem isBlank_of_blank {w : Bytes} (h : Blank w) : IsBlank w := by
  intro c hc
  have hws := h c hc
  simp only [isWs, Bool.or_eq_true, decide_eq_true_iff] at hws
  rcases hws with ((rfl | rfl) | rfl) | rfl <;> decide

theorem not_spaceByte_angle : ¬ SpaceByte 0x3C ∧ ¬ SpaceByte 0x3E := by decide

theorem extractToolBlocks_tags (ht : IsCall t v) {w₁ w₂ : Bytes} {n : Nat} (h₁ : Blank w₁)
    (h₂ : Blank w₂)
    (hclose : index closeCall (toLower lower (w₁ ++ (t ++ (w₂ ++ closeCall)))) = some n)
    (hn : w₁.length + t.length ≤ n ∧ n ≤ w₁.length + t.length + w₂.length)
    (hopen : index openCall ((toLower lower (openCall ++ (w₁ ++ (t ++ (w₂ ++ closeCall))))).drop
        (openCall.length + n + closeCall.length)) = none) :
    ∃ full, extractToolBlocks lower (openCall ++ (w₁ ++ (t ++ (w₂ ++ closeCall)))) =
      some [{ full := full, body := t }] := by
  set rest := w₁ ++ (t ++ (w₂ ++ closeCall)) with hrest
  have hlower : toLower lower (openCall ++ rest) = openCall ++ toLower lower rest :=
    toLower_append (by decide +kernel) rest
  have hlength : rest.length = w₁.length + t.length + w₂.length + closeCall.length := by
    simp only [hrest, length_append]
    omega
  have hbody :
      trimSpace (((openCall ++ rest).take (openCall.length + n)).drop openCall.length) = t := by
    have htake : ((openCall ++ rest).take (openCall.length + n)).drop openCall.length =
        w₁ ++ (t ++ w₂.take (n - (w₁.length + t.length))) := by
      rw [take_length_add_append, drop_left, hrest, ← append_assoc, take_append,
        take_of_length_le (by simp only [length_append]; omega),
        take_append_of_le_length (by simp only [length_append]; omega), append_assoc,
        length_append]
    rw [htake]
    refine Lib.Strings.trimSpace_blanks (isBlank_of_blank h₁) (fun c hc => ?_) ht.head ht.last
      not_spaceByte_brace.1 not_spaceByte_brace.2
    exact isBlank_of_blank h₂ c (mem_of_mem_take hc)
  refine ⟨(openCall ++ rest).take (openCall.length + n + closeCall.length), ?_⟩
  have hfirst : index openCall (openCall ++ toLower lower rest) = some 0 :=
    Lib.Strings.index_prefix openCall _
  have hfull : slice (openCall ++ rest) 0 (openCall.length + n + closeCall.length) =
      some ((openCall ++ rest).take (openCall.length + n + closeCall.length)) := by
    refine (if_pos ⟨Nat.zero_le _, ?_⟩).trans (by rw [drop_zero])
    rw [length_append]
    omega
  have hslice : slice (openCall ++ rest) openCall.length (openCall.length + n) =
      some (((openCall ++ rest).take (openCall.length + n)).drop openCall.length) := by
    refine if_pos ⟨Nat.le_add_right _ _, ?_⟩
    rw [length_append]
    omega
  obtain ⟨fuel, hfuel⟩ : ∃ fuel, (openCall ++ toLower lower rest).length = fuel + 1 :=
    ⟨_, rfl⟩
  rw [hlower] at hopen
  unfold extractToolBlocks
  rw [hlower, toolBlocksFrom, drop_zero, hfirst]
  simp only [Nat.add_zero, Nat.zero_add, drop_left, hclose, hfull, hslice, bind,
    bind_some, hbody]
  rw [hfuel, toolBlocksFrom, hopen]
  rfl

theorem parseCalls_of_blocks {text : Bytes} {block : ToolBlock} {blocks : List ToolBlock}
    (h : extractToolBlocks lower text = some (block :: blocks)) :
    parseCalls lower .qwenXML text = qwenLoop 0 (block :: blocks) text := by
  show parseQwenXML lower text = _
  unfold parseQwenXML
  rw [h]

theorem splitReasoningBlocks_none {text : Bytes}
    (hthink : index (literal "<think>") (toLower lower text) = none)
    (htrim : trimSpace text = text) : splitReasoningBlocks lower text = some ⟨text, []⟩ := by
  unfold splitReasoningBlocks
  rw [splitReasoningLoop, hthink]
  simp only [map_some, nil_append, htrim]
  rfl

/-- **What is searched for calls** yields what the text of the call decodes to. -/
theorem Delivered.yields {family : ParserFamily} {output : Bytes}
    (h : Delivered lower t family output)
    (ht : IsCall t v) (hargs : literal "arguments" <:+: t) (hrepair : ¬ HasTrailingComma t)
    (hone : OneOrNone (decodeToolCandidate t)) :
    ∃ reasoned, splitReasoningBlocks lower output = some reasoned ∧
      Yields (decodeToolCandidate t) (parseCalls lower family reasoned.content) := by
  cases h with
  | @prose _ before after hfamily hbefore hafter hspared hslices =>
    obtain ⟨reasoned, hsplit⟩ := isSome_iff_exists.mp hslices
    refine ⟨reasoned, hsplit, ?_⟩
    obtain ⟨r, hr, rfl⟩ := map_eq_some_iff.mp hsplit
    obtain ⟨before', after', hcontent, hb, ha⟩ := hspared.content hr
    rw [nil_append] at hcontent
    obtain ⟨x, z, hx, hz, htrim⟩ := Lib.Strings.trimSpace_around (x := before') (z := after') ht.head
      ht.last not_spaceByte_brace.1 not_spaceByte_brace.2
    have hprose : parseCalls lower family (trimSpace r.content) =
        parseHermesJSON lower (x ++ (t ++ z)) := by
      rw [hcontent, htrim]
      cases family with
      | hermes => rfl
      | qwenXML => exact absurd rfl hfamily
      | generic => rfl
    show Yields _ (parseCalls lower family (trimSpace r.content))
    rw [hprose]
    exact parseHermesJSON_yields ht hargs hrepair hone
      (hbefore.of_subset fun c hc => hb c (hx.subset hc))
      (hafter.of_subset fun c hc => ha c (hz.subset hc))
  | @tags w₁ w₂ n h₁ h₂ hthink hclose hn hopen =>
    have htrim : trimSpace (openCall ++ (w₁ ++ (t ++ (w₂ ++ closeCall)))) =
        openCall ++ (w₁ ++ (t ++ (w₂ ++ closeCall))) := by
      have hlast : (openCall ++ (w₁ ++ (t ++ (w₂ ++ closeCall)))).getLast? = some 0x3E := by
        rw [← append_assoc, ← append_assoc, ← append_assoc, getLast?_append]
        rfl
      exact Lib.Strings.trimSpace_self rfl hlast not_spaceByte_angle.1 not_spaceByte_angle.2
    refine ⟨_, splitReasoningBlocks_none hthink htrim, ?_⟩
    obtain ⟨full, hblocks⟩ := extractToolBlocks_tags ht h₁ h₂ hclose hn hopen
    rw [parseCalls_of_blocks hblocks]
    exact parseJsonBlock_yields ht hrepair hone _ _

end

/-! ### The arguments survive -/

/-- The output gives one call of the name, and its arguments stand for `A`. -/
def Survives (lower : Char → Char) (output : Bytes) (family : ParserFamily)
    (normalized : NormalizedTools) (name : Bytes) (A : Value ℚ) : Prop :=
  ∃ result call, parseOutput lower output family normalized = .ok result ∧
    result.toolCalls = [call] ∧ call.function.name = name ∧
      (parse call.function.arguments).bind (·.read exact) = some A

theorem isCall_callText {nText aText : Bytes}
    (hname : Reads (.value (.string name)) nText) (hargs : Reads (.value (.object args)) aText) :
    IsCall (callText nText aText) (callValue name args) where
  reads := reads_callText hname hargs
  braces := (reads_callText hname hargs).braces

theorem arguments_infix_callText (nText aText : Bytes) :
    literal "arguments" <:+: callText nText aText := by
  refine ⟨0x7B :: (literal "\"name\": " ++ (nText ++ literal ", \"")),
    literal "\": " ++ (aText ++ [0x7D]), ?_⟩
  have hbetween : literal ", \"arguments\": " =
      literal ", \"" ++ (literal "arguments" ++ literal "\": ") := rfl
  unfold callText
  rw [hbetween]
  simp

theorem parseOutput_of_calls {content : Bytes} {calls calls' : List ToolCall}
    {recovered : Bool} (hsplit : splitReasoningBlocks lower output = some reasoned)
    (hcalls : parseCalls lower family reasoned.content = .ok (calls, content, recovered))
    (hfinish : finishCalls normalized 0 calls = .ok calls') :
    ∃ result, parseOutput lower output family normalized = .ok result ∧ result.toolCalls = calls' := by
  unfold parseOutput
  rw [hsplit]
  simp only [hcalls, hfinish]
  exact ⟨_, rfl, rfl⟩

theorem parseOutput_of_error {e : ToolError}
    (hsplit : splitReasoningBlocks lower output = some reasoned)
    (hcalls : parseCalls lower family reasoned.content = .error e) :
    ∃ failure, parseOutput lower output family normalized = .error failure := by
  unfold parseOutput
  rw [hsplit]
  simp only [hcalls]
  exact ⟨_, rfl⟩

/-- **Tool-call arguments survive parsing** exactly if their numbers survive a double,
where no stage before finds anything in the text of the call. -/
theorem arguments_survive_iff {lower : Char → Char} {family : ParserFamily}
    {normalized : NormalizedTools} {output nText aText name : Bytes}
    {args : List (Bytes × Value Bytes)} {A : Value ℚ}
    (hname : Reads (.value (.string name)) nText) (hne : name ≠ [])
    (hargs : Reads (.value (.object args)) aText)
    (hA : (Value.object args).read exact = some A)
    (houtput : Delivered lower (callText nText aText) family output)
    (hrepair : ¬ HasTrailingComma (callText nText aText))
    (haccepts : Accepts normalized name (args.map Prod.fst)) :
    Survives lower output family normalized name A ↔
      (Value.object args).read doubled = (Value.object args).read exact := by
  have hcall := isCall_callText hname hargs
  have hdecode := decode_callText hname hargs hne hrepair hcall.trimSpace_eq
  have hone : OneOrNone (decodeToolCandidate (callText nText aText)) := by
    rw [hdecode]
    cases decodeAny (.object args) with
    | none => exact Or.inr ⟨_, rfl⟩
    | some obj => exact Or.inl ⟨_, rfl⟩
  obtain ⟨reasoned, hsplit, hyields⟩ :=
    houtput.yields hcall (arguments_infix_callText nText aText) hrepair hone
  rw [hdecode] at hyields
  rw [read_doubled, hA]
  cases hobj : decodeAny (.object args) with
  | none =>
    -- a number that no double holds: there is no call
    rw [hobj] at hyields
    refine ⟨fun ⟨result, call, hresult, hcalls, _⟩ => ?_, fun h => by cases h⟩
    rcases hyields with ⟨e, he⟩ | ⟨content, recovered, hok⟩
    · obtain ⟨failure, hfailure⟩ := parseOutput_of_error hsplit he
      rw [hresult] at hfailure
      cases hfailure
    have hfinish : finishCalls normalized 0 [] = .ok [] := rfl
    obtain ⟨result', hresult', hnone⟩ := parseOutput_of_calls hsplit hok hfinish
    rw [hresult] at hresult'
    cases hresult'
    rw [hcalls] at hnone
    cases hnone
  | some obj =>
    rw [hobj] at hyields
    obtain ⟨content, recovered, hok⟩ := hyields
    have hvalidate := haccepts.validate hargs.valid hobj
    have hfinish : finishCalls normalized 0 [callOf name obj] = .ok [callOf name obj] := by
      rw [finishCalls, fillIn_callOf, hvalidate]
      rfl
    obtain ⟨result, hresult, hcalls⟩ := parseOutput_of_calls hsplit hok hfinish
    have hvalid : obj.Valid := (show (Value.object args).Valid from hargs.valid).read hobj
    have hmarshal := read_marshal hvalid (Value.ordered_of_read _ hobj)
    constructor
    · rintro ⟨result', call, hresult', hcalls', -, hread⟩
      rw [hresult] at hresult'
      cases hresult'
      rw [hcalls] at hcalls'
      cases hcalls'
      exact hmarshal.symm.trans hread
    intro h
    exact ⟨result, callOf name obj, hresult, hcalls, rfl, hmarshal.trans h⟩

/-- A tool without a schema. -/
def plainTools : NormalizedTools := { byName := [(literal "put", { name := literal "put" })] }

theorem accepts_plainTools (given : List Bytes) : Accepts plainTools (literal "put") given where
  forced h := by cases h
  declared := ⟨{ name := literal "put" }, by simp [plainTools], fun _ h => absurd h not_mem_nil⟩

theorem reads_oneString {key text : Bytes} (hkey : IsBody key key) (htext : IsBody text text) :
    Reads (.value (.object [(key, .string text)]))
      (0x7B :: ([] ++ ((quoted key ++ ([] ++ 0x3A :: ([] ++ (quoted text ++ [])))) ++ [0x7D]))) :=
  Reads.object Blank.nil (Reads.member hkey Blank.nil Blank.nil (Reads.string htext) Blank.nil)

/-- The call of `put` with one string, under the key `path`. -/
def putText (text : Bytes) : Bytes :=
  callText (quoted (literal "put"))
    (0x7B :: ([] ++ ((quoted (literal "path") ++ ([] ++ 0x3A :: ([] ++ (quoted text ++ [])))) ++
      [0x7D])))

theorem isBody_put : IsBody (literal "put") (literal "put") := by
  constructor <;> rfl

theorem isBody_path : IsBody (literal "path") (literal "path") := by
  constructor <;> rfl

/-- In the string `a,]` the comma is taken for a trailing one: the tool gets `a]`. -/
theorem comma_in_string_is_lost :
    Reads (.value (.string (literal "put"))) (quoted (literal "put")) ∧
      Reads (.value (.object [(literal "path", .string (literal "a,]"))]))
        (0x7B :: ([] ++ ((quoted (literal "path") ++ ([] ++ 0x3A ::
          ([] ++ (quoted (literal "a,]") ++ [])))) ++ [0x7D]))) ∧
        Accepts plainTools (literal "put") [literal "path"] ∧
          ¬ Survives id (putText (literal "a,]")) .hermes plainTools (literal "put")
            (.object [(literal "path", .string (literal "a,]"))]) := by
  have hresult : parseOutput id (putText (literal "a,]")) .hermes plainTools = .ok
      { content := []
        toolCalls := [{ id := callId 0
                        type := functionToolType
                        function := { name := literal "put"
                                      arguments := 0x7B :: (literal "\"path\":\"a]\"" ++ [0x7D]) } }]
        parserFamily := .hermes
        recovered := true } := by
    decide +kernel
  have hread : (parse (0x7B :: (literal "\"path\":\"a]\"" ++ [0x7D]))).bind (·.read exact) =
      some (.object [(literal "path", .string (literal "a]"))]) := by
    have hreads : Reads (.value (.object [(literal "path", .string (literal "a]"))])) _ :=
      reads_oneString isBody_path (by constructor <;> decide +kernel)
    exact (congrArg (Option.bind · _) hreads.parse).trans rfl
  refine ⟨Reads.string isBody_put,
    reads_oneString isBody_path (by constructor <;> decide +kernel), accepts_plainTools _, ?_⟩
  rintro ⟨result, call, hparse, hcalls, -, hsame⟩
  rw [hresult] at hparse
  cases hparse
  cases hcalls
  rw [hread] at hsame
  injection hsame with hsame
  injection hsame with hsame
  injection hsame with hsame
  injection hsame with hkey hsame
  injection hsame with hsame
  exact absurd hsame (by decide +kernel)

/-- The call of `put` with the string `a`, in prose. -/
theorem plain_string_survives :
    Survives id (literal "Sure: " ++ (putText (literal "a") ++ literal " done")) .hermes plainTools
        (literal "put") (.object [(literal "path", .string (literal "a"))]) := by
  have hbody : IsBody (literal "a") (literal "a") := by
    constructor <;> decide +kernel
  have hthink : ∀ s, index (literal "<think>")
      (toLower id (literal "Sure: " ++ (putText (literal "a") ++ literal " done"))) = some s →
      (literal "Sure: ").length + (putText (literal "a")).length ≤ s := by
    intro s hs
    have hnone : index (literal "<think>")
        (toLower id (literal "Sure: " ++ (putText (literal "a") ++ literal " done"))) = none := by
      decide +kernel
    rw [hnone] at hs
    cases hs
  exact (arguments_survive_iff (Reads.string isBody_put) (by decide)
    (reads_oneString isBody_path hbody) rfl (.prose (by decide) (by unfold Prose; decide +kernel)
      (by unfold Prose; decide +kernel) (.here hthink) (by decide +kernel)) (by decide +kernel)
    (accepts_plainTools _)).mpr rfl

end DenseCore.Server
