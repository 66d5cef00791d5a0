/-
The candidates of a text that is one object in prose.

The object is the only span, and what lies between the first brace and the last.  A
piece between fences may begin anywhere: in the prose before the object, inside one of
its strings, or behind it.  Wherever that is, the piece is the object itself or is no
call (`parse_piece`).
-/
import DenseCore.Proofs.Server.ToolDecode

namespace DenseCore.Server

open List

open Lib (Bytes Regex literal)
open Lib.Json
open Lib.Json.Scan (Along Within Steady structural)
open Lib.Strings (index lastIndex trimSpace SpaceByte OccursAt)

/-- Text without quotes, braces and brackets. -/
def Prose (s : Bytes) : Prop := ∀ c ∈ s, c ∉ [0x22, 0x7B, 0x7D, 0x5B, 0x5D]

attribute [local simp] spansFrom hermesLoop tryCandidate

theorem Prose.not_mem {s : Bytes} (h : Prose s) {c : UInt8}
    (hc : c ∈ [0x22, 0x7B, 0x7D, 0x5B, 0x5D]) : c ∉ s := fun hmem => h c hmem hc

theorem Prose.of_subset {s t : Bytes} (h : Prose t) (hst : ∀ c ∈ s, c ∈ t) : Prose s :=
  fun c hc => h c (hst c hc)

/-- Text without braces and brackets. -/
def NoBrackets (s : Bytes) : Prop := ∀ c ∈ s, c ∉ [0x7B, 0x7D, 0x5B, 0x5D]

theorem Prose.noBrackets {s : Bytes} (h : Prose s) : NoBrackets s :=
  fun c hc hmem => h c hc (mem_cons_of_mem _ hmem)

/-- An object text, in braces. -/
structure IsCall (t : Bytes) (v : Value Bytes) : Prop where
  reads : Reads (.value v) t
  braces : ∃ body, Steady false body ∧ t = 0x7B :: (body ++ [0x7D])

section

variable {t before after : Bytes} {v : Value Bytes}

/-! ### Spans -/

/-- The state of the span search that goes with a state of the scanner. -/
def spanState (s : Scan) (start : Nat) : SpanState :=
  { inString := s.inString, escaped := s.escape, start := some start, depth := s.depth }

variable {s : Scan} {body p x : Bytes} {w : Value Bytes}

variable {c : UInt8} {y r : Bytes} {cs : List JsonCandidate}

theorem spanStep_spanState (h : 1 ≤ (s.step c).depth) (start i : Nat) :
    spanStep (spanState s start) i c = (spanState (s.step c) start, none) := by
  obtain ⟨inString, escape, braces, brackets⟩ := s
  unfold Scan.step at h ⊢
  unfold spanStep spanState Scan.depth
  unfold Scan.depth at h
  simp only at h ⊢
  split_ifs at h ⊢ <;> simp_all <;> omega

theorem spansFrom_along {rest : Bytes} (h : Along (Within 1) s body)
    (hend : 1 ≤ (s.run body).depth) (start i : Nat) :
    spansFrom (spanState s start) i (body ++ rest) =
      spansFrom (spanState (s.run body) start) (i + body.length) rest := by
  induction body generalizing s i with
  | nil => rfl
  | cons c tail ih =>
    have hdepth : 1 ≤ (s.step c).depth := by
      cases tail with
      | nil => exact hend
      | cons d tail => exact h.2.1.1
    rw [cons_append, spansFrom, spanStep_spanState hdepth]
    simp only
    rw [ih h.2 hend, Scan.run_cons, length_cons]
    congr 1
    omega

theorem spansFrom_outside (hbefore : NoBrackets before) (i : Nat) (rest : Bytes) :
    spansFrom {} i (before ++ rest) = spansFrom {} (i + before.length) rest := by
  induction before generalizing i with
  | nil => rfl
  | cons c tail ih =>
    have hstep : spanStep {} i c = ({}, none) := by
      refine if_neg ?_
      rintro (rfl | rfl)
      · exact hbefore _ mem_cons_self (by decide)
      · exact hbefore _ mem_cons_self (by decide)
    rw [cons_append, spansFrom, hstep]
    simp only
    rw [ih fun d hd => hbefore d (mem_cons_of_mem c hd), length_cons]
    congr 1
    omega

theorem spansFrom_between {opening closing : UInt8}
    (hbody : Steady false body) (hs : s.inString = false) (he : s.escape = false)
    (hdeep : 1 ≤ s.depth) (hopen : ∀ i, spanStep {} i opening = (spanState s i, none))
    (hclose : ∀ start i, spanStep (spanState s start) i closing = ({}, some (start, i + 1)))
    (i : Nat) (rest : Bytes) :
    spansFrom {} i (opening :: (body ++ [closing]) ++ rest) =
      (i, i + (body.length + 2)) :: spansFrom {} (i + (body.length + 2)) rest := by
  obtain ⟨hrun, halong⟩ := hbody s hs he
  have hwithin : Along (Within 1) s body := halong.mono (Within.mono hdeep)
  have hend : 1 ≤ (s.run body).depth := hrun.symm ▸ hdeep
  have hinner : spansFrom (spanState s i) (i + 1) (body ++ closing :: rest) = _ :=
    spansFrom_along hwithin hend i (i + 1)
  rw [cons_append, append_assoc, singleton_append, spansFrom, hopen]
  simp only
  rw [hinner, hrun, spansFrom, hclose]
  simp only
  rw [show i + 1 + body.length + 1 = i + (body.length + 2) by omega]

/-- The two pairs that a value with members can stand in. -/
inductive Pair : UInt8 → UInt8 → Prop where
  | object : Pair 0x7B 0x7D
  | array : Pair 0x5B 0x5D

/-- **An object is one span**, and so is an array. -/
theorem spansFrom_pair {opening closing : UInt8} (hpair : Pair opening closing)
    (hbody : Steady false body) (i : Nat) (rest : Bytes) :
    spansFrom {} i (opening :: (body ++ [closing]) ++ rest) =
      (i, i + (body.length + 2)) :: spansFrom {} (i + (body.length + 2)) rest := by
  cases hpair with
  | object =>
    exact spansFrom_between (s := ⟨false, false, 1, 0⟩) hbody rfl rfl (by decide) (fun _ => rfl)
      (fun _ _ => rfl) i rest
  | array =>
    exact spansFrom_between (s := ⟨false, false, 0, 1⟩) hbody rfl rfl (by decide) (fun _ => rfl)
      (fun _ _ => rfl) i rest

theorem balancedJSONSpans_around (ht : IsCall t v) (hbefore : Prose before) (hafter : Prose after) :
    balancedJSONSpans (before ++ (t ++ after)) = [(before.length, before.length + t.length)] := by
  obtain ⟨body, hbody, rfl⟩ := ht.braces
  have hlength : (0x7B :: (body ++ [0x7D]) : Bytes).length = body.length + 2 := by simp
  have hrest := spansFrom_outside hafter.noBrackets (before.length + (body.length + 2)) []
  rw [append_nil] at hrest
  unfold balancedJSONSpans
  rw [spansFrom_outside hbefore.noBrackets, spansFrom_pair .object hbody, Nat.zero_add, hrest, hlength]
  rfl

/-! ### Nothing to repair in a piece -/

theorem HasTrailingComma.of_around (ht : t.head? = some 0x7B) (hbefore : Prose before)
    (hafter : Prose after) (h : HasTrailingComma (before ++ (t ++ after))) :
    HasTrailingComma t := by
  obtain ⟨x, w, c, y, hsplit, hw, hc⟩ := h
  have hcprose : c ∈ [0x22, 0x7B, 0x7D, 0x5B, 0x5D] := by
    rcases hc with rfl | rfl <;> decide
  obtain ⟨t', rfl⟩ := head?_eq_some_iff.mp ht
  rcases append_eq_append_iff.mp hsplit with ⟨x', rfl, htail⟩ | ⟨b, rfl, htail⟩
  · -- the comma is behind the beginning of the object
    have hall : 0x7B :: t' ++ after = (x' ++ 0x2C :: (w ++ [c])) ++ y := by
      rw [htail]
      simp
    rcases append_eq_append_iff.mp hall with ⟨a, hbeyond, rfl⟩ | ⟨y', hinside, -⟩
    · rcases eq_nil_or_concat a with rfl | ⟨a', last, rfl⟩
      · rw [append_nil] at hbeyond
        exact ⟨x', w, c, [], hbeyond.symm, hw, hc⟩
      have hlast : x' ++ 0x2C :: w ++ [c] = 0x7B :: t' ++ a' ++ [last] := by
        simpa using hbeyond
      obtain ⟨-, hlast⟩ := append_inj' hlast rfl
      obtain rfl : c = last := by simpa using hlast
      exact absurd (by simp) (hafter.not_mem hcprose)
    · exact ⟨x', w, c, y', by rw [hinside]; simp, hw, hc⟩
  · -- the brace of the object would be white space or the bracket
    cases b with
    | nil => exact absurd (List.cons.inj htail).1 (by decide)
    | cons d b =>
      obtain ⟨rfl, hbehind⟩ := List.cons.inj htail
      have hbrace : (0x7B : UInt8) ∉ w := fun hmem => absurd (hw _ hmem) (by decide)
      obtain ⟨b', rfl, hb⟩ := Lib.Strings.prefix_of_not_mem hbehind hbrace
      cases b' with
      | nil =>
        obtain ⟨rfl, -⟩ := List.cons.inj hb
        exact absurd hc (by decide)
      | cons d b' =>
        obtain ⟨rfl, -⟩ := List.cons.inj hb
        exact absurd (by simp) (hbefore.not_mem hcprose)

theorem IsCall.head (ht : IsCall t v) : t.head? = some 0x7B := by
  obtain ⟨body, -, rfl⟩ := ht.braces
  rfl

theorem IsCall.last (ht : IsCall t v) : t.getLast? = some 0x7D := by
  obtain ⟨body, -, rfl⟩ := ht.braces
  rw [← cons_append, getLast?_append]
  rfl

theorem not_hasTrailingComma_piece (ht : IsCall t v) (hbefore : Prose before)
    (hafter : Prose after) (hrepair : ¬ HasTrailingComma t)
    (hp : p <:+: before ++ (t ++ after)) : ¬ HasTrailingComma p :=
  fun h => hrepair ((h.of_infix hp).of_around ht.head hbefore hafter)

theorem not_spaceByte_brace : ¬ SpaceByte 0x7B ∧ ¬ SpaceByte 0x7D := by decide +kernel

theorem IsCall.trimSpace_eq (ht : IsCall t v) : trimSpace t = t :=
  Lib.Strings.trimSpace_self ht.head ht.last not_spaceByte_brace.1 not_spaceByte_brace.2

/-! ### Pieces of the text -/

/-- Two texts of objects that begin alike are one. -/
theorem IsCall.eq_of_append (ht : IsCall t v) {u : Bytes}
    (hu : Reads (.value w) u) (hhead : u.head? = some 0x7B) (h : u ++ x = t ++ y) : u = t := by
  obtain ⟨u', rfl⟩ := head?_eq_some_iff.mp hhead
  obtain ⟨ms, rfl⟩ := hu.object_of_head rfl
  obtain ⟨body, hbody, hut⟩ := hu.braces
  obtain ⟨body', hbody', rfl⟩ := ht.braces
  -- a text that is cut short has a bracket open, a whole one has none
  have hcut : ∀ {b z s : Bytes}, Steady false b → Steady false s → s ≠ [] → z ≠ [] →
      (0x7B :: (b ++ [0x7D]) : Bytes) = s ++ z → False := by
    intro b z s hb hs hsne hzne hsplit
    obtain ⟨z', last, rfl⟩ : ∃ z' last, z = z' ++ [last] := by
      rcases eq_nil_or_concat z with rfl | ⟨z', last, rfl⟩
      · exact absurd rfl hzne
      · exact ⟨z', last, concat_eq_append⟩
    rw [← cons_append, ← append_assoc] at hsplit
    obtain ⟨hpre, -⟩ := append_inj' hsplit rfl
    have hdepth := depth_of_cut hb hsne ⟨z', hpre.symm⟩
    rw [(hs {} rfl rfl).1] at hdepth
    exact absurd hdepth (by decide)
  rcases append_eq_append_iff.mp h with ⟨a, ha, -⟩ | ⟨a, ha, -⟩
  · cases a with
    | nil => rw [ha, append_nil]
    | cons d a => exact (hcut hbody' hu.steady (by simp) (by simp) ha).elim
  cases a with
  | nil => rw [ha, append_nil]
  | cons d a =>
    rw [hut] at ha
    exact (hcut hbody ht.reads.steady (by simp) (by simp) ha).elim

theorem structuralKeys_of_prose (hp : Prose p) (hparse : parse p = some w) : StructuralKeys w := by
  obtain ⟨w₁, u, w₂, -, -, hreads, rfl⟩ := exists_reads_of_parse hparse
  rcases hreads.scalar_or_head with hscalar | ⟨c, hc, hhead⟩
  · exact hscalar.structuralKeys
  obtain ⟨u', rfl⟩ := head?_eq_some_iff.mp hhead
  refine absurd (by simp) (hp.not_mem (c := c) ?_)
  simp only [mem_cons, not_mem_nil, or_false] at hc
  rcases hc with rfl | rfl | rfl <;> decide

theorem parse_before (ht : IsCall t v) (hbefore : Prose before)
    (hsplit : p ++ r = before ++ (t ++ after)) (hparse : parse p = some w) :
    StructuralKeys w ∨ w = v := by
  obtain ⟨w₁, u, w₂, h₁, -, hreads, rfl⟩ := exists_reads_of_parse hparse
  rcases hreads.scalar_or_head with hscalar | ⟨c, hc, hhead⟩
  · exact Or.inl hscalar.structuralKeys
  right
  obtain ⟨t', ht'⟩ := head?_eq_some_iff.mp ht.head
  obtain ⟨u', rfl⟩ := head?_eq_some_iff.mp hhead
  have hbrace : (0x7B : UInt8) ∉ w₁ := fun hmem => absurd (h₁ _ hmem) (by decide)
  have hopen : c ∉ before := by
    refine hbefore.not_mem ?_
    simp only [mem_cons, not_mem_nil, or_false] at hc
    rcases hc with rfl | rfl | rfl <;> decide
  have hsplit' : w₁ ++ c :: (u' ++ (w₂ ++ r)) = before ++ 0x7B :: (t' ++ after) := by
    rw [ht'] at hsplit
    simpa using hsplit
  obtain ⟨b, hb, htail⟩ := Lib.Strings.prefix_of_not_mem hsplit' hbrace
  -- the white space before the text is all of the prose
  cases b with
  | cons d b =>
    obtain ⟨rfl, -⟩ := List.cons.inj htail
    rw [hb] at hopen
    exact absurd (by simp) hopen
  | nil =>
    obtain ⟨rfl, hrest⟩ := List.cons.inj htail
    have hut : 0x7B :: u' = t := by
      refine ht.eq_of_append (x := w₂ ++ r) (y := after) hreads rfl ?_
      rw [ht', cons_append, cons_append, hrest]
    have hsame := hreads.parse
    rw [hut, ht.reads.parse] at hsame
    exact (Option.some.inj hsame).symm

theorem run_quiet (hin : s.inString = true) (he : s.escape = false)
    (hx : ∀ c ∈ x, c ≠ 0x22 ∧ c ≠ 0x5C) : s.run x = s := by
  induction x with
  | nil => rfl
  | cons c rest ih =>
    have hstep : s.step c = s := by
      unfold Scan.step
      rw [if_pos hin, he, if_neg (by decide), if_neg (hx c mem_cons_self).2,
        if_neg (hx c mem_cons_self).1]
    rw [Scan.run_cons, hstep]
    exact ih fun d hd => hx d (mem_cons_of_mem c hd)

theorem inString_of_fence {text : Bytes} (htext : Steady false text)
    (hsplit : text = x ++ (fence ++ y)) :
    (Scan.run {} (x ++ fence)).inString = true ∧ (Scan.run {} (x ++ fence)).escape = false := by
  obtain ⟨-, halong⟩ := htext {} rfl rfl
  rw [hsplit] at halong
  have hfence := (Lib.Json.Scan.along_append.mp halong).2.1.2
  have hin : (Scan.run {} x).inString = true := by
    cases hs : (Scan.run {} x).inString with
    | true => rfl
    | false => exact absurd (hfence hs) (by decide)
  rw [Scan.run_append]
  generalize Scan.run {} x = s at hin
  obtain ⟨inString, escape, braces, brackets⟩ := s
  obtain rfl : inString = true := hin
  cases escape <;> exact ⟨rfl, rfl⟩

/-- **A piece behind a fence** is the object itself, or has no keys of a call. -/
theorem parse_piece (ht : IsCall t v) (hbefore : Prose before) (hafter : Prose after)
    {l n : Bytes} (hn : ∀ c ∈ n, c ≠ 0x22 ∧ c ≠ 0x5C ∧ c ≠ 0x7B)
    (hsplit : before ++ (t ++ after) = l ++ (fence ++ (n ++ (p ++ r))))
    (hparse : parse p = some w) :
    StructuralKeys w ∨ w = v := by
  have hquiet : (0x7B : UInt8) ∉ fence ++ n := by
    intro hmem
    rcases mem_append.mp hmem with hmem | hmem
    · exact absurd hmem (by decide)
    · exact (hn _ hmem).2.2 rfl
  have hpiece : (l ++ (fence ++ n)) ++ (p ++ r) = before ++ (t ++ after) := by
    rw [hsplit]
    simp
  rcases append_eq_append_iff.mp hpiece with ⟨b, hb, hrest⟩ | ⟨x, hx, hrest⟩
  · -- the piece begins in the prose before the object
    refine parse_before ht (hbefore.of_subset fun c hc => ?_) hrest hparse
    rw [hb]
    exact mem_append_right _ hc
  cases x with
  | nil =>
    have hnone : Prose [] := fun c hc => absurd hc not_mem_nil
    exact parse_before ht hnone (by simpa using hrest.symm) hparse
  | cons d x =>
    left
    obtain ⟨t', ht'⟩ := head?_eq_some_iff.mp ht.head
    obtain rfl : d = 0x7B := by
      rw [ht'] at hrest
      exact (List.cons.inj hrest).1.symm
    -- the brace of the object comes before the fence
    have hfence : ∃ a, 0x7B :: x = a ++ (fence ++ n) := by
      rcases append_eq_append_iff.mp hx with ⟨a, -, ha⟩ | ⟨a, -, ha⟩
      · rw [ha] at hquiet
        exact absurd (by simp) hquiet
      · exact ⟨a, ha⟩
    obtain ⟨a, ha⟩ := hfence
    rw [ha] at hrest
    rcases append_eq_append_iff.mp hrest.symm with ⟨t₂, htext, -⟩ | ⟨a₂, -, hafter₂⟩
    · -- the fence is in a string of the object
      have hsteady := ht.reads.steady
      have htext' : t = a ++ (fence ++ (n ++ t₂)) := by
        rw [htext]
        simp
      obtain ⟨hin, he⟩ := inString_of_fence hsteady htext'
      have hstay := run_quiet hin he fun c hc => ⟨(hn c hc).1, (hn c hc).2.1⟩
      rw [← Scan.run_append, append_assoc] at hstay
      exact structuralKeys_of_inside hsteady (hafter.not_mem (by decide)) hrest
        (by rw [hstay]; exact hin) (by rw [hstay]; exact he) hparse
    -- the piece lies behind the object
    refine structuralKeys_of_prose (hafter.of_subset fun c hc => ?_) hparse
    rw [hafter₂]
    simp [hc]

/-! ### The candidates -/

theorem fenceRE_group {s : Bytes} {m : Regex.Match} (hm : m ∈ fenceRE.runs s) :
    ∃ n rest, s = fence ++ (n ++ (m.group 1 ++ rest)) ∧ ∀ c ∈ n, c ≠ 0x22 ∧ c ≠ 0x5C ∧ c ≠ 0x7B := by
  have hspaces : (Regex.many true isReSpace).Over fun c => c ≠ 0x22 ∧ c ≠ 0x5C ∧ c ≠ 0x7B := by
    intro c hc
    refine ⟨?_, ?_, ?_⟩ <;> rintro rfl <;> cases hc
  have hjson : (Regex.alt jsonWord .empty).Over fun c => c ≠ 0x22 ∧ c ≠ 0x5C ∧ c ≠ 0x7B := by
    refine ⟨⟨?_, ⟨?_, ?_⟩, ?_, ?_, trivial⟩, trivial⟩ <;> intro c hc
    · refine ⟨?_, ?_, ?_⟩ <;> rintro rfl <;> cases hc
    · refine ⟨?_, ?_, ?_⟩ <;> rintro rfl <;> cases hc
    · revert c
      decide +kernel
    · refine ⟨?_, ?_, ?_⟩ <;> rintro rfl <;> cases hc
    · refine ⟨?_, ?_, ?_⟩ <;> rintro rfl <;> cases hc
  obtain ⟨m₁, h₁, n₁, hn₁, -, -, hg₁⟩ := Regex.mem_runs_seq hm
  obtain ⟨m₂, h₂, n₂, hn₂, -, -, hg₂⟩ := Regex.mem_runs_seq hn₁
  obtain ⟨m₃, h₃, n₃, hn₃, -, -, hg₃⟩ := Regex.mem_runs_seq hn₂
  obtain ⟨m₄, h₄, n₄, hn₄, -, -, hg₄⟩ := Regex.mem_runs_seq hn₃
  obtain ⟨m₅, h₅, rfl⟩ := mem_map.mp h₄
  have hgroup : m.group 1 = m₅.text := by
    unfold Regex.Match.group
    rw [hg₁, hg₂, hg₃, hg₄, Regex.groups_of_groupFree rfl h₁, Regex.groups_of_groupFree rfl h₂,
      Regex.groups_of_groupFree rfl h₃]
    rfl
  obtain ⟨-, hs⟩ := Regex.mem_runs_text h₁
  refine ⟨m₂.text ++ m₃.text, m₅.rest, ?_, fun c hc => ?_⟩
  · rw [hgroup, Regex.text_append_rest h₅, append_assoc, Regex.text_append_rest h₃,
      Regex.text_append_rest h₂, hs]
  rcases mem_append.mp hc with hc | hc
  · exact hjson.mem_text h₂ c hc
  · exact hspaces.mem_text h₃ c hc

theorem quiet_of_spaceByte (h : SpaceByte c) : c ≠ 0x22 ∧ c ≠ 0x5C ∧ c ≠ 0x7B := by
  obtain ⟨w, hw, hc⟩ := h
  have hall : ∀ w ∈ Lib.Strings.spaces, ∀ c ∈ w, c ≠ 0x22 ∧ c ≠ 0x5C ∧ c ≠ 0x7B := by
    decide +kernel
  exact hall w hw c hc

/-- A candidate is the call itself or what a fence in the call encloses. -/
theorem candidate_text (ht : IsCall t v) (hbefore : Prose before) (hafter : Prose after)
    {c : JsonCandidate} (hc : c ∈ jsonCandidates (before ++ (t ++ after))) :
    c.jsonText = t ∨ ∃ l n g r, before ++ (t ++ after) = l ++ (fence ++ (n ++ (g ++ r))) ∧
      (∀ b ∈ n, b ≠ 0x22 ∧ b ≠ 0x5C ∧ b ≠ 0x7B) ∧ c.jsonText = trimSpace g := by
  unfold jsonCandidates at hc
  simp only [mem_append] at hc
  rcases hc with (hc | hc) | hc
  · right
    obtain ⟨m, hm, heq⟩ := mem_filterMap.mp hc
    split at heq
    · cases heq
      obtain ⟨l, s, hs, hrun⟩ := Regex.mem_findAll hm
      obtain ⟨n, r, rfl, hn⟩ := fenceRE_group hrun
      exact ⟨l, n, _, r, hs, hn, rfl⟩
    · cases heq
  · left
    unfold spanCandidates at hc
    rw [balancedJSONSpans_around ht hbefore hafter] at hc
    have hslice :
        ((before ++ (t ++ after)).take (before.length + t.length)).drop before.length = t := by
      rw [← append_assoc, ← length_append, take_left, drop_left]
    simp only [filterMap_cons, filterMap_nil, hslice, ht.trimSpace_eq] at hc
    split at hc
    · exact absurd hc not_mem_nil
    rename_i heq
    split at heq
    · cases heq
      rw [mem_singleton.mp hc]
    · cases heq
  · left
    obtain ⟨body, -, rfl⟩ := ht.braces
    have hfirst : index [0x7B] (before ++ (0x7B :: (body ++ [0x7D]) ++ after)) = some before.length :=
      Lib.Strings.index_single (hbefore.not_mem (by decide)) _
    have hlast : lastIndex [0x7D] (before ++ (0x7B :: (body ++ [0x7D]) ++ after)) =
        some (before ++ 0x7B :: body).length := by
      have hclose : (0x7D : UInt8) ∉ after := hafter.not_mem (by decide)
      rw [← Lib.Strings.lastIndex_single hclose (before ++ 0x7B :: body)]
      simp
    have hslice : ((before ++ (0x7B :: (body ++ [0x7D]) ++ after)).take
        ((before ++ 0x7B :: body).length + 1)).drop before.length = 0x7B :: (body ++ [0x7D]) := by
      have hsplit : before ++ (0x7B :: (body ++ [0x7D]) ++ after) =
          before ++ 0x7B :: (body ++ [0x7D]) ++ after := by simp
      have hlength : (before ++ 0x7B :: body).length + 1 =
          (before ++ 0x7B :: (body ++ [0x7D])).length := by
        simp only [length_append, length_cons, length_nil]
        omega
      rw [hsplit, hlength, take_left, drop_left]
    have hlt : before.length < (before ++ 0x7B :: body).length := by
      simp only [length_append, length_cons]
      omega
    unfold outerCandidates at hc
    split at hc
    · rw [hfirst, hlast] at hc
      simp only [if_pos hlt, hslice, ht.trimSpace_eq, mem_singleton] at hc
      rw [hc]
    · exact absurd hc not_mem_nil

/-- **Every candidate** decodes like the object, or not at all. -/
theorem decode_candidate (ht : IsCall t v) (hbefore : Prose before) (hafter : Prose after)
    (hrepair : ¬ HasTrailingComma t) {c : JsonCandidate}
    (hc : c ∈ jsonCandidates (before ++ (t ++ after))) :
    repairJSON c.jsonText = none ∧ ((∃ e, decodeToolCandidate c.jsonText = .error e) ∨
        decodeToolCandidate c.jsonText = decodeToolCandidate t) := by
  rcases candidate_text ht hbefore hafter hc with htext | ⟨l, n, g, r, hsplit, hn, htext⟩
  · rw [htext]
    exact ⟨repairJSON_eq_none hrepair, Or.inr rfl⟩
  obtain ⟨u, u', hg, hu, -⟩ := Lib.Strings.trimSpace_split g
  rw [htext]
  have hpiece : before ++ (t ++ after) =
      l ++ (fence ++ ((n ++ u) ++ (trimSpace g ++ (u' ++ r)))) := by
    rw [hsplit]
    conv_lhs => rw [hg]
    simp
  have hquiet : ∀ b ∈ n ++ u, b ≠ 0x22 ∧ b ≠ 0x5C ∧ b ≠ 0x7B := by
    intro b hb
    rcases mem_append.mp hb with hb | hb
    · exact hn b hb
    · exact quiet_of_spaceByte (hu b hb)
  have hinfix : trimSpace g <:+: before ++ (t ++ after) := by
    rw [hpiece]
    exact ⟨l ++ (fence ++ (n ++ u)), u' ++ r, by simp⟩
  have hrepair' := not_hasTrailingComma_piece ht hbefore hafter hrepair hinfix
  have hdecode : decodeToolCandidate (trimSpace g) =
      ((parse (trimSpace g)).elim (.error .noToolCallsShape) rawCallsOf).bind rawCallsToDomain := by
    unfold decodeToolCandidate
    rw [findRawCalls_eq (Lib.Strings.trimSpace_trimSpace g) hrepair']
  refine ⟨repairJSON_eq_none hrepair', ?_⟩
  rw [hdecode]
  cases hparse : parse (trimSpace g) with
  | none => exact Or.inl ⟨_, rfl⟩
  | some w =>
    rcases parse_piece ht hbefore hafter hquiet hpiece hparse with hkeys | rfl
    · exact Or.inl (decode_of_structuralKeys hkeys)
    right
    unfold decodeToolCandidate
    rw [findRawCalls_eq ht.trimSpace_eq hrepair, ht.reads.parse]

theorem exists_candidate (ht : IsCall t v) (hbefore : Prose before) (hafter : Prose after)
    (hargs : literal "arguments" <:+: t) :
    ∃ c ∈ jsonCandidates (before ++ (t ++ after)), c.jsonText = t := by
  have hslice : ((before ++ (t ++ after)).take (before.length + t.length)).drop before.length = t := by
    rw [← append_assoc, ← length_append, take_left, drop_left]
  have hcontains : contains t (literal "arguments") = true := by
    unfold contains
    cases h : index (literal "arguments") t with
    | some i => rfl
    | none => exact absurd hargs (Lib.Strings.index_eq_none h)
  refine ⟨{ jsonText := t, fullText := t }, ?_, rfl⟩
  unfold jsonCandidates spanCandidates
  rw [balancedJSONSpans_around ht hbefore hafter]
  simp only [filterMap_cons, filterMap_nil, hslice, ht.trimSpace_eq, hcontains,
    Bool.or_true, if_true, mem_append, mem_singleton]
  exact Or.inl (Or.inr trivial)

/-! ### The loop over the candidates -/

theorem hermesLoop_one (lower : Char → Char) (text : Bytes) {x : ToolCall}
    (hall : ∀ c ∈ cs, repairJSON c.jsonText = none ∧
      ((∃ e, decodeToolCandidate c.jsonText = .error e) ∨ decodeToolCandidate c.jsonText = .ok [x]))
    (hsome : ∃ c ∈ cs, decodeToolCandidate c.jsonText = .ok [x]) (lastErr : Option ToolError) :
    ∃ content recovered,
      hermesLoop lower decodeToolCandidate text cs lastErr = .ok ([x], content, recovered) := by
  induction cs generalizing lastErr with
  | nil =>
    obtain ⟨c, hc, -⟩ := hsome
    exact absurd hc not_mem_nil
  | cons c rest ih =>
    obtain ⟨hrepair, hdecode⟩ := hall c mem_cons_self
    rcases hdecode with ⟨e, he⟩ | hok
    · have hrest : ∃ d ∈ rest, decodeToolCandidate d.jsonText = .ok [x] := by
        obtain ⟨d, hd, hdecode⟩ := hsome
        rcases mem_cons.mp hd with rfl | hd
        · rw [he] at hdecode
          cases hdecode
        · exact ⟨d, hd, hdecode⟩
      obtain ⟨content, recovered, h⟩ :=
        ih (fun d hd => hall d (mem_cons_of_mem c hd)) hrest (some e)
      refine ⟨content, recovered, ?_⟩
      have htry : tryCandidate decodeToolCandidate c = .error (some e) := by
        unfold tryCandidate
        simp only [hrepair, Option.getD_none, he]
        rfl
      rw [hermesLoop, htry]
      exact h
    · have htry : tryCandidate decodeToolCandidate c = .ok ([x], c.recovered || false) := by
        unfold tryCandidate
        simp only [hrepair, Option.getD_none, hok, Option.isSome_none]
      refine ⟨trimSpace (removeFirst text c.fullText), c.recovered || false, ?_⟩
      rw [hermesLoop, htry]

theorem hermesLoop_none (lower : Char → Char) (text : Bytes)
    (hall : ∀ c ∈ cs, repairJSON c.jsonText = none ∧
      ∃ e, decodeToolCandidate c.jsonText = .error e) (lastErr : Option ToolError) :
    (∃ e, hermesLoop lower decodeToolCandidate text cs lastErr = .error e) ∨
      hermesLoop lower decodeToolCandidate text cs lastErr = .ok ([], text, false) := by
  induction cs generalizing lastErr with
  | nil =>
    unfold hermesLoop
    split
    · exact Or.inl ⟨_, rfl⟩
    · exact Or.inr rfl
  | cons c rest ih =>
    obtain ⟨hrepair, e, he⟩ := hall c mem_cons_self
    have htry : tryCandidate decodeToolCandidate c = .error (some e) := by
      unfold tryCandidate
      simp only [hrepair, Option.getD_none, he]
      rfl
    rw [hermesLoop, htry]
    exact ih (fun d hd => hall d (mem_cons_of_mem c hd)) (some e)

end

end DenseCore.Server
