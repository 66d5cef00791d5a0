/-
When two nodes of one graph share a userdata slot.

A slot that two nodes share holds what was written last, so the earlier node
runs with the later node's layer, weight and cache.  This file says which
sequences of getter calls keep the slots apart.  Two slots of a layer pool meet
exactly when the layers agree modulo half the pool; a counting pool that starts
over hands every slot out once and then begins again, so by counting the slots
it stays apart exactly as long as it is asked no more often than it has slots.
-/
import DenseCore.Llm.WorkContext
import Mathlib.Data.List.Nodup
import Mathlib.Data.List.Perm.Subperm

namespace DenseCore.Llm

open List GetterCall CountedPool

variable {δ : Type}

/-! ### What is asked of the slots -/

/-- The counted pools that start over when they are full and whose slots drive
the matmuls and the attention of a layer. -/
def CountedPool.graphPools : List CountedPool := [.pagedAttention, .gemv, .gemvBatched]

/-- The pairs of calls whose nodes need slots of their own: a layer's K or V
against any other layer's K or V, and any two calls to the counting getters. -/
def GetterCall.mustDiffer : GetterCall → GetterCall → Bool
  | .kvCache l k, .kvCache l' k' => (l, k) ≠ (l', k')
  | .kvUpdateGather l k, .kvUpdateGather l' k' => (l, k) ≠ (l', k')
  | .counted p, .counted p' => p ∈ graphPools ∧ p' ∈ graphPools
  | _, _ => false

/-- Of two such calls the later throws or comes back with another slot. -/
def SlotsApart (results : List (GetterCall × Except WorkContextException Slot)) : Prop :=
  results.Pairwise fun earlier later =>
    earlier.1.mustDiffer later.1 = true →
      (∃ e, later.2 = .error e) ∨ ∃ s s', earlier.2 = .ok s ∧ later.2 = .ok s' ∧ s ≠ s'

/-- No two layers that ask for a slot of the same kind are a multiple of half
the pool apart, and no counting pool is asked more often than it has slots. -/
structure FitsPools (calls : List GetterCall) : Prop where
  kvCache : ∀ l l' k, .kvCache l k ∈ calls → .kvCache l' k ∈ calls → l % 128 = l' % 128 → l = l'
  kvUpdateGather : ∀ l l' k, .kvUpdateGather l k ∈ calls → .kvUpdateGather l' k ∈ calls →
    l % 128 = l' % 128 → l = l'
  counted : ∀ p ∈ graphPools, calls.count (.counted p) ≤ p.size

/-! ### One call -/

attribute [local simp] takeSlot withCurrentWorkContext getterResults

theorem run_counted (p : CountedPool) : (counted p).run = (takeSlot p : Getter δ) := by
  cases p <;> rfl

variable {p : CountedPool} {call : GetterCall} {calls : List GetterCall}

theorem exhausted_graphPools (h : p ∈ graphPools) : p.exhausted = none := by
  simp only [graphPools, mem_cons, not_mem_nil, or_false] at h
  obtain rfl | rfl | rfl := h <;> rfl

theorem size_pos (h : p ∈ graphPools) : 0 < p.size := by
  simp only [graphPools, mem_cons, not_mem_nil, or_false] at h
  obtain rfl | rfl | rfl := h <;>
    simp [size, kMaxPagedAttentionUserDataSlots, kMaxGemvUserDataSlots]

theorem run_context (call : GetterCall) (ctx : InferenceWorkContext δ) :
    ∃ next, (call.run (some ctx)).2 = some next := by
  cases call with
  | kvCache l k => exact ⟨_, rfl⟩
  | kvUpdateGather l k => exact ⟨_, rfl⟩
  | counted p =>
    rw [run_counted]
    exact ⟨_, rfl⟩

theorem takeSlot_graphPools (h : p ∈ graphPools) (ctx : InferenceWorkContext δ) :
    (takeSlot p (some ctx)).1 =
      .ok ⟨.counted p, if p.size ≤ ctx.index p then 0 else ctx.index p⟩ := by
  simp only [takeSlot, withCurrentWorkContext, exhausted_graphPools h]
  split <;> rfl

theorem run_index_of_ne (h : call ≠ .counted p)
    {ctx next : InferenceWorkContext δ} (hrun : (call.run (some ctx)).2 = some next) :
    next.index p = ctx.index p := by
  cases call with
  | kvCache l k | kvUpdateGather l k =>
    obtain rfl : ctx = next := Option.some.inj hrun
    rfl
  | counted q =>
    have hpq : p ≠ q := fun hc => h (by rw [hc])
    rw [run_counted] at hrun
    simp only [takeSlot, withCurrentWorkContext, Option.some.injEq] at hrun
    rw [← hrun]
    split
    · split <;> simp [hpq]
    · simp [hpq]

theorem run_index_self {ctx next : InferenceWorkContext δ} (hlt : ctx.index p < p.size)
    (hrun : ((counted p).run (some ctx)).2 = some next) :
    next.index p = ctx.index p + 1 := by
  rw [run_counted] at hrun
  simp only [takeSlot, withCurrentWorkContext, if_neg (Nat.not_le.mpr hlt),
    Option.some.injEq] at hrun
  rw [← hrun]
  simp

/-! ### The layer pools -/

theorem layerSlotIndex_eq_mod {slots : Nat} (layer : Nat) (isK : Bool) :
    layerSlotIndex slots layer isK = (layer * 2 + if isK then 0 else 1) % slots := by
  show (if slots ≤ _ then _ else _) = _
  by_cases h : slots ≤ layer * 2 + if isK then 0 else 1
  · rw [if_pos h]
  · rw [if_neg h, Nat.mod_eq_of_lt (Nat.not_le.mp h)]

theorem layerSlotIndex_inj_iff (l l' : Nat) (k k' : Bool) :
    layerSlotIndex 256 l k = layerSlotIndex 256 l' k' ↔ k = k' ∧ l % 128 = l' % 128 := by
  rw [layerSlotIndex_eq_mod, layerSlotIndex_eq_mod]
  cases k <;> cases k' <;> simp <;> omega

/-! ### A sequence of calls -/

theorem getterResults_cons (ctx : Option (InferenceWorkContext δ)) (call : GetterCall)
    (rest : List GetterCall) :
    getterResults ctx (call :: rest) =
      (call, (call.run ctx).1) :: getterResults (call.run ctx).2 rest := rfl

theorem mem_calls_of_mem_results :
    ∀ {ctx : Option (InferenceWorkContext δ)} {r}, r ∈ getterResults ctx calls → r.1 ∈ calls := by
  induction calls with
  | nil => intro ctx r h; simp [getterResults] at h
  | cons call rest ih =>
    intro ctx r h
    rw [getterResults_cons, mem_cons] at h
    obtain rfl | h := h
    · simp
    · exact mem_cons_of_mem _ (ih h)

theorem mem_results_of_mem_calls : ∀ ctx : InferenceWorkContext δ, call ∈ calls →
      ∃ at' : InferenceWorkContext δ,
        (call, (call.run (some at')).1) ∈ getterResults (some ctx) calls := by
  induction calls with
  | nil => intro ctx h; simp at h
  | cons head rest ih =>
    intro ctx h
    rw [getterResults_cons]
    rcases mem_cons.mp h with rfl | h
    · exact ⟨ctx, mem_cons_self⟩
    obtain ⟨next, hnext⟩ := run_context head ctx
    rw [hnext]
    obtain ⟨at', hat⟩ := ih next h
    exact ⟨at', mem_cons_of_mem _ hat⟩

theorem result_of_mem : ∀ {ctx : InferenceWorkContext δ} {r}, r ∈ getterResults (some ctx) calls →
      ∃ at' : InferenceWorkContext δ, r.2 = (r.1.run (some at')).1 := by
  induction calls with
  | nil => intro ctx r h; simp [getterResults] at h
  | cons call rest ih =>
    intro ctx r h
    rw [getterResults_cons, mem_cons] at h
    obtain rfl | h := h
    · exact ⟨ctx, rfl⟩
    obtain ⟨next, hnext⟩ := run_context call ctx
    rw [hnext] at h
    exact ih h

theorem counted_slot_ge (hp : p ∈ graphPools) :
    ∀ {ctx : InferenceWorkContext δ} {r}, ctx.index p + calls.count (.counted p) ≤ p.size →
      (.counted p, r) ∈ getterResults (some ctx) calls →
      ∃ i, r = .ok ⟨.counted p, i⟩ ∧ ctx.index p ≤ i := by
  induction calls with
  | nil => intro ctx r _ h; simp [getterResults] at h
  | cons call rest ih =>
    intro ctx r hroom h
    obtain ⟨next, hnext⟩ := run_context call ctx
    rw [getterResults_cons, mem_cons, hnext] at h
    by_cases hcall : call = .counted p
    · rw [hcall] at h hnext
      rw [hcall, count_cons_self] at hroom
      have hlt : ctx.index p < p.size := by omega
      have hidx := run_index_self hlt hnext
      rcases h with heq | h
      · refine ⟨ctx.index p, ?_, Nat.le_refl _⟩
        rw [(Prod.mk.inj heq).2, run_counted, takeSlot_graphPools hp, if_neg (Nat.not_le.mpr hlt)]
      obtain ⟨i, hr, hi⟩ := ih (by omega) h
      exact ⟨i, hr, by omega⟩
    have hidx := run_index_of_ne hcall hnext
    rw [count_cons_of_ne hcall] at hroom
    rcases h with heq | h
    · exact absurd (Prod.mk.inj heq).1.symm hcall
    obtain ⟨i, hr, hi⟩ := ih (by omega) h
    exact ⟨i, hr, by omega⟩

/-! ### Calls that fit keep their slots apart -/

/-- The condition, for a context whose counters are already part of the way. -/
structure FitsFrom (ctx : InferenceWorkContext δ) (calls : List GetterCall) : Prop where
  kvCache : ∀ l l' k, .kvCache l k ∈ calls → .kvCache l' k ∈ calls → l % 128 = l' % 128 → l = l'
  kvUpdateGather : ∀ l l' k, .kvUpdateGather l k ∈ calls → .kvUpdateGather l' k ∈ calls →
    l % 128 = l' % 128 → l = l'
  counted : ∀ p ∈ graphPools, ctx.index p + calls.count (.counted p) ≤ p.size

variable {rest : List GetterCall} {s slot : Slot}
  {rs : List (GetterCall × Except WorkContextException Slot)} {i : Nat}

theorem FitsFrom.tail {ctx next : InferenceWorkContext δ} (h : FitsFrom ctx (call :: rest))
    (hnext : (call.run (some ctx)).2 = some next) : FitsFrom next rest := by
  refine ⟨fun l l' k hl hl' => h.kvCache l l' k (by simp [hl]) (by simp [hl']),
    fun l l' k hl hl' => h.kvUpdateGather l l' k (by simp [hl]) (by simp [hl']), ?_⟩
  intro p hp
  have hroom := h.counted p hp
  by_cases hcall : call = .counted p
  · rw [hcall, count_cons_self] at hroom
    rw [hcall] at hnext
    rw [run_index_self (by omega) hnext]
    omega
  rw [count_cons_of_ne hcall] at hroom
  rw [run_index_of_ne hcall hnext]
  exact hroom

/-- A slot that is handed out is handed out to nobody later who must have another. -/
theorem FitsFrom.head_apart {ctx next : InferenceWorkContext δ} (h : FitsFrom ctx (call :: rest))
    (hnext : (call.run (some ctx)).2 = some next) {later}
    (hlater : later ∈ getterResults (some next) rest) (hdiff : call.mustDiffer later.1 = true) :
    ∃ s s', (call.run (some ctx)).1 = .ok s ∧ later.2 = .ok s' ∧ s ≠ s' := by
  obtain ⟨call', r⟩ := later
  have hmem : call' ∈ rest := mem_calls_of_mem_results hlater
  obtain ⟨at', hr⟩ := result_of_mem hlater
  dsimp only at hr hdiff ⊢
  -- the two calls are of one kind, or of two counting pools
  cases call with
  | kvCache l k =>
    cases call' with
    | kvCache l' k' =>
      refine ⟨_, _, rfl, hr, ?_⟩
      intro hs
      have hidx := (layerSlotIndex_inj_iff l l' k k').mp (congrArg Slot.index hs)
      obtain ⟨rfl, hmod⟩ := hidx
      have hl := h.kvCache l l' k (by simp) (by simp [hmem]) hmod
      simp [mustDiffer, hl] at hdiff
    | kvUpdateGather l' k' | counted q => simp [mustDiffer] at hdiff
  | kvUpdateGather l k =>
    cases call' with
    | kvCache l' k' | counted q => simp [mustDiffer] at hdiff
    | kvUpdateGather l' k' =>
      refine ⟨_, _, rfl, hr, ?_⟩
      intro hs
      have hidx := (layerSlotIndex_inj_iff l l' k k').mp (congrArg Slot.index hs)
      obtain ⟨rfl, hmod⟩ := hidx
      have hl := h.kvUpdateGather l l' k (by simp) (by simp [hmem]) hmod
      simp [mustDiffer, hl] at hdiff
  | counted p =>
    cases call' with
    | kvCache l' k' | kvUpdateGather l' k' => simp [mustDiffer] at hdiff
    | counted q =>
      obtain ⟨hp, hq⟩ : p ∈ graphPools ∧ q ∈ graphPools := by
        simpa [mustDiffer] using hdiff
      have hroom := h.counted p hp
      rw [count_cons_self] at hroom
      obtain ⟨j, hj, hge⟩ := counted_slot_ge hq ((h.tail hnext).counted q hq) hlater
      refine ⟨_, _, by rw [run_counted, takeSlot_graphPools hp], hj, ?_⟩
      intro hs
      obtain ⟨hpool, hindex⟩ := Slot.mk.inj hs
      obtain rfl : p = q := Pool.counted.inj hpool
      rw [run_index_self (by omega) hnext] at hge
      rw [if_neg (by omega)] at hindex
      omega

theorem FitsFrom.slotsApart : ∀ {ctx : InferenceWorkContext δ}, FitsFrom ctx calls →
      SlotsApart (getterResults (some ctx) calls) := by
  induction calls with
  | nil => intro ctx _; exact List.Pairwise.nil
  | cons call rest ih =>
    intro ctx h
    obtain ⟨next, hnext⟩ := run_context call ctx
    rw [getterResults_cons, hnext]
    refine List.Pairwise.cons ?_ (ih (h.tail hnext))
    intro later hlater hdiff
    exact Or.inr (h.head_apart hnext hlater hdiff)

/-! ### Slots that stay apart fit -/

/-- The slot indices a counting pool handed out, in order. -/
def handedOut (p : CountedPool) (results : List (GetterCall × Except WorkContextException Slot)) :
    List Nat :=
  results.filterMap fun r =>
    match r.2 with
    | .ok s => if r.1 = .counted p then some s.index else none
    | .error _ => none

theorem handedOut_cons_self :
    handedOut p ((.counted p, .ok s) :: rs) = s.index :: handedOut p rs := by
  simp [handedOut]

theorem handedOut_cons_of_ne (h : call ≠ .counted p) {r : Except WorkContextException Slot} :
    handedOut p ((call, r) :: rs) = handedOut p rs := by
  cases r <;> simp [handedOut, h]

theorem mem_handedOut (h : i ∈ handedOut p rs) : ∃ s, (.counted p, .ok s) ∈ rs ∧ s.index = i := by
  obtain ⟨⟨call, r⟩, hr, hi⟩ := mem_filterMap.mp h
  cases r with
  | error e => simp at hi
  | ok s =>
    by_cases hc : call = .counted p
    · refine ⟨s, by rw [← hc]; exact hr, ?_⟩
      simpa [hc] using hi
    · simp [hc] at hi

theorem length_handedOut (hp : p ∈ graphPools) : ∀ {ctx : InferenceWorkContext δ},
      (handedOut p (getterResults (some ctx) calls)).length = calls.count (.counted p) := by
  induction calls with
  | nil => intro ctx; rfl
  | cons call rest ih =>
    intro ctx
    obtain ⟨next, hnext⟩ := run_context call ctx
    rw [getterResults_cons, hnext]
    by_cases hcall : call = .counted p
    · rw [hcall, run_counted, takeSlot_graphPools hp, handedOut_cons_self, length_cons,
        count_cons_self, ih]
    · rw [handedOut_cons_of_ne hcall, count_cons_of_ne hcall, ih]

theorem handedOut_lt (hp : p ∈ graphPools) {ctx : InferenceWorkContext δ}
    (h : i ∈ handedOut p (getterResults (some ctx) calls)) : i < p.size := by
  obtain ⟨s, hs, hi⟩ := mem_handedOut h
  obtain ⟨at', hr⟩ := result_of_mem hs
  dsimp only at hr
  rw [run_counted, takeSlot_graphPools hp] at hr
  have hpos := size_pos hp
  rw [← hi, Except.ok.inj hr]
  dsimp only
  split <;> omega

theorem SlotsApart.handedOut_nodup (hp : p ∈ graphPools) :
    ∀ {ctx : InferenceWorkContext δ}, SlotsApart (getterResults (some ctx) calls) →
      (handedOut p (getterResults (some ctx) calls)).Nodup := by
  induction calls with
  | nil => intro ctx _; exact nodup_nil
  | cons call rest ih =>
    intro ctx h
    obtain ⟨next, hnext⟩ := run_context call ctx
    rw [getterResults_cons, hnext] at h ⊢
    obtain ⟨hhead, htail⟩ := pairwise_cons.mp h
    by_cases hcall : call = .counted p
    · rw [hcall, run_counted, takeSlot_graphPools hp] at hhead ⊢
      rw [handedOut_cons_self, nodup_cons]
      refine ⟨?_, ih htail⟩
      intro hmem
      obtain ⟨s, hs, hi⟩ := mem_handedOut hmem
      have hapart := hhead _ hs (by simp [mustDiffer, hp])
      obtain ⟨at', hr⟩ := result_of_mem hs
      dsimp only at hr
      rw [run_counted, takeSlot_graphPools hp] at hr
      rcases hapart with ⟨e, he⟩ | ⟨s₁, s₂, h₁, h₂, hne⟩
      · cases he
      apply hne
      rw [← Except.ok.inj h₁, ← Except.ok.inj h₂]
      rw [Except.ok.inj hr] at hi ⊢
      simpa using hi.symm
    · rw [handedOut_cons_of_ne hcall]
      exact ih htail

theorem SlotsApart.count_le (hp : p ∈ graphPools) {ctx : InferenceWorkContext δ}
    (h : SlotsApart (getterResults (some ctx) calls)) :
    calls.count (.counted p) ≤ p.size := by
  have hnodup := h.handedOut_nodup hp
  have hsub : handedOut p (getterResults (some ctx) calls) ⊆ range p.size := by
    intro i hi
    exact mem_range.mpr (handedOut_lt hp hi)
  have hlen := (subperm_of_subset hnodup hsub).length_le
  rwa [length_handedOut hp, length_range] at hlen

theorem SlotsApart.of_mem {ctx : InferenceWorkContext δ}
    (h : SlotsApart (getterResults (some ctx) calls)) {call' : GetterCall} (s s' : Slot)
    (hs : ∀ c : InferenceWorkContext δ, (call.run (some c)).1 = .ok s)
    (hs' : ∀ c : InferenceWorkContext δ, (call'.run (some c)).1 = .ok s')
    (hdiff : call.mustDiffer call' = true) (hdiff' : call'.mustDiffer call = true)
    (hne : call ≠ call') (hcall : call ∈ calls) (hcall' : call' ∈ calls) : s ≠ s' := by
  obtain ⟨c, hc⟩ := mem_results_of_mem_calls ctx hcall
  obtain ⟨c', hc'⟩ := mem_results_of_mem_calls ctx hcall'
  rw [hs] at hc
  rw [hs'] at hc'
  -- whichever of the two comes first, the later one is the one that must differ
  have hor := pairwise_iff_getElem.mp h
  obtain ⟨i, hi, hci⟩ := mem_iff_getElem.mp hc
  obtain ⟨j, hj, hcj⟩ := mem_iff_getElem.mp hc'
  rcases Nat.lt_trichotomy i j with hij | hij | hij
  · have hapart := hor i j hi hj hij
    rw [hci, hcj] at hapart
    rcases hapart hdiff with ⟨e, he⟩ | ⟨s₁, s₂, h₁, h₂, hsne⟩
    · cases he
    cases h₁
    cases h₂
    exact hsne
  · subst hij
    rw [hci] at hcj
    exact absurd (Prod.mk.inj hcj).1 hne
  have hapart := hor j i hj hi hij
  rw [hci, hcj] at hapart
  rcases hapart hdiff' with ⟨e, he⟩ | ⟨s₁, s₂, h₁, h₂, hsne⟩
  · cases he
  cases h₁
  cases h₂
  exact hsne.symm

theorem SlotsApart.fitsPools {ctx : InferenceWorkContext δ}
    (h : SlotsApart (getterResults (some ctx) calls)) : FitsPools calls := by
  refine ⟨?_, ?_, fun p hp => h.count_le hp⟩
  · intro l l' k hl hl' hmod
    by_contra hne
    refine h.of_mem ⟨.kvCache, layerSlotIndex 256 l k⟩
      ⟨.kvCache, layerSlotIndex 256 l' k⟩ (fun c => rfl) (fun c => rfl) ?_ ?_ ?_ hl hl' ?_
    · simp [mustDiffer, hne]
    · simp [mustDiffer, Ne.symm hne]
    · simp [hne]
    · rw [(layerSlotIndex_inj_iff l l' k k).mpr ⟨rfl, hmod⟩]
  intro l l' k hl hl' hmod
  by_contra hne
  refine h.of_mem ⟨.kvUpdateGather, layerSlotIndex 256 l k⟩
    ⟨.kvUpdateGather, layerSlotIndex 256 l' k⟩
    (fun c => rfl) (fun c => rfl) ?_ ?_ ?_ hl hl' ?_
  · simp [mustDiffer, hne]
  · simp [mustDiffer, Ne.symm hne]
  · simp [hne]
  · rw [(layerSlotIndex_inj_iff l l' k k).mpr ⟨rfl, hmod⟩]

theorem FitsPools.slotsApart (h : FitsPools calls) (ctx : InferenceWorkContext δ) :
    SlotsApart (getterResults (some (resetInferenceWorkContext ctx)) calls) := by
  refine FitsFrom.slotsApart ⟨h.kvCache, h.kvUpdateGather, ?_⟩
  intro p hp
  show 0 + calls.count (.counted p) ≤ p.size
  rw [Nat.zero_add]
  exact h.counted p hp

/-- **The slots of one graph stay apart exactly when its calls fit the pools.**
The builder starts from a reset context; whatever it asks for, no two nodes
that need slots of their own share one just when no two layers are a multiple
of 128 apart and no counting pool is asked more often than it has slots. -/
theorem slotsApart_iff_fitsPools (ctx : InferenceWorkContext δ) (calls : List GetterCall) :
    SlotsApart (getterResults (some (resetInferenceWorkContext ctx)) calls) ↔ FitsPools calls :=
  ⟨SlotsApart.fitsPools, fun h => h.slotsApart ctx⟩

/-- The calls the decoder makes for the caches of a model: K and V, layer by
layer. -/
def kvCacheCalls (layers : Nat) : List GetterCall :=
  (range layers).flatMap fun il => [.kvCache il true, .kvCache il false]

/-- A model of 129 layers: layer 128 is given the slots of layer 0. -/
theorem kvCacheCalls_129_not_slotsApart : ¬ SlotsApart (getterResults
      (some (resetInferenceWorkContext ({} : InferenceWorkContext Nat))) (kvCacheCalls 129)) := by
  intro h
  have hl := h.fitsPools.kvCache 0 128 true
    (by simp [kvCacheCalls]) (by simp [kvCacheCalls]) (by decide)
  cases hl

end DenseCore.Llm
