/-
Which buffers the graph executor's pointers refer to.

Within one call every pointer that the executor assigns refers to a buffer that it owns,
large enough for its tensor, and no two tensors share one.  A later call frees these buffers
first.  The tensors keep their pointers, and since they have data now they get no others.

So the pointers are right as long as no call that gets to the nodes finds a tensor with a
buffer of an earlier call; and in such a call they are wrong from the first node on.
-/
import DenseCore.Runtime.GraphExecutor

namespace DenseCore.Hal

open List

variable {F : Type}

/-! ### The property -/

namespace Executor

/-- The tensor under a number. -/
def tensor (s : Executor) (t : Nat) : Tensor := s.tensors.getD t {}

/-- Each tensor that was given a buffer points to it, the executor owns it, it is large
enough, and no other tensor points to it. -/
def BuffersLive (s : Executor) : Prop :=
  ∀ p ∈ s.assigned, (∃ b ∈ s.owned, b.number = p.2 ∧ b.addr = (s.tensor p.1).data ∧
      (s.tensor p.1).sizeBytes ≤ b.size) ∧
    ∀ t < s.tensors.length, t ≠ p.1 → (s.tensor t).data ≠ (s.tensor p.1).data

end Executor

/-- An allocator finds memory that is not in use. -/
def Call.Sound (call : Call) : Prop :=
  ∀ inUse n addr, call.malloc inUse n = .owned addr ∨ call.malloc inUse n = .lost addr →
    addr ≠ 0 ∧ addr ∉ inUse

/-- No call that gets to the nodes finds a tensor with a buffer of an earlier call. -/
def NoLeftovers (nodes : List (GraphNode F)) : List Call → Executor → Prop
  | [], _ => True
  | call :: rest, s =>
    (call.Starts nodes { s with owned := [] } → nodes ≠ [] → s.assigned = []) ∧
      NoLeftovers nodes rest (execute nodes call s).2

/-! ### Within a call -/

/-- A tensor that has all that `InferOutputTensorMeta` and `EnsureTensorData` give. -/
def Tensor.Settled (t : Tensor) : Prop :=
  t.data ≠ 0 ∧ t.hasValidShape = true ∧ t.dtype ≠ .unknown

theorem Tensor.hasConcreteShape_eq (t : Tensor) : t.hasConcreteShape = t.hasValidShape := by
  unfold Tensor.hasConcreteShape Tensor.hasValidShape
  cases decide (0 < t.ndim ∧ t.ndim ≤ 4) <;> rfl

theorem inferOutputTensorMeta_data (op : OpType) (inputs : List Tensor) (params : OpParams F)
    (t : Tensor) : (inferOutputTensorMeta op inputs params t).data = t.data := by
  unfold inferOutputTensorMeta
  dsimp only
  split <;> split
  · rfl
  · split <;> rfl
  · rfl
  · split <;> rfl

variable {t : Tensor} {s' : Executor} {nodes : List (GraphNode F)}

theorem inferOutputTensorMeta_settled (op : OpType) (inputs : List Tensor) (params : OpParams F)
    (h : t.Settled) : inferOutputTensorMeta op inputs params t = t := by
  unfold inferOutputTensorMeta
  dsimp only
  rw [if_neg h.2.2, Tensor.hasConcreteShape_eq, if_pos h.2.1]

namespace Executor

variable {s : Executor} {malloc : List Nat → Nat → Allocation}

/-- Within a call: the buffers of this call. -/
structure CallInv (s : Executor) : Prop where
  held : ∀ p ∈ s.assigned, p.1 < s.tensors.length ∧ (s.tensor p.1).Settled ∧
    ∃ b ∈ s.owned, b.number = p.2 ∧ b.addr = (s.tensor p.1).data ∧ (s.tensor p.1).sizeBytes ≤ b.size
  apart : ∀ p ∈ s.assigned, ∀ t < s.tensors.length, t ≠ p.1 →
    (s.tensor t).data ≠ (s.tensor p.1).data
  placed : ∀ t < s.tensors.length, (s.tensor t).data ≠ 0 → (s.tensor t).data ∈ s.inUse

theorem CallInv.live (h : CallInv s) : s.BuffersLive :=
  fun p hp => ⟨(h.held p hp).2.2, h.apart p hp⟩

variable {out : Nat} {t : Tensor}

theorem tensor_setTensor_self (hout : out < s.tensors.length) (t : Tensor) :
    (s.setTensor out t).tensor out = t := by
  unfold Executor.tensor setTensor
  rw [getD_eq_getElem?_getD, getElem?_set_self hout]
  rfl

theorem tensor_setTensor_other {i : Nat} (hne : i ≠ out) (t : Tensor) :
    (s.setTensor out t).tensor i = s.tensor i := by
  unfold Executor.tensor setTensor
  rw [getD_eq_getElem?_getD, getElem?_set_ne (Ne.symm hne), ← getD_eq_getElem?_getD]

theorem CallInv.setTensor (h : CallInv s) (hout : out < s.tensors.length)
    (hdata : t.data = (s.tensor out).data)
    (hsettled : (s.tensor out).Settled → t = s.tensor out) : CallInv (s.setTensor out t) := by
  have hlength : (s.setTensor out t).tensors.length = s.tensors.length := length_set
  have hsame : ∀ i, ((s.setTensor out t).tensor i).data = (s.tensor i).data := by
    intro i
    by_cases hi : i = out
    · rw [hi, tensor_setTensor_self hout, hdata]
    · rw [tensor_setTensor_other hi]
  have hkept : ∀ p ∈ s.assigned, (s.setTensor out t).tensor p.1 = s.tensor p.1 := by
    intro p hp
    by_cases hi : p.1 = out
    · rw [hi, tensor_setTensor_self hout]
      exact hsettled (hi ▸ (h.held p hp).2.1)
    · exact tensor_setTensor_other hi t
  refine ⟨fun p hp => ?_, fun p hp i hi hne => ?_, fun i hi hne => ?_⟩
  · rw [hkept p hp, hlength]
    exact h.held p hp
  · rw [hsame, hsame]
    exact h.apart p hp i (hlength ▸ hi) hne
  rw [hsame] at hne ⊢
  exact h.placed i (hlength ▸ hi) hne

/-- A tensor gets a fresh buffer of its size. -/
theorem CallInv.assign (h : CallInv s) {addr : Nat}
    (hout : out < s.tensors.length) (hnone : (s.tensor out).data = 0)
    (hshape : t.hasValidShape = true) (hdtype : t.dtype ≠ .unknown) (haddr : addr ≠ 0)
    (hfresh : addr ∉ s.inUse) :
    CallInv { s.assign out addr t with owned := s.owned ++ [⟨s.next, addr, t.sizeBytes⟩] } := by
  have hself : (s.assign out addr t).tensor out = { t with data := addr } :=
    tensor_setTensor_self hout _
  have hother : ∀ {i}, i ≠ out → (s.assign out addr t).tensor i = s.tensor i :=
    fun hne => tensor_setTensor_other hne _
  have hlength : (s.assign out addr t).tensors.length = s.tensors.length := length_set
  -- the tensor had no data, so it was not among those with a buffer
  have hnew : ∀ p ∈ s.assigned, p.1 ≠ out := by
    rintro p hp rfl
    exact (h.held p hp).2.1.1 hnone
  have hdata : ∀ i < s.tensors.length, (s.tensor i).data ≠ addr := by
    rintro i hi rfl
    exact hfresh (h.placed i hi haddr)
  refine ⟨fun p hp => ?_, fun p hp i hi hne => ?_, fun i hi hne => ?_⟩
  · show p.1 < (s.assign out addr t).tensors.length ∧ ((s.assign out addr t).tensor p.1).Settled ∧
      ∃ b ∈ s.owned ++ [⟨s.next, addr, t.sizeBytes⟩], b.number = p.2 ∧
        b.addr = ((s.assign out addr t).tensor p.1).data ∧
        ((s.assign out addr t).tensor p.1).sizeBytes ≤ b.size
    rw [hlength]
    rcases mem_cons.mp hp with rfl | hold
    · rw [hself]
      exact ⟨hout, ⟨haddr, hshape, hdtype⟩, _, mem_append_right _ mem_cons_self, rfl, rfl,
        Nat.le_refl _⟩
    rw [hother (hnew p hold)]
    obtain ⟨hlt, hsettled, b, hb, hrest⟩ := h.held p hold
    exact ⟨hlt, hsettled, b, mem_append_left _ hb, hrest⟩
  · show ((s.assign out addr t).tensor i).data ≠ ((s.assign out addr t).tensor p.1).data
    have hi : i < s.tensors.length := hlength ▸ hi
    rcases mem_cons.mp hp with rfl | hold
    · rw [hself, hother hne]
      exact hdata i hi
    rw [hother (hnew p hold)]
    by_cases hiout : i = out
    · rw [hiout, hself]
      exact Ne.symm (hdata p.1 (h.held p hold).1)
    rw [hother hiout]
    exact h.apart p hold i hi hne
  have hi : i < s.tensors.length := hlength ▸ hi
  show ((s.assign out addr t).tensor i).data ∈
    s.external ++ (s.owned ++ [(⟨s.next, addr, t.sizeBytes⟩ : Block)]).map (·.addr)
  rw [map_append, ← append_assoc]
  have hne : ((s.assign out addr t).tensor i).data ≠ 0 := hne
  by_cases hiout : i = out
  · rw [hiout, hself]
    exact mem_append_right _ mem_cons_self
  rw [hother hiout] at hne ⊢
  exact mem_append_left _ (h.placed i hi hne)

/-- A tensor that has data is left as it is. Otherwise it gets a buffer. -/
theorem CallInv.ensure (h : CallInv s) (hsound : ∀ inUse n addr,
      malloc inUse n = .owned addr ∨ malloc inUse n = .lost addr → addr ≠ 0 ∧ addr ∉ inUse)
    (hout : out < s.tensors.length) (hdata : t.data = (s.tensor out).data)
    (hsettled : (s.tensor out).Settled → t = s.tensor out)
    (hdone : (s.ensureTensorData malloc out t).2 = true) :
    CallInv (s.ensureTensorData malloc out t).1 := by
  unfold ensureTensorData at hdone ⊢
  split
  · exact h.setTensor hout hdata hsettled
  rename_i hcond
  rw [if_neg hcond] at hdone
  obtain ⟨hzero, hshape⟩ := not_or.mp hcond
  have hzero : t.data = 0 := not_not.mp hzero
  have hunsettled : ¬ (s.tensor out).Settled := fun hs => hs.1 (hdata.symm.trans hzero)
  dsimp only at hdone ⊢
  -- the descriptor, with a type that is known
  have htype : (if t.dtype = .unknown then { t with dtype := .f32 } else t).dtype ≠ .unknown := by
    split
    · exact nofun
    · assumption
  have hvalid : (if t.dtype = .unknown then { t with dtype := .f32 } else t).hasValidShape =
      true := by
    split
    · exact (Bool.not_eq_false _).mp hshape
    · exact (Bool.not_eq_false _).mp hshape
  have hkept : (if t.dtype = .unknown then { t with dtype := .f32 } else t).data =
      (s.tensor out).data := by
    split <;> exact hdata
  generalize (if t.dtype = .unknown then { t with dtype := .f32 } else t) = u at *
  split
  · exact h.setTensor hout hkept fun hs => absurd hs hunsettled
  rename_i hsize
  rw [if_neg hsize] at hdone
  cases halloc : malloc s.inUse u.sizeBytes with
  | none | lost addr =>
    rw [halloc] at hdone
    cases hdone
  | owned addr =>
    obtain ⟨haddr, hfresh⟩ := hsound _ _ _ (Or.inl halloc)
    exact h.assign hout (hdata.symm.trans hzero) hvalid htype haddr hfresh

theorem CallInv.prepareOutput (h : CallInv s) (hsound : ∀ inUse n addr,
      malloc inUse n = .owned addr ∨ malloc inUse n = .lost addr → addr ≠ 0 ∧ addr ∉ inUse)
    (node : GraphNode F) (hdone : (s.prepareOutput malloc node out).2 = true) :
    CallInv (s.prepareOutput malloc node out).1 := by
  unfold Executor.prepareOutput at hdone ⊢
  cases hget : s.tensors[out]? with
  | none => exact h
  | some t =>
    rw [hget] at hdone
    obtain ⟨hout, -⟩ := List.getElem?_eq_some_iff.mp hget
    have heq : s.tensor out = t := by
      unfold Executor.tensor
      rw [getD_eq_getElem?_getD, hget]
      rfl
    refine h.ensure hsound hout ?_ (fun hs => ?_) hdone
    · rw [inferOutputTensorMeta_data, heq]
    rw [heq] at hs ⊢
    exact inferOutputTensorMeta_settled _ _ _ hs

theorem CallInv.prepareOutputs (hsound : ∀ inUse n addr,
      malloc inUse n = .owned addr ∨ malloc inUse n = .lost addr → addr ≠ 0 ∧ addr ∉ inUse)
    (node : GraphNode F) (outs : List Nat) : ∀ {s : Executor}, CallInv s →
      (s.prepareOutputs malloc node outs).2 = true →
      CallInv (s.prepareOutputs malloc node outs).1 := by
  induction outs with
  | nil => exact fun h _ => h
  | cons out rest ih =>
    intro s h hdone
    rw [Executor.prepareOutputs] at hdone ⊢
    split
    · rename_i hfirst
      rw [if_pos hfirst] at hdone
      exact ih (h.prepareOutput hsound node hfirst) hdone
    rename_i hfirst
    rw [if_neg hfirst] at hdone
    exact absurd hdone hfirst

end Executor

open Executor

variable {call : Call} {s : Executor}

/-- **The nodes of a call run on live buffers**, if it begins without leftovers. -/
theorem runNodes_live (hsound : call.Sound) (nodes : List (GraphNode F)) :
    ∀ (i : Nat) {s : Executor}, CallInv s → ∀ m ∈ (runNodes call i nodes s).1, m.BuffersLive := by
  induction nodes with
  | nil => exact fun _ _ _ m hm => nomatch hm
  | cons node rest ih =>
    intro i s h m hm
    rw [runNodes] at hm
    dsimp only at hm
    split at hm
    · rename_i hprepared
      have hafter := CallInv.prepareOutputs hsound node node.outputs h hprepared
      split at hm
      · rcases mem_cons.mp hm with rfl | hm
        · exact h.live
        rcases mem_cons.mp hm with rfl | hm
        · exact hafter.live
        · exact ih (i + 1) hafter m hm
      rcases mem_cons.mp hm with rfl | hm
      · exact h.live
      rw [mem_singleton.mp hm]
      exact hafter.live
    rw [mem_singleton.mp hm]
    exact h.live

/-! ### From call to call -/

/-- Pointers are kept, or their tensors were given buffers. -/
structure Keeps (s s' : Executor) : Prop where
  external : s'.external = s.external
  length : s'.tensors.length = s.tensors.length
  assigned : ∀ p ∈ s.assigned, p ∈ s'.assigned
  data : ∀ t, (s'.tensor t).data = (s.tensor t).data ∨ ∃ p ∈ s'.assigned, p.1 = t

theorem Keeps.refl (s : Executor) : Keeps s s :=
  ⟨rfl, rfl, fun _ h => h, fun _ => Or.inl rfl⟩

theorem Keeps.trans {s'' : Executor} (h : Keeps s s') (h' : Keeps s' s'') : Keeps s s'' where
  external := h'.external.trans h.external
  length := h'.length.trans h.length
  assigned := fun p hp => h'.assigned p (h.assigned p hp)
  data := by
    intro t
    rcases h'.data t with heq | hgiven
    · rcases h.data t with heq' | ⟨p, hp, hpt⟩
      · exact Or.inl (heq.trans heq')
      · exact Or.inr ⟨p, h'.assigned p hp, hpt⟩
    · exact Or.inr hgiven

theorem keeps_setTensor {out : Nat} (hout : out < s.tensors.length)
    (hdata : t.data = (s.tensor out).data) : Keeps s (s.setTensor out t) := by
  refine ⟨rfl, length_set, fun _ h => h, fun i => Or.inl ?_⟩
  by_cases hi : i = out
  · rw [hi, tensor_setTensor_self hout, hdata]
  · rw [tensor_setTensor_other hi]

theorem keeps_assign (s : Executor) (out addr : Nat) (t : Tensor) :
    Keeps s (s.assign out addr t) := by
  refine ⟨rfl, length_set, fun _ h => mem_cons_of_mem _ h, fun i => ?_⟩
  by_cases hi : i = out
  · exact Or.inr ⟨(out, s.next), mem_cons_self, hi.symm⟩
  · exact Or.inl (congrArg Tensor.data (tensor_setTensor_other (s := s) hi { t with data := addr }))

theorem keeps_prepareOutput (malloc : List Nat → Nat → Allocation) (node : GraphNode F)
    (s : Executor) (out : Nat) : Keeps s (s.prepareOutput malloc node out).1 := by
  unfold Executor.prepareOutput
  cases hget : s.tensors[out]? with
  | none => exact Keeps.refl s
  | some t =>
    obtain ⟨hout, -⟩ := List.getElem?_eq_some_iff.mp hget
    have heq : s.tensor out = t := by
      unfold Executor.tensor
      rw [getD_eq_getElem?_getD, hget]
      rfl
    dsimp only
    have hdata := inferOutputTensorMeta_data node.op (node.inputs.filterMap (s.tensors[·]?))
      node.params t
    generalize inferOutputTensorMeta node.op (node.inputs.filterMap (s.tensors[·]?))
      node.params t = u at hdata ⊢
    rw [← heq] at hdata
    unfold ensureTensorData
    split
    · exact keeps_setTensor hout hdata
    have hkept : (if u.dtype = .unknown then { u with dtype := .f32 } else u).data =
        (s.tensor out).data := by
      split <;> exact hdata
    dsimp only
    generalize (if u.dtype = .unknown then { u with dtype := .f32 } else u) = v at *
    split
    · exact keeps_setTensor hout hkept
    cases malloc s.inUse v.sizeBytes with
    | none => exact keeps_setTensor hout hkept
    | lost addr => exact keeps_assign s out addr v
    | owned addr =>
      obtain ⟨hexternal, hlength, hassigned, hpointers⟩ := keeps_assign s out addr v
      exact ⟨hexternal, hlength, hassigned, hpointers⟩

theorem keeps_prepareOutputs (malloc : List Nat → Nat → Allocation) (node : GraphNode F)
    (outs : List Nat) : ∀ s : Executor, Keeps s (s.prepareOutputs malloc node outs).1 := by
  induction outs with
  | nil => exact Keeps.refl
  | cons out rest ih =>
    intro s
    rw [Executor.prepareOutputs]
    split
    · exact (keeps_prepareOutput malloc node s out).trans (ih _)
    · exact keeps_prepareOutput malloc node s out

theorem keeps_runNodes (call : Call) (nodes : List (GraphNode F)) :
    ∀ (i : Nat) (s : Executor), Keeps s (runNodes call i nodes s).2 := by
  induction nodes with
  | nil => exact fun _ s => Keeps.refl s
  | cons node rest ih =>
    intro i s
    have hfirst := keeps_prepareOutputs call.malloc node node.outputs s
    rw [runNodes]
    dsimp only
    split
    · split
      · exact hfirst.trans (ih _ _)
      · exact hfirst
    · exact hfirst

theorem keeps_execute (nodes : List (GraphNode F)) (call : Call) (s : Executor) :
    Keeps s (execute nodes call s).2 := by
  have hfreed : Keeps s { s with owned := [] } :=
    ⟨rfl, rfl, fun _ h => h, fun _ => Or.inl rfl⟩
  unfold execute
  dsimp only
  split
  · exact hfreed.trans (keeps_runNodes call nodes 0 _)
  · exact hfreed

/-- Between calls: pointers that the executor did not give refer to memory of others. -/
def RestInv (s : Executor) : Prop :=
  ∀ t < s.tensors.length, (s.tensor t).data ≠ 0 →
    (∃ p ∈ s.assigned, p.1 = t) ∨ (s.tensor t).data ∈ s.external

theorem RestInv.keeps (h : RestInv s) (hk : Keeps s s') : RestInv s' := by
  intro t ht hne
  rcases hk.data t with heq | hgiven
  · rw [heq] at hne ⊢
    rw [hk.external]
    refine (h t (hk.length ▸ ht) hne).imp_left ?_
    rintro ⟨p, hp, hpt⟩
    exact ⟨p, hk.assigned p hp, hpt⟩
  · exact Or.inl hgiven

theorem execute_starts {m : Executor} (hm : m ∈ (execute nodes call s).1) :
    call.Starts nodes { s with owned := [] } ∧ nodes ≠ [] := by
  unfold execute at hm
  dsimp only at hm
  split at hm
  · rename_i hstarts
    refine ⟨hstarts, ?_⟩
    rintro rfl
    cases hm
  · cases hm

theorem execute_live (hsound : call.Sound) (h : RestInv s) (hnone : s.assigned = []) :
    ∀ m ∈ (execute nodes call s).1, m.BuffersLive := by
  have hinv : CallInv { s with owned := [] } := by
    refine ⟨fun p hp => ?_, fun p hp => ?_, fun t ht hne => ?_⟩
    · rw [hnone] at hp
      cases hp
    · rw [hnone] at hp
      cases hp
    refine mem_append_left _ ((h t ht hne).resolve_left ?_)
    rintro ⟨p, hp, -⟩
    rw [hnone] at hp
    cases hp
  unfold execute
  dsimp only
  split
  · exact runNodes_live hsound nodes 0 hinv
  · exact fun m hm => nomatch hm

theorem execute_dangling (hstarts : call.Starts nodes { s with owned := [] }) (hnodes : nodes ≠ [])
    (hsome : s.assigned ≠ []) : ∃ m ∈ (execute nodes call s).1, ¬ m.BuffersLive := by
  have hdangling : ¬ BuffersLive { s with owned := [] } := by
    intro hlive
    obtain ⟨p, rest, hp⟩ := exists_cons_of_ne_nil hsome
    obtain ⟨⟨b, hb, -⟩, -⟩ := hlive p (hp ▸ mem_cons_self)
    cases hb
  obtain ⟨node, rest, rfl⟩ := exists_cons_of_ne_nil hnodes
  refine ⟨{ s with owned := [] }, ?_, hdangling⟩
  unfold execute
  dsimp only
  rw [if_pos hstarts, runNodes]
  dsimp only
  split
  · split <;> exact mem_cons_self
  · exact mem_cons_self

/-! ### The result -/

/-- The executor before its first call on a graph. -/
def Executor.init (tensors : List Tensor) : Executor where
  tensors := tensors
  external := tensors.map (·.data)

theorem restInv_init (tensors : List Tensor) : RestInv (Executor.init tensors) := by
  intro t ht _
  have ht : t < tensors.length := ht
  refine Or.inr (mem_map.mpr ⟨tensors[t], getElem_mem ht, ?_⟩)
  show _ = (tensors.getD t {}).data
  rw [getD_eq_getElem?_getD, getElem?_eq_getElem ht]
  rfl

theorem live_iff (nodes : List (GraphNode F)) (calls : List Call) :
    ∀ {s : Executor}, (∀ call ∈ calls, call.Sound) → RestInv s →
      ((∀ m ∈ executeAll nodes calls s, m.BuffersLive) ↔ NoLeftovers nodes calls s) := by
  induction calls with
  | nil => exact fun _ _ => ⟨fun _ => trivial, fun _ m hm => nomatch hm⟩
  | cons call rest ih =>
    intro s hsound h
    have hrest := ih (fun c hc => hsound c (mem_cons_of_mem _ hc))
      (h.keeps (keeps_execute nodes call s))
    rw [executeAll, NoLeftovers]
    constructor
    · intro hlive
      refine ⟨fun hstarts hnodes => ?_, hrest.mp fun m hm => hlive m (mem_append_right _ hm)⟩
      by_contra hsome
      obtain ⟨m, hm, hnot⟩ := execute_dangling hstarts hnodes hsome
      exact hnot (hlive m (mem_append_left _ hm))
    rintro ⟨hclear, hlater⟩ m hm
    rcases mem_append.mp hm with hm | hm
    · obtain ⟨hstarts, hnodes⟩ := execute_starts hm
      exact execute_live (hsound call mem_cons_self) h (hclear hstarts hnodes) m hm
    · exact hrest.mpr hlater m hm

/-- **The executor's pointers are live in every state in which a node runs, exactly when no
call that gets to the nodes finds a buffer of an earlier call.** -/
theorem buffers_live (nodes : List (GraphNode F)) (tensors : List Tensor) (calls : List Call)
    (hsound : ∀ call ∈ calls, call.Sound) :
    (∀ m ∈ executeAll nodes calls (Executor.init tensors), m.BuffersLive) ↔
      NoLeftovers nodes calls (Executor.init tensors) :=
  live_iff nodes calls hsound (restInv_init tensors)

/-- A call in which everything goes well. -/
def plainCall : Call where
  admitted := true
  allowFallback := false
  malloc := fun inUse _ => .owned (inUse.foldl max 0 + 1)
  dispatch := fun _ => .done

theorem plainCall_sound : plainCall.Sound := by
  have hbound : ∀ (l : List Nat) (n : Nat), n ≤ l.foldl max n ∧ ∀ a ∈ l, a ≤ l.foldl max n := by
    intro l
    induction l with
    | nil => exact fun n => ⟨Nat.le_refl n, fun a ha => nomatch ha⟩
    | cons b rest ih =>
      intro n
      obtain ⟨hstart, hrest⟩ := ih (max n b)
      refine ⟨Nat.le_trans (Nat.le_max_left n b) hstart, fun a ha => ?_⟩
      rcases mem_cons.mp ha with rfl | ha
      · exact Nat.le_trans (Nat.le_max_right n a) hstart
      · exact hrest a ha
  intro inUse n addr h
  have haddr : inUse.foldl max 0 + 1 = addr := by
    rcases h with h | h
    · exact Allocation.owned.inj h
    · cases h
  rw [← haddr]
  refine ⟨Nat.succ_ne_zero _, fun hmem => ?_⟩
  exact absurd ((hbound inUse 0).2 _ hmem) (Nat.not_succ_le_self _)

/-- One node, whose output has neither shape nor data. -/
def siluNodes : List (GraphNode Int) := [{ op := .silu, inputs := [0], outputs := [1] }]

def siluTensors : List Tensor := [{ data := 64, shape := [4], ndim := 1 }, {}]

/-- One call. -/
theorem one_call_live : NoLeftovers siluNodes [plainCall] (Executor.init siluTensors) ∧
      ∀ m ∈ executeAll siluNodes [plainCall] (Executor.init siluTensors), m.BuffersLive := by
  have hclear : NoLeftovers siluNodes [plainCall] (Executor.init siluTensors) :=
    ⟨fun _ _ => rfl, trivial⟩
  exact ⟨hclear, (buffers_live siluNodes siluTensors [plainCall]
    (fun _ hc => mem_singleton.mp hc ▸ plainCall_sound)).mpr hclear⟩

/-- A second call runs the node on a buffer that it has freed. -/
theorem second_call_dangles :
    ∃ m ∈ executeAll siluNodes [plainCall, plainCall] (Executor.init siluTensors),
      m.assigned = [(1, 0)] ∧ m.owned.length = 0 ∧ (m.tensor 1).data = 65 ∧ ¬ m.BuffersLive := by
  obtain ⟨m, hm, hassigned, howned, hdata⟩ : ∃ m,
      (executeAll siluNodes [plainCall, plainCall] (Executor.init siluTensors))[2]? = some m ∧
        m.assigned = [(1, 0)] ∧ m.owned.length = 0 ∧ (m.tensor 1).data = 65 :=
    ⟨_, rfl, rfl, rfl, rfl⟩
  refine ⟨m, mem_of_getElem? hm, hassigned, howned, hdata, fun hlive => ?_⟩
  obtain ⟨⟨b, hb, -⟩, -⟩ := hlive (1, 0) (hassigned ▸ mem_cons_self)
  exact absurd (length_pos_of_mem hb) (by omega)

end DenseCore.Hal
