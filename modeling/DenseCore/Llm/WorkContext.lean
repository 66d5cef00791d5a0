/-
The userdata pools of an inference work context.

A node of the compute graph does not own its parameters: while the graph is
built each node is given a slot of a fixed pool of the current
`InferenceWorkContext`, the builder writes the node's layer, weight and cache
into that slot, and the node reads them back when the graph runs.  The getters
of `llm/runtime/work_context.cpp` hand the slots out.  Two of them compute the
slot from the layer, the others count.
-/
import Mathlib.Data.List.Basic

namespace DenseCore.Llm

/-! ### The pools -/

/-- The pools whose next slot is a counter of the context. -/
inductive CountedPool where
  | pagedAttention
  | gemv
  | gemvBatched
  | addRMSNorm
  | qkv
  | ssmConv1D
  | lfm2ShortConv
  | projectionReference
  | rmsNormReference
  | attentionCoreReference
  | ssmQwen35Delta
deriving DecidableEq, Repr

/-- The pools a slot can lie in. -/
inductive Pool where
  | kvCache
  | kvUpdateGather
  | counted (pool : CountedPool)
deriving DecidableEq, Repr

/-- A pointer into a pool: which array, which element. -/
structure Slot where
  pool : Pool
  index : Nat
deriving DecidableEq, Repr

/-- The two exceptions a getter throws. -/
inductive WorkContextException where
  | invalidArgument (message : String)
  | outOfMemory (message : String)
deriving DecidableEq, Repr

def kMaxKVCacheUserDataSlots : Nat := 256

def kMaxKVUpdateGatherSlots : Nat := 256

def kMaxPagedAttentionUserDataSlots : Nat := 256

def kMaxGemvUserDataSlots : Nat := 2048

def kMaxAddRMSNormSlots : Nat := 256

def kMaxQKVUserDataSlots : Nat := 256

namespace CountedPool

/-- How many slots the pool has. -/
def size : CountedPool → Nat
  | pagedAttention => kMaxPagedAttentionUserDataSlots
  | gemv => kMaxGemvUserDataSlots
  | gemvBatched => kMaxGemvUserDataSlots
  | addRMSNorm => kMaxAddRMSNormSlots
  | qkv => kMaxQKVUserDataSlots
  | ssmConv1D => 128
  | lfm2ShortConv => 128
  | projectionReference => 384
  | rmsNormReference => 256
  | attentionCoreReference => 128
  | ssmQwen35Delta => 128

/-- What the getter throws when the counter is past the pool, for the pools
that throw.  The others start over at slot zero. -/
def exhausted : CountedPool → Option String
  | addRMSNorm => some ("AddRMSNormUserData pool exhausted (max=256). " ++
      "Consider increasing kMaxAddRMSNormSlots for deep models.")
  | qkv => some ("QKVUserData pool exhausted (max=256). " ++
      "Consider increasing kMaxQKVUserDataSlots for deep models.")
  | ssmConv1D => some "SSMConv1DUserData pool exhausted"
  | lfm2ShortConv => some "LFM2ShortConvUserData pool exhausted"
  | ssmQwen35Delta => some "SSMQwen35DeltaUserData pool exhausted"
  | pagedAttention => none
  | gemv => none
  | gemvBatched => none
  | projectionReference => none
  | rmsNormReference => none
  | attentionCoreReference => none

/-- The getter's name, as its message has it. -/
def getterName : CountedPool → String
  | pagedAttention => "GetPagedAttentionUserData"
  | gemv => "GetGemvUserData"
  | gemvBatched => "GetGemvBatchedUserData"
  | addRMSNorm => "GetAddRMSNormUserData"
  | qkv => "GetQKVUserData"
  | ssmConv1D => "GetSSMConv1DUserData"
  | lfm2ShortConv => "GetLFM2ShortConvUserData"
  | projectionReference => "GetProjectionReferenceUserData"
  | rmsNormReference => "GetRmsNormReferenceUserData"
  | attentionCoreReference => "GetAttentionCoreReferenceUserData"
  | ssmQwen35Delta => "GetSSMQwen35DeltaUserData"

end CountedPool

/-! ### The context and its getters -/

/-- The counters of an `InferenceWorkContext`, and the contents of its slots:
whatever the builder last wrote there. -/
structure InferenceWorkContext (δ : Type) where
  index : CountedPool → Nat := fun _ => 0
  userdata : Slot → Option δ := fun _ => none

variable {δ : Type}

/-- `ResetInferenceWorkContext`: every counter starts over.  The slots keep
what they hold. -/
def resetInferenceWorkContext (ctx : InferenceWorkContext δ) : InferenceWorkContext δ :=
  { ctx with index := fun _ => 0 }

/-- What a getter does with the current work context of the thread, if any. -/
abbrev Getter (δ : Type) :=
  Option (InferenceWorkContext δ) →
    Except WorkContextException Slot × Option (InferenceWorkContext δ)

/-- The null check every getter starts with. -/
def withCurrentWorkContext (name : String)
    (body : InferenceWorkContext δ → Except WorkContextException Slot × InferenceWorkContext δ) :
    Getter δ
  | none => (.error (.invalidArgument
      (name ++ " called without active InferenceWorkContext")), none)
  | some ctx => ((body ctx).1, some (body ctx).2)

/-- The slot of a layer's K or V: two slots a layer, wrapped into the pool. -/
def layerSlotIndex (slots layer : Nat) (isK : Bool) : Nat :=
  let idx := layer * 2 + (if isK then 0 else 1)
  if slots ≤ idx then idx % slots else idx

/-- The slot for the cache of a layer's keys or values. -/
def getKVCacheUserData (layer : Nat) (isK : Bool) : Getter δ :=
  withCurrentWorkContext "GetKVCacheUserData" fun ctx =>
    (.ok ⟨.kvCache, layerSlotIndex kMaxKVCacheUserDataSlots layer isK⟩, ctx)

/-- The slot for the gather of a layer's keys or values. -/
def getKVUpdateGatherUserData (layer : Nat) (isK : Bool) : Getter δ :=
  withCurrentWorkContext "GetKVUpdateGatherUserData" fun ctx =>
    (.ok ⟨.kvUpdateGather, layerSlotIndex kMaxKVUpdateGatherSlots layer isK⟩, ctx)

/-- `idx = index++`, and the pool's own answer when `idx` is past its end: the
counter goes back to zero, and the call throws or takes slot zero. -/
def takeSlot (pool : CountedPool) : Getter δ :=
  withCurrentWorkContext pool.getterName fun ctx =>
    let idx := ctx.index pool
    let left (next : Nat) : InferenceWorkContext δ :=
      { ctx with index := fun p => if p = pool then next else ctx.index p }
    if pool.size ≤ idx then
      match pool.exhausted with
      | some message => (.error (.outOfMemory message), left 0)
      | none => (.ok ⟨.counted pool, 0⟩, left 0)
    else
      (.ok ⟨.counted pool, idx⟩, left (idx + 1))

def getPagedAttentionUserData : Getter δ := takeSlot .pagedAttention

def getGemvUserData : Getter δ := takeSlot .gemv

def getGemvBatchedUserData : Getter δ := takeSlot .gemvBatched

def getAddRMSNormUserData : Getter δ := takeSlot .addRMSNorm

def getQKVUserData : Getter δ := takeSlot .qkv

def getSSMConv1DUserData : Getter δ := takeSlot .ssmConv1D

def getLFM2ShortConvUserData : Getter δ := takeSlot .lfm2ShortConv

def getProjectionReferenceUserData : Getter δ := takeSlot .projectionReference

def getRmsNormReferenceUserData : Getter δ := takeSlot .rmsNormReference

def getAttentionCoreReferenceUserData : Getter δ := takeSlot .attentionCoreReference

def getSSMQwen35DeltaUserData : Getter δ := takeSlot .ssmQwen35Delta

/-! ### Building a graph -/

/-- A getter call of the graph builder. -/
inductive GetterCall where
  | kvCache (layer : Nat) (isK : Bool)
  | kvUpdateGather (layer : Nat) (isK : Bool)
  | counted (pool : CountedPool)
deriving DecidableEq, Repr

/-- Which getter a call of the builder runs. -/
def GetterCall.run : GetterCall → Getter δ
  | .kvCache layer isK => getKVCacheUserData layer isK
  | .kvUpdateGather layer isK => getKVUpdateGatherUserData layer isK
  | .counted .pagedAttention => getPagedAttentionUserData
  | .counted .gemv => getGemvUserData
  | .counted .gemvBatched => getGemvBatchedUserData
  | .counted .addRMSNorm => getAddRMSNormUserData
  | .counted .qkv => getQKVUserData
  | .counted .ssmConv1D => getSSMConv1DUserData
  | .counted .lfm2ShortConv => getLFM2ShortConvUserData
  | .counted .projectionReference => getProjectionReferenceUserData
  | .counted .rmsNormReference => getRmsNormReferenceUserData
  | .counted .attentionCoreReference => getAttentionCoreReferenceUserData
  | .counted .ssmQwen35Delta => getSSMQwen35DeltaUserData

/-- What each call of a sequence of getter calls came back with. -/
def getterResults : Option (InferenceWorkContext δ) → List GetterCall →
    List (GetterCall × Except WorkContextException Slot)
  | _, [] => []
  | ctx, call :: rest => (call, (call.run ctx).1) :: getterResults (call.run ctx).2 rest

end DenseCore.Llm
