/-
The buffers of the graph executor.

`GraphExecutor::Execute` (`runtime/graph_executor.cpp`) frees the buffers of the call before
it, validates the graph, and runs the nodes.  Before a node runs, each of its outputs gets a
shape, and a buffer if it has no data yet.  The executor owns the buffers; the pointers to
them are in the graph's tensors and stay there after the call.

What the registry's kernels do to the contents of buffers is left out, and so are strides,
layouts and devices.  Whether the registry admits the graph, what dispatching a node comes
to, and where memory is found are up to the call.  Sizes are mathematical integers.
-/
import DenseCore.Hal.OperationGraph

namespace DenseCore.Hal

variable {F : Type}

/-! ### Shapes -/

namespace Tensor

/-- `HasConcreteShape`. -/
def hasConcreteShape (t : Tensor) : Bool := decide (0 < t.ndim ∧ t.ndim ≤ 4) && t.hasValidShape

/-- The extents of a tensor. -/
def dims (t : Tensor) : List Int := (List.range t.ndim.toNat).map t.dim

/-- `SetTensorShape`, and `Tensor::Wrap` on the data that is there. -/
def withShape (t : Tensor) (shape : List Int) : Tensor :=
  { t with shape := shape.take 4, ndim := min shape.length 4 }

end Tensor

/-- `SafePositive`. -/
def safePositive (v : Int) (fallback : Int := 1) : Int := if 0 < v then v else fallback

/-- `FlattenRows`. -/
def flattenRows (t : Tensor) : Int :=
  if t.ndim ≤ 1 then safePositive (t.dim 0)
  else ((t.dims.dropLast).map fun d => safePositive d).prod

/-- `LastDim`. -/
def lastDim (t : Tensor) : Int :=
  if t.ndim ≤ 0 then 1 else safePositive (t.dim (t.ndim - 1).toNat)

/-- The dimensions of a tensor but the last, and a new last one. -/
def withLast (t : Tensor) (n : Int) : List Int :=
  (t.dims.dropLast.map fun d => safePositive d) ++ [safePositive n]

/-- The shape that `InferOutputTensorMeta` finds for an output, if any. -/
def inferShape (op : OpType) (inputs : List Tensor) (params : OpParams F) : Option (List Int) :=
  let copyFirst := match inputs with
    | x :: _ => if x.hasConcreteShape then some x.dims else none
    | [] => none
  match op with
  | .matMul =>
    match inputs with
    | a :: b :: _ =>
      if a.ndim < 2 ∨ b.ndim < 2 then none
      else
        let p : MatMulParams := match params with
          | .matMul p => p
          | _ => {}
        let m := if p.transposeA then lastDim a else flattenRows a
        let n := if p.transposeB then flattenRows b else lastDim b
        if !p.transposeA && !p.transposeB then some (withLast a n)
        else some [safePositive m, safePositive n]
    | _ => none
  | .matMulTransB =>
    match inputs with
    | a :: b :: _ =>
      if a.ndim < 2 ∨ b.ndim < 2 then none else some (withLast a (flattenRows b))
    | _ => none
  | .pairRepresentation =>
    match inputs with
    | _ :: y :: _ => if y.hasConcreteShape then some y.dims else copyFirst
    | _ => copyFirst
  | .patchEmbed2D =>
    match inputs with
    | x :: w :: _ =>
      if x.ndim < 4 ∨ w.ndim < 1 then none
      else
        let embd := safePositive (w.dim 0) 768
        let (patch, embd, cls) : Int × Int × Bool := match params with
          | .patchEmbed p =>
            (safePositive p.patchSize 16, safePositive p.embedDim embd, p.includeClsToken)
          | _ => (if 3 ≤ w.ndim then safePositive (w.dim 2) 16 else 16, embd, true)
        let patches := safePositive (x.dim 2) / patch * (safePositive (x.dim 3) / patch)
        some [safePositive (x.dim 0), patches + (if cls then 1 else 0), embd]
    | _ => none
  | .melSpectrogram =>
    match inputs with
    | x :: _ =>
      if x.ndim < 1 then none
      else
        let (nFft, hop, nMels) : Int × Int × Int := match params with
          | .melSpectrogram p =>
            (safePositive p.nFft 400, safePositive p.hopLength 160, safePositive p.nMels 80)
          | _ => (400, 160, 80)
        let samples := safePositive (x.dim (x.ndim - 1).toNat)
        some [nMels, max 1 ((samples - nFft).tdiv hop + 1)]
    | [] => none
  | .audioConv1D =>
    match inputs with
    | x :: w :: _ =>
      let (b, len) : Int × Int :=
        if x.ndim = 3 then (safePositive (x.dim 0), safePositive (x.dim 2))
        else if x.ndim = 2 then (1, safePositive (x.dim 1))
        else (1, 1)
      let cOut := if 1 ≤ w.ndim then safePositive (w.dim 0) else 384
      let k := if 3 ≤ w.ndim then safePositive (w.dim 2) else 3
      let (cOut, k, stride, pad) : Int × Int × Int × Int := match params with
        | .audioConv1D p => (safePositive p.outChannels cOut, safePositive p.kernelSize k,
            safePositive p.stride 1, max 0 p.padding)
        | _ => (cOut, k, 1, 1)
      some [b, cOut, max 1 ((len + 2 * pad - k).tdiv stride + 1)]
    | _ => none
  | .embedding =>
    match inputs with
    | ids :: table :: _ =>
      let dim := if 2 ≤ table.ndim then safePositive (table.dim 1) else 1
      if ids.ndim = 1 then some [safePositive (ids.dim 0), dim]
      else if ids.ndim = 2 then some [safePositive (ids.dim 0), safePositive (ids.dim 1), dim]
      else some [safePositive ids.numElements, dim]
    | _ => none
  | _ => copyFirst

/-- `InferOutputTensorMeta`. -/
def inferOutputTensorMeta (op : OpType) (inputs : List Tensor) (params : OpParams F)
    (output : Tensor) : Tensor :=
  let output := if output.dtype = .unknown then
      { output with dtype := (inputs.head?.map (·.dtype)).getD .f32 }
    else output
  if output.hasConcreteShape then output
  else match inferShape op inputs params with
    | some shape => output.withShape shape
    | none => output

/-! ### Buffers -/

/-- An entry of `owned_buffers_` and `owned_buffer_sizes_`.  The number tells buffers apart
that were found at one address, one after the other. -/
structure Block where
  number : Nat
  addr : Nat
  size : Nat

/-- What comes of allocating a buffer: none; one that is freed again because the list of
buffers cannot grow; or one that the executor owns. -/
inductive Allocation where
  | none
  | lost (addr : Nat)
  | owned (addr : Nat)

/-- The executor with its tensors and the buffers it owns. -/
structure Executor where
  tensors : List Tensor
  owned : List Block := []
  external : List Nat  -- where memory of others is
  next : Nat := 0  -- history variables: the number of the next buffer, and
  assigned : List (Nat × Nat) := []  -- the tensors that were given one

namespace Executor

/-- Where memory is in use. -/
def inUse (s : Executor) : List Nat := s.external ++ s.owned.map (·.addr)

/-- The executor with one tensor replaced. -/
def setTensor (s : Executor) (out : Nat) (t : Tensor) : Executor :=
  { s with tensors := s.tensors.set out t }

/-- A buffer is given to a tensor. -/
def assign (s : Executor) (out addr : Nat) (t : Tensor) : Executor :=
  { s with
    tensors := s.tensors.set out { t with data := addr }
    next := s.next + 1
    assigned := (out, s.next) :: s.assigned }

/-- `EnsureTensorData`; `false` where it throws. -/
def ensureTensorData (malloc : List Nat → Nat → Allocation) (s : Executor) (out : Nat)
    (tensor : Tensor) : Executor × Bool :=
  if tensor.data ≠ 0 ∨ tensor.hasValidShape = false then (s.setTensor out tensor, true)
  else
    let t := if tensor.dtype = .unknown then { tensor with dtype := .f32 } else tensor
    if t.sizeBytes = 0 then (s.setTensor out t, true)
    else
      match malloc s.inUse t.sizeBytes with
      | .none => (s.setTensor out t, false)
      | .lost addr => (s.assign out addr t, false)
      | .owned addr =>
        ({ s.assign out addr t with owned := s.owned ++ [⟨s.next, addr, t.sizeBytes⟩] }, true)

/-- One output of `PrepareNodeOutputs`. -/
def prepareOutput (malloc : List Nat → Nat → Allocation) (node : GraphNode F) (s : Executor)
    (out : Nat) : Executor × Bool :=
  match s.tensors[out]? with
  | none => (s, true)
  | some t =>
    let inputs := node.inputs.filterMap (s.tensors[·]?)
    s.ensureTensorData malloc out (inferOutputTensorMeta node.op inputs node.params t)

/-- `PrepareNodeOutputs`. -/
def prepareOutputs (malloc : List Nat → Nat → Allocation) (node : GraphNode F) :
    List Nat → Executor → Executor × Bool
  | [], s => (s, true)
  | out :: rest, s =>
    let r := s.prepareOutput malloc node out
    if r.2 then prepareOutputs malloc node rest r.1 else r

end Executor

/-! ### Calls -/

/-- What dispatching a node through the registry comes to. -/
inductive Dispatch where
  | done
  /-- not supported: whether the fallback for the operation goes through -/
  | unsupported (fallback : Bool)
  | failed

/-- A call of `Execute`, as far as it is not determined by the graph. -/
structure Call where
  admitted : Bool
  allowFallback : Bool
  malloc : List Nat → Nat → Allocation
  dispatch : Nat → Dispatch

/-- The checks that `ValidateGraph` makes of an operand. -/
def validOperand (tensors : List Tensor) (idx : Nat) : Bool :=
  match tensors[idx]? with
  | some t => !decide (0 < t.ndim) || t.hasValidShape
  | none => false

/-- `ValidateGraph`. -/
def validateGraph (nodes : List (GraphNode F)) (tensors : List Tensor) : Bool :=
  nodes.all fun n => n.inputs.all (validOperand tensors) && n.outputs.all (validOperand tensors)

/-- `DispatchNode`, after the outputs are prepared; `false` where it throws. -/
def dispatchNode (call : Call) (i : Nat) (node : GraphNode F) (s : Executor) : Bool :=
  match call.dispatch i with
  | .done => true
  | .unsupported fallback =>
    call.allowFallback && fallback && match node.outputs.head?.bind (s.tensors[·]?) with
      | some out => out.isValid
      | none => false
  | .failed => false

/-- The nodes from one on: the states in which a node runs, and the last state. -/
def runNodes (call : Call) : Nat → List (GraphNode F) → Executor → List Executor × Executor
  | _, [], s => ([], s)
  | i, node :: rest, s =>
    let r := s.prepareOutputs call.malloc node node.outputs
    if r.2 then
      if dispatchNode call i node r.1 then
        let last := runNodes call (i + 1) rest r.1
        (s :: r.1 :: last.1, last.2)
      else ([s, r.1], r.1)
    else ([s], r.1)

/-- Whether a call gets to the nodes. -/
def Call.Starts (call : Call) (nodes : List (GraphNode F)) (s : Executor) : Prop :=
  validateGraph nodes s.tensors = true ∧ (call.admitted = true ∨ call.allowFallback = true)

instance (call : Call) (nodes : List (GraphNode F)) (s : Executor) :
    Decidable (call.Starts nodes s) := by unfold Call.Starts; infer_instance

/-- `Execute`. -/
def execute (nodes : List (GraphNode F)) (call : Call) (s : Executor) : List Executor × Executor :=
  let s := { s with owned := [] }
  if call.Starts nodes s then runNodes call 0 nodes s else ([], s)

/-- Calls one after the other: the states in which a node runs. -/
def executeAll (nodes : List (GraphNode F)) : List Call → Executor → List Executor
  | [], _ => []
  | call :: rest, s =>
    let r := execute nodes call s
    r.1 ++ executeAll nodes rest r.2

end DenseCore.Hal
