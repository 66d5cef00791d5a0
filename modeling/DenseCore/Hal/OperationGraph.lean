/-
Operation graphs.

An `OperationGraph` (`hal/operation_graph.h`) is a list of nodes over a table of tensors.
A node names its operands by their places in the table.  A `Tensor` (`hal/tensor.h`) is a
descriptor: it points to memory that others own, and two tensors may point to the same.

Shapes have at most four dimensions, the first `ndim` of which count.  Strides, layouts
and devices are left out, as are the parameters of the operations that nothing here reads.
-/
import Mathlib.Algebra.Order.Ring.Int
import Mathlib.Algebra.BigOperators.Group.List.Basic

namespace DenseCore.Hal

/-! ### Tensors -/

/-- The element types of tensors. -/
inductive DType where
  | f32 | f16 | bf16 | int8 | int4 | int32 | unknown
deriving DecidableEq, Repr

/-- `DTypeSizeBytes`. -/
def DType.sizeBytes : DType → Nat
  | .f32 => 4
  | .f16 => 2
  | .bf16 => 2
  | .int8 => 1
  | .int4 => 0
  | .int32 => 4
  | .unknown => 0

/-- `PackedDTypeSizeBytes`. -/
def packedSizeBytes (dtype : DType) (numElements : Int) : Nat :=
  if numElements ≤ 0 then 0
  else match dtype with
    | .int4 => ((numElements + 1) / 2).toNat
    | _ => numElements.toNat * dtype.sizeBytes

/-- `Tensor`.  `data` is a pointer, 0 where there is none. -/
structure Tensor where
  data : Nat := 0
  shape : List Int := []
  ndim : Int := 0
  dtype : DType := .f32
deriving DecidableEq, Repr

namespace Tensor

variable (t : Tensor)

/-- `shape[i]`.  Unused dimensions are 0. -/
def dim (i : Nat) : Int := t.shape.getD i 0

/-- `NumElements`. -/
def numElements : Int :=
  if t.ndim ≤ 0 then 0 else ((List.range t.ndim.toNat).map t.dim).prod

/-- `SizeBytes`. -/
def sizeBytes : Nat := packedSizeBytes t.dtype t.numElements

/-- `HasValidShape`. -/
def hasValidShape : Bool :=
  decide (0 < t.ndim ∧ t.ndim ≤ 4) && (List.range t.ndim.toNat).all fun i => decide (0 < t.dim i)

/-- `IsValid`. -/
def isValid : Bool := t.data ≠ 0 && t.hasValidShape

end Tensor

/-! ### Operations -/

/-- The operations that a node can be. -/
inductive OpType where
  | matMul | matMulTransB | gemmInt4
  | add | rmsNorm | addRMSNorm | layerNorm
  | softmax | silu | gelu | siluMul
  | rope
  | flashAttention | fusedQKVProjection
  | copy | quantize | dequantize | embedding
  | crossAttention
  | patchEmbed2D | patchEmbed3D | rope2D | windowAttention | posInterpolation | rgbToFloat
  | yuv422ToFloat | conv2D | upsample2D | quickGELU
  | adaLN | groupNorm | timestepEmbed | patchify | unpatchify | temporalAttention
  | noiseSchedule | temporalRoPE | pointCloudPatchify | pointCloudUnpatchify
  | deformableAttention | gridSample | bevQuery | scatterReduce | pointAttention
  | farthestPointSampling | knnQuery | ballQuery | nerfPositionalEncoding
  | gaussianFourierFeatures
  | moeGating | moeScatter | moeGather | moeForward
  | melSpectrogram | audioConv1D
  | pairRepresentation | triangularAttention | invariantPointAttention
  | triangularMultUpdate | attentionWithPairBias
  | custom
deriving DecidableEq, Repr

/-- `RMSNormParams`. -/
structure RMSNormParams (F : Type) where
  eps : F
  fusedAdd : Bool := false

/-- `MatMulParams`. -/
structure MatMulParams where
  transposeA : Bool := false
  transposeB : Bool := false

/-- `PatchEmbedParams`. -/
structure PatchEmbedParams where
  patchSize : Int := 16
  embedDim : Int := 768
  includeClsToken : Bool := true

/-- `MelSpectrogramParams`. -/
structure MelSpectrogramParams where
  nFft : Int := 400
  hopLength : Int := 160
  nMels : Int := 80

/-- `AudioConv1DParams`. -/
structure AudioConv1DParams where
  outChannels : Int := 384
  kernelSize : Int := 3
  stride : Int := 1
  padding : Int := 1

/-- `OpParams`, with the parameters that are read. -/
inductive OpParams (F : Type) where
  | none
  | matMul (p : MatMulParams)
  | rmsNorm (p : RMSNormParams F)
  | patchEmbed (p : PatchEmbedParams)
  | melSpectrogram (p : MelSpectrogramParams)
  | audioConv1D (p : AudioConv1DParams)
  | other

/-! ### Nodes -/

/-- `GraphNode`. -/
structure GraphNode (F : Type) where
  op : OpType
  inputs : List Nat
  outputs : List Nat
  params : OpParams F := .none
  name : String := ""

end DenseCore.Hal
