/-
Weights stored by name.

`DenseCoreSetWeight` looks a weight up by the name it has in a checkpoint and copies its
bytes.  A name of a layer is cut into prefix, number and the rest by `ParseTensorName`,
which looks for the dot behind the number from index 6 on.  That is the place of the dot
in front of the number, so the number is empty and no layer is ever found: a name that
begins with "layers." counts as one the runtime does not use, and the call succeeds
without storing anything.
-/
import Mathlib.Algebra.Order.BigOperators.GroupWithZero.List
import Mathlib.Algebra.Order.Ring.Int
import DenseCore.Lib.Strings

namespace DenseCore.Models

open Lib Lib.Strings List

/-! ### The model and its weights -/

/-- A tensor of the model: its size, and its bytes once it has any. -/
structure WeightTensor where
  nbytes : Nat
  data : Option Bytes
deriving DecidableEq, Repr

/-- The tensors of a layer by key. -/
abbrev LayerTensors := List (Bytes × Option WeightTensor)

/-- The tensors that a model can be given. -/
structure WeightModel where
  tokEmbeddings : Option WeightTensor
  outputNorm : Option WeightTensor
  output : Option WeightTensor
  layers : List LayerTensors
deriving DecidableEq, Repr

/-- Where a pointer to a tensor can point. -/
inductive TensorSlot where
  | tokEmbeddings
  | outputNorm
  | output
  | layer (idx : Nat) (key : Bytes)
deriving DecidableEq, Repr

/-- `DenseCoreTensor`; the extents from `ndim` on are unused and, says the header, 0. -/
structure SourceTensor where
  shape : Int × Int × Int × Int
  ndim : Int
  dtype : Int
  data : Bytes
deriving DecidableEq, Repr

/-- What `DenseCoreSetWeight` returns. -/
inductive WeightStatus where
  | ok
  | invalidArgument
  | modelLoadFailed
  | internalError
deriving DecidableEq, Repr

/-! ### Names -/

/-- `std::stoi`; none is the exception. -/
def stoi (text : Bytes) : Option Int :=
  let text := text.dropWhile fun b => b = 32 || 9 ≤ b && b ≤ 13
  let (sign, digits) : Int × Bytes :=
    match text with
    | 45 :: rest => (-1, rest)
    | 43 :: rest => (1, rest)
    | rest => (1, rest)
  let digits := digits.takeWhile fun b => 48 ≤ b && b ≤ 57
  if digits = [] then none
  else
    let n := sign * digits.foldl (fun n d => 10 * n + (d.toNat - 48 : Int)) 0
    if -2 ^ 31 ≤ n ∧ n < 2 ^ 31 then some n else none

/-- A name taken apart. -/
structure TensorPath where
  layerIdx : Int
  subname : Bytes
  isLayer : Bool
deriving DecidableEq, Repr

/-- `name.find(pat, start)`. -/
def findFrom (pat name : Bytes) (start : Nat) : Option Nat :=
  (index pat (name.drop start)).map (start + ·)

/-- `ParseTensorName`. -/
def parseTensorName (name : Bytes) : TensorPath :=
  let unparsed : TensorPath := { layerIdx := -1, subname := [], isLayer := false }
  if (literal "layers.").isPrefixOf name then
    let firstDot := 6
    match findFrom [46] name firstDot with
    | none => unparsed
    | some secondDot =>
      match stoi ((name.drop firstDot).take (secondDot - firstDot)) with
      | none => unparsed
      | some n => { layerIdx := n, subname := name.drop (secondDot + 1), isLayer := true }
  else { unparsed with subname := name }

/-- `layer_map`. -/
def layerMap : List (Bytes × Bytes) :=
  [("self_attn.q_proj.weight", "attn_q.weight"), ("self_attn.k_proj.weight", "attn_k.weight"),
    ("self_attn.v_proj.weight", "attn_v.weight"), ("self_attn.o_proj.weight", "attn_output.weight"),
    ("mlp.gate_proj.weight", "ffn_gate.weight"), ("mlp.up_proj.weight", "ffn_up.weight"),
    ("mlp.down_proj.weight", "ffn_down.weight"),
    ("input_layernorm.weight", "attention_norm.weight"),
    ("post_attention_layernorm.weight", "ffn_norm.weight"),
    ("self_attn.q_norm.weight", "attn_q_norm.weight"),
    ("self_attn.k_norm.weight", "attn_k_norm.weight"), ("self_attn.q_proj.bias", "attn_q.bias"),
    ("self_attn.k_proj.bias", "attn_k.bias"), ("self_attn.v_proj.bias", "attn_v.bias"),
    ("self_attn.o_proj.bias", "attn_output.bias")].map fun e => (literal e.1, literal e.2)

variable (m : WeightModel)

/-- `FindTensorPointer`. -/
def findTensorPointer (name : Bytes) : Option TensorSlot :=
  if name = literal "model.embed_tokens.weight" then some .tokEmbeddings
  else if name = literal "model.norm.weight" then some .outputNorm
  else if name = literal "lm_head.weight" then some .output
  else
    let path := parseTensorName name
    if path.isLayer = false ∨ path.layerIdx < 0 ∨
        Int.bmod m.layers.length (2 ^ 32) ≤ path.layerIdx then none
    else do
      let layer ← m.layers[path.layerIdx.toNat]?
      let key ← layerMap.lookup path.subname
      if (layer.lookup key).isSome then some (.layer path.layerIdx.toNat key) else none

/-! ### Storing -/

/-- The tensor in a slot. -/
def WeightModel.get : TensorSlot → Option WeightTensor
  | .tokEmbeddings => m.tokEmbeddings
  | .outputNorm => m.outputNorm
  | .output => m.output
  | .layer idx key => ((m.layers.getD idx []).lookup key).join

/-- The model with one slot filled. -/
def WeightModel.set (t : WeightTensor) : TensorSlot → WeightModel
  | .tokEmbeddings => { m with tokEmbeddings := some t }
  | .outputNorm => { m with outputNorm := some t }
  | .output => { m with output := some t }
  | .layer idx key => { m with layers := m.layers.modify idx fun l => (key, some t) :: l }

/-- The bytes that are copied, by shape and type. -/
def SourceTensor.sizeBytes (t : SourceTensor) : Nat :=
  let (d0, d1, d2, d3) := t.shape
  let width := if t.dtype = 0 then 4 else if t.dtype = 1 ∨ t.dtype = 2 then 2 else 1
  ((d0 * max 1 d1 * max 1 d2 * max 1 d3 * width) % 2 ^ 64).toNat

/-- `DenseCoreSetWeight`; none is a null pointer. -/
def setWeight (engine : Option (Option WeightModel)) (name : Option Bytes)
    (tensor : Option SourceTensor) : WeightStatus × Option (Option WeightModel) :=
  match engine, name, tensor with
  | some model, some name, some tensor =>
    match model with
    | none => (.modelLoadFailed, engine)
    | some m =>
      match findTensorPointer m name with
      | none => (.ok, engine)
      | some slot =>
        match m.get slot with
        | none => (.internalError, engine)
        | some target =>
          let n := tensor.sizeBytes
          let data := tensor.data.take n ++ (target.data.getD []).drop n
          (.ok, some (some (m.set { target with data := some data } slot)))
  | _, _, _ => (.invalidArgument, engine)

/-! ### Layer names -/

/-- `layers.<idx>.<sub>`. -/
def layerName (idx : Nat) (sub : Bytes) : Bytes :=
  literal "layers." ++ literal (toString idx) ++ literal "." ++ sub

theorem parseTensorName_layers (rest : Bytes) :
    (parseTensorName (literal "layers." ++ rest)).isLayer = false := by
  have hstart : (literal "layers.").isPrefixOf (literal "layers." ++ rest) = true :=
    isPrefixOf_iff_prefix.mpr (prefix_append _ _)
  have hdot : findFrom [46] (literal "layers." ++ rest) 6 = some 6 := by
    have hfirst : index [46] ([46] ++ rest) = some 0 := index_prefix _ _
    show (index [46] ([46] ++ rest)).map (6 + ·) = some 6
    rw [hfirst]
    rfl
  unfold parseTensorName
  simp only [hstart, if_true, hdot, Nat.sub_self, take_zero]
  rfl

theorem findTensorPointer_layers (rest : Bytes) :
    findTensorPointer m (literal "layers." ++ rest) = none := by
  -- no name of the first three begins so
  have hne : ∀ s : Bytes, ¬ literal "layers." <+: s → literal "layers." ++ rest ≠ s :=
    fun s hs h => hs ⟨rest, h⟩
  unfold findTensorPointer
  rw [if_neg (hne _ (by decide)), if_neg (hne _ (by decide)), if_neg (hne _ (by decide))]
  exact if_pos (Or.inl (parseTensorName_layers rest))

/-- **No weight of a layer is stored**, and no call says so. -/
theorem setWeight_layer_lost (m : WeightModel) (idx : Nat) (sub key : Bytes)
    (tensor : SourceTensor) :
    findTensorPointer m (layerName idx sub) ≠ some (.layer idx key) ∧
      setWeight (some (some m)) (some (layerName idx sub)) (some tensor) =
        (.ok, some (some m)) := by
  have hnone : findTensorPointer m (layerName idx sub) = none := by
    unfold layerName
    rw [append_assoc, append_assoc]
    exact findTensorPointer_layers m _
  constructor
  · rw [hnone]
    exact nofun
  · simp only [setWeight, hnone]

/-- A model of one layer with a query projection, which is not found. -/
theorem query_weight_lost :
    (literal "self_attn.q_proj.weight", literal "attn_q.weight") ∈ layerMap ∧
      layerName 0 (literal "self_attn.q_proj.weight") = literal "layers.0.self_attn.q_proj.weight" ∧
      findTensorPointer
        { tokEmbeddings := none, outputNorm := none, output := none
          layers := [[(literal "attn_q.weight", some { nbytes := 4, data := none })]] }
        (literal "layers.0.self_attn.q_proj.weight") = none ∧
      (setWeight (some (some
          { tokEmbeddings := none, outputNorm := none, output := none
            layers := [[(literal "attn_q.weight", some { nbytes := 4, data := none })]] }))
        (some (literal "layers.0.self_attn.q_proj.weight"))
        (some { shape := (1, 1, 1, 1), ndim := 1, dtype := 0, data := [1, 2, 3, 4] })).1 = .ok := by
  refine ⟨mem_cons_self, ?_, ?_, ?_⟩ <;> decide +kernel

/-! ### What a call changes

The slots are apart: a tensor stored in one is read back from it, and the others stay. -/

variable {m} {slot : TensorSlot} {target : WeightTensor}

theorem WeightModel.get_set_self (h : m.get slot = some target) (t : WeightTensor) :
    (m.set t slot).get slot = some t := by
  cases slot with
  | layer idx key =>
    have hidx : idx < m.layers.length := by
      by_contra hout
      simp [get, getD_eq_getElem?_getD, getElem?_eq_none (Nat.le_of_not_lt hout)] at h
    simp [get, set, getD_eq_getElem?_getD, getElem?_eq_getElem hidx]
  | tokEmbeddings | outputNorm | output => rfl

theorem WeightModel.get_set_of_ne (t : WeightTensor) {slot' : TensorSlot} (h : slot' ≠ slot) :
    (m.set t slot).get slot' = m.get slot' := by
  cases slot with
  | layer idx key =>
    cases slot' with
    | layer idx' key' =>
      simp only [get, set, getD_eq_getElem?_getD, getElem?_modify]
      by_cases hidx : idx = idx'
      · subst hidx
        have hkey : key' ≠ key := fun hc => h (by rw [hc])
        cases m.layers[idx]? <;> simp [lookup_cons, beq_false_of_ne hkey]
      · simp [hidx]
    | tokEmbeddings | outputNorm | output => rfl
  | tokEmbeddings | outputNorm | output =>
    cases slot' <;> first | rfl | exact absurd rfl h

/-! ### Sizes

The extents and the width of the type are multiplied in `size_t`; where that is not the size
of the tensor the code only warns, and copies.  It never looks at `ndim`: an extent behind
the first counts as at least 1, used or not, so a used extent of 0 counts as 1.  The width is
1 for every type that it does not name, so INT4, INT32 and unknown data are measured wrong. -/

/-- The extents that the source tensor uses. -/
def SourceTensor.extents (t : SourceTensor) : List Int :=
  let (d0, d1, d2, d3) := t.shape
  [d0, d1, d2, d3]

/-- The elements that a shape stands for: the product of the extents in use. -/
def SourceTensor.elements (t : SourceTensor) : Option Nat :=
  let used := t.extents.take t.ndim.toNat
  if 0 ≤ t.ndim ∧ t.ndim ≤ 4 ∧ ∀ d ∈ used, 0 ≤ d then some used.prod.toNat else none

/-- The elements that the code counts. -/
def SourceTensor.counted (t : SourceTensor) : Int :=
  let (d0, d1, d2, d3) := t.shape
  d0 * max 1 d1 * max 1 d2 * max 1 d3

/-- The bytes of elements of a `DenseCoreDType`; INT4 is packed. -/
def dtypeBytes (dtype : Int) (elements : Nat) : Option Nat :=
  if dtype = 0 ∨ dtype = 5 then some (4 * elements)
  else if dtype = 1 ∨ dtype = 2 then some (2 * elements)
  else if dtype = 3 then some elements
  else if dtype = 4 then some ((elements + 1) / 2)
  else none

/-- An error that changes nothing; or the bytes that shape and type give are as many as the
target has, `memcpy` is told that number, the caller's buffer holds so many, the target gets
them in front of what it had behind, and no other tensor changes. -/
def SetsExactly (m : WeightModel) (name : Bytes) (slot : TensorSlot) (tensor : SourceTensor) :
    Prop :=
  let r := setWeight (some (some m)) (some name) (some tensor)
  r.1 ≠ .ok ∧ r.2 = some (some m) ∨
    r.1 = .ok ∧ ∃ target after, m.get slot = some target ∧ r.2 = some (some after) ∧
      tensor.elements.bind (dtypeBytes tensor.dtype) = some target.nbytes ∧
      tensor.sizeBytes = target.nbytes ∧ target.nbytes ≤ tensor.data.length ∧
      after.get slot = some { target with
        data := some (tensor.data.take target.nbytes ++
          (target.data.getD []).drop target.nbytes) } ∧
      ∀ slot', slot' ≠ slot → after.get slot' = m.get slot'

/-- The code's width is that of the type, or there is nothing to measure. -/
def RightWidth (dtype : Int) (elements : Nat) : Prop :=
  dtype = 0 ∨ dtype = 1 ∨ dtype = 2 ∨ dtype = 3 ∨ dtype = 4 ∧ elements ≤ 1 ∨
    dtype = 5 ∧ elements = 0

/-- The width that the code takes a type to have. -/
def codeWidth (dtype : Int) : Nat := if dtype = 0 then 4 else if dtype = 1 ∨ dtype = 2 then 2 else 1

/-- The elements are counted right and the width is right; or they are counted wrong, and the
wrong product wraps round to the right number of bytes. -/
def RightSize (t : SourceTensor) (elements bytes : Nat) : Prop :=
  if t.counted = elements then RightWidth t.dtype elements
  else t.counted * codeWidth t.dtype % 2 ^ 64 = bytes

/-- Elements are counted right where the extents in use behind the first are at least 1 and
the others at most 1. -/
theorem counted_eq_elements {t : SourceTensor} {e : Nat} (he : t.elements = some e)
    (hndim : 1 ≤ t.ndim) (hused : ∀ d ∈ (t.extents.take t.ndim.toNat).tail, 1 ≤ d)
    (hrest : ∀ d ∈ t.extents.drop t.ndim.toNat, d ≤ 1) : t.counted = e := by
  obtain ⟨⟨d0, d1, d2, d3⟩, ndim, dtype, data⟩ := t
  simp only [SourceTensor.elements, SourceTensor.extents, SourceTensor.counted] at *
  obtain ⟨⟨-, h4, h0⟩, he⟩ := Option.ite_none_right_eq_some.mp he
  cases he
  have hmax : ∀ d : Int, 1 ≤ d → max 1 d = d := fun d hd => max_eq_right hd
  have hone : ∀ d : Int, d ≤ 1 → max 1 d = 1 := fun d hd => max_eq_left hd
  have hprod := List.prod_nonneg h0
  obtain ⟨n, rfl⟩ := Int.eq_ofNat_of_zero_le (by omega : 0 ≤ ndim)
  obtain rfl | rfl | rfl | rfl : n = 1 ∨ n = 2 ∨ n = 3 ∨ n = 4 := by omega
  all_goals
    simp only [Int.toNat_natCast, take_succ_cons, take_zero, tail_cons, drop_succ_cons, drop_zero,
      drop_nil, forall_mem_cons, prod_cons, prod_nil, mul_one] at hused hrest hprod ⊢
    rw [Int.toNat_of_nonneg hprod]
    simp [*, mul_assoc]

theorem sizeBytes_eq (t : SourceTensor) :
    t.sizeBytes = (t.counted * codeWidth t.dtype % 2 ^ 64).toNat := rfl

theorem codeWidth_iff {dtype : Int} {e b : Nat} (hb : dtypeBytes dtype e = some b) :
    e * codeWidth dtype % 2 ^ 64 = b ↔ b < 2 ^ 64 ∧ RightWidth dtype e := by
  have hsame : ∀ w, codeWidth dtype = w → w * e = b → RightWidth dtype e →
      (e * codeWidth dtype % 2 ^ 64 = b ↔ b < 2 ^ 64 ∧ RightWidth dtype e) := by
    rintro w hw rfl hr
    rw [hw, Nat.mul_comm, Nat.mod_eq_iff_lt (by decide)]
    exact (and_iff_left hr).symm
  unfold dtypeBytes at hb
  split at hb
  · rename_i h
    cases hb
    rcases h with rfl | rfl
    · exact hsame 4 rfl rfl (.inl rfl)
    · have hle := Nat.mod_le (e * 1) (2 ^ 64)
      rw [show codeWidth 5 = 1 from rfl, show RightWidth 5 e ↔ e = 0 by simp [RightWidth]]
      constructor
      · intro h
        rw [h] at hle
        omega
      · rintro ⟨-, rfl⟩
        rfl
  split at hb
  · rename_i h
    exact hsame 2 (by unfold codeWidth; split <;> omega) (Option.some.inj hb)
      (.inr (h.imp_right .inl))
  split at hb
  · rename_i h
    subst h
    exact hsame 1 rfl ((Nat.one_mul e).trans (Option.some.inj hb)) (by simp [RightWidth])
  split at hb
  · rename_i h
    cases hb
    subst h
    rw [show codeWidth 4 = 1 from rfl, show RightWidth 4 e ↔ e ≤ 1 by simp [RightWidth]]
    omega
  exact nomatch hb

theorem sizeBytes_iff {t : SourceTensor} {e b : Nat} (hb : dtypeBytes t.dtype e = some b) :
    t.sizeBytes = b ↔ b < 2 ^ 64 ∧ RightSize t e b := by
  rw [sizeBytes_eq, RightSize]
  split
  next h =>
    rw [← codeWidth_iff hb, h]
    omega
  next h =>
    omega

/-- **What is copied is what was meant** where the elements and their width are counted right
and the buffer holds them. -/
theorem setsExactly_iff {m : WeightModel} {name : Bytes} {slot : TensorSlot}
    (hslot : findTensorPointer m name = some slot) (tensor : SourceTensor) :
    SetsExactly m name slot tensor ↔
      m.get slot = none ∨ ∃ target e, m.get slot = some target ∧ tensor.elements = some e ∧
        dtypeBytes tensor.dtype e = some target.nbytes ∧ target.nbytes < 2 ^ 64 ∧
        RightSize tensor e target.nbytes ∧ target.nbytes ≤ tensor.data.length := by
  unfold SetsExactly setWeight
  dsimp only
  rw [hslot]
  dsimp only
  cases hget : m.get slot with
  | none => exact ⟨fun _ => .inl rfl, fun _ => .inl ⟨nofun, rfl⟩⟩
  | some target =>
    constructor
    · rintro (⟨hne, -⟩ | ⟨-, _, _, ⟨⟩, -, hbytes, hsize, hlen, -⟩)
      · exact absurd rfl hne
      obtain ⟨e, he, hb⟩ := Option.bind_eq_some_iff.mp hbytes
      obtain ⟨hlt, hright⟩ := (sizeBytes_iff hb).mp hsize
      exact .inr ⟨target, e, rfl, he, hb, hlt, hright, hlen⟩
    · rintro (h | ⟨_, e, ⟨⟩, he, hb, hlt, hright, hlen⟩)
      · exact nomatch h
      have hsize := (sizeBytes_iff hb).mpr ⟨hlt, hright⟩
      refine .inr ⟨rfl, target, _, rfl, rfl, Option.bind_eq_some_iff.mpr ⟨e, he, hb⟩, hsize, hlen,
        ?_, fun slot' hne => WeightModel.get_set_of_ne _ hne⟩
      rw [WeightModel.get_set_self hget, hsize]

/-- A model whose output norm has four bytes. -/
def normModel : WeightModel where
  tokEmbeddings := none
  outputNorm := some { nbytes := 4, data := some [0, 0, 0, 0] }
  output := none
  layers := []

theorem normModel_setsExactly : SetsExactly normModel (literal "model.norm.weight") .outputNorm
      { shape := (1, 0, 0, 0), ndim := 1, dtype := 0, data := [1, 2, 3, 4] } := by
  refine (setsExactly_iff (by decide +kernel) _).mpr (.inr ⟨⟨4, some [0, 0, 0, 0]⟩, 1, ?_⟩)
  have hcounted := counted_eq_elements (e := 1)
    (t := { shape := (1, 0, 0, 0), ndim := 1, dtype := 0, data := [1, 2, 3, 4] })
    rfl (by decide) (by decide) (by decide)
  exact ⟨rfl, rfl, rfl, by decide, (if_pos hcounted).mpr (.inl rfl), by decide⟩

/-- Eight bytes go into a tensor of four. -/
theorem long_weight_overruns : ¬ SetsExactly normModel (literal "model.norm.weight") .outputNorm
      { shape := (2, 0, 0, 0), ndim := 1, dtype := 0, data := [1, 2, 3, 4, 5, 6, 7, 8] } := by
  have hslot : findTensorPointer normModel (literal "model.norm.weight") = some .outputNorm := by
    decide +kernel
  unfold SetsExactly setWeight
  dsimp only
  rw [hslot]
  rintro (⟨hne, -⟩ | ⟨-, _, _, ⟨⟩, -, -, hsize, -⟩)
  · exact hne rfl
  · exact absurd hsize (by decide)

end DenseCore.Models
