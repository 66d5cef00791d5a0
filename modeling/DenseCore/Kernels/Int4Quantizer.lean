/-
Weights as groups of 4-bit numbers.

`QuantizeBlock` (`quantization/int4_quantizer.cpp`) writes a group of weights as signed nibbles
with a scale and a zero point, and `QuantizeWeight` does so for every group of a tensor.

Numbers are rational: only the rounding to nibbles loses anything.  A step that would leave an
array, or overflow a signed product, is `none`.
-/
import Mathlib.Data.Rat.Floor
import Mathlib.Data.List.ProdSigma

namespace DenseCore.Int4

open List hiding le_antisymm

/-! ### A block -/

/-- `std::round`. -/
def roundAway (x : ℚ) : ℤ := if 0 ≤ x then ⌊x + 1 / 2⌋ else -⌊1 / 2 - x⌋

/-- Rounded and kept to [0, 15]. -/
def clamp (x : ℚ) : ℤ := max 0 (min 15 (roundAway x))

def fltMax : ℚ := (2 ^ 24 - 1) * 2 ^ 104

def epsilon : ℚ := 1 / 10 ^ 8

/-- `PackInt4`. -/
def packInt4 (low high : BitVec 8) : BitVec 8 := (low &&& 0x0F) ||| ((high &&& 0x0F) <<< 4)

/-- A four bit number in two's complement. -/
def signExtend (b : BitVec 8) : BitVec 8 := if b &&& 0x08 ≠ 0 then b ||| 0xF0 else b

/-- `UnpackInt4`. -/
def unpackInt4 (packed : BitVec 8) : BitVec 8 × BitVec 8 :=
  (signExtend (packed &&& 0x0F), signExtend ((packed >>> 4) &&& 0x0F))

/-- The packed codes of a block, with its scale and its zero point. -/
structure Quantized where
  scale : ℚ
  zeroPoint : ℚ
  output : List (BitVec 8)

/-- The nibbles of the weights, two to a byte. -/
def packRow (f : ℚ → BitVec 8) : List ℚ → List (BitVec 8)
  | [] => []
  | [w0] => [packInt4 (f w0) (f 0)]
  | w0 :: w1 :: ws => packInt4 (f w0) (f w1) :: packRow f ws

/-- `QuantizeBlock`. -/
def quantizeBlock (weights : List ℚ) : Quantized :=
  let minVal := weights.foldl min fltMax
  let maxVal := weights.foldl max (-fltMax)
  let range := maxVal - minVal
  if range < epsilon then ⟨1, 0, replicate (weights.length / 2) 0⟩
  else
    let scale := range / 15
    let zeroPoint := clamp (-minVal / scale)
    ⟨scale, zeroPoint - 8,
      packRow (fun w => BitVec.ofInt 8 (clamp (w / scale + zeroPoint) - 8)) weights⟩

/-- The i-th signed nibble of packed bytes. -/
def nibble (packed : List (BitVec 8)) (i : Nat) : ℤ :=
  let p := unpackInt4 (packed.getD (i / 2) 0)
  (if i % 2 = 0 then p.1 else p.2).toInt

/-- `DequantizeInt4` of the i-th nibble. -/
def Quantized.decode (q : Quantized) (i : Nat) : ℚ :=
  q.scale * (nibble q.output i - q.zeroPoint)

/-! ### Rounding and packing -/

theorem abs_roundAway_sub (x : ℚ) : |roundAway x - x| ≤ 1 / 2 := by
  unfold roundAway
  split
  · have hle := Int.floor_le (x + 1 / 2)
    have hlt := Int.lt_floor_add_one (x + 1 / 2)
    rw [abs_le]
    constructor <;> linarith
  · have hle := Int.floor_le (1 / 2 - x)
    have hlt := Int.lt_floor_add_one (1 / 2 - x)
    push_cast
    rw [abs_le]
    constructor <;> linarith

theorem abs_clamp_sub_le_iff {x b : ℚ} (hb : 1 / 2 ≤ b) :
    |clamp x - x| ≤ b ↔ -x ≤ b ∧ x - 15 ≤ b := by
  have hround := abs_le.mp (abs_roundAway_sub x)
  have hlow : (0 : ℚ) ≤ clamp x := by
    exact_mod_cast le_max_left 0 (min 15 (roundAway x))
  have hhigh : (clamp x : ℚ) ≤ 15 := by
    exact_mod_cast max_le (by decide) (min_le_left 15 (roundAway x))
  have hcases : clamp x = roundAway x ∨ (clamp x = 0 ∧ roundAway x < 0) ∨
      (clamp x = 15 ∧ 15 < roundAway x) := by
    unfold clamp
    omega
  rw [abs_le]
  constructor
  · rintro ⟨hl, hu⟩
    constructor <;> linarith
  · rintro ⟨hl, hu⟩
    rcases hcases with h | ⟨h, hneg⟩ | ⟨h, hbig⟩
    · rw [h]
      constructor <;> linarith
    · have : (roundAway x : ℚ) ≤ -1 := by exact_mod_cast Int.le_sub_one_of_lt hneg
      rw [h]
      constructor <;> push_cast <;> linarith
    · have : (16 : ℚ) ≤ roundAway x := by exact_mod_cast hbig
      rw [h]
      constructor <;> push_cast <;> linarith

theorem unpackInt4_packInt4 : ∀ a b : Fin 16,
    unpackInt4 (packInt4 (BitVec.ofInt 8 (a - 8)) (BitVec.ofInt 8 (b - 8))) =
      (BitVec.ofInt 8 (a - 8), BitVec.ofInt 8 (b - 8)) := by
  decide +kernel

theorem exists_clamp_eq (x : ℚ) : ∃ a : Fin 16, clamp x = a :=
  ⟨⟨(clamp x).toNat, by unfold clamp; omega⟩, by simp only [clamp]; omega⟩

theorem nibble_cons (b : BitVec 8) (bs : List (BitVec 8)) (i : Nat) :
    nibble (b :: bs) (i + 2) = nibble bs i := by
  simp [nibble]

theorem nibble_packInt4 (x y : ℚ) (bs : List (BitVec 8)) :
    let b := packInt4 (BitVec.ofInt 8 (clamp x - 8)) (BitVec.ofInt 8 (clamp y - 8))
    nibble (b :: bs) 0 = clamp x - 8 ∧ nibble (b :: bs) 1 = clamp y - 8 := by
  obtain ⟨a, ha⟩ := exists_clamp_eq x
  obtain ⟨c, hc⟩ := exists_clamp_eq y
  have htoInt : ∀ a : Fin 16, (BitVec.ofInt 8 (a - 8)).toInt = a - 8 := by decide
  simp [nibble, ha, hc, unpackInt4_packInt4, htoInt]

theorem nibble_packRow (g : ℚ → ℚ) : ∀ (ws : List ℚ) (i : Nat) (w : ℚ), ws[i]? = some w →
    nibble (packRow (fun w => BitVec.ofInt 8 (clamp (g w) - 8)) ws) i = clamp (g w) - 8
  | [w0], 0, w, h => by
    obtain rfl : w0 = w := by simpa using h
    exact (nibble_packInt4 _ _ _).1
  | w0 :: w1 :: ws, 0, w, h => by
    obtain rfl : w0 = w := by simpa using h
    exact (nibble_packInt4 _ _ _).1
  | w0 :: w1 :: ws, 1, w, h => by
    obtain rfl : w1 = w := by simpa using h
    exact (nibble_packInt4 _ _ _).2
  | w0 :: w1 :: ws, i + 2, w, h => by
    rw [packRow, nibble_cons]
    exact nibble_packRow g ws i w (by simpa using h)

/-! ### The error of a block -/

/-- An even number of finite weights, with the least and the greatest of them. -/
structure Block where
  weights : List ℚ
  m : ℚ
  M : ℚ
  even : Even weights.length
  least : IsLeast {w | w ∈ weights} m
  greatest : IsGreatest {w | w ∈ weights} M
  finite : ∀ w ∈ weights, |w| ≤ fltMax

theorem foldl_min_eq {ws : List ℚ} {m a : ℚ} (h : IsLeast {w | w ∈ ws} m) (ha : m ≤ a) :
    ws.foldl min a = m := by
  have hle (ws : List ℚ) (a c : ℚ) : c ≤ ws.foldl min a ↔ c ≤ a ∧ ∀ w ∈ ws, c ≤ w := by
    induction ws generalizing a with
    | nil => simp
    | cons w ws ih => simp [ih, and_assoc]
  exact le_antisymm (((hle ws a _).mp le_rfl).2 m h.1) ((hle ws a m).mpr ⟨ha, h.2⟩)

theorem foldl_max_eq {ws : List ℚ} {M a : ℚ} (h : IsGreatest {w | w ∈ ws} M) (ha : a ≤ M) :
    ws.foldl max a = M := by
  have hle (ws : List ℚ) (a c : ℚ) : ws.foldl max a ≤ c ↔ a ≤ c ∧ ∀ w ∈ ws, w ≤ c := by
    induction ws generalizing a with
    | nil => simp
    | cons w ws ih => simp [ih, and_assoc]
  exact le_antisymm ((hle ws a M).mpr ⟨ha, h.2⟩) (((hle ws a _).mp le_rfl).2 M h.1)

namespace Block

variable (b : Block)

/-- What the error may be. -/
def bound : ℚ := (b.M - b.m) / 15 + epsilon

/-- Each weight is close to what its nibble decodes to. -/
def Close : Prop :=
  ∀ i w, b.weights[i]? = some w → |(quantizeBlock b.weights).decode i - w| ≤ b.bound

theorem quantizeBlock_eq : quantizeBlock b.weights =
      if b.M - b.m < epsilon then ⟨1, 0, replicate (b.weights.length / 2) 0⟩
      else
        let scale := (b.M - b.m) / 15
        let zeroPoint := clamp (-b.m / scale)
        ⟨scale, zeroPoint - 8,
          packRow (fun w => BitVec.ofInt 8 (clamp (w / scale + zeroPoint) - 8)) b.weights⟩ := by
  have hm := foldl_min_eq b.least ((le_abs_self _).trans (b.finite _ b.least.1))
  have hM := foldl_max_eq b.greatest (neg_le_of_abs_le (b.finite _ b.greatest.1))
  rw [quantizeBlock, hm, hM]

/-- What holds between two bounds holds of every weight if it does of the least and greatest. -/
theorem forall_weights_iff (lo hi : ℚ) :
    (∀ (i : Nat) w, b.weights[i]? = some w → lo ≤ w ∧ w ≤ hi) ↔ lo ≤ b.m ∧ b.M ≤ hi := by
  constructor
  · intro h
    obtain ⟨i, hi⟩ := mem_iff_getElem?.mp b.least.1
    obtain ⟨j, hj⟩ := mem_iff_getElem?.mp b.greatest.1
    exact ⟨(h i _ hi).1, (h j _ hj).2⟩
  · rintro ⟨hm, hM⟩ i w hw
    have hmem := mem_of_getElem? hw
    exact ⟨hm.trans (b.least.2 hmem), (b.greatest.2 hmem).trans hM⟩

theorem close_iff_of_flat (h : b.M - b.m < epsilon) : b.Close ↔ b.M ≤ b.bound ∧ -b.m ≤ b.bound := by
  have hdecode (i : Nat) : (quantizeBlock b.weights).decode i = 0 := by
    have hzero : (replicate (b.weights.length / 2) (0 : BitVec 8)).getD (i / 2) 0 = 0 := by
      rw [getD_eq_getElem?_getD, getElem?_replicate]
      split <;> rfl
    have hunpack : unpackInt4 0 = (0, 0) := by decide
    simp only [b.quantizeBlock_eq, if_pos h, Quantized.decode, nibble, hzero, hunpack]
    simp
  have hiff (w : ℚ) : |(0 : ℚ) - w| ≤ b.bound ↔ -b.bound ≤ w ∧ w ≤ b.bound := by
    rw [zero_sub, abs_neg, abs_le]
  simp only [Close, hdecode, hiff, b.forall_weights_iff]
  rw [neg_le, and_comm]

/-- Closeness of a block whose values are apart. -/
theorem close_iff_of_spread (h : ¬ b.M - b.m < epsilon) :
    b.Close ↔ b.m ≤ b.bound ∧ -b.M ≤ b.bound := by
  have heps : 0 < epsilon := by norm_num [epsilon]
  obtain ⟨s, hs⟩ : ∃ s, s = (b.M - b.m) / 15 := ⟨_, rfl⟩
  obtain ⟨z, hz⟩ : ∃ z, z = clamp (-b.m / s) := ⟨_, rfl⟩
  have hpos : 0 < s := by rw [hs]; linarith
  have hbound : 1 / 2 ≤ b.bound / s := by
    rw [le_div_iff₀ hpos, bound, ← hs]
    linarith
  have hM : b.M / s = b.m / s + 15 := by
    field_simp
    linarith
  have hdecode (i : Nat) (w : ℚ) (hw : b.weights[i]? = some w) :
      |(quantizeBlock b.weights).decode i - w| ≤ b.bound ↔
        s * (-(b.bound / s) - z) ≤ w ∧ w ≤ s * (b.bound / s + 15 - z) := by
    have hnib := nibble_packRow (fun w => w / s + z) b.weights i w hw
    have heq : (quantizeBlock b.weights).decode i - w = s * (clamp (w / s + z) - (w / s + z)) := by
      rw [b.quantizeBlock_eq, if_neg h]
      simp only [Quantized.decode, ← hs, ← hz, hnib]
      push_cast
      field_simp
      ring
    rw [heq, abs_mul, abs_of_pos hpos, ← le_div_iff₀' hpos, abs_clamp_sub_le_iff hbound,
      ← le_div_iff₀' hpos, ← div_le_iff₀' hpos]
    constructor <;> rintro ⟨hl, hu⟩ <;> constructor <;> linarith
  have hzero : (s * (-(b.bound / s) - z) ≤ b.m ∧ b.M ≤ s * (b.bound / s + 15 - z)) ↔
      |(z : ℚ) - -b.m / s| ≤ b.bound / s := by
    rw [← le_div_iff₀' hpos, ← div_le_iff₀' hpos, hM, neg_div, abs_le]
    constructor <;> rintro ⟨hl, hu⟩ <;> constructor <;> linarith
  calc b.Close
    _ ↔ s * (-(b.bound / s) - z) ≤ b.m ∧ b.M ≤ s * (b.bound / s + 15 - z) := by
      rw [← b.forall_weights_iff]
      exact forall₃_congr hdecode
    _ ↔ |(z : ℚ) - -b.m / s| ≤ b.bound / s := hzero
    _ ↔ -(-b.m / s) ≤ b.bound / s ∧ -b.m / s - 15 ≤ b.bound / s := by
      rw [hz, abs_clamp_sub_le_iff hbound]
    _ ↔ b.m ≤ b.bound ∧ -b.M ≤ b.bound := by
      rw [show -b.m / s - 15 = -b.M / s by rw [neg_div, neg_div, hM]; ring, ← neg_div, neg_neg,
        div_le_div_iff_of_pos_right hpos, div_le_div_iff_of_pos_right hpos]

/-- **How close a block comes**: all of it, where it reaches to zero or nearly so. -/
theorem close_iff : b.Close ↔ if b.M - b.m < epsilon then b.M ≤ b.bound ∧ -b.m ≤ b.bound
      else b.m ≤ b.bound ∧ -b.M ≤ b.bound := by
  split
  next h => exact b.close_iff_of_flat h
  next h => exact b.close_iff_of_spread h

end Block

/-- Weights from 1 to 2: zero stays out of [0, 15] and the greatest weight decodes to 1. -/
def aboveZero : Block where
  weights := [1, 2]
  m := 1
  M := 2
  even := by decide
  least := by constructor <;> simp [lowerBounds]
  greatest := by constructor <;> simp [upperBounds]
  finite := by norm_num [fltMax]

theorem aboveZero_not_close : ¬ aboveZero.Close := by
  rw [aboveZero.close_iff_of_spread (by norm_num [aboveZero, epsilon])]
  norm_num [aboveZero, Block.bound, epsilon]

/-! ### A tensor -/

/-- A tensor that is not skipped, by the weights that `ExtractFP32` reads. -/
structure Tensor where
  ne : Fin 4 → Nat
  weights : List ℚ
  groupSize : Nat
  ne_pos : ∀ i, 0 < ne i
  length_weights : weights.length = ne 0 * ne 1 * ne 2 * ne 3
  even : groupSize % 2 = 0
  groupSize_pos : 0 < groupSize
  groupSize_lt : groupSize < 2 ^ 31
  dvd : groupSize ∣ ne 0

/-- What `QuantizeWeight` attaches to a tensor. -/
structure TensorInt4 where
  numBlocks : Int
  scales : List ℚ
  zeroPoints : List ℚ
  packed : List (BitVec 8)

namespace TensorInt4

/-- The output of one block, to its place. -/
def write (r : TensorInt4) (metaIdx offset bytes : Nat) (q : Quantized) : TensorInt4 :=
  { r with
    scales := r.scales.set metaIdx q.scale
    zeroPoints := r.zeroPoints.set metaIdx q.zeroPoint
    packed := r.packed.mapIdx fun i old =>
      if offset ≤ i ∧ i < offset + bytes then q.output.getD (i - offset) 0 else old }

end TensorInt4

namespace Tensor

variable (t : Tensor)

/-- `ggml_n_dims`. -/
def nDims : Nat :=
  if 1 < t.ne 3 then 4 else if 1 < t.ne 2 then 3 else if 1 < t.ne 1 then 2 else 1

/-- The groups of a row. -/
def groupsPerRow : Int := Int.bmod ↑(t.ne 0 / t.groupSize) (2 ^ 32)

/-- How many scales and zeros there are. -/
def totalBlocks : Int :=
  Int.bmod (if t.nDims = 2 then t.ne 1 * t.groupsPerRow else t.groupsPerRow) (2 ^ 32)

/-- The bytes of a packed row. -/
def packedK : Int := Int.bmod ↑((t.ne 0 + 1) / 2) (2 ^ 32)

def packedSize : Nat := (t.ne 1 * t.packedK % 2 ^ 64).toNat

/-- One group of one row. -/
def step (r : TensorInt4) (p : Nat × Nat) : Option TensorInt4 :=
  let (row, g) := p
  let kStart := g * t.groupSize
  if 2 ^ 31 ≤ kStart then none
  else
    let size := min (kStart + t.groupSize) (t.ne 0) - kStart
    let block := (t.weights.drop (row * t.ne 0 + kStart)).take size ++
      replicate (t.groupSize - size) 0
    let metaIdx := Int.bmod (row * t.groupsPerRow + g) (2 ^ 32)
    let bytes := t.groupSize / 2
    let offset := row * t.packedK + g * bytes
    if 0 ≤ metaIdx ∧ metaIdx < r.scales.length ∧ metaIdx < r.zeroPoints.length ∧
        0 ≤ offset ∧ offset + bytes ≤ r.packed.length then
      some (r.write metaIdx.toNat offset.toNat bytes (quantizeBlock block))
    else none

/-- The loops over rows and groups. -/
def groups : List (Nat × Nat) := range (t.ne 1) ×ˢ range t.groupsPerRow.toNat

/-- `QuantizeWeight`, where the memory for the result is there. -/
def quantizeWeight : Option TensorInt4 :=
  if t.totalBlocks < 0 then none
  else
    t.groups.foldlM t.step
      { numBlocks := t.totalBlocks
        scales := replicate t.totalBlocks.toNat 0
        zeroPoints := replicate t.totalBlocks.toNat 0
        packed := replicate t.packedSize 0 }

/-- What is computed for the j-th group of the weights. -/
def group (j : Nat) : Quantized :=
  quantizeBlock ((t.weights.drop (j * t.groupSize)).take t.groupSize)

/-- No access is out of bounds, and element i is nibble i, with what its group has. -/
def Covered : Prop :=
  ∃ r, t.quantizeWeight = some r ∧ r.numBlocks = ↑(t.weights.length / t.groupSize) ∧
    2 * r.packed.length = t.weights.length ∧ ∀ i < t.weights.length,
      r.scales[i / t.groupSize]? = some (t.group (i / t.groupSize)).scale ∧
      r.zeroPoints[i / t.groupSize]? = some (t.group (i / t.groupSize)).zeroPoint ∧
      nibble r.packed i = nibble (t.group (i / t.groupSize)).output (i % t.groupSize)

theorem step_eq_some {r r' : TensorInt4} {p : Nat × Nat} (h : t.step r p = some r') :
    p.2 * t.groupSize < 2 ^ 31 ∧ r'.numBlocks = r.numBlocks := by
  simp only [step] at h
  split at h
  · cases h
  · split at h
    · cases h
      exact ⟨by omega, rfl⟩
    · cases h

theorem foldlM_eq_some {l : List (Nat × Nat)} {r r' : TensorInt4}
    (h : l.foldlM t.step r = some r') :
    (∀ p ∈ l, p.2 * t.groupSize < 2 ^ 31) ∧ r'.numBlocks = r.numBlocks := by
  induction l generalizing r with
  | nil =>
    cases h
    simp
  | cons p l ih =>
    obtain ⟨r₁, hstep, hrest⟩ := Option.bind_eq_some_iff.mp h
    obtain ⟨hp, hn⟩ := t.step_eq_some hstep
    obtain ⟨hl, hn'⟩ := ih hrest
    exact ⟨forall_mem_cons.mpr ⟨hp, hl⟩, hn'.trans hn⟩

theorem quantizeWeight_eq_some {r : TensorInt4} (h : t.quantizeWeight = some r) :
    (∀ p ∈ t.groups, p.2 * t.groupSize < 2 ^ 31) ∧ r.numBlocks = t.totalBlocks := by
  rw [quantizeWeight] at h
  split at h
  · cases h
  · exact t.foldlM_eq_some h

/-! ### When a tensor is covered -/

/-- The groups of a row, of the tensor, and the bytes of a group. -/
abbrev perRow : Nat := t.ne 0 / t.groupSize

abbrev count : Nat := t.ne 1 * t.perRow

abbrev half : Nat := t.groupSize / 2

theorem half_mul_two : t.half * 2 = t.groupSize :=
  Nat.div_mul_cancel (Nat.dvd_of_mod_eq_zero t.even)

theorem nDims_le_two_iff : t.nDims ≤ 2 ↔ t.ne 2 = 1 ∧ t.ne 3 = 1 := by
  have h2 := t.ne_pos 2
  have h3 := t.ne_pos 3
  unfold nDims
  split_ifs <;> omega

theorem length_div : t.weights.length / t.groupSize = t.perRow * t.ne 1 * t.ne 2 * t.ne 3 := by
  obtain ⟨n, hn⟩ := t.dvd
  rw [t.length_weights, perRow, hn, Nat.mul_div_cancel_left n t.groupSize_pos]
  simp only [Nat.mul_assoc]
  exact Nat.mul_div_cancel_left _ t.groupSize_pos

/-- What keeps the sizes of a tensor within their types. -/
def Small : Prop :=
  t.nDims ≤ 2 ∧ t.weights.length / t.groupSize < 2 ^ 31 ∧ t.ne 0 - t.groupSize < 2 ^ 31

theorem bmod_lt (x : Int) : Int.bmod x (2 ^ 32) < 2 ^ 31 := by
  rw [Int.bmod_def]
  split <;> omega

theorem bmod_natCast {n k : Nat} (hn : n = k) (h : k < 2 ^ 31) : Int.bmod n (2 ^ 32) = k :=
  hn ▸ Int.bmod_eq_of_le (by omega) (by omega)

theorem bmod_le {x : Int} (h : 0 ≤ x) : Int.bmod x (2 ^ 32) ≤ x := by
  rw [Int.bmod_def]
  split <;> omega

section Small

variable {t}

theorem groupsPerRow_eq (hdims : t.nDims ≤ 2) (h : t.weights.length / t.groupSize < 2 ^ 31) :
    t.groupsPerRow = ↑t.perRow := by
  obtain ⟨h2, h3⟩ := t.nDims_le_two_iff.mp hdims
  rw [t.length_div, h2, h3, Nat.mul_one, Nat.mul_one] at h
  have hle := Nat.le_mul_of_pos_right t.perRow (t.ne_pos 1)
  exact bmod_natCast rfl (hle.trans_lt h)

theorem small_of_covered (h : t.Covered) : t.Small := by
  obtain ⟨r, hr, hblocks, -⟩ := h
  obtain ⟨hall, hn⟩ := t.quantizeWeight_eq_some hr
  have htotal : t.totalBlocks = ↑(t.weights.length / t.groupSize) := hn.symm.trans hblocks
  have hgroups : 0 < t.perRow :=
    Nat.div_pos (Nat.le_of_dvd (t.ne_pos 0) t.dvd) t.groupSize_pos
  have hcount : t.weights.length / t.groupSize < 2 ^ 31 := by
    have := bmod_lt (if t.nDims = 2 then t.ne 1 * t.groupsPerRow else t.groupsPerRow)
    rw [← totalBlocks, htotal] at this
    omega
  have hdims : t.nDims ≤ 2 := by
    by_contra hrank
    have htwo : t.nDims ≠ 2 := by omega
    have heq : t.totalBlocks = Int.bmod ↑t.perRow (2 ^ 32) := by
      unfold totalBlocks groupsPerRow
      rw [if_neg htwo]
      exact Int.bmod_bmod
    have hle := heq.trans_le (bmod_le (Int.natCast_nonneg _))
    have hmore : 2 ≤ t.ne 2 * t.ne 3 := by
      have hpos := Nat.mul_pos (t.ne_pos 2) (t.ne_pos 3)
      by_contra hlt
      have hone : t.ne 2 * t.ne 3 = 1 := by omega
      exact hrank (t.nDims_le_two_iff.mpr ⟨Nat.eq_one_of_mul_eq_one_right hone,
        Nat.eq_one_of_mul_eq_one_left hone⟩)
    have hrows := Nat.le_mul_of_pos_right t.perRow (t.ne_pos 1)
    have hmul := Nat.mul_le_mul hrows hmore
    rw [htotal, t.length_div, Nat.mul_assoc] at hle
    omega
  refine ⟨hdims, hcount, ?_⟩
  have hlast : (0, t.perRow - 1) ∈ t.groups := by
    rw [groups, groupsPerRow_eq hdims hcount, mem_product]
    rw [mem_range, mem_range, Int.toNat_natCast]
    exact ⟨t.ne_pos 1, Nat.sub_one_lt_of_lt hgroups⟩
  have hlt := hall _ hlast
  rw [Nat.sub_mul, Nat.div_mul_cancel t.dvd] at hlt
  omega

theorem sizes (h : t.Small) : t.groupsPerRow = ↑t.perRow ∧ t.totalBlocks = ↑t.count ∧
      t.packedK = ↑(t.perRow * t.half) ∧
      t.packedSize = t.count * t.half ∧
      t.weights.length = t.count * t.groupSize := by
  obtain ⟨hdims, hcount, hK⟩ := h
  have hrow := groupsPerRow_eq hdims hcount
  obtain ⟨h2, h3⟩ := t.nDims_le_two_iff.mp hdims
  have hhalf := t.half_mul_two
  have hne : t.perRow * t.half * 2 = t.ne 0 := by
    rw [Nat.mul_assoc, hhalf, Nat.div_mul_cancel t.dvd]
  have hlen : t.weights.length = t.count * t.groupSize := by
    rw [t.length_weights, h2, h3, Nat.mul_assoc (t.ne 1), Nat.div_mul_cancel t.dvd, Nat.mul_comm]
    simp [Nat.mul_comm]
  rw [hlen, Nat.mul_div_cancel _ t.groupSize_pos] at hcount
  have hsmall := t.groupSize_lt
  have hpackedK : t.packedK = ↑(t.perRow * t.half) :=
    bmod_natCast (by omega) (by omega)
  refine ⟨hrow, ?_, hpackedK, ?_, hlen⟩
  · rw [totalBlocks, hrow]
    split
    · exact_mod_cast bmod_natCast rfl hcount
    next htwo =>
      have hone : t.ne 1 = 1 := by
        have := t.ne_pos 1
        unfold nDims at hdims htwo
        split_ifs at hdims htwo <;> omega
      rw [count, hone, Nat.one_mul] at hcount ⊢
      exact bmod_natCast rfl hcount
  · have hlt := Nat.mul_lt_mul'' hcount (show t.half < 2 ^ 31 by omega)
    rw [packedSize, hpackedK, ← Int.natCast_mul, ← Nat.mul_assoc, ← count]
    omega

variable (t) in
/-- The sizes that the vectors are made with. -/
def Sized (r : TensorInt4) : Prop :=
  r.scales.length = t.count ∧ r.zeroPoints.length = t.count ∧ r.packed.length = t.count * t.half

variable (t) in
/-- The j-th group is in its place. -/
def Written (r : TensorInt4) (j : Nat) : Prop :=
  r.scales[j]? = some (t.group j).scale ∧ r.zeroPoints[j]? = some (t.group j).zeroPoint ∧
    ∀ k < t.half, r.packed[j * t.half + k]? = some ((t.group j).output.getD k 0)

variable (t) in
/-- The output of the j-th group, to its place. -/
def writeGroup (r : TensorInt4) (j : Nat) : TensorInt4 :=
  r.write j (j * t.half) t.half (t.group j)

theorem Sized.writeGroup {r : TensorInt4} (h : t.Sized r) (j : Nat) :
    t.Sized (t.writeGroup r j) := by
  simpa [Sized, Tensor.writeGroup, TensorInt4.write] using h

theorem Sized.written {r : TensorInt4} (h : t.Sized r) {j : Nat}
    (hj : j < t.count) : t.Written (t.writeGroup r j) j := by
  refine ⟨?_, ?_, fun k hk => ?_⟩
  · exact getElem?_set_self (h.1 ▸ hj)
  · exact getElem?_set_self (h.2.1 ▸ hj)
  · have hlt : j * t.half + k < r.packed.length := by
      have := Nat.mul_le_mul_right t.half (Nat.succ_le_of_lt hj)
      rw [h.2.2]
      grind
    simp [Tensor.writeGroup, TensorInt4.write, hlt, hk]

theorem Written.writeGroup {r : TensorInt4} {j : Nat} (h : t.Written r j) (i : Nat)
    (hi : t.Sized r) (hlt : i < t.count) :
    t.Written (t.writeGroup r i) j := by
  by_cases heq : i = j
  · exact heq ▸ hi.written hlt
  · refine ⟨?_, ?_, fun k hk => ?_⟩
    · exact (getElem?_set_ne heq).trans h.1
    · exact (getElem?_set_ne heq).trans h.2.1
    · have hout : ¬ (i * t.half ≤ j * t.half + k ∧ j * t.half + k < i * t.half + t.half) := by
        rcases Nat.lt_or_gt_of_ne heq with hlt | hlt
        · have := Nat.mul_le_mul_right t.half (Nat.succ_le_of_lt hlt)
          grind
        · have := Nat.mul_le_mul_right t.half (Nat.succ_le_of_lt hlt)
          grind
      simp only [Tensor.writeGroup, TensorInt4.write, getElem?_mapIdx, hout, if_false]
      simpa using h.2.2 k hk

theorem step_eq (h : t.Small) {r : TensorInt4} (hr : t.Sized r) {row g : Nat}
    (hrow : row < t.ne 1) (hg : g < t.perRow) :
    row * t.perRow + g < t.count ∧
    t.step r (row, g) = some (t.writeGroup r (row * t.perRow + g)) := by
  obtain ⟨hgpr, -, hpackedK, -, hlen⟩ := sizes h
  have hj : row * t.perRow + g < t.count := by
    have := Nat.mul_le_mul_right t.perRow (Nat.succ_le_of_lt hrow)
    grind
  refine ⟨hj, ?_⟩
  have hcol := Nat.mul_le_mul_right t.groupSize (Nat.succ_le_of_lt hg)
  rw [Nat.div_mul_cancel t.dvd, Nat.succ_mul] at hcol
  have hstart : ¬ 2 ^ 31 ≤ g * t.groupSize := by
    have := h.2.2
    omega
  have hsize : min (g * t.groupSize + t.groupSize) (t.ne 0) - g * t.groupSize = t.groupSize := by
    omega
  have hmeta : Int.bmod (row * t.groupsPerRow + g) (2 ^ 32) = ↑(row * t.perRow + g) := by
    rw [hgpr]
    have hcount := h.2.1
    rw [hlen, Nat.mul_div_cancel _ t.groupSize_pos] at hcount
    exact_mod_cast bmod_natCast rfl (hj.trans hcount)
  have hoffset : row * t.packedK + g * (t.half : Int) = ↑((row * t.perRow + g) * t.half) := by
    rw [hpackedK]
    push_cast
    ring
  have hblock : quantizeBlock ((t.weights.drop (row * t.ne 0 + g * t.groupSize)).take t.groupSize ++
      replicate (t.groupSize - t.groupSize) 0) = t.group (row * t.perRow + g) := by
    have hdrop : (row * t.perRow + g) * t.groupSize = row * t.ne 0 + g * t.groupSize := by
      rw [Nat.add_mul, Nat.mul_assoc, Nat.div_mul_cancel t.dvd]
    rw [group, hdrop, Nat.sub_self, replicate_zero, append_nil]
  have hend := Nat.mul_le_mul_right t.half (Nat.succ_le_of_lt hj)
  rw [Nat.succ_mul] at hend
  simp only [step, hstart, if_false, hsize, hmeta, hoffset, hblock, hr.1, hr.2.1, hr.2.2]
  have hlt := Int.ofNat_lt.mpr hj
  exact if_pos ⟨Int.natCast_nonneg _, hlt, hlt, Int.natCast_nonneg _, by exact_mod_cast hend⟩

theorem foldlM_step (h : t.Small) : ∀ (l : List (Nat × Nat)) (r : TensorInt4), t.Sized r →
    (∀ p ∈ l, p.1 < t.ne 1 ∧ p.2 < t.perRow) →
    ∃ r', l.foldlM t.step r = some r' ∧ t.Sized r' ∧ (∀ j, t.Written r j → t.Written r' j) ∧
      ∀ p ∈ l, t.Written r' (p.1 * t.perRow + p.2)
  | [], r, hr, _ => ⟨r, rfl, hr, fun _ hj => hj, nofun⟩
  | p :: l, r, hr, hl => by
    obtain ⟨hp, hl⟩ := forall_mem_cons.mp hl
    obtain ⟨hlt, hstep⟩ := step_eq h hr hp.1 hp.2
    obtain ⟨r', hrun, hr', hkeep, hall⟩ := foldlM_step h l _ (hr.writeGroup _) hl
    refine ⟨r', by simpa [hstep] using hrun, hr', fun j hj => hkeep j (hj.writeGroup _ hr hlt), ?_⟩
    exact forall_mem_cons.mpr ⟨hkeep _ (hr.written hlt), hall⟩

theorem covered_of_small (h : t.Small) : t.Covered := by
  obtain ⟨hgpr, htotal, -, hpacked, hlen⟩ := sizes h
  have hneg : ¬ t.totalBlocks < 0 := by omega
  obtain ⟨r, hrun, hr, -, hall⟩ := foldlM_step h t.groups
    { numBlocks := t.totalBlocks
      scales := replicate t.totalBlocks.toNat 0
      zeroPoints := replicate t.totalBlocks.toNat 0
      packed := replicate t.packedSize 0 }
    (by simp only [Sized, htotal, hpacked, Int.toNat_natCast, length_replicate, and_self])
    (fun p hp => by
      simpa only [groups, hgpr, Int.toNat_natCast, mem_range] using mem_product.mp hp)
  have hrun : t.quantizeWeight = some r := by rw [quantizeWeight, if_neg hneg, hrun]
  have hhalf := t.half_mul_two
  refine ⟨r, hrun, ?_, ?_, fun i hi => ?_⟩
  · rw [(t.quantizeWeight_eq_some hrun).2, htotal, hlen, Nat.mul_div_cancel _ t.groupSize_pos]
  · rw [hr.2.2, hlen, Nat.mul_comm 2, Nat.mul_assoc, hhalf]
  · have hj : i / t.groupSize < t.count :=
      (Nat.div_lt_iff_lt_mul t.groupSize_pos).mpr (hlen ▸ hi)
    have hmem : (i / t.groupSize / t.perRow, i / t.groupSize % t.perRow) ∈ t.groups := by
      have hpos := Nat.pos_of_lt_mul_left hj
      rw [groups, hgpr, Int.toNat_natCast, mem_product, mem_range, mem_range]
      exact ⟨(Nat.div_lt_iff_lt_mul hpos).mpr hj, Nat.mod_lt _ hpos⟩
    obtain ⟨hscale, hzero, hbytes⟩ := hall _ hmem
    rw [Nat.div_add_mod'] at hscale hzero hbytes
    refine ⟨hscale, hzero, ?_⟩
    have hr := Nat.mod_lt i t.groupSize_pos
    have hbyte := hbytes (i % t.groupSize / 2) (by omega)
    have hi : i / t.groupSize * t.half * 2 + i % t.groupSize = i := by
      rw [Nat.mul_assoc, hhalf, Nat.div_add_mod']
    have hdiv : i / t.groupSize * t.half + i % t.groupSize / 2 = i / 2 := by omega
    have hmod : i % t.groupSize % 2 = i % 2 := by omega
    rw [hdiv] at hbyte
    rw [nibble, nibble, getD_eq_getElem?_getD, hbyte, hmod, Option.getD_some]

end Small

/-- **The whole tensor is quantized** just where it is a matrix or a vector, and small. -/
theorem covered_iff : t.Covered ↔
    t.nDims ≤ 2 ∧ t.weights.length / t.groupSize < 2 ^ 31 ∧ t.ne 0 - t.groupSize < 2 ^ 31 :=
  ⟨small_of_covered, covered_of_small⟩

end Tensor

/-- Two experts of two rows with one group each: one block is counted, and the second row has
no place for its scale. -/
def expertTensor : Tensor where
  ne i := if i = 3 then 1 else 2
  weights := replicate 8 0
  groupSize := 2
  ne_pos := by decide
  length_weights := rfl
  even := rfl
  groupSize_pos := by decide
  groupSize_lt := by decide
  dvd := dvd_rfl

theorem expertTensor_not_covered : ¬ expertTensor.Covered := fun h =>
  absurd (Tensor.small_of_covered h).1 (by decide)

end DenseCore.Int4
