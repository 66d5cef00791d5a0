/-
Carving the routing workspace.

`GetMoERoutingWorkspaceSize` (`moe/moe_routing.cpp`) lays nine arrays one behind another from
offset zero, each at a multiple of 64, and `InitMoERoutingWorkspace` does the same from the
address of a buffer.  Both move by the same steps from the first multiple of 64 on, so they
agree up to the bytes before it, which only the second has to spend.

`size_t` and `uintptr_t` are 64 bits wide and `int` is 32 bits wide; all three wrap.
-/
import Mathlib.Algebra.Order.Group.Nat
import Mathlib.Data.List.Pairwise

namespace DenseCore.Moe

open List

/-! ### The code -/

def kWorkspaceAlign : UInt64 := 64

/-- An offset rounded up to an alignment. -/
def alignUp (offset align : UInt64) : UInt64 := (offset + align - 1) &&& ~~~(align - 1)

/-- `AlignPtr`. -/
def alignPtr (ptr align : UInt64) : UInt64 := (ptr + align - 1) &&& ~~~(align - 1)

/-- `static_cast<size_t>` of an `int`. -/
def toSize (n : Int32) : UInt64 := n.toInt64.toUInt64

/-- `GetMoERoutingWorkspaceSize`. -/
def getMoERoutingWorkspaceSize (maxTokens maxExperts maxTopK : Int32) : UInt64 :=
  if maxTokens ≤ 0 ∨ maxExperts ≤ 0 ∨ maxTopK ≤ 0 then 0
  else
    let offset := alignUp 0 kWorkspaceAlign
    let offset := offset + 4 * toSize maxExperts
    let offset := alignUp offset kWorkspaceAlign
    let offset := offset + 4 * toSize maxTopK
    let offset := alignUp offset kWorkspaceAlign
    let offset := offset + 4 * toSize maxTopK
    let offset := alignUp offset kWorkspaceAlign
    let offset := offset + 4 * toSize maxTokens * toSize maxExperts
    let offset := alignUp offset kWorkspaceAlign
    let offset := offset + 4 * toSize maxExperts
    let offset := alignUp offset kWorkspaceAlign
    let offset := offset + 4 * toSize (maxExperts + 1)
    let offset := alignUp offset kWorkspaceAlign
    let offset := offset + 4 * toSize maxExperts
    let offset := alignUp offset kWorkspaceAlign
    let offset := offset + 4 * toSize maxTokens * toSize maxTopK
    let offset := alignUp offset kWorkspaceAlign
    offset + 4 * toSize maxTokens * toSize maxTopK

/-- `MoERoutingWorkspace`.  A pointer is an address, and zero is null. -/
structure MoERoutingWorkspace where
  buffer : UInt64 := 0
  sizeBytes : UInt64 := 0
  maxTokens : Int32 := 0
  maxExperts : Int32 := 0
  maxTopK : Int32 := 0
  probs : UInt64 := 0
  topkScores : UInt64 := 0
  topkIndices : UInt64 := 0
  logits : UInt64 := 0
  expertCounts : UInt64 := 0
  expertOffsets : UInt64 := 0
  expertCursor : UInt64 := 0
  assignmentTokens : UInt64 := 0
  assignmentWeights : UInt64 := 0

/-- `alloc`, which moves `ptr`. -/
def alloc (stop size : UInt64) : StateM UInt64 UInt64 := fun ptr =>
  let ptr := alignPtr ptr kWorkspaceAlign
  if stop < ptr + size then (0, ptr) else (ptr, ptr + size)

/-- The assignments of `InitMoERoutingWorkspace`, in order. -/
def assignFields (buffer bytes : UInt64) (maxTokens maxExperts maxTopK : Int32) :
    StateM UInt64 MoERoutingWorkspace := do
  let stop := buffer + bytes
  let probs ← alloc stop (4 * toSize maxExperts)
  let topkScores ← alloc stop (4 * toSize maxTopK)
  let topkIndices ← alloc stop (4 * toSize maxTopK)
  let logits ← alloc stop (4 * toSize maxTokens * toSize maxExperts)
  let expertCounts ← alloc stop (4 * toSize maxExperts)
  let expertOffsets ← alloc stop (4 * toSize (maxExperts + 1))
  let expertCursor ← alloc stop (4 * toSize maxExperts)
  let assignmentTokens ← alloc stop (4 * toSize maxTokens * toSize maxTopK)
  let assignmentWeights ← alloc stop (4 * toSize maxTokens * toSize maxTopK)
  return {
    buffer, sizeBytes := bytes, maxTokens, maxExperts, maxTopK, probs, topkScores, topkIndices,
    logits, expertCounts, expertOffsets, expertCursor, assignmentTokens, assignmentWeights }

/-- `InitMoERoutingWorkspace`: what it returns, and the workspace it leaves. -/
def initMoERoutingWorkspace (ws : Option MoERoutingWorkspace) (buffer bytes : UInt64)
    (maxTokens maxExperts maxTopK : Int32) : Bool × Option MoERoutingWorkspace :=
  if ws = none ∨ buffer = 0 ∨ maxTokens ≤ 0 ∨ maxExperts ≤ 0 ∨ maxTopK ≤ 0 then (false, ws)
  else if bytes < getMoERoutingWorkspaceSize maxTokens maxExperts maxTopK then (false, ws)
  else
    let ws := (assignFields buffer bytes maxTokens maxExperts maxTopK buffer).1
    (ws.probs ≠ 0 && ws.topkScores ≠ 0 && ws.topkIndices ≠ 0 && ws.logits ≠ 0 &&
      ws.expertCounts ≠ 0 && ws.expertOffsets ≠ 0 && ws.expertCursor ≠ 0 &&
      ws.assignmentTokens ≠ 0 && ws.assignmentWeights ≠ 0, some ws)

/-! ### What the workspace should be -/

/-- The arrays, with their lengths in bytes. -/
def MoERoutingWorkspace.arrays (ws : MoERoutingWorkspace) : List (Nat × Nat) :=
  let tokens := ws.maxTokens.toNatClampNeg
  let experts := ws.maxExperts.toNatClampNeg
  let topK := ws.maxTopK.toNatClampNeg
  [(ws.probs.toNat, 4 * experts), (ws.topkScores.toNat, 4 * topK),
    (ws.topkIndices.toNat, 4 * topK), (ws.logits.toNat, 4 * tokens * experts),
    (ws.expertCounts.toNat, 4 * experts), (ws.expertOffsets.toNat, 4 * (experts + 1)),
    (ws.expertCursor.toNat, 4 * experts), (ws.assignmentTokens.toNat, 4 * tokens * topK),
    (ws.assignmentWeights.toNat, 4 * tokens * topK)]

/-- The arrays lie in the buffer, aligned and apart. -/
structure MoERoutingWorkspace.Carved (ws : MoERoutingWorkspace) (buffer bytes : UInt64)
    (maxTokens maxExperts maxTopK : Int32) : Prop where
  fields : ws.buffer = buffer ∧ ws.sizeBytes = bytes ∧ ws.maxTokens = maxTokens ∧
    ws.maxExperts = maxExperts ∧ ws.maxTopK = maxTopK
  disjoint : ws.arrays.Pairwise fun a b => a.1 + a.2 ≤ b.1 ∨ b.1 + b.2 ≤ a.1
  aligned : ∀ a ∈ ws.arrays, kWorkspaceAlign.toNat ∣ a.1
  inside : ∀ a ∈ ws.arrays,
    buffer.toNat ≤ a.1 ∧ a.1 + a.2 ≤ buffer.toNat + bytes.toNat

section Carving

variable (ws : MoERoutingWorkspace) (buffer bytes : UInt64) (maxTokens maxExperts maxTopK : Int32)

def Succeeds : Prop :=
  let r := initMoERoutingWorkspace (some ws) buffer bytes maxTokens maxExperts maxTopK
  r.1 = true ∧ ∃ ws' ∈ r.2, ws'.Carved buffer bytes maxTokens maxExperts maxTopK

/-- A buffer of the size asked for is carved, and a workspace that can not be set up is left
alone. -/
def Carves : Prop :=
  (buffer ≠ 0 → 0 < maxTokens → 0 < maxExperts → 0 < maxTopK →
    getMoERoutingWorkspaceSize maxTokens maxExperts maxTopK ≤ bytes →
    Succeeds ws buffer bytes maxTokens maxExperts maxTopK) ∧
  ((initMoERoutingWorkspace (some ws) buffer bytes maxTokens maxExperts maxTopK).1 = false →
    (initMoERoutingWorkspace (some ws) buffer bytes maxTokens maxExperts maxTopK).2 = some ws)

end Carving

/-! ### Placing arrays one behind another -/

/-- The next multiple of 64. -/
def roundUp (n : Nat) : Nat := (n + 63) / 64 * 64

/-- Where arrays placed one behind another end. -/
def placeEnd (base : Nat) (sizes : List Nat) : Nat := sizes.foldl (fun p n => roundUp p + n) base

/-- The arrays as they are placed from an address on. -/
def placed : Nat → List Nat → List (Nat × Nat)
  | _, [] => []
  | base, n :: sizes => (roundUp base, n) :: placed (roundUp base + n) sizes

theorem le_roundUp (n : Nat) : n ≤ roundUp n := by
  unfold roundUp
  omega

theorem dvd_roundUp (n : Nat) : 64 ∣ roundUp n := Nat.dvd_mul_left _ _

theorem roundUp_add {b : Nat} (h : 64 ∣ b) (n : Nat) : roundUp (b + n) = b + roundUp n := by
  unfold roundUp
  omega

theorem le_placeEnd (sizes : List Nat) (base : Nat) : base ≤ placeEnd base sizes := by
  induction sizes generalizing base with
  | nil => exact Nat.le_refl _
  | cons n sizes ih =>
    have hnext := ih (roundUp base + n)
    have hup := le_roundUp base
    show base ≤ placeEnd (roundUp base + n) sizes
    omega

theorem placeEnd_add {b : Nat} (h : 64 ∣ b) (sizes : List Nat) (base : Nat) :
    placeEnd (b + base) sizes = b + placeEnd base sizes := by
  induction sizes generalizing base with
  | nil => rfl
  | cons n sizes ih =>
    show placeEnd (roundUp (b + base) + n) sizes = _
    rw [roundUp_add h, Nat.add_assoc, ih]
    rfl

theorem placeEnd_eq (base n : Nat) (sizes : List Nat) :
    placeEnd base (n :: sizes) = roundUp base + placeEnd 0 (n :: sizes) := by
  have h := placeEnd_add (dvd_roundUp base) sizes (0 + n)
  rw [← Nat.add_assoc] at h
  exact h

theorem placed_inside (sizes : List Nat) (base : Nat) : ∀ a ∈ placed base sizes,
    64 ∣ a.1 ∧ base ≤ a.1 ∧ a.1 + a.2 ≤ placeEnd base sizes := by
  induction sizes generalizing base with
  | nil => exact fun a ha => absurd ha not_mem_nil
  | cons n sizes ih =>
    intro a ha
    have hup := le_roundUp base
    rcases List.mem_cons.mp ha with rfl | ha
    · exact ⟨dvd_roundUp base, hup, le_placeEnd sizes _⟩
    obtain ⟨hdvd, hle, hend⟩ := ih _ a ha
    exact ⟨hdvd, by omega, hend⟩

theorem placed_pairwise (sizes : List Nat) (base : Nat) :
    (placed base sizes).Pairwise fun a b => a.1 + a.2 ≤ b.1 := by
  induction sizes generalizing base with
  | nil => exact Pairwise.nil
  | cons n sizes ih => exact .cons (fun a ha => (placed_inside sizes _ a ha).2.1) (ih _)

theorem placed_ne_zero {base : Nat} (h : base ≠ 0) (sizes : List Nat) :
    ∀ a ∈ placed base sizes, a.1 ≠ 0 := by
  intro a ha
  have hle := (placed_inside sizes base a ha).2.1
  omega

/-! ### The code places them so -/

theorem and_not_63 {n : Nat} (h : n < 2 ^ 64) : n &&& (2 ^ 64 - 64) = n / 64 * 64 := by
  have hmask : 2 ^ 64 - 64 = (2 ^ 58 - 1) <<< 6 := by decide
  have hn : n / 64 * 64 = (n >>> 6) <<< 6 := by
    rw [Nat.shiftLeft_eq, Nat.shiftRight_eq_div_pow]
  rw [hmask, hn]
  refine Nat.eq_of_testBit_eq fun i => ?_
  simp only [Nat.testBit_and, Nat.testBit_shiftLeft, Nat.testBit_shiftRight,
    Nat.testBit_two_pow_sub_one]
  by_cases hi : 6 ≤ i
  · simp only [hi, decide_true, Bool.true_and, Nat.add_sub_cancel' hi]
    by_cases hlow : i - 6 < 58
    · rw [decide_eq_true hlow, Bool.and_true]
    have hbit : n.testBit i = false :=
      Nat.testBit_lt_two_pow (Nat.lt_of_lt_of_le h (Nat.pow_le_pow_right (by decide) (by omega)))
    rw [hbit, Bool.false_and]
  · simp [hi]

theorem alignPtr_toNat (ptr : UInt64) : (alignPtr ptr kWorkspaceAlign).toNat =
    (ptr.toNat + 63) % 2 ^ 64 / 64 * 64 := by
  have hmask : (~~~(kWorkspaceAlign - 1)).toNat = 2 ^ 64 - 64 := by decide
  have hadd : (ptr + kWorkspaceAlign - 1).toNat = (ptr.toNat + 63) % 2 ^ 64 := by
    have heq : ptr + kWorkspaceAlign - 1 = ptr + 63 := by
      rw [kWorkspaceAlign, UInt64.sub_eq_add_neg, UInt64.add_assoc]
      rfl
    rw [heq, UInt64.toNat_add]
    rfl
  unfold alignPtr
  rw [UInt64.toNat_and, hadd, hmask, and_not_63 (Nat.mod_lt _ (by decide))]

theorem alignPtr_eq {ptr : UInt64} (h : roundUp ptr.toNat < 2 ^ 64) :
    (alignPtr ptr kWorkspaceAlign).toNat = roundUp ptr.toNat := by
  unfold roundUp at h
  rw [alignPtr_toNat, Nat.mod_eq_of_lt (by omega)]
  rfl

/-- An address that wraps becomes null. -/
theorem roundUp_lt {ptr : UInt64} (h : (alignPtr ptr kWorkspaceAlign).toNat ≠ 0) :
    roundUp ptr.toNat < 2 ^ 64 := by
  have hptr := ptr.toNat_lt
  rw [alignPtr_toNat] at h
  unfold roundUp
  omega

/-- What the calls of `alloc` return, with the sizes asked for. -/
def allocated (stop : UInt64) : List UInt64 → UInt64 → List (Nat × Nat)
  | [], _ => []
  | n :: sizes, ptr =>
    ((alloc stop n ptr).1.toNat, n.toNat) :: allocated stop sizes (alloc stop n ptr).2

theorem alloc_of_room {stop n ptr : UInt64} (h : roundUp ptr.toNat + n.toNat ≤ stop.toNat) :
    (alloc stop n ptr).1.toNat = roundUp ptr.toNat ∧
      (alloc stop n ptr).2.toNat = roundUp ptr.toNat + n.toNat := by
  have hstop := stop.toNat_lt
  have hptr : (alignPtr ptr kWorkspaceAlign).toNat = roundUp ptr.toNat :=
    alignPtr_eq (by omega)
  have hend : (alignPtr ptr kWorkspaceAlign + n).toNat = roundUp ptr.toNat + n.toNat := by
    rw [UInt64.toNat_add, hptr, Nat.mod_eq_of_lt (by omega)]
  have hnot : ¬ stop < alignPtr ptr kWorkspaceAlign + n := by
    rw [UInt64.lt_iff_toNat_lt, hend]
    omega
  unfold alloc
  rw [if_neg hnot]
  exact ⟨hptr, hend⟩

theorem allocated_eq {stop : UInt64} (sizes : List UInt64) (ptr : UInt64)
    (h : placeEnd ptr.toNat (sizes.map UInt64.toNat) ≤ stop.toNat) :
    allocated stop sizes ptr = placed ptr.toNat (sizes.map UInt64.toNat) := by
  induction sizes generalizing ptr with
  | nil => rfl
  | cons n sizes ih =>
    have hle := le_placeEnd (sizes.map UInt64.toNat) (roundUp ptr.toNat + n.toNat)
    obtain ⟨hout, hnext⟩ := alloc_of_room (Nat.le_trans hle h)
    show (_, _) :: _ = (_, _) :: placed (roundUp ptr.toNat + n.toNat) _
    rw [hout, ih _ (by rw [hnext]; exact h), hnext]

theorem placeEnd_le {stop : UInt64} (sizes : List UInt64) (ptr : UInt64)
    (hptr : ptr.toNat ≤ stop.toNat)
    (h : ∀ a ∈ allocated stop sizes ptr, a.1 ≠ 0 ∧ a.1 + a.2 ≤ stop.toNat) :
    placeEnd ptr.toNat (sizes.map UInt64.toNat) ≤ stop.toNat := by
  induction sizes generalizing ptr with
  | nil => exact hptr
  | cons n sizes ih =>
    obtain ⟨hne, hend⟩ := h _ mem_cons_self
    have hout : (alloc stop n ptr).1 = alignPtr ptr kWorkspaceAlign := by
      dsimp only [alloc] at hne ⊢
      by_cases hover : stop < alignPtr ptr kWorkspaceAlign + n
      · rw [if_pos hover] at hne
        exact absurd rfl hne
      · rw [if_neg hover]
    rw [hout] at hne hend
    rw [alignPtr_eq (roundUp_lt hne)] at hend
    have hnext := (alloc_of_room hend).2
    have hrest := ih (alloc stop n ptr).2 (by omega) fun a ha => h a (mem_cons_of_mem _ ha)
    rw [hnext] at hrest
    exact hrest

/-! ### The sizes of the code -/

theorem le_placeEnd_of_mem {n : Nat} (l : List Nat) (base : Nat) (h : n ∈ l) :
    n ≤ placeEnd base l := by
  induction l generalizing base with
  | nil => exact absurd h not_mem_nil
  | cons m l ih =>
    rcases List.mem_cons.mp h with rfl | h
    · have hle := le_placeEnd l (roundUp base + n)
      show n ≤ placeEnd (roundUp base + n) l
      omega
    · exact ih _ h

theorem foldl_toNat (l : List UInt64) (offset : UInt64)
    (h : placeEnd offset.toNat (l.map UInt64.toNat) < 2 ^ 64) :
    (l.foldl (fun offset n => alignUp offset kWorkspaceAlign + n) offset).toNat =
      placeEnd offset.toNat (l.map UInt64.toNat) := by
  induction l generalizing offset with
  | nil => rfl
  | cons n l ih =>
    have hle := le_placeEnd (l.map UInt64.toNat) (roundUp offset.toNat + n.toNat)
    have hlt : roundUp offset.toNat + n.toNat < 2 ^ 64 := Nat.lt_of_le_of_lt hle h
    have hup : (alignUp offset kWorkspaceAlign).toNat = roundUp offset.toNat :=
      alignPtr_eq (by omega)
    have hnext : (alignUp offset kWorkspaceAlign + n).toNat = roundUp offset.toNat + n.toNat := by
      rw [UInt64.toNat_add, hup, Nat.mod_eq_of_lt hlt]
    rw [foldl_cons, ih _ (by rw [hnext]; exact h), hnext]
    rfl

theorem toSize_toNat {n : Int32} (h : 0 ≤ n) : (toSize n).toNat = n.toNatClampNeg := by
  have hn : 0 ≤ n.toInt64 := by
    rw [Int64.le_iff_toInt_le, Int32.toInt_toInt64]
    exact Int32.le_iff_toInt_le.mp h
  unfold toSize
  rw [Int64.toNat_toUInt64_of_le hn, Int32.toNatClampNeg_toInt64]

/-- One more than the largest `int` is negative, and its size is no `size_t`. -/
theorem toSize_succ {n : Int32} (hn : 0 < n) (h : 4 * (toSize (n + 1)).toNat < 2 ^ 64) :
    (toSize (n + 1)).toNat = n.toNatClampNeg + 1 := by
  have hpos := Int32.lt_iff_toInt_lt.mp hn
  rw [Int32.toInt_zero] at hpos
  have hsum : (n + 1).toInt = (n.toInt + 1).bmod (2 ^ 32) := Int32.toInt_add n 1
  rcases Int.lt_or_eq_of_le (Int.add_one_le_of_lt n.toInt_lt) with hsmall | hmax
  · rw [Int.bmod_eq_of_le (by omega) (by omega)] at hsum
    have hle : 0 ≤ n + 1 := by
      rw [Int32.le_iff_toInt_le, hsum, Int32.toInt_zero]
      omega
    rw [toSize_toNat hle, ← Int32.toNat_toInt, hsum, ← Int32.toNat_toInt]
    omega
  · have hmin : n + 1 = Int32.minValue := by
      rw [← Int32.toInt_inj, hsum, hmax]
      rfl
    rw [hmin] at h
    exact absurd h (by decide)

section Sizes

variable (t e k : Int32)

def sizes : List UInt64 :=
  [4 * toSize e, 4 * toSize k, 4 * toSize k, 4 * toSize t * toSize e, 4 * toSize e,
    4 * toSize (e + 1), 4 * toSize e, 4 * toSize t * toSize k, 4 * toSize t * toSize k]

/-- The sizes, had `size_t` no bound. -/
def exactSizes : List Nat :=
  let tokens := (toSize t).toNat
  let experts := (toSize e).toNat
  let topK := (toSize k).toNat
  [4 * experts, 4 * topK, 4 * topK, 4 * tokens * experts, 4 * experts,
    4 * (toSize (e + 1)).toNat, 4 * experts, 4 * tokens * topK, 4 * tokens * topK]

end Sizes

variable {t e k : Int32}

theorem sizes_toNat (h : placeEnd 0 (exactSizes t e k) < 2 ^ 64) :
    (sizes t e k).map UInt64.toNat = exactSizes t e k := by
  have hmod : (sizes t e k).map UInt64.toNat = (exactSizes t e k).map (· % 2 ^ 64) := by
    simp [sizes, exactSizes, UInt64.toNat_mul]
  rw [hmod]
  refine (map_congr_left fun n hn => ?_).trans (map_id _)
  exact Nat.mod_eq_of_lt (Nat.lt_of_le_of_lt (le_placeEnd_of_mem _ 0 hn) h)

/-! ### When the buffer is carved -/

section Carving

variable {buffer bytes : UInt64} (hpos : 0 < t ∧ 0 < e ∧ 0 < k)
  (hfits : placeEnd 0 (exactSizes t e k) < 2 ^ 64)

include hpos hfits

theorem size_toNat :
    (getMoERoutingWorkspaceSize t e k).toNat = placeEnd 0 (exactSizes t e k) := by
  have hnot : ¬ (t ≤ 0 ∨ e ≤ 0 ∨ k ≤ 0) := by
    simp only [not_or, Int32.not_le]
    exact hpos
  have hcode : getMoERoutingWorkspaceSize t e k =
      (sizes t e k).foldl (fun offset n => alignUp offset kWorkspaceAlign + n) 0 := by
    unfold getMoERoutingWorkspaceSize
    rw [if_neg hnot]
    rfl
  have hfold := foldl_toNat (sizes t e k) 0
  rw [sizes_toNat hfits] at hfold
  rw [hcode]
  exact hfold hfits

theorem placeEnd_buffer : placeEnd buffer.toNat ((sizes t e k).map UInt64.toNat) =
    roundUp buffer.toNat + (getMoERoutingWorkspaceSize t e k).toNat := by
  rw [sizes_toNat hfits, size_toNat hpos hfits]
  exact placeEnd_eq _ _ _

theorem arrays_eq : (assignFields buffer bytes t e k buffer).1.arrays =
    allocated (buffer + bytes) (sizes t e k) buffer := by
  obtain ⟨ht, he, hk⟩ := hpos
  have hlengths := sizes_toNat hfits
  have hoffsets := toSize_succ he (Nat.lt_of_le_of_lt (le_placeEnd_of_mem _ 0 (by
    simp [exactSizes])) hfits)
  simp only [sizes, exactSizes, map_cons, map_nil, cons.injEq, hoffsets,
    toSize_toNat (Int32.le_of_lt ht), toSize_toNat (Int32.le_of_lt he),
    toSize_toNat (Int32.le_of_lt hk)] at hlengths
  obtain ⟨h1, h2, -, h4, -, h6, -, h8, -⟩ := hlengths
  simp only [sizes, allocated, h1, h2, h4, h6, h8]
  rfl

variable (ws : MoERoutingWorkspace) (hend : buffer.toNat + bytes.toNat < 2 ^ 64)
  (hbuffer : buffer ≠ 0) (hle : getMoERoutingWorkspaceSize t e k ≤ bytes)

omit hfits in
include hbuffer hle in
theorem init_eq : initMoERoutingWorkspace (some ws) buffer bytes t e k =
    (decide (∀ a ∈ (assignFields buffer bytes t e k buffer).1.arrays, a.1 ≠ 0),
      some (assignFields buffer bytes t e k buffer).1) := by
  have hguard : ¬ (some ws = none ∨ buffer = 0 ∨ t ≤ 0 ∨ e ≤ 0 ∨ k ≤ 0) := by
    simp only [not_or, Int32.not_le]
    exact ⟨nofun, hbuffer, hpos⟩
  unfold initMoERoutingWorkspace
  rw [if_neg hguard, if_neg (UInt64.not_lt.mpr hle)]
  refine congrArg (·, _) ?_
  simp [MoERoutingWorkspace.arrays, ← UInt64.toNat_inj, Bool.and_assoc]

include hend hbuffer hle

theorem succeeds_of_room (hroom : roundUp buffer.toNat - buffer.toNat +
    (getMoERoutingWorkspaceSize t e k).toNat ≤ bytes.toNat) :
    Succeeds ws buffer bytes t e k := by
  have hup := le_roundUp buffer.toNat
  have hstop : (buffer + bytes).toNat = buffer.toNat + bytes.toNat := by
    rw [UInt64.toNat_add, Nat.mod_eq_of_lt hend]
  have hin : placeEnd buffer.toNat ((sizes t e k).map UInt64.toNat) ≤ (buffer + bytes).toNat := by
    rw [placeEnd_buffer hpos hfits]
    omega
  have harrays := (arrays_eq hpos hfits).trans (allocated_eq _ _ hin)
  have hne : buffer.toNat ≠ 0 := fun hzero => hbuffer (UInt64.toNat_inj.mp hzero)
  unfold Succeeds
  rw [init_eq hpos ws hbuffer hle]
  refine ⟨decide_eq_true ?_, _, rfl, ⟨⟨rfl, rfl, rfl, rfl, rfl⟩, ?_, ?_, ?_⟩⟩ <;> rw [harrays]
  · exact placed_ne_zero hne _
  · exact (placed_pairwise _ _).imp Or.inl
  · exact fun a ha => (placed_inside _ _ a ha).1
  intro a ha
  obtain ⟨-, hfirst, hlast⟩ := placed_inside _ _ a ha
  exact ⟨hfirst, hstop ▸ Nat.le_trans hlast hin⟩

theorem room_of_succeeds (hcarved : Succeeds ws buffer bytes t e k) :
    roundUp buffer.toNat - buffer.toNat +
      (getMoERoutingWorkspaceSize t e k).toNat ≤ bytes.toNat := by
  unfold Succeeds at hcarved
  rw [init_eq hpos ws hbuffer hle] at hcarved
  obtain ⟨htrue, ws', hws, hc⟩ := hcarved
  cases hws
  have hstop : (buffer + bytes).toNat = buffer.toNat + bytes.toNat := by
    rw [UInt64.toNat_add, Nat.mod_eq_of_lt hend]
  have hall : ∀ a ∈ allocated (buffer + bytes) (sizes t e k) buffer,
      a.1 ≠ 0 ∧ a.1 + a.2 ≤ (buffer + bytes).toNat := by
    intro a ha
    rw [← arrays_eq hpos hfits] at ha
    exact ⟨of_decide_eq_true htrue a ha, hstop ▸ (hc.inside a ha).2⟩
  have hplaced := placeEnd_le _ _ (hstop ▸ Nat.le_add_right _ _) hall
  rw [placeEnd_buffer hpos hfits] at hplaced
  have hup := le_roundUp buffer.toNat
  omega

end Carving

/-- **A buffer is carved, and a workspace left alone, exactly if there is room for the bytes up
to the first aligned address as well.** -/
theorem carves_iff (ws : MoERoutingWorkspace) {buffer bytes : UInt64}
    (hend : buffer.toNat + bytes.toNat < 2 ^ 64)
    (hfits : 0 < t → 0 < e → 0 < k → placeEnd 0 (exactSizes t e k) < 2 ^ 64) :
    Carves ws buffer bytes t e k ↔
      (0 < t → 0 < e → 0 < k → getMoERoutingWorkspaceSize t e k ≤ bytes →
        roundUp buffer.toNat - buffer.toNat +
          (getMoERoutingWorkspaceSize t e k).toNat ≤ bytes.toNat) := by
  constructor
  · rintro ⟨hcarved, -⟩ ht he hk hle
    by_cases hbuffer : buffer = 0
    · rw [hbuffer]
      exact Nat.le_trans (Nat.le_of_eq (Nat.zero_add _)) (UInt64.le_iff_toNat_le.mp hle)
    exact room_of_succeeds ⟨ht, he, hk⟩ (hfits ht he hk) ws hend hbuffer hle
      (hcarved hbuffer ht he hk hle)
  intro hroom
  refine ⟨fun hbuffer ht he hk hle => succeeds_of_room ⟨ht, he, hk⟩ (hfits ht he hk) ws hend
    hbuffer hle (hroom ht he hk hle), fun hfalse => ?_⟩
  by_cases hguard : buffer = 0 ∨ t ≤ 0 ∨ e ≤ 0 ∨ k ≤ 0
  · unfold initMoERoutingWorkspace
    rw [if_pos (Or.inr hguard)]
  by_cases hbytes : bytes < getMoERoutingWorkspaceSize t e k
  · unfold initMoERoutingWorkspace
    rw [if_pos hbytes, ite_self]
  simp only [not_or, Int32.not_le] at hguard
  obtain ⟨hbuffer, ht, he, hk⟩ := hguard
  have hle := UInt64.not_lt.mp hbytes
  rw [(succeeds_of_room ⟨ht, he, hk⟩ (hfits ht he hk) ws hend hbuffer hle (hroom ht he hk hle)).1]
    at hfalse
  cases hfalse

/-- One token, one expert, and a buffer 48 bytes before an aligned address. -/
theorem misaligned_not_carved : ¬ Carves {} 4112 516 1 1 1 := by
  rintro ⟨hcarved, -⟩
  exact absurd (hcarved (by decide) (by decide) (by decide) (by decide) (by decide)).1 (by decide)

/-- The same buffer with these 48 bytes. -/
theorem padded_carved : Carves {} 4112 564 1 1 1 :=
  (carves_iff {} (by decide) fun _ _ _ => by decide).mpr fun _ _ _ _ => by decide

end DenseCore.Moe
