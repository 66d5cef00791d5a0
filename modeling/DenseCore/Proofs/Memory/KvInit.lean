/-
The layout that `InitPagedKVCache` gives a cache, and which blocks start at 64 bytes.

The blocks of an arena lie one behind the other, layer after layer.  Their size is not
rounded up: for F16 it is 32 bytes for each element of a slot, for Q8_0 and Q4_0 an odd
multiple of 32 bytes for each quantised block of 32 values, for the indexer 32 bytes for each
dimension.  So an odd number of these puts every second block half a cache line off.
-/
import DenseCore.Memory.KvInit
import Mathlib.Data.Nat.ModEq
import Mathlib.Tactic.Ring

namespace DenseCore.IndexedKVCache

open Option

/-! ### Layout -/

/-- The size of a block, from the shape of the storage. -/
def blockBytes (c : IndexedKVCache) : Part → Nat
  | .k => c.slotSize .k * kvBlockSize
  | .v => c.slotSize .v * kvBlockSize
  | .index => 2 * c.indexHeadDim * kvBlockSize

/-- The arena is there. -/
def has (c : IndexedKVCache) : Part → Bool
  | .k => true
  | .v => true
  | .index => c.hasIndexCache

/-- A block and a layer of the cache. -/
def Valid (c : IndexedKVCache) (block layer : Int) : Prop :=
  (0 ≤ block ∧ block < c.maxBlocks) ∧ 0 ≤ layer ∧ layer < c.nLayer

/-- What holds after `InitPagedKVCache`. -/
structure LaidOut (c : IndexedKVCache) : Prop where
  someBlock : 0 < c.maxBlocks * c.nLayer
  positive : ∀ part, c.has part → 0 < c.blockBytes part
  bytes : ∀ part, c.has part → c.partBytes part = c.blockBytes part
  absent : ∀ block layer part, c.has part = false → c.partPtr block layer part = none
  outside : ∀ block layer part, ¬ c.Valid block layer → c.partPtr block layer part = none
  place : ∀ block layer part, c.has part → c.Valid block layer → c.partPtr block layer part =
      some ((layer.toNat * c.maxBlocks + block.toNat) * c.blockBytes part)

variable {memory : Nat → Bool} {c : IndexedKVCache}

theorem allocatorValid_positive {n stride : Nat}
    (h : allocatorValid memory n stride ≠ false) : 0 < n ∧ 0 < stride := by
  unfold allocatorValid at h
  simp only [Bool.not_eq_false, Bool.and_eq_true, decide_eq_true_eq] at h
  omega

theorem arena_offset (bytes maxBlocks layer block : Nat) :
    bytes * maxBlocks * layer + bytes * block = (layer * maxBlocks + block) * bytes := by
  ring

theorem invalid_iff {block layer : Int} :
    (block < 0 ∨ c.maxBlocks ≤ block ∨ layer < 0 ∨ c.nLayer ≤ layer) ↔ ¬ c.Valid block layer := by
  unfold Valid
  omega

/-- The cache that `InitPagedKVCache` returns. -/
def ready (model : KvModel) (type : Option CacheType) (n : Nat) : IndexedKVCache :=
  { (emptyCache model type n).initSizes with
    useBlockAllocator := true
    indexAllocator := (emptyCache model type n).hasIndexCache }

variable {model : KvModel} {maxNumSeqs maxSeqLen : Int} {type : Option CacheType}

theorem init_cases (h : initPagedKVCache memory model maxNumSeqs maxSeqLen type = some c) :
    ∃ n, c = ready model type n ∧ 0 < c.maxBlocks * c.nLayer ∧ (∀ side, 0 < c.bytesPerBlock side) ∧
      (c.hasIndexCache = true → 0 < c.indexBytesPerBlock) := by
  unfold initPagedKVCache at h
  rw [ite_none_left_eq_some, ite_none_left_eq_some, ite_none_left_eq_some] at h
  obtain ⟨-, -, hvalid, hc⟩ := h
  obtain ⟨hk, hrest⟩ := not_or.mp hvalid
  obtain ⟨hv, hindex⟩ := not_or.mp hrest
  obtain ⟨hsome, hkpos⟩ := allocatorValid_positive hk
  obtain ⟨-, hvpos⟩ := allocatorValid_positive hv
  refine ⟨_, (some.inj hc).symm, ?_, ?_, ?_⟩
  · rw [← some.inj hc]
    exact hsome
  · rw [← some.inj hc]
    rintro (_ | _)
    · exact hkpos
    · exact hvpos
  rw [← some.inj hc]
  exact fun hhas => (allocatorValid_positive fun hnot => hindex ⟨hhas, hnot⟩).2

section Ready

variable (model : KvModel) (type : Option CacheType) (n : Nat)

/-! The sizes that were stored are those that would be computed. -/

theorem stored {x y z : Nat} (hx : x = z) (hy : y = z) : (if x ≠ 0 then x else y) = z := by
  rw [hx, hy, ite_id]

theorem ready_getBytesPerBlock (side : Side) : (ready model type n).getBytesPerBlock side =
      (ready model type n).slotSize side * kvBlockSize :=
  stored rfl (congrArg (· * kvBlockSize) (stored rfl rfl))

theorem ready_blockPtr {block layer : Int} (side : Side)
    (h : (ready model type n).Valid block layer) :
    (ready model type n).blockPtr side block layer =
      some ((layer.toNat * (ready model type n).maxBlocks + block.toNat) *
        ((ready model type n).slotSize side * kvBlockSize)) := by
  have hbytes := ready_getBytesPerBlock model type n side
  have hstride : (if (ready model type n).layerStrideBytes side ≠ 0 then
        (ready model type n).layerStrideBytes side
      else (ready model type n).getBytesPerBlock side * (ready model type n).maxBlocks) =
      (ready model type n).slotSize side * kvBlockSize * (ready model type n).maxBlocks :=
    stored rfl (congrArg (· * (ready model type n).maxBlocks) hbytes)
  unfold PagedKVCache.blockPtr
  have hallocated : (ready model type n).useBlockAllocator = true := rfl
  rw [if_neg (mt invalid_iff.mp (not_not.mpr h)), if_pos hallocated]
  dsimp only
  rw [hstride, hbytes, arena_offset]

section

variable (h : (ready model type n).hasIndexCache = true)

include h

theorem indexHeadDim_positive :
    0 < (ready model type n).indexHeadDim := by
  have hboth : (model.isGlmDsa && 0 < model.indexHeadDim) = true := h
  simp only [Bool.and_eq_true, decide_eq_true_eq] at hboth
  exact hboth.2

theorem empty_getIndexBytesPerSlot :
    (emptyCache model type n).getIndexBytesPerSlot = 2 * (ready model type n).indexHeadDim := by
  have hdim := indexHeadDim_positive model type n h
  have hnone : (emptyCache model type n).indexBytesPerSlot = 0 := rfl
  unfold getIndexBytesPerSlot
  rw [if_neg (not_not.mpr hnone), if_neg]
  · rfl
  rintro (habsent | hzero)
  · exact absurd (h.symm.trans habsent) (by decide)
  · exact absurd hzero (Nat.pos_iff_ne_zero.mp hdim)

theorem ready_getIndexBytesPerBlock :
    (ready model type n).getIndexBytesPerBlock =
      2 * (ready model type n).indexHeadDim * kvBlockSize := by
  have hdim := indexHeadDim_positive model type n h
  have hslot : (ready model type n).indexBytesPerSlot = 2 * (ready model type n).indexHeadDim :=
    empty_getIndexBytesPerSlot model type n h
  refine stored (congrArg (· * kvBlockSize) hslot) (congrArg (· * kvBlockSize) ?_)
  unfold getIndexBytesPerSlot
  rw [if_pos (by omega), hslot]

theorem ready_getIndexBlockPtr {block layer : Int}
    (hvalid : (ready model type n).Valid block layer) :
    (ready model type n).getIndexBlockPtr block layer =
      some ((layer.toNat * (ready model type n).maxBlocks + block.toNat) *
        (2 * (ready model type n).indexHeadDim * kvBlockSize)) := by
  have hbytes := ready_getIndexBytesPerBlock model type n h
  have hslot := empty_getIndexBytesPerSlot model type n h
  have hstride : (if (ready model type n).indexLayerStrideBytes ≠ 0 then
        (ready model type n).indexLayerStrideBytes
      else (ready model type n).getIndexBytesPerBlock * (ready model type n).maxBlocks) =
      2 * (ready model type n).indexHeadDim * kvBlockSize * (ready model type n).maxBlocks :=
    stored (congrArg (· * kvBlockSize * (ready model type n).maxBlocks) hslot)
      (congrArg (· * (ready model type n).maxBlocks) hbytes)
  have hthere : ¬ ((ready model type n).hasIndexCache = false ∨
      (ready model type n).indexAllocator = false) :=
    not_or.mpr ⟨by simp [h], ne_of_eq_of_ne h (by decide)⟩
  unfold getIndexBlockPtr
  rw [if_neg hthere, if_neg (mt invalid_iff.mp (not_not.mpr hvalid))]
  dsimp only
  rw [hstride, hbytes, arena_offset]

end

end Ready

/-- **`InitPagedKVCache` lays a cache out.** -/
theorem init_laidOut
    (h : initPagedKVCache memory model maxNumSeqs maxSeqLen type = some c) : c.LaidOut := by
  obtain ⟨n, rfl, hsome, hbytes, hindex⟩ := init_cases h
  refine ⟨hsome, ?_, ?_, ?_, ?_, ?_⟩
  · rintro (_ | _ | _) hpart
    · exact hbytes .k
    · exact hbytes .v
    have hslot := empty_getIndexBytesPerSlot model type n hpart
    have hpos := hindex hpart
    exact hpos.trans_eq (congrArg (· * kvBlockSize) hslot)
  · rintro (_ | _ | _) hpart
    · exact ready_getBytesPerBlock model type n .k
    · exact ready_getBytesPerBlock model type n .v
    · exact ready_getIndexBytesPerBlock model type n hpart
  · rintro block layer (_ | _ | _) hpart
    · exact absurd (show true = false from hpart) (by decide)
    · exact absurd (show true = false from hpart) (by decide)
    · exact if_pos (Or.inl hpart)
  · rintro block layer (_ | _ | _) hpart
    · exact if_pos (invalid_iff.mpr hpart)
    · exact if_pos (invalid_iff.mpr hpart)
    · exact (ite_eq_left_iff.mpr fun _ => if_pos (invalid_iff.mpr hpart))
  rintro block layer (_ | _ | _) hpart hvalid
  · exact ready_blockPtr model type n .k hvalid
  · exact ready_blockPtr model type n .v hvalid
  · exact ready_getIndexBlockPtr model type n hpart hvalid

/-! ### Alignment -/

/-- Every pointer to a block is a multiple of 64, when the arenas begin at one. -/
def BlocksAligned (c : IndexedKVCache) : Prop :=
  ∀ base : Part → Nat, (∀ part, 64 ∣ base part) → ∀ block layer part ptr,
    c.partPtr block layer part = some ptr → 64 ∣ base part + ptr

/-- The values, or quantised blocks of values, in a slot of keys or of values. -/
def slotUnits (c : IndexedKVCache) (side : Side) : Nat :=
  if c.cacheType.isQuantized then c.storageHeadDim side / 32 * c.nHeadKv
  else c.storageHeadDim side * c.nHeadKv

/-- An even number of them in each arena; a float is as long as two halves. -/
def EvenUnits (c : IndexedKVCache) : Prop :=
  (∀ side, c.cacheType ≠ .f32 → 2 ∣ c.slotUnits side) ∧
    (c.hasIndexCache = true → 2 ∣ c.indexHeadDim)

/-- The bytes of a unit of storage. -/
def unitBytes : CacheType → Nat
  | .f32 => 4
  | .f16 => 2
  | .q8_0 => 34
  | .q4_0 => 18

theorem slotSize_units (c : IndexedKVCache) (side : Side) :
    c.slotSize side = c.slotUnits side * unitBytes c.cacheType := by
  unfold PagedKVCache.slotSize slotUnits
  by_cases hzero : c.storageHeadDim side * c.nHeadKv = 0
  · rw [if_pos hzero]
    rcases Nat.mul_eq_zero.mp hzero with hdim | hheads
    · simp [hdim]
    · simp [hheads]
  rw [if_neg hzero]
  cases c.cacheType
  · rfl
  · rfl
  · exact Nat.mul_right_comm _ 34 _
  · exact Nat.mul_right_comm _ 18 _

theorem side_aligned (c : IndexedKVCache) (side : Side) :
    64 ∣ c.slotSize side * kvBlockSize ↔ (c.cacheType ≠ .f32 → 2 ∣ c.slotUnits side) := by
  rw [slotSize_units]
  generalize c.slotUnits side = units
  unfold kvBlockSize
  cases c.cacheType <;> simp [unitBytes] <;> omega

theorem parts_aligned (c : IndexedKVCache) :
    (∀ part, c.has part = true → 64 ∣ c.blockBytes part) ↔ c.EvenUnits := by
  have hindex : 64 ∣ 2 * c.indexHeadDim * kvBlockSize ↔ 2 ∣ c.indexHeadDim := by
    unfold kvBlockSize
    omega
  constructor
  · intro h
    refine ⟨?_, fun hhas => hindex.mp (h .index hhas)⟩
    rintro (_ | _)
    · exact (side_aligned c .k).mp (h .k rfl)
    · exact (side_aligned c .v).mp (h .v rfl)
  rintro ⟨hsides, hdim⟩ (_ | _ | _) hpart
  · exact (side_aligned c .k).mpr (hsides .k)
  · exact (side_aligned c .v).mpr (hsides .v)
  · exact hindex.mpr (hdim hpart)

theorem second_block (h : 1 < c.maxBlocks * c.nLayer) :
    ∃ block layer, c.Valid block layer ∧ layer.toNat * c.maxBlocks + block.toNat = 1 := by
  have hblocks : 0 < c.maxBlocks := Nat.pos_of_mul_pos_right (Nat.lt_of_succ_lt h)
  have hlayers : 0 < c.nLayer := Nat.pos_of_mul_pos_left (Nat.lt_of_succ_lt h)
  unfold Valid
  by_cases hone : c.maxBlocks = 1
  · rw [hone, Nat.one_mul] at h
    exact ⟨0, 1, ⟨by omega, by omega⟩, by simp [hone]⟩
  · exact ⟨1, 0, ⟨by omega, by omega⟩, by simp⟩

/-- **The blocks of a cache are aligned exactly when there is one block only, or an even number
of units in a slot of each arena.** -/
theorem blocks_aligned_iff {memory : Nat → Bool} {model : KvModel} {maxNumSeqs maxSeqLen : Int}
    {type : Option CacheType} {c : IndexedKVCache}
    (h : initPagedKVCache memory model maxNumSeqs maxSeqLen type = some c) :
    c.BlocksAligned ↔ c.maxBlocks * c.nLayer = 1 ∨ c.EvenUnits := by
  have hlaid := init_laidOut h
  rw [← parts_aligned]
  constructor
  · intro haligned
    by_cases hone : c.maxBlocks * c.nLayer = 1
    · exact Or.inl hone
    have hmany : 1 < c.maxBlocks * c.nLayer := by
      have hsome := hlaid.someBlock
      omega
    obtain ⟨block, layer, hvalid, hsecond⟩ := second_block hmany
    refine Or.inr fun part hpart => ?_
    have hplace := hlaid.place block layer part hpart hvalid
    rw [hsecond, Nat.one_mul] at hplace
    have hdvd := haligned (fun _ => 0) (fun _ => Nat.dvd_zero 64) block layer part _ hplace
    rwa [Nat.zero_add] at hdvd
  intro heven base hbase block layer part ptr hptr
  refine Nat.dvd_add (hbase part) ?_
  by_cases hthere : c.has part = true ∧ c.Valid block layer
  · obtain ⟨hpart, hvalid⟩ := hthere
    rw [hlaid.place block layer part hpart hvalid] at hptr
    cases hptr
    rcases heven with hone | heven
    · -- the first and only block
      obtain ⟨hblocks, hlayers⟩ := mul_eq_one.mp hone
      obtain ⟨⟨hb, hblt⟩, hl, hllt⟩ := hvalid
      have hlayer : layer.toNat = 0 := by omega
      have hblock : block.toNat = 0 := by omega
      rw [hlayer, hblock, Nat.zero_mul, Nat.zero_add, Nat.zero_mul]
      exact Nat.dvd_zero 64
    · exact Dvd.dvd.mul_left (heven part hpart) _
  -- no pointer
  rcases not_and_or.mp hthere with hpart | hvalid
  · rw [hlaid.absent block layer part (by simpa using hpart)] at hptr
    exact nomatch hptr
  rw [hlaid.outside block layer part hvalid] at hptr
  exact nomatch hptr

/-- Eight heads of 128. -/
def evenModel : KvModel where
  bert := false
  nEmbdHeadK := 128
  nEmbdHeadV := 128
  nHeadKv := 8
  nLayer := 2
  isGlmDsa := false
  glmIndexHeadDim := 0
  isGemma4 := false
  gemma4LayerNHeadKv := []
  gemma4LayerIsSliding := []
  gemma4KeyLengthFull := 0
  gemma4ValueLengthFull := 0
  gemma4KeyLengthSwa := 0
  gemma4ValueLengthSwa := 0

theorem even_heads_aligned :
    ∃ c, initPagedKVCache (fun _ => true) evenModel 4 2048 (some .q8_0) = some c ∧
      c.BlocksAligned := by
  refine ⟨_, rfl, (blocks_aligned_iff (show initPagedKVCache (fun _ => true) evenModel 4 2048
    (some .q8_0) = some _ from rfl)).mpr (Or.inr ⟨?_, fun h => nomatch h⟩)⟩
  rintro (_ | _) -
  · decide
  · decide

/-- An encoder's cache has one head of one dimension. -/
theorem encoder_misaligned :
    ∃ c, initPagedKVCache (fun _ => true) { evenModel with bert := true } 1 32 (some .f16) = some c ∧
      c.partPtr 1 0 .k = some 32 ∧ ¬ c.BlocksAligned := by
  refine ⟨_, rfl, rfl, fun haligned => ?_⟩
  have hdvd := haligned (fun _ => 0) (fun _ => Nat.dvd_zero 64) 1 0 .k 32 rfl
  exact absurd hdvd (by decide)

end DenseCore.IndexedKVCache
