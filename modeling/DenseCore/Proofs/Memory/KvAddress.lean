/-
The slots of the KV arenas do not overlap and lie in them.

The strides that `InitPagedKVCache` stores are those of one numbering: layer after layer,
in a layer block after block, in a block slot after slot, every slot of one size.  So a
slot is found at its number times its size, and the allocator, which makes room for as
many blocks and rounds each of them up, has room for the last of them.  Addresses are
`size_t`; the cache fits in it, and with the arena every address below its end does.
-/
import DenseCore.Proofs.Memory.KvInit

namespace DenseCore

open Lib

namespace IndexedKVCache

/-! ### Slots and their addresses -/

/-- A slot by its place in the cache. -/
@[ext]
structure SlotId where
  layer : Int
  block : Int
  slot : Int
deriving DecidableEq

variable (c : IndexedKVCache)

/-- A layer, a block and a slot of the cache. -/
def ValidSlot (s : SlotId) : Prop :=
  c.Valid s.block s.layer ∧ 0 ≤ s.slot ∧ s.slot < kvBlockSize

/-- The place of a slot in its arena, as a `size_t`. -/
def slotOffset (part : Part) (s : SlotId) : Option Nat :=
  (c.partSlotPtr s.block s.layer s.slot part).map (· % 2 ^ 64)

/-- `k_bytes_per_block`, `v_bytes_per_block` and `index_bytes_per_block`, which the
allocators are made with. -/
def blockStride : Part → Nat
  | .k => c.bytesPerBlock .k
  | .v => c.bytesPerBlock .v
  | .index => c.indexBytesPerBlock

/-- The size of an arena, with the rounding of its allocator. -/
def arenaBytes (hugePages : Part → Bool) (part : Part) : Nat :=
  arenaSize (hugePages part) (c.maxBlocks * c.nLayer) (c.blockStride part)

/-- The number of a slot. -/
def slotIndex (s : SlotId) : Nat :=
  (s.layer.toNat * c.maxBlocks + s.block.toNat) * kvBlockSize + s.slot.toNat

variable {c : IndexedKVCache} {s t : SlotId}

theorem slotIndex_lt (hs : c.ValidSlot s) :
    c.slotIndex s < c.maxBlocks * c.nLayer * kvBlockSize := by
  obtain ⟨⟨⟨hb, hblt⟩, hl, hllt⟩, hslot, hslotlt⟩ := hs
  rw [Nat.mul_comm c.maxBlocks]
  exact row_lt (row_lt (by omega) (by omega)) (by omega)

/-- **The numbering is one to one.** -/
theorem slotIndex_inj (hs : c.ValidSlot s) (ht : c.ValidSlot t)
    (h : c.slotIndex s = c.slotIndex t) : s = t := by
  obtain ⟨⟨⟨hb, hblt⟩, hl, hllt⟩, hslot, hslotlt⟩ := hs
  obtain ⟨⟨⟨hb', hblt'⟩, hl', hllt'⟩, hslot', hslotlt'⟩ := ht
  have hlow : s.slot.toNat < kvBlockSize ∧ t.slot.toNat < kvBlockSize := by omega
  have hmid : s.block.toNat < c.maxBlocks ∧ t.block.toNat < c.maxBlocks := by omega
  unfold slotIndex at h
  have hrow := congrArg (· / kvBlockSize) h
  have hcell := congrArg (· % kvBlockSize) h
  rw [row_div hlow.1, row_div hlow.2] at hrow
  rw [row_mod hlow.1, row_mod hlow.2] at hcell
  have hlayer := congrArg (· / c.maxBlocks) hrow
  have hblock := congrArg (· % c.maxBlocks) hrow
  rw [row_div hmid.1, row_div hmid.2] at hlayer
  rw [row_mod hmid.1, row_mod hmid.2] at hblock
  ext <;> omega

/-! ### The cache that was set up -/

/-- A block is sixteen slots, and its allocator was told so. -/
structure SlotsLaidOut (c : IndexedKVCache) : Prop where
  bytes : ∀ part, c.has part → c.partSlotBytes part * kvBlockSize = c.blockBytes part
  stride : ∀ part, c.has part → c.blockStride part = c.blockBytes part

theorem init_slotsLaidOut {memory : Nat → Bool} {model : KvModel} {maxNumSeqs maxSeqLen : Int}
    {type : Option CacheType}
    (h : initPagedKVCache memory model maxNumSeqs maxSeqLen type = some c) : c.SlotsLaidOut := by
  obtain ⟨n, rfl, -, -, -⟩ := init_cases h
  have hindex (hpart : (ready model type n).has .index = true) :
      (ready model type n).indexBytesPerSlot = 2 * (ready model type n).indexHeadDim :=
    empty_getIndexBytesPerSlot model type n hpart
  refine ⟨?_, ?_⟩
  · rintro (_ | _ | _) hpart
    · exact congrArg (· * kvBlockSize) (stored rfl rfl)
    · exact congrArg (· * kvBlockSize) (stored rfl rfl)
    have hdim := indexHeadDim_positive model type n hpart
    refine congrArg (· * kvBlockSize) ?_
    show (ready model type n).getIndexBytesPerSlot = _
    unfold getIndexBytesPerSlot
    rw [hindex hpart, if_pos (by omega)]
  rintro (_ | _ | _) hpart
  · rfl
  · rfl
  · exact congrArg (· * kvBlockSize) (hindex hpart)

/-- **A slot lies at its number times its size.** -/
theorem partSlotPtr_eq (hlaid : c.LaidOut) (hslots : c.SlotsLaidOut) {part : Part}
    (hpart : c.has part = true) (hs : c.ValidSlot s) :
    c.partSlotPtr s.block s.layer s.slot part = some (c.slotIndex s * c.partSlotBytes part) := by
  have hplace := hlaid.place s.block s.layer part hpart hs.1
  rw [← hslots.bytes part hpart] at hplace
  have hin : ¬(s.slot < 0 ∨ (kvBlockSize : Int) ≤ s.slot) := by
    have := hs.2
    omega
  have hnumber : (s.layer.toNat * c.maxBlocks + s.block.toNat) *
        (c.partSlotBytes part * kvBlockSize) + s.slot.toNat * c.partSlotBytes part =
      c.slotIndex s * c.partSlotBytes part := by
    unfold slotIndex
    ring
  cases part with
  | k =>
    have hblock : c.blockPtr .k s.block s.layer = _ := hplace
    show c.slotPtr .k s.block s.layer s.slot = _
    rw [PagedKVCache.slotPtr, hblock, ← hnumber]
    exact if_neg hin
  | v =>
    have hblock : c.blockPtr .v s.block s.layer = _ := hplace
    show c.slotPtr .v s.block s.layer s.slot = _
    rw [PagedKVCache.slotPtr, hblock, ← hnumber]
    exact if_neg hin
  | index =>
    have hblock : c.getIndexBlockPtr s.block s.layer = _ := hplace
    show c.getIndexSlotPtr s.block s.layer s.slot = _
    rw [getIndexSlotPtr, hblock, ← hnumber]
    exact if_neg hin

theorem le_alignUp (size : Nat) {alignment : Nat} (h : 0 < alignment) :
    size ≤ alignUp size alignment := by
  unfold alignUp
  have hmod := Nat.mod_lt (size + alignment - 1) h
  have hdiv := Nat.div_add_mod' (size + alignment - 1) alignment
  omega

/-- The allocator rounds up, never down. -/
theorem le_arenaSize (hugePages : Bool) (numBlocks blockStride : Nat) :
    numBlocks * blockStride ≤ arenaSize hugePages numBlocks blockStride := by
  have hblocks : numBlocks * blockStride ≤ numBlocks * alignUp blockStride 64 :=
    Nat.mul_le_mul_left _ (le_alignUp blockStride (by decide))
  unfold arenaSize
  dsimp only
  split
  · exact Nat.le_trans hblocks (le_alignUp _ (by decide))
  · exact hblocks

theorem slot_end_le (hslots : c.SlotsLaidOut) (hugePages : Part → Bool) {part : Part}
    (hpart : c.has part = true) (hs : c.ValidSlot s) :
    c.slotIndex s * c.partSlotBytes part + c.partSlotBytes part ≤ c.arenaBytes hugePages part := by
  have hlt := slotIndex_lt hs
  calc c.slotIndex s * c.partSlotBytes part + c.partSlotBytes part
      = (c.slotIndex s + 1) * c.partSlotBytes part := (Nat.succ_mul _ _).symm
    _ ≤ c.maxBlocks * c.nLayer * kvBlockSize * c.partSlotBytes part :=
        Nat.mul_le_mul_right _ hlt
    _ = c.maxBlocks * c.nLayer * c.blockStride part := by
        rw [hslots.stride part hpart, ← hslots.bytes part hpart]
        ring
    _ ≤ c.arenaBytes hugePages part := le_arenaSize _ _ _

theorem index_apart {i j n : Nat} (h : i ≠ j) : i * n + n ≤ j * n ∨ j * n + n ≤ i * n := by
  rcases Nat.lt_or_gt_of_ne h with hlt | hgt
  · exact Or.inl ((Nat.succ_mul i n).symm ▸ Nat.mul_le_mul_right n hlt)
  · exact Or.inr ((Nat.succ_mul j n).symm ▸ Nat.mul_le_mul_right n hgt)

/-- **Every slot has a range of its own** in its arena, whatever the model and the type of
the cache, as long as the arenas fit in a `size_t`. -/
theorem slots_apart {memory : Nat → Bool} {model : KvModel} {maxNumSeqs maxSeqLen : Int}
    {type : Option CacheType}
    (h : initPagedKVCache memory model maxNumSeqs maxSeqLen type = some c)
    (hugePages : Part → Bool)
    (hfits : ∀ part, c.has part = true → c.arenaBytes hugePages part < 2 ^ 64) :
    ∀ part, c.has part = true → 0 < c.partSlotBytes part ∧
      ∀ s, c.ValidSlot s → ∃ offset, c.slotOffset part s = some offset ∧
        offset + c.partSlotBytes part ≤ c.arenaBytes hugePages part ∧
        ∀ t, c.ValidSlot t → t ≠ s → ∃ other, c.slotOffset part t = some other ∧
          (offset + c.partSlotBytes part ≤ other ∨ other + c.partSlotBytes part ≤ offset) := by
  have hlaid := init_laidOut h
  have hslots := init_slotsLaidOut h
  intro part hpart
  have hpos : 0 < c.partSlotBytes part := by
    have hblock := hlaid.positive part hpart
    rw [← hslots.bytes part hpart] at hblock
    exact Nat.pos_of_mul_pos_right hblock
  have hoffset : ∀ s, c.ValidSlot s →
      c.slotOffset part s = some (c.slotIndex s * c.partSlotBytes part) := by
    intro s hs
    have hend := slot_end_le hslots hugePages hpart hs
    have hbound := hfits part hpart
    rw [slotOffset, partSlotPtr_eq hlaid hslots hpart hs, Option.map_some,
      Nat.mod_eq_of_lt (by omega)]
  refine ⟨hpos, fun s hs => ⟨_, hoffset s hs, slot_end_le hslots hugePages hpart hs, ?_⟩⟩
  intro t ht hne
  refine ⟨_, hoffset t ht, index_apart fun hsame => hne ?_⟩
  exact (slotIndex_inj hs ht hsame).symm

theorem evenModel_slots_apart :
    ∃ c, initPagedKVCache (fun _ => true) evenModel 4 2048 (some .q8_0) = some c ∧
      ∃ offset, c.slotOffset .v ⟨1, 511, 15⟩ = some offset ∧
        offset + c.partSlotBytes .v ≤ c.arenaBytes (fun _ => true) .v ∧
        ∃ other, c.slotOffset .v ⟨1, 511, 14⟩ = some other ∧
          (offset + c.partSlotBytes .v ≤ other ∨ other + c.partSlotBytes .v ≤ offset) := by
  refine ⟨_, rfl, ?_⟩
  have hapart := (slots_apart (show initPagedKVCache (fun _ => true) evenModel 4 2048
    (some .q8_0) = some _ from rfl) (fun _ => true) (by
      rintro (_ | _ | _) hpart
      · decide
      · decide
      · cases hpart) .v rfl).2 ⟨1, 511, 15⟩ (by unfold ValidSlot Valid; decide)
  obtain ⟨offset, hoffset, hend, hothers⟩ := hapart
  exact ⟨offset, hoffset, hend,
    hothers ⟨1, 511, 14⟩ (by unfold ValidSlot Valid; decide) (by decide)⟩

end IndexedKVCache

end DenseCore
