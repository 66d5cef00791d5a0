/-
Blocks that were swapped out come back, wherever they go.

Each copy writes a chunk of its own: in a buffer one for each position and layer, those of
the indexer behind those of the keys; in an arena one for each block and layer.  So a byte is
under one chunk only, and ends with what that chunk brings.
-/
import DenseCore.Memory.KvSwap
import DenseCore.Proofs.Memory.KvInit
import Mathlib.Data.List.GetD
import Mathlib.Data.List.Nodup

namespace DenseCore.IndexedKVCache

open List

open Lib

/-- The bytes of a block in a layer. -/
def readBlock (c : IndexedKVCache) (a : Arenas) (block layer : Int) (part : Part) :
    Option (List UInt8) :=
  (c.partPtr block layer part).map fun ptr => readCells (a part) ptr (c.partBytes part)

/-! ### Places -/

/-- Where a block lies in its arena. -/
def place (c : IndexedKVCache) (block layer : Int) (part : Part) : Nat :=
  (layer.toNat * c.maxBlocks + block.toNat) * c.partBytes part

/-- Where a row lies in its buffer. -/
def hostPlace (c : IndexedKVCache) (blocks row : Nat) : Part → Nat
  | .k => row * c.partBytes .k
  | .v => row * c.partBytes .v
  | .index => c.totalBytes blocks .k + row * c.partBytes .index

/-- The buffer that a part goes to. -/
def hostOf (out : HostBuffer × HostBuffer) : Part → HostBuffer
  | .k => out.1
  | .v => out.2
  | .index => out.1

variable {c : IndexedKVCache}

variable {block : Int} {layer b n i blocks : Nat} {part : Part} {ids dst : List Int}
  {host : HostBuffer × HostBuffer}

theorem LaidOut.partPtr_eq (h : c.LaidOut) {layer : Int}
    (hpart : c.has part = true) (hvalid : c.Valid block layer) :
    c.partPtr block layer part = some (c.place block layer part) := by
  unfold IndexedKVCache.place
  rw [h.bytes part hpart]
  exact h.place block layer part hpart hvalid

theorem row_unique {w r r' : Nat} (hb : b < w) (hlo : r' * w ≤ r * w + b)
    (hhi : r * w + b < r' * w + w) : r' = r := by
  have hdiv : (r * w + b) / w = r := row_div hb
  obtain ⟨b', hb'⟩ := Nat.exists_eq_add_of_le hlo
  rw [hb', row_div (by omega)] at hdiv
  exact hdiv

theorem number_unique {layer' block block' : Nat} (hb : block < n) (hb' : block' < n)
    (h : layer' * n + block' = layer * n + block) : layer' = layer ∧ block' = block := by
  have hdiv : (layer' * n + block') / n = layer' := row_div hb'
  rw [h, row_div hb] at hdiv
  subst hdiv
  exact ⟨rfl, Nat.add_left_cancel h⟩

theorem place_unique {block' layer layer' : Int}
    (hvalid : c.Valid block layer) (hvalid' : c.Valid block' layer') (hb : b < c.partBytes part)
    (hlo : c.place block' layer' part ≤ c.place block layer part + b)
    (hhi : c.place block layer part + b < c.place block' layer' part + c.partBytes part) :
    block' = block ∧ layer' = layer := by
  have hrow := row_unique hb hlo hhi
  obtain ⟨⟨hpos, hlt⟩, hlpos, hllt⟩ := hvalid
  obtain ⟨⟨hpos', hlt'⟩, hlpos', hllt'⟩ := hvalid'
  obtain ⟨hlayer, hblock⟩ := number_unique (by omega) (by omega) hrow
  omega

/-! ### Loops over blocks and layers -/

/-- The chunks of all rows. -/
def rowChunks (nLayer : Nat) (ids : List Int) (chunks : Nat → Int → Nat → List (Chunk UInt8)) :
    List (Chunk UInt8) :=
  (range ids.length).flatMap fun i =>
    (range nLayer).flatMap fun layer => chunks i (ids.getD i 0) layer

theorem mem_rowChunks {nLayer : Nat}
    {chunks : Nat → Int → Nat → List (Chunk UInt8)} {ch : Chunk UInt8} :
    ch ∈ rowChunks nLayer ids chunks ↔
      ∃ i layer, i < ids.length ∧ layer < nLayer ∧ ch ∈ chunks i (ids.getD i 0) layer := by
  unfold rowChunks
  simp only [mem_flatMap, mem_range]
  constructor
  · rintro ⟨i, hi, layer, hlayer, hch⟩
    exact ⟨i, layer, hi, hlayer, hch⟩
  rintro ⟨i, layer, hi, hlayer, hch⟩
  exact ⟨i, hi, layer, hlayer, hch⟩

theorem getD_valid (hids : ∀ b ∈ ids, 0 ≤ b ∧ b < n)
    (hi : i < ids.length) : 0 ≤ ids.getD i 0 ∧ ids.getD i 0 < n := by
  rw [getD_eq_getElem _ _ hi]
  exact hids _ (getElem_mem hi)

/-- **The loop of both routines** writes the chunks of its rows, when each row does. -/
theorem foldl_layers {σ : Type} (c : IndexedKVCache) (data : σ → Nat → UInt8)
    (step : Nat → Int → σ → Nat → σ) (chunks : Nat → Int → Nat → List (Chunk UInt8))
    (hids : ∀ b ∈ ids, 0 ≤ b ∧ b < c.maxBlocks)
    (hstep : ∀ i block (layer : Nat) s, i < ids.length → c.Valid block layer →
      data (step i block s layer) = writeChunks (data s) (chunks i block layer)) (s : σ) :
    data ((range ids.length).foldl (fun s i =>
          let block := ids.getD i 0
          if block < 0 then s else (range c.nLayer).foldl (step i block) s) s) =
      writeChunks (data s) (rowChunks c.nLayer ids chunks) := by
  refine foldl_writes data _ _ (fun i hi s => ?_) s
  have hi := mem_range.mp hi
  have hblock := getD_valid hids hi
  dsimp only
  rw [if_neg (by omega)]
  refine foldl_writes data (step i (ids.getD i 0)) _ (fun layer hlayer s => ?_) s
  have hlayer := mem_range.mp hlayer
  exact hstep i _ layer s hi ⟨hblock, by omega, by omega⟩

/-! ### Out -/

/-- What a buffer holds: its part, and what shares it. -/
def sharers (c : IndexedKVCache) : Part → List Part
  | .v => [.v]
  | _ => .k :: if c.hasIndexCache then [.index] else []

/-- The copy of a part of a block in a layer. -/
def outChunk (c : IndexedKVCache) (a : Arenas) (blocks i : Nat) (block : Int) (layer : Nat)
    (part : Part) : Chunk UInt8 :=
  ⟨c.hostPlace blocks (i * c.nLayer + layer) part, c.partBytes part,
    fun b => a part (c.place block layer part + b)⟩

theorem totalIndexBytes_positive (h : c.LaidOut) (hindex : c.hasIndexCache = true)
    (hblocks : 0 < blocks) : 0 < c.totalIndexBytes blocks := by
  have hlayers : 0 < c.nLayer := Nat.pos_of_mul_pos_left h.someBlock
  have hbytes : 0 < c.partBytes .index := (h.positive .index hindex).trans_eq
    (h.bytes .index hindex).symm
  unfold totalIndexBytes totalBytes
  rw [if_pos hindex]
  exact Nat.mul_pos (Nat.mul_pos hblocks hlayers) hbytes

theorem copyLayer_data (h : c.LaidOut) (a : Arenas)
    (hi : i < blocks) (hvalid : c.Valid block layer) (out : HostBuffer × HostBuffer) (part : Part) :
    (hostOf (c.copyLayer a blocks i block out layer) part).data = writeChunks (hostOf out part).data
        ((c.sharers part).map (c.outChunk a blocks i block layer)) := by
  have hk := h.partPtr_eq (show c.has .k = true from rfl) hvalid
  have hv := h.partPtr_eq (show c.has .v = true from rfl) hvalid
  cases hindex : c.hasIndexCache with
  | true =>
    have hx := h.partPtr_eq (show c.has .index = true from hindex) hvalid
    have htotal := totalIndexBytes_positive h hindex (Nat.zero_lt_of_lt hi)
    cases part <;>
      simp [copyLayer, hk, hv, hx, htotal, hindex, hostOf, sharers, writeChunks, outChunk,
        HostBuffer.fill, Chunk.write, hostPlace]
  | false =>
    have hx := h.absent block layer .index hindex
    cases part <;> simp [copyLayer, hk, hv, hx, hindex, hostOf, sharers, writeChunks, outChunk,
        HostBuffer.fill, Chunk.write, hostPlace]

/-- No two parts of the swapped blocks share a byte on the host. -/
theorem hostPlace_unique {i' layer' : Nat} {part' : Part}
    (hi : i < blocks) (hi' : i' < blocks) (hlayer : layer < c.nLayer) (hlayer' : layer' < c.nLayer)
    (hshare : part' ∈ c.sharers part) (hb : b < c.partBytes part)
    (hlo : c.hostPlace blocks (i' * c.nLayer + layer') part' ≤
      c.hostPlace blocks (i * c.nLayer + layer) part + b)
    (hhi : c.hostPlace blocks (i * c.nLayer + layer) part + b <
      c.hostPlace blocks (i' * c.nLayer + layer') part' + c.partBytes part') :
    part' = part ∧ i' = i ∧ layer' = layer := by
  have hrow := row_lt hi hlayer
  have hrow' := row_lt hi' hlayer'
  have hrows : i' * c.nLayer + layer' = i * c.nLayer + layer → i' = i ∧ layer' = layer :=
    number_unique hlayer hlayer'
  cases part with
  | k =>
    have hkeys : (i * c.nLayer + layer) * c.partBytes .k + b < c.totalBytes blocks .k :=
      row_lt hrow hb
    rcases mem_cons.mp hshare with rfl | hindex
    · exact ⟨rfl, hrows (row_unique hb hlo hhi)⟩
    obtain rfl : part' = .index := by
      cases hhas : c.hasIndexCache <;> simp_all
    unfold hostPlace at hlo
    dsimp only at hlo
    omega
  | v =>
    obtain rfl := mem_singleton.mp hshare
    exact ⟨rfl, hrows (row_unique hb hlo hhi)⟩
  | index =>
    unfold hostPlace at hlo hhi
    rcases mem_cons.mp hshare with rfl | hindex
    · have hkeys : (i' * c.nLayer + layer') * c.partBytes .k + c.partBytes .k ≤
          c.totalBytes blocks .k := by
        rw [← Nat.succ_mul]
        exact Nat.mul_le_mul_right _ hrow'
      dsimp only at hhi
      omega
    obtain rfl : part' = .index := by
      cases hhas : c.hasIndexCache <;> simp_all
    dsimp only at hlo hhi
    exact ⟨rfl, hrows (row_unique hb (by omega) (by omega))⟩

theorem self_mem_sharers (h : c.has part = true) : part ∈ c.sharers part := by
  cases part with
  | k => exact mem_cons_self
  | v => exact mem_cons_self
  | index =>
    have hindex : c.hasIndexCache = true := h
    simp [sharers, hindex]

/-- **What is in the buffers** after the blocks were copied out. -/
theorem copyBlocksToHost_data (h : c.LaidOut) (a : Arenas) {src : List Int}
    (hsrc : ∀ b ∈ src, 0 ≤ b ∧ b < c.maxBlocks)
    (hpart : c.has part = true) (hi : i < src.length) (hlayer : layer < c.nLayer)
    (hb : b < c.partBytes part) :
    (hostOf (c.copyBlocksToHost a src) part).data
        (c.hostPlace src.length (i * c.nLayer + layer) part + b) =
      a part (c.place (src.getD i 0) layer part + b) := by
  have hloop := foldl_layers c (fun out => (hostOf out part).data)
    (c.copyLayer a src.length) (fun i block layer =>
      (c.sharers part).map (c.outChunk a src.length i block layer)) hsrc
    (fun i block layer out hi hvalid => copyLayer_data h a hi hvalid out part)
  unfold copyBlocksToHost
  refine (congrFun (hloop _) _).trans (writeChunks_agreed (fun ch hch hcov => ?_) ?_)
  · obtain ⟨i', layer', hi', hlayer', hmap⟩ := mem_rowChunks.mp hch
    obtain ⟨part', hshare, rfl⟩ := mem_map.mp hmap
    obtain ⟨rfl, rfl, rfl⟩ := hostPlace_unique hi hi' hlayer hlayer' hshare hb hcov.1 hcov.2
    exact congrArg (fun d => a part' (c.place (src.getD i' 0) layer' part' + d))
      (Nat.add_sub_cancel_left _ b)
  refine ⟨c.outChunk a src.length i (src.getD i 0) layer part, ?_, Chunk.covers_add.mpr hb⟩
  exact mem_rowChunks.mpr ⟨i, layer, hi, hlayer, mem_map.mpr ⟨part, self_mem_sharers hpart, rfl⟩⟩

/-- The buffers are long enough for `blocks` blocks. -/
def LongEnough (c : IndexedKVCache) (host : HostBuffer × HostBuffer) (blocks : Nat) : Prop :=
  c.totalBytes blocks .k + c.totalIndexBytes blocks ≤ host.1.size ∧
    c.totalBytes blocks .v ≤ host.2.size

theorem copyLayer_size (a : Arenas) (blocks i : Nat) (block : Int) (out : HostBuffer × HostBuffer)
    (layer : Nat) :
    (c.copyLayer a blocks i block out layer).1.size = out.1.size ∧
      (c.copyLayer a blocks i block out layer).2.size = out.2.size := by
  unfold copyLayer HostBuffer.fill
  refine ⟨?_, ?_⟩ <;> dsimp only <;> repeat' split
  all_goals rfl

theorem copyBlocksToHost_longEnough (a : Arenas) (src : List Int) :
    c.LongEnough (c.copyBlocksToHost a src) src.length := by
  unfold copyBlocksToHost
  refine List.foldlRecOn (motive := fun out => c.LongEnough out src.length) _ _
    ⟨Nat.le_refl _, Nat.le_refl _⟩ fun out hout i _ => ?_
  dsimp only
  split
  · exact hout
  refine List.foldlRecOn (motive := fun out => c.LongEnough out src.length) _ _ hout
    fun out hout layer _ => ?_
  obtain ⟨hk, hv⟩ := copyLayer_size a src.length i (src.getD i 0) out layer
  exact ⟨hout.1.trans_eq hk.symm, hout.2.trans_eq hv.symm⟩

/-! ### And back -/

/-- The copy of a part of a block in a layer. -/
def inChunk (c : IndexedKVCache) (host : HostBuffer × HostBuffer) (part : Part) (blocks i : Nat)
    (block : Int) (layer : Nat) : Chunk UInt8 :=
  ⟨c.place block layer part, c.partBytes part, fun b =>
    (hostOf host part).data (c.hostPlace blocks (i * c.nLayer + layer) part + b)⟩

theorem restoreLayer_data (h : c.LaidOut) (hlong : c.LongEnough host blocks) (hi : i < blocks)
    (hvalid : c.Valid block layer) (a : Arenas) (hpart : c.has part = true) :
    c.restoreLayer host.1 host.2 blocks i block a layer part =
      writeChunks (a part) [c.inChunk host part blocks i block layer] := by
  have hk := h.partPtr_eq (show c.has .k = true from rfl) hvalid
  have hv := h.partPtr_eq (show c.has .v = true from rfl) hvalid
  cases hindex : c.hasIndexCache with
  | true =>
    have hx := h.partPtr_eq (show c.has .index = true from hindex) hvalid
    have htotal := totalIndexBytes_positive h hindex (Nat.zero_lt_of_lt hi)
    cases part <;>
      simp [restoreLayer, hk, hv, hx, htotal, hlong.1, hostOf, writeChunks, inChunk, Arenas.fill,
        Chunk.write, hostPlace]
  | false =>
    have hx := h.absent block layer .index hindex
    cases part with
    | index => exact absurd (hindex.symm.trans hpart) (by decide)
    | k | v =>
      simp [restoreLayer, hk, hv, hx, hostOf, writeChunks, inChunk, Arenas.fill, Chunk.write,
        hostPlace]

theorem restoreBlocksFromHost_chunks (h : c.LaidOut) (hdst : ∀ b ∈ dst, 0 ≤ b ∧ b < c.maxBlocks)
    (hlong : c.LongEnough host dst.length) (a : Arenas) (hpart : c.has part = true) :
    c.restoreBlocksFromHost a dst host.1 host.2 part =
      writeChunks (a part) (rowChunks c.nLayer dst fun i block layer =>
        [c.inChunk host part dst.length i block layer]) := by
  have hsize : ¬ (host.1.size < c.totalBytes dst.length .k ∨
      host.2.size < c.totalBytes dst.length .v) := by
    obtain ⟨hk, hv⟩ := hlong
    omega
  unfold restoreBlocksFromHost
  dsimp only
  rw [if_neg hsize]
  exact foldl_layers c (fun a => a part) (c.restoreLayer host.1 host.2 dst.length) _ hdst
    (fun i block layer a hi hvalid => restoreLayer_data h hlong hi hvalid a hpart) a

theorem valid_of_loop (hids : ∀ b ∈ ids, 0 ≤ b ∧ b < c.maxBlocks)
    (hi : i < ids.length) (hlayer : layer < c.nLayer) :
    c.Valid (ids.getD i 0) layer :=
  ⟨getD_valid hids hi, by omega, by omega⟩

/-- **A byte that was copied back.** -/
theorem restored_byte (h : c.LaidOut)
    (hdst : ∀ b ∈ dst, 0 ≤ b ∧ b < c.maxBlocks) (hnodup : dst.Nodup)
    (hlong : c.LongEnough host dst.length) (a : Arenas)
    (hpart : c.has part = true) (hi : i < dst.length) (hlayer : layer < c.nLayer)
    (hb : b < c.partBytes part) :
    c.restoreBlocksFromHost a dst host.1 host.2 part (c.place (dst.getD i 0) layer part + b) =
      (hostOf host part).data (c.hostPlace dst.length (i * c.nLayer + layer) part + b) := by
  rw [restoreBlocksFromHost_chunks h hdst hlong a hpart]
  refine writeChunks_agreed (fun ch hch hcov => ?_) ?_
  · obtain ⟨i', layer', hi', hlayer', hmem⟩ := mem_rowChunks.mp hch
    obtain rfl := mem_singleton.mp hmem
    obtain ⟨hblock, hlayers⟩ := place_unique (valid_of_loop hdst hi hlayer)
      (valid_of_loop hdst hi' hlayer') hb hcov.1 hcov.2
    have hsame : i' = i := by
      rw [getD_eq_getElem _ _ hi', getD_eq_getElem _ _ hi] at hblock
      exact hnodup.getElem_inj_iff.mp hblock
    obtain rfl := hsame
    obtain rfl : layer' = layer := Int.ofNat_inj.mp hlayers
    exact congrArg (fun d => (hostOf host part).data
      (c.hostPlace dst.length (i' * c.nLayer + layer') part + d)) (Nat.add_sub_cancel_left _ b)
  refine ⟨c.inChunk host part dst.length i (dst.getD i 0) layer, ?_, Chunk.covers_add.mpr hb⟩
  exact mem_rowChunks.mpr ⟨i, layer, hi, hlayer, mem_singleton_self _⟩

/-- **A byte of another block** stays. -/
theorem kept_byte (h : c.LaidOut)
    (hdst : ∀ b ∈ dst, 0 ≤ b ∧ b < c.maxBlocks) (hlong : c.LongEnough host dst.length) (a : Arenas)
    {layer : Int} (hpart : c.has part = true)
    (hvalid : c.Valid block layer) (hnot : block ∉ dst) (hb : b < c.partBytes part) :
    c.restoreBlocksFromHost a dst host.1 host.2 part (c.place block layer part + b) =
      a part (c.place block layer part + b) := by
  rw [restoreBlocksFromHost_chunks h hdst hlong a hpart]
  refine writeChunks_outside fun ch hch hcov => hnot ?_
  obtain ⟨i', layer', hi', hlayer', hmem⟩ := mem_rowChunks.mp hch
  obtain rfl := mem_singleton.mp hmem
  obtain ⟨rfl, -⟩ := place_unique hvalid (valid_of_loop hdst hi' hlayer') hb hcov.1 hcov.2
  rw [getD_eq_getElem _ _ hi']
  exact getElem_mem hi'

/-! ### Round trip -/

theorem LaidOut.readBlock_eq (h : c.LaidOut) (a : Arenas) {layer : Int}
    (hpart : c.has part = true) (hvalid : c.Valid block layer) :
    c.readBlock a block layer part =
      some (readCells (a part) (c.place block layer part) (c.partBytes part)) := by
  unfold IndexedKVCache.readBlock
  rw [h.partPtr_eq hpart hvalid]
  rfl

theorem LaidOut.readBlock_absent (h : c.LaidOut) (a : Arenas) (block layer : Int)
    (hpart : c.has part = false) : c.readBlock a block layer part = none := by
  unfold IndexedKVCache.readBlock
  rw [h.absent block layer part hpart]
  rfl

theorem readCells_congr {m m' : Nat → UInt8} {p p' : Nat}
    (h : ∀ b, b < n → m (p + b) = m' (p' + b)) : readCells m p n = readCells m' p' n :=
  map_congr_left fun b hb => h b (mem_range.mp hb)

/-- **Swapping out and in again** puts the blocks' bytes where they are asked for, and
nowhere else. -/
theorem swap_round_trip {memory : Nat → Bool} {model : KvModel} {maxNumSeqs maxSeqLen : Int}
    {type : Option CacheType} {c : IndexedKVCache}
    (hinit : initPagedKVCache memory model maxNumSeqs maxSeqLen type = some c)
    {src dst : List Int} (hsrc : ∀ b ∈ src, 0 ≤ b ∧ b < c.maxBlocks)
    (hdst : ∀ b ∈ dst, 0 ≤ b ∧ b < c.maxBlocks) (hnodup : dst.Nodup)
    (hlen : src.length = dst.length) (copied current : Arenas) :
    let host := c.copyBlocksToHost copied src
    let restored := c.restoreBlocksFromHost current dst host.1 host.2
    (∀ i layer, i < dst.length → layer < c.nLayer → ∀ part,
        c.readBlock restored (dst.getD i 0) layer part =
          c.readBlock copied (src.getD i 0) layer part) ∧
      ∀ block layer, c.Valid block layer → block ∉ dst → ∀ part,
        c.readBlock restored block layer part = c.readBlock current block layer part := by
  intro host restored
  have h := init_laidOut hinit
  have hlong : c.LongEnough host dst.length := hlen ▸ copyBlocksToHost_longEnough copied src
  refine ⟨fun i layer hi hlayer part => ?_, fun block layer hvalid hnot part => ?_⟩
  · cases hpart : c.has part with
    | false => rw [h.readBlock_absent _ _ _ hpart, h.readBlock_absent _ _ _ hpart]
    | true =>
      have hi' : i < src.length := hlen ▸ hi
      rw [h.readBlock_eq _ hpart (valid_of_loop hdst hi hlayer),
        h.readBlock_eq _ hpart (valid_of_loop hsrc hi' hlayer)]
      refine congrArg some (readCells_congr fun b hb => ?_)
      calc restored part (c.place (dst.getD i 0) layer part + b)
        _ = (hostOf host part).data (c.hostPlace dst.length (i * c.nLayer + layer) part + b) :=
            restored_byte h hdst hnodup hlong current hpart hi hlayer hb
        _ = (hostOf host part).data (c.hostPlace src.length (i * c.nLayer + layer) part + b) := by
            rw [hlen]
        _ = copied part (c.place (src.getD i 0) layer part + b) :=
            copyBlocksToHost_data h copied hsrc hpart hi' hlayer hb
  · cases hpart : c.has part with
    | false => rw [h.readBlock_absent _ _ _ hpart, h.readBlock_absent _ _ _ hpart]
    | true =>
      rw [h.readBlock_eq _ hpart hvalid, h.readBlock_eq _ hpart hvalid]
      exact congrArg some (readCells_congr fun b hb =>
        kept_byte h hdst hlong current hpart hvalid hnot hb)

/-- Two blocks of a GLM model change places. -/
theorem exchanged_blocks :
    let copied : Arenas := fun _ b => UInt8.ofNat (b % 251)
    ∃ c, initPagedKVCache (fun _ => true) { evenModel with isGlmDsa := true, glmIndexHeadDim := 64 }
        1 32 (some .f16) = some c ∧ c.hasIndexCache = true ∧
      let host := c.copyBlocksToHost copied [0, 1]
      let restored := c.restoreBlocksFromHost (fun _ _ => 0) [1, 0] host.1 host.2
      ∀ layer, layer < c.nLayer → ∀ part,
        c.readBlock restored 1 layer part = c.readBlock copied 0 layer part := by
  intro copied
  refine ⟨_, rfl, rfl, fun layer hlayer part => ?_⟩
  have hblocks : ∀ b ∈ ([0, 1] : List Int), 0 ≤ b ∧ b < 2 := by decide
  have hblocks' : ∀ b ∈ ([1, 0] : List Int), 0 ≤ b ∧ b < 2 := by decide
  exact (swap_round_trip (show initPagedKVCache (fun _ => true)
    { evenModel with isGlmDsa := true, glmIndexHeadDim := 64 } 1 32 (some .f16) = some _ from rfl)
    hblocks hblocks' (by decide) rfl copied (fun _ _ => 0)).1 0 layer (by decide) hlayer part

end DenseCore.IndexedKVCache
