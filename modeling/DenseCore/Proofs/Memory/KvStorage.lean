/-
Bulk access to the KV cache and access slot by slot.

Written slot by slot, a range of slots is a run of rows, one for each head of the storage:
the elements of a head and zeros after them, or zeros only.  The bulk routines write the
same rows, whether they clear the range first and then place the heads, or copy the range in
one go.  Reading is the same with source and target exchanged.
-/
import Mathlib.Tactic.Ring
import DenseCore.Memory.KvStorage

namespace DenseCore

open List

open Lib

variable {F α : Type}

namespace PagedKVCache

/-! ### The rows of a range, element by element -/

section Elements

variable (st : Store F α) (data : Nat → F) (g : Geometry)

/-- The cells of a row of a slot: a head of the layer, padded. -/
def headCell (h b : Nat) : α :=
  if h < g.layerHeads ∧ b < g.layerHeadDim * st.width then
    st.put (data (h * g.layerHeadDim + b / st.width)) (b % st.width)
  else st.zero (b % st.width)

/-- The cells of a row of a range of slots. -/
def rowCell (r b : Nat) : α :=
  headCell st (advance data (r / g.storageHeads * g.layerElems)) g (r % g.storageHeads) b

/-- How many of them come from the layer. -/
def layerCells (r : Nat) : Nat :=
  if r % g.storageHeads < g.layerHeads then g.layerHeadDim * st.width else 0

/-- The cells between two rows. -/
def rowStride : Nat := g.storageHeadDim * st.width

variable {st data g}

theorem write_head (hdim : g.layerHeadDim ≤ g.storageHeadDim) (m : Nat → α) (dst h : Nat) :
    (if h < g.layerHeads then
        st.copyIn (st.fill m (dst + h * g.storageHeadDim * st.width) g.storageHeadDim)
          (dst + h * g.storageHeadDim * st.width) (advance data (h * g.layerHeadDim))
          g.layerHeadDim
      else st.fill m (dst + h * g.storageHeadDim * st.width) g.storageHeadDim) =
      writeCells m (dst + h * rowStride st g) (rowStride st g) (headCell st data g h) := by
  unfold rowStride
  rw [← Nat.mul_assoc]
  split
  · rename_i hh
    refine (writeCells_again (Nat.mul_le_mul_right st.width hdim)).trans ?_
    refine writeCells_congr fun b _ => ?_
    unfold headCell
    exact if_congr (by simp [hh]) rfl rfl
  rename_i hh
  refine writeCells_congr fun b _ => ?_
  unfold headCell
  rw [if_neg fun h' => hh h'.1]

theorem writeHeads_eq (hdim : g.layerHeadDim ≤ g.storageHeadDim) (m : Nat → α) (dst : Nat) :
    writeHeads st m dst data g = (range g.storageHeads).foldl (fun m h =>
        writeCells m (dst + h * rowStride st g) (rowStride st g) (headCell st data g h)) m :=
  foldl_ext _ _ _ fun m h _ => write_head hdim m dst h

/-- **Slot by slot, the rows of the range are written.** -/
theorem each_writeHeads (hdim : g.layerHeadDim ≤ g.storageHeadDim) (m : Nat → α) (ptr n : Nat) :
    (range n).foldl (fun m i => writeHeads st m (ptr + i * (g.storageHeads * rowStride st g))
        (advance data (i * g.layerElems)) g) m =
      writeCells m ptr (n * g.storageHeads * rowStride st g) fun b =>
        rowCell st data g (b / rowStride st g) (b % rowStride st g) := by
  rw [← foldl_rows]
  refine Eq.trans (foldl_ext _ _ _ fun m i _ => writeHeads_eq hdim m _) ?_
  rw [foldl_groups (fun m i h => writeCells m
    (ptr + i * (g.storageHeads * rowStride st g) + h * rowStride st g) (rowStride st g)
    (headCell st (advance data (i * g.layerElems)) g h))]
  refine foldl_ext _ _ _ fun m r _ => ?_
  rw [group_row]
  rfl

theorem row_position (r : Nat) :
    r / g.storageHeads * g.storageElems + r % g.storageHeads * g.storageHeadDim =
      r * g.storageHeadDim := by
  unfold Geometry.storageElems
  rw [Nat.mul_comm g.storageHeadDim, ← Nat.mul_assoc, ← Nat.add_mul, Nat.div_add_mod']

theorem layerCells_le (hdim : g.layerHeadDim ≤ g.storageHeadDim) (r : Nat) :
    layerCells st g r ≤ rowStride st g := by
  unfold layerCells
  split
  · exact Nat.mul_le_mul_right st.width hdim
  · exact Nat.zero_le _

theorem rowCell_padding {r b : Nat} (h : ¬ b < layerCells st g r) :
    rowCell st data g r b = st.zero (b % st.width) := by
  unfold rowCell headCell
  refine if_neg fun ⟨hh, hb⟩ => h ?_
  unfold layerCells
  rwa [if_pos hh]

theorem place_head (m : Nat → α) (ptr r : Nat) : (if r % g.storageHeads < g.layerHeads then
        st.copyIn m (ptr + (r / g.storageHeads * g.storageElems +
            r % g.storageHeads * g.storageHeadDim) * st.width)
          (advance data (r / g.storageHeads * g.layerElems + r % g.storageHeads * g.layerHeadDim))
          g.layerHeadDim
      else m) =
      writeCells m (ptr + r * rowStride st g) (layerCells st g r) (rowCell st data g r) := by
  rw [row_position, Nat.mul_assoc]
  unfold layerCells
  split
  · rename_i hh
    refine writeCells_congr fun b hb => ?_
    unfold rowCell headCell
    rw [if_pos ⟨hh, hb⟩]
    unfold advance
    rw [Nat.add_assoc]
  · rw [writeCells_none]

/-- **Clearing the range and placing the heads writes the same rows.** -/
theorem packLayerSlots_eq (hdim : g.layerHeadDim ≤ g.storageHeadDim)
    (hheads : g.layerHeads ≤ g.storageHeads) (m : Nat → α) (ptr n : Nat) :
    st.packLayerSlots m ptr data n g =
      writeCells m ptr (n * g.storageHeads * rowStride st g) fun b =>
        rowCell st data g (b / rowStride st g) (b % rowStride st g) := by
  have hfill : st.fill m ptr (g.storageElems * n) =
      writeCells m ptr (n * g.storageHeads * rowStride st g) fun b => st.zero (b % st.width) := by
    unfold Store.fill Geometry.storageElems rowStride
    congr 1
    ring
  unfold Store.packLayerSlots
  rw [hfill]
  refine (foldl_ext _ _ _ fun m s _ => foldl_upTo _ hheads m).trans ?_
  rw [foldl_groups fun m s h => if h < g.layerHeads then
    st.copyIn m (ptr + (s * g.storageElems + h * g.storageHeadDim) * st.width)
      (advance data (s * g.layerElems + h * g.layerHeadDim)) g.layerHeadDim else m]
  refine (foldl_ext _ _ _ fun m r _ => place_head m ptr r).trans ?_
  rw [foldl_rows_over (layerCells_le hdim)]
  refine writeCells_congr fun b _ => ?_
  split
  · rfl
  rename_i hpadding
  rw [rowCell_padding hpadding, rowStride, Nat.mod_mul_left_mod]

theorem rowCell_whole (hdim : g.layerHeadDim = g.storageHeadDim)
    (hheads : g.layerHeads = g.storageHeads) {n b : Nat}
    (hb : b < n * g.storageHeads * rowStride st g) :
    rowCell st data g (b / rowStride st g) (b % rowStride st g) =
      st.put (data (b / st.width)) (b % st.width) := by
  have hstride : 0 < rowStride st g := Nat.pos_of_ne_zero fun h => by simp [h] at hb
  have hhead : 0 < g.storageHeads := Nat.pos_of_ne_zero fun h => by simp [h] at hb
  have hrow : b / rowStride st g = b / st.width / g.storageHeadDim := by
    rw [rowStride, Nat.div_div_eq_div_mul, Nat.mul_comm]
  have helem : b % rowStride st g / st.width = b / st.width % g.storageHeadDim := by
    rw [rowStride, Nat.mod_mul_left_div_self]
  have hplace : b / rowStride st g / g.storageHeads * g.layerElems +
      (b / rowStride st g % g.storageHeads * g.layerHeadDim + b % rowStride st g / st.width) =
      b / st.width := by
    have helems : g.layerElems = g.storageElems := by
      unfold Geometry.layerElems Geometry.storageElems
      rw [hdim, hheads]
    rw [helems, hdim, ← Nat.add_assoc, row_position, hrow, helem, Nat.div_add_mod']
  unfold rowCell headCell
  rw [if_pos, advance, hplace]
  · rw [rowStride, Nat.mod_mul_left_mod]
  rw [hheads, hdim]
  exact ⟨Nat.mod_lt _ hhead, Nat.mod_lt _ hstride⟩

/-- **Copying the range in one go writes the same rows**, if the shapes are the same. -/
theorem copySlots_eq (hdim : g.layerHeadDim = g.storageHeadDim)
    (hheads : g.layerHeads = g.storageHeads) (m : Nat → α) (ptr n : Nat) :
    copySlots st m ptr data n g = writeCells m ptr (n * g.storageHeads * rowStride st g) fun b =>
        rowCell st data g (b / rowStride st g) (b % rowStride st g) := by
  have hsame : g.layerElems = g.storageElems := by
    unfold Geometry.layerElems Geometry.storageElems
    rw [hdim, hheads]
  have hsize : g.storageElems * n * st.width = n * g.storageHeads * rowStride st g := by
    unfold Geometry.storageElems rowStride
    ring
  unfold copySlots
  rw [hsame, if_neg (Nat.lt_irrefl _)]
  unfold Store.copyIn
  rw [hsize]
  exact writeCells_congr fun b hb => (rowCell_whole hdim hheads hb).symm

end Elements

/-! ### The rows of a range, quantised -/

section Quantised

variable (cd : Codec F) (t : CacheType) (data : Nat → F) (g : Geometry)

/-- The floats of a row of a range. -/
def rowFloats (r : Nat) : List F := (range g.storageHeadDim).map (rowCell cd.floats data g r)

variable {cd t data g}

theorem floats_stride : rowStride cd.floats g = g.storageHeadDim := Nat.mul_one _

theorem floats_headCell (h j : Nat) : headCell cd.floats data g h j =
      if h < g.layerHeads ∧ j < g.layerHeadDim then data (h * g.layerHeadDim + j) else cd.zero := by
  unfold headCell Codec.floats
  dsimp only
  rw [Nat.mul_one, Nat.div_one]

theorem floats_copyIn (m src : Nat → F) (p n j : Nat) :
    cd.floats.copyIn m p src n (p + j) = if j < n then src j else m (p + j) := by
  unfold Store.copyIn Codec.floats
  dsimp only
  rw [writeCells_apply, Nat.mul_one, Nat.add_sub_cancel_left, Nat.div_one]
  exact if_congr (by omega) rfl rfl

variable {src : Nat → F} {r n : Nat}

theorem readCells_row (h : ∀ j, j < g.storageHeadDim →
      src (r * g.storageHeadDim + j) = rowCell cd.floats data g r j) :
    readCells src (r * g.storageHeadDim) g.storageHeadDim = rowFloats cd data g r :=
  map_congr_left fun j hj => h j (mem_range.mp hj)

theorem quantizeChunk_eq {rows : Nat}
    (h : ∀ r, r < rows → readCells src (r * g.storageHeadDim) g.storageHeadDim =
      rowFloats cd data g r) (m : Nat → UInt8) (ptr : Nat) :
    cd.quantizeChunk t m ptr src rows g.storageHeadDim =
      writeCells m ptr (rows * t.rowSize g.storageHeadDim) fun b =>
        cd.quantizeRow t (rowFloats cd data g (b / t.rowSize g.storageHeadDim))
          (b % t.rowSize g.storageHeadDim) := by
  rw [← foldl_rows (g := fun r => cd.quantizeRow t (rowFloats cd data g r))]
  refine foldl_ext _ _ _ fun m r hr => ?_
  rw [h r (mem_range.mp hr)]

theorem quantize_head (m : Nat → UInt8) (dst h : Nat) : cd.quantizeChunk t m dst
        (if h < g.layerHeads then
          cd.floats.copyIn (fun _ => cd.zero) 0 (advance data (h * g.layerHeadDim)) g.layerHeadDim
        else fun _ => cd.zero) 1 g.storageHeadDim =
      writeCells m dst (t.rowSize g.storageHeadDim)
        (cd.quantizeRow t ((range g.storageHeadDim).map (headCell cd.floats data g h))) := by
  have hrow : readCells (if h < g.layerHeads then
        cd.floats.copyIn (fun _ => cd.zero) 0 (advance data (h * g.layerHeadDim)) g.layerHeadDim
      else fun _ => cd.zero) 0 g.storageHeadDim =
      (range g.storageHeadDim).map (headCell cd.floats data g h) := by
    refine map_congr_left fun j _ => ?_
    rw [floats_headCell]
    split
    · rename_i hh
      rw [floats_copyIn]
      exact if_congr (and_iff_right hh).symm rfl rfl
    rename_i hh
    exact (if_neg fun h' => hh h'.1).symm
  unfold Codec.quantizeChunk
  rw [range_one, foldl_cons, foldl_nil, Nat.zero_mul, Nat.zero_mul, hrow]
  rfl

/-- **Slot by slot, each row is quantised.** -/
theorem each_quantizeHeads (m : Nat → UInt8) (ptr n : Nat) :
    (range n).foldl (fun m i => quantizeHeads cd t m
        (ptr + i * (g.storageHeads * t.rowSize g.storageHeadDim))
        (advance data (i * g.layerElems)) g) m =
      writeCells m ptr (n * g.storageHeads * t.rowSize g.storageHeadDim) fun b =>
        cd.quantizeRow t (rowFloats cd data g (b / t.rowSize g.storageHeadDim))
          (b % t.rowSize g.storageHeadDim) := by
  rw [← foldl_rows (g := fun r => cd.quantizeRow t (rowFloats cd data g r))]
  refine Eq.trans (foldl_ext _ _ _ fun m i _ =>
    foldl_ext _ _ _ fun m h _ => quantize_head m _ h) ?_
  rw [foldl_groups fun m i h => writeCells m
    (ptr + i * (g.storageHeads * t.rowSize g.storageHeadDim) + h * t.rowSize g.storageHeadDim)
    (t.rowSize g.storageHeadDim) (cd.quantizeRow t ((range g.storageHeadDim).map
      (headCell cd.floats (advance data (i * g.layerElems)) g h)))]
  refine foldl_ext _ _ _ fun m r _ => ?_
  rw [group_row]
  rfl

theorem packed_rows (hdim : g.layerHeadDim ≤ g.storageHeadDim)
    (hheads : g.layerHeads ≤ g.storageHeads) (scratch : Nat → F) (hr : r < n * g.storageHeads) :
    readCells (cd.floats.packLayerSlots scratch 0 data n g) (r * g.storageHeadDim)
        g.storageHeadDim = rowFloats cd data g r := by
  rw [packLayerSlots_eq hdim hheads, floats_stride]
  refine readCells_row fun j hj => ?_
  have hcell := writeCells_at (m := scratch) (p := 0) (f := fun b =>
    rowCell cd.floats data g (b / g.storageHeadDim) (b % g.storageHeadDim)) (row_lt hr hj)
  rw [Nat.zero_add] at hcell
  rw [hcell, row_div hj, row_mod hj]

theorem data_rows (hdim : g.layerHeadDim = g.storageHeadDim)
    (hheads : g.layerHeads = g.storageHeads) (hr : r < n * g.storageHeads) :
    readCells data (r * g.storageHeadDim) g.storageHeadDim = rowFloats cd data g r := by
  refine readCells_row fun j hj => ?_
  have hbound : r * g.storageHeadDim + j < n * g.storageHeads * rowStride cd.floats g :=
    (row_lt hr hj).trans_eq (congrArg (n * g.storageHeads * ·) floats_stride.symm)
  have hcell := @rowCell_whole _ _ cd.floats data g hdim hheads _ _ hbound
  rw [floats_stride, row_div hj, row_mod hj] at hcell
  rw [hcell]
  exact congrArg data (Nat.div_one _).symm

end Quantised

/-! ### Reading -/

section Reading

variable (st : Store F α) (cd : Codec F) (t : CacheType) {g : Geometry}

/-- **Slot by slot, the heads are read that the unpacking reads.** -/
theorem each_readHeads (out : Nat → F) (m : Nat → α) (ptr n : Nat) :
    (range n).foldl (fun out i => readHeads st out (i * g.layerElems) m
        (ptr + i * (g.storageHeads * rowStride st g)) g) out =
      st.unpackStorageSlots out m ptr n g := by
  refine foldl_ext _ _ _ fun out i _ => foldl_ext _ _ _ fun out h _ => ?_
  have hsrc : ptr + i * (g.storageHeads * rowStride st g) + h * g.storageHeadDim * st.width =
      ptr + (i * g.storageElems + h * g.storageHeadDim) * st.width := by
    unfold rowStride Geometry.storageElems
    ring
  rw [hsrc]

theorem data_position (r : Nat) :
    r / g.layerHeads * g.layerElems + r % g.layerHeads * g.layerHeadDim = r * g.layerHeadDim := by
  unfold Geometry.layerElems
  rw [Nat.mul_comm g.layerHeadDim, ← Nat.mul_assoc, ← Nat.add_mul, Nat.div_add_mod']

/-- **In a layer of the storage's shape, the unpacking is a copy in one go.** -/
theorem unpackStorageSlots_whole (hdim : g.layerHeadDim = g.storageHeadDim)
    (hheads : g.layerHeads = g.storageHeads) (out : Nat → F) (m : Nat → α) (ptr n : Nat) :
    st.unpackStorageSlots out m ptr n g = st.copyOut out 0 m ptr (g.layerElems * n) := by
  have hop : ∀ (out : Nat → F) (r : Nat),
      st.copyOut out (r / g.layerHeads * g.layerElems + r % g.layerHeads * g.layerHeadDim) m
          (ptr + (r / g.layerHeads * g.storageElems + r % g.layerHeads * g.storageHeadDim) *
            st.width) g.layerHeadDim =
        writeCells out (0 + r * g.layerHeadDim) g.layerHeadDim fun j =>
          st.get (readCells m (ptr + (r * g.layerHeadDim + j) * st.width) st.width) := by
    intro out r
    rw [data_position, hheads, row_position, ← hdim, Nat.zero_add]
    refine writeCells_congr fun j _ => ?_
    rw [Nat.add_assoc, ← Nat.add_mul]
  have hsize : g.layerElems * n = n * g.layerHeads * g.layerHeadDim := by
    unfold Geometry.layerElems
    ring
  unfold Store.unpackStorageSlots
  rw [foldl_groups fun out s h => st.copyOut out (s * g.layerElems + h * g.layerHeadDim) m
    (ptr + (s * g.storageElems + h * g.storageHeadDim) * st.width) g.layerHeadDim]
  refine (foldl_ext _ _ _ fun out r _ => hop out r).trans ?_
  rw [foldl_rows (g := fun r j =>
    st.get (readCells m (ptr + (r * g.layerHeadDim + j) * st.width) st.width)), ← hsize]
  refine writeCells_congr fun b _ => ?_
  rw [Nat.div_add_mod']

theorem floats_get (m : Nat → F) (p j : Nat) :
    cd.floats.get (readCells m (p + j * cd.floats.width) cd.floats.width) = m (p + j) := by
  show (readCells m (p + j * 1) 1).headD cd.zero = m (p + j)
  rw [Nat.mul_one]
  rfl

theorem dequantize_head {n k : Nat} (hk : k ≤ n) (scratch out : Nat → F) (dst : Nat)
    (m : Nat → UInt8) (src : Nat) :
    cd.floats.copyOut out dst (dequantizeRow cd t scratch 0 m src n) 0 k =
      writeCells out dst k (cd.toFloatRow t (readCells m src (t.rowSize n))) := by
  refine writeCells_congr fun j hj => ?_
  rw [floats_get]
  exact writeCells_at (by omega)

/-- **Slot by slot, each row is read.** -/
theorem each_dequantizeHeads (hdim : g.layerHeadDim ≤ g.storageHeadDim) (scratch out : Nat → F)
    (m : Nat → UInt8) (ptr n : Nat) :
    (range n).foldl (fun out i => dequantizeHeads cd t scratch out (i * g.layerElems) m
        (ptr + i * (g.storageHeads * t.rowSize g.storageHeadDim)) g) out =
      (range n).foldl (fun out i => (range g.layerHeads).foldl (fun out h =>
        writeCells out (i * g.layerElems + h * g.layerHeadDim) g.layerHeadDim
          (cd.toFloatRow t (readCells m
            (ptr + (i * g.storageHeads + h) * t.rowSize g.storageHeadDim)
            (t.rowSize g.storageHeadDim)))) out) out := by
  refine foldl_ext _ _ _ fun out i _ => foldl_ext _ _ _ fun out h _ => ?_
  rw [dequantize_head cd t hdim]
  have hsrc : ptr + i * (g.storageHeads * t.rowSize g.storageHeadDim) +
      h * t.rowSize g.storageHeadDim =
      ptr + (i * g.storageHeads + h) * t.rowSize g.storageHeadDim := by ring
  rw [hsrc]

theorem unpack_dequantized (hdim : g.layerHeadDim ≤ g.storageHeadDim)
    (hheads : g.layerHeads ≤ g.storageHeads) (scratch scratch' out : Nat → F) (m : Nat → UInt8)
    (ptr n : Nat) :
    cd.floats.unpackStorageSlots out ((range (n * g.storageHeads)).foldl
          (fun padded row => dequantizeRow cd t padded (row * g.storageHeadDim) m
            (ptr + row * t.rowSize g.storageHeadDim) g.storageHeadDim) scratch) 0 n g =
      (range n).foldl (fun out i => dequantizeHeads cd t scratch' out (i * g.layerElems) m
        (ptr + i * (g.storageHeads * t.rowSize g.storageHeadDim)) g) out := by
  have hpadded : (range (n * g.storageHeads)).foldl
      (fun padded row => dequantizeRow cd t padded (row * g.storageHeadDim) m
        (ptr + row * t.rowSize g.storageHeadDim) g.storageHeadDim) scratch =
      writeCells scratch 0 (n * g.storageHeads * g.storageHeadDim) fun b =>
        cd.toFloatRow t (readCells m (ptr + b / g.storageHeadDim * t.rowSize g.storageHeadDim)
          (t.rowSize g.storageHeadDim)) (b % g.storageHeadDim) := by
    rw [← foldl_rows (g := fun r => cd.toFloatRow t (readCells m
      (ptr + r * t.rowSize g.storageHeadDim) (t.rowSize g.storageHeadDim)))]
    refine foldl_ext _ _ _ fun padded r _ => ?_
    rw [Nat.zero_add]
    rfl
  rw [hpadded, each_dequantizeHeads cd t hdim]
  refine foldl_ext _ _ _ fun out i hi => foldl_ext _ _ _ fun out h hh => ?_
  have hrow : i * g.storageHeads + h < n * g.storageHeads :=
    row_lt (mem_range.mp hi) (Nat.lt_of_lt_of_le (mem_range.mp hh) hheads)
  refine writeCells_congr fun j hj => ?_
  have hj' : j < g.storageHeadDim := Nat.lt_of_lt_of_le hj hdim
  have hplace : (i * g.storageElems + h * g.storageHeadDim) * cd.floats.width + j =
      (i * g.storageHeads + h) * g.storageHeadDim + j := by
    show (i * (g.storageHeadDim * g.storageHeads) + h * g.storageHeadDim) * 1 + j = _
    ring
  rw [floats_get, Nat.zero_add, hplace]
  have hcell := writeCells_at (m := scratch) (p := 0) (f := fun b =>
    cd.toFloatRow t (readCells m (ptr + b / g.storageHeadDim * t.rowSize g.storageHeadDim)
      (t.rowSize g.storageHeadDim)) (b % g.storageHeadDim)) (row_lt hrow hj')
  rw [Nat.zero_add] at hcell
  rw [hcell, row_div hj', row_mod hj']

theorem rows_dequantized (hdim : g.layerHeadDim = g.storageHeadDim)
    (hheads : g.layerHeads = g.storageHeads) (scratch scratch' out : Nat → F) (m : Nat → UInt8)
    (ptr n : Nat) :
    (range (n * g.storageHeads)).foldl (fun out row => cd.floats.copyOut out (row * g.layerHeadDim)
          (dequantizeRow cd t scratch 0 m (ptr + row * t.rowSize g.storageHeadDim)
            g.storageHeadDim) 0 g.layerHeadDim) out =
      (range n).foldl (fun out i => dequantizeHeads cd t scratch' out (i * g.layerElems) m
        (ptr + i * (g.storageHeads * t.rowSize g.storageHeadDim)) g) out := by
  rw [each_dequantizeHeads cd t (Nat.le_of_eq hdim), foldl_groups fun out i h =>
    writeCells out (i * g.layerElems + h * g.layerHeadDim) g.layerHeadDim
      (cd.toFloatRow t (readCells m (ptr + (i * g.storageHeads + h) * t.rowSize g.storageHeadDim)
        (t.rowSize g.storageHeadDim))), hheads]
  refine foldl_ext _ _ _ fun out r _ => ?_
  rw [dequantize_head cd t (Nat.le_of_eq hdim), ← hheads, data_position, Nat.div_add_mod']

end Reading

/-! ### Slots

A slot is a list of rows, and the rows of different slots do not overlap. So the bulk
routines may be compared row by row.
-/

section Slots

variable {c : PagedKVCache} {side : Side} {block layer startSlot numSlots slot : Int}

theorem slotPtr_none (h : c.blockPtr side block layer = none) :
    c.slotPtr side block layer slot = none := by
  unfold slotPtr
  rw [h]

theorem slotPtr_negative (h : slot < 0) : c.slotPtr side block layer slot = none := by
  unfold slotPtr
  split
  · rfl
  · exact if_pos (Or.inl h)

theorem slotPtr_some {base : Nat} (hblock : c.blockPtr side block layer = some base)
    (hlow : 0 ≤ slot) (hhigh : slot < kvBlockSize) :
    c.slotPtr side block layer slot = some (base + slot.toNat * c.getBytesPerSlot side) := by
  unfold slotPtr
  rw [hblock]
  exact if_neg (by omega)

theorem slotPtr_range {base : Nat} (hblock : c.blockPtr side block layer = some base)
    (hlow : 0 ≤ startSlot) (hhigh : startSlot + numSlots ≤ kvBlockSize) {i : Nat}
    (hi : i < numSlots.toNat) :
    c.slotPtr side block layer (startSlot + i) =
      some (base + startSlot.toNat * c.getBytesPerSlot side + i * c.getBytesPerSlot side) := by
  rw [slotPtr_some hblock (by omega) (by omega)]
  have hslot : (startSlot + i).toNat = startSlot.toNat + i := by omega
  rw [hslot, Nat.add_mul, Nat.add_assoc]

theorem foldl_slots (c : PagedKVCache) (side : Side) (block layer : Int) {β : Type}
    (op : β → Nat → Nat → β) (b : β)
    (hstart : 0 ≤ startSlot ∨ startSlot + numSlots ≤ 0)
    (hrange : startSlot + numSlots ≤ kvBlockSize) :
    (range numSlots.toNat).foldl (fun b (i : Nat) =>
        (c.slotPtr side block layer (startSlot + i)).elim b (op b i)) b =
      if BadRange startSlot numSlots then b
      else (c.slotPtr side block layer startSlot).elim b fun ptr =>
        (range numSlots.toNat).foldl (fun b i => op b i (ptr + i * c.getBytesPerSlot side)) b := by
  split <;> rename_i hbad <;> unfold BadRange at hbad
  · refine foldl_idle _ (fun i hi b => ?_) b
    have hlt := mem_range.mp hi
    rw [slotPtr_negative (by omega)]
    rfl
  cases hblock : c.blockPtr side block layer with
  | none =>
    rw [slotPtr_none hblock]
    refine foldl_idle _ (fun i _ b => ?_) b
    rw [slotPtr_none hblock]
    rfl
  | some base =>
    rw [slotPtr_some hblock (by omega) (by omega)]
    refine foldl_ext _ _ _ fun b i hi => ?_
    rw [slotPtr_range hblock (by omega) hrange (mem_range.mp hi)]
    rfl

/-- The sizes that were stored are those that would be computed. -/
theorem getBytesPerSlot_init (c : PagedKVCache) (side : Side) :
    c.initStrides.getBytesPerSlot side = c.slotSize side := by
  unfold getBytesPerSlot
  exact ite_self _

theorem slotBytes_quantized (h : c.cacheType.isQuantized = true) (side : Side) :
    c.initStrides.getBytesPerSlot side =
      c.nHeadKv * c.cacheType.rowSize (c.storageHeadDim side) := by
  rw [getBytesPerSlot_init]
  unfold slotSize
  rw [if_pos h, Nat.mul_comm c.nHeadKv]
  split
  · rename_i hzero
    rcases Nat.mul_eq_zero.mp hzero with hdim | hheads
    · rw [hdim]
      cases c.cacheType <;> simp [CacheType.rowSize]
    · rw [hheads, Nat.mul_zero]
  · rfl

theorem slotBytes_elements (st : Store F UInt8) (layer : Int) (h : c.cacheType.isQuantized = false)
    (hwidth : ∀ n, c.cacheType.rowSize n = n * st.width) (side : Side) :
    c.initStrides.getBytesPerSlot side = c.nHeadKv * rowStride st (c.geometry side layer) := by
  have hsize : c.storageHeadDim side * c.nHeadKv * st.width =
      c.nHeadKv * (c.storageHeadDim side * st.width) := by ring
  rw [getBytesPerSlot_init]
  unfold slotSize
  rw [h]
  show _ = c.nHeadKv * (c.storageHeadDim side * st.width)
  split
  · rename_i hzero
    rw [← hsize, hzero, Nat.zero_mul]
  · exact (hwidth _).trans hsize

theorem slotBytes_f16 (cd : Codec F) (layer : Int) (h : c.cacheType = .f16) :
    c.initStrides.getBytesPerSlot side = c.nHeadKv * rowStride cd.f16 (c.geometry side layer) :=
  slotBytes_elements cd.f16 layer (congrArg CacheType.isQuantized h)
    (fun n => congrArg (CacheType.rowSize · n) h) side

theorem slotBytes_f32 (cd : Codec F) (layer : Int) (h : c.cacheType = .f32) :
    c.initStrides.getBytesPerSlot side = c.nHeadKv * rowStride cd.f32 (c.geometry side layer) :=
  slotBytes_elements cd.f32 layer (congrArg CacheType.isQuantized h)
    (fun n => congrArg (CacheType.rowSize · n) h) side

end Slots

/-! ### The calls agree -/

section Calls

variable {cd : Codec F} {c : PagedKVCache} {side : Side} {layer : Int}

variable {startSlot numSlots : Int} {g : Geometry}

theorem elements_eq_each (st : Store F UInt8)
    (hheads : g.layerHeads ≤ g.storageHeads) (hdim : g.layerHeadDim ≤ g.storageHeadDim)
    (arena : Nat → UInt8) (ptr n : Nat) (data : Nat → F) :
    (if g.layerHeads ≠ g.storageHeads ∨ g.layerHeadDim ≠ g.storageHeadDim then
        st.packLayerSlots arena ptr data n g
      else copySlots st arena ptr data n g) =
      (range n).foldl (fun m i => writeHeads st m
        (ptr + i * (g.storageHeads * rowStride st g)) (advance data (i * g.layerElems)) g)
        arena := by
  rw [each_writeHeads hdim]
  split
  · exact packLayerSlots_eq hdim hheads arena ptr n
  rename_i hsame
  rw [not_or, not_not, not_not] at hsame
  exact copySlots_eq hsame.2 hsame.1 arena ptr n

theorem quantized_eq_each (t : CacheType)
    (hheads : g.layerHeads ≤ g.storageHeads) (hdim : g.layerHeadDim ≤ g.storageHeadDim)
    (scratch : Nat → F) (arena : Nat → UInt8) (ptr n : Nat) (data : Nat → F) :
    (if g.layerHeads ≠ g.storageHeads ∨ g.layerHeadDim ≠ g.storageHeadDim then
        cd.quantizeChunk t arena ptr (cd.floats.packLayerSlots scratch 0 data n g)
          (n * g.storageHeads) g.storageHeadDim
      else quantizeSlots cd t scratch arena ptr data n g) =
      (range n).foldl (fun m i => quantizeHeads cd t m
        (ptr + i * (g.storageHeads * t.rowSize g.storageHeadDim))
        (advance data (i * g.layerElems)) g) arena := by
  rw [each_quantizeHeads]
  split
  · exact quantizeChunk_eq (fun r hr => packed_rows hdim hheads scratch hr) arena ptr
  rename_i hsame
  rw [not_or, not_not, not_not] at hsame
  unfold quantizeSlots
  rw [if_pos hsame.2]
  exact quantizeChunk_eq (fun r hr => data_rows hsame.2 hsame.1 hr) arena ptr

/-- What is written at the place of a slot. -/
def writeAt (cd : Codec F) (c : PagedKVCache) (side : Side) (layer : Int) (arena : Nat → UInt8)
    (data : Nat → F) (ptr : Nat) : Nat → UInt8 :=
  let g := c.geometry side layer
  match c.cacheType with
  | .f16 => writeHeads cd.f16 arena ptr data g
  | .f32 => writeHeads cd.f32 arena ptr data g
  | t => quantizeHeads cd t arena ptr data g

/-- **Writing in bulk is writing slot by slot.** -/
theorem writeSlots_eq_each (hheads : c.headCountForLayer layer ≤ c.nHeadKv)
    (hdim : c.headDimForLayer layer side ≤ c.storageHeadDim side)
    (hstart : 0 ≤ startSlot ∨ startSlot + numSlots ≤ 0)
    (hrange : startSlot + numSlots ≤ kvBlockSize) (scratch : Nat → F)
    (arena : Nat → UInt8) (block : Int) (data : Nat → F) :
    writeSlots cd c.initStrides side true scratch arena block layer startSlot numSlots data =
      writeEach cd c.initStrides side arena block layer startSlot numSlots data := by
  have hslots := foldl_slots c.initStrides side block layer
    (fun m i ptr => writeAt cd c.initStrides side layer m
      (advance data (i * (c.initStrides.geometry side layer).layerElems)) ptr) arena hstart hrange
  refine Eq.trans ?_ (hslots.symm.trans (foldl_ext _ _ _ fun m i _ => ?_))
  swap
  · unfold writeSlot
    cases c.initStrides.slotPtr side block layer (startSlot + i) <;> rfl
  unfold writeSlots
  split
  · rfl
  cases c.initStrides.slotPtr side block layer startSlot with
  | none => simp
  | some ptr =>
    unfold writeAt
    cases htype : c.initStrides.cacheType with
    | f16 =>
      refine (elements_eq_each cd.f16 hheads hdim arena ptr _ data).trans ?_
      rw [slotBytes_f16 (c := c) cd layer htype]
      rfl
    | f32 =>
      refine (elements_eq_each cd.f32 hheads hdim arena ptr _ data).trans ?_
      rw [slotBytes_f32 (c := c) cd layer htype]
      rfl
    | _ =>
      refine (quantized_eq_each _ hheads hdim scratch arena ptr _ data).trans ?_
      have htype' : c.cacheType = _ := htype
      rw [slotBytes_quantized (c := c) (congrArg CacheType.isQuantized htype), htype']
      rfl

theorem read_elements_eq_each (st : Store F UInt8) (arena : Nat → UInt8)
    (ptr n : Nat) (out : Nat → F) :
    (if g.layerHeads ≠ g.storageHeads ∨ g.layerHeadDim ≠ g.storageHeadDim then
        st.unpackStorageSlots out arena ptr n g
      else st.copyOut out 0 arena ptr (g.layerElems * n)) =
      (range n).foldl (fun out i => readHeads st out (i * g.layerElems) arena
        (ptr + i * (g.storageHeads * rowStride st g)) g) out := by
  rw [each_readHeads]
  split
  · rfl
  rename_i hsame
  rw [not_or, not_not, not_not] at hsame
  exact (unpackStorageSlots_whole st hsame.2 hsame.1 out arena ptr n).symm

theorem read_quantized_eq_each (t : CacheType)
    (hheads : g.layerHeads ≤ g.storageHeads) (hdim : g.layerHeadDim ≤ g.storageHeadDim)
    (scratch scratch' : Nat → F) (arena : Nat → UInt8) (ptr n : Nat) (out : Nat → F) :
    (if g.layerHeads ≠ g.storageHeads ∨ g.layerHeadDim ≠ g.storageHeadDim then
        cd.floats.unpackStorageSlots out ((range (n * g.storageHeads)).foldl
            (fun padded row => dequantizeRow cd t padded (row * g.storageHeadDim) arena
              (ptr + row * t.rowSize g.storageHeadDim) g.storageHeadDim) scratch) 0 n g
      else (range (n * g.storageHeads)).foldl
          (fun out row => cd.floats.copyOut out (row * g.layerHeadDim)
            (dequantizeRow cd t scratch 0 arena (ptr + row * t.rowSize g.storageHeadDim)
              g.storageHeadDim) 0 g.layerHeadDim) out) =
      (range n).foldl (fun out i => dequantizeHeads cd t scratch' out (i * g.layerElems) arena
        (ptr + i * (g.storageHeads * t.rowSize g.storageHeadDim)) g) out := by
  split
  · exact unpack_dequantized cd t hdim hheads scratch scratch' out arena ptr n
  rename_i hsame
  rw [not_or, not_not, not_not] at hsame
  exact rows_dequantized cd t hsame.2 hsame.1 scratch scratch' out arena ptr n

/-- What is read from the place of a slot. -/
def readAt (cd : Codec F) (c : PagedKVCache) (side : Side) (layer : Int) (scratch : Nat → F)
    (arena : Nat → UInt8) (out : Nat → F) (dst ptr : Nat) : Nat → F :=
  let g := c.geometry side layer
  match c.cacheType with
  | .f16 => readHeads cd.f16 out dst arena ptr g
  | .f32 => readHeads cd.f32 out dst arena ptr g
  | t => dequantizeHeads cd t scratch out dst arena ptr g

/-- **Reading in bulk is reading slot by slot.** -/
theorem readSlots_eq_each (hheads : c.headCountForLayer layer ≤ c.nHeadKv)
    (hdim : c.headDimForLayer layer side ≤ c.storageHeadDim side)
    (hstart : 0 ≤ startSlot ∨ startSlot + numSlots ≤ 0)
    (hrange : startSlot + numSlots ≤ kvBlockSize) (scratch scratch' : Nat → F)
    (arena : Nat → UInt8) (block : Int) (out : Nat → F) :
    readSlots cd c.initStrides side true scratch arena block layer startSlot numSlots out =
      readEach cd c.initStrides side scratch' arena block layer startSlot numSlots out := by
  have hslots := foldl_slots c.initStrides side block layer
    (fun out i ptr => readAt cd c.initStrides side layer scratch' arena out
      (i * (c.initStrides.geometry side layer).layerElems) ptr) out hstart hrange
  refine Eq.trans ?_ (hslots.symm.trans (foldl_ext _ _ _ fun m i _ => ?_))
  swap
  · unfold readSlot
    cases c.initStrides.slotPtr side block layer (startSlot + i) <;> rfl
  unfold readSlots
  split
  · rfl
  cases c.initStrides.slotPtr side block layer startSlot with
  | none => simp
  | some ptr =>
    unfold readAt
    cases htype : c.initStrides.cacheType with
    | f16 =>
      refine (read_elements_eq_each cd.f16 arena ptr _ out).trans ?_
      rw [slotBytes_f16 (c := c) cd layer htype]
      rfl
    | f32 =>
      refine (read_elements_eq_each cd.f32 arena ptr _ out).trans ?_
      rw [slotBytes_f32 (c := c) cd layer htype]
      rfl
    | _ =>
      refine (read_quantized_eq_each _ hheads hdim scratch scratch' arena ptr _ out).trans ?_
      have htype' : c.cacheType = _ := htype
      rw [slotBytes_quantized (c := c) (congrArg CacheType.isQuantized htype), htype']
      rfl

end Calls

/-! ### The result -/

/-- **Bulk and slot-wise access agree.**  On a cache as it is set up, for every layer within
the storage and every range within a block that does not reach into it from below. -/
theorem bulk_slots_agree (cd : Codec F) (c : PagedKVCache) (layer : Int)
    (hheads : c.headCountForLayer layer ≤ c.nHeadKv) (block startSlot numSlots : Int)
    (hstart : 0 ≤ startSlot ∨ startSlot + numSlots ≤ 0) (hrange : startSlot + numSlots ≤ 16)
    (scratch scratch' : Nat → F) (arena : Nat → UInt8) (data out : Nat → F) :
    (c.headDimForLayer layer .k ≤ c.headDim →
      writeKSlots cd c.initStrides true scratch arena block layer startSlot numSlots data =
        (range numSlots.toNat).foldl (fun arena (i : Nat) =>
          writeKSlot cd c.initStrides arena block layer (startSlot + i)
            (advance data (i * (c.headDimForLayer layer .k * c.headCountForLayer layer)))) arena ∧
      readKSlots cd c.initStrides true scratch arena block layer startSlot numSlots out =
        (range numSlots.toNat).foldl (fun out (i : Nat) =>
          readKSlot cd c.initStrides scratch' arena block layer (startSlot + i) out
            (i * (c.headDimForLayer layer .k * c.headCountForLayer layer))) out) ∧
    (c.headDimForLayer layer .v ≤ c.vHeadDim →
      writeVSlots cd c.initStrides true scratch arena block layer startSlot numSlots data =
        (range numSlots.toNat).foldl (fun arena (i : Nat) =>
          writeVSlot cd c.initStrides arena block layer (startSlot + i)
            (advance data (i * (c.headDimForLayer layer .v * c.headCountForLayer layer)))) arena ∧
      readVSlots cd c.initStrides true scratch arena block layer startSlot numSlots out =
        (range numSlots.toNat).foldl (fun out (i : Nat) =>
          readVSlot cd c.initStrides scratch' arena block layer (startSlot + i) out
            (i * (c.headDimForLayer layer .v * c.headCountForLayer layer))) out) := by
  refine ⟨fun hdim => ⟨?_, ?_⟩, fun hdim => ⟨?_, ?_⟩⟩
  · exact writeSlots_eq_each hheads hdim hstart hrange scratch arena block data
  · exact readSlots_eq_each hheads hdim hstart hrange scratch scratch' arena block out
  · exact writeSlots_eq_each hheads hdim hstart hrange scratch arena block data
  · exact readSlots_eq_each hheads hdim hstart hrange scratch scratch' arena block out

/-- Numbers for floats: a byte for each, and rows that are their bytes. -/
def byteCodec : Codec Nat where
  zero := 0
  f32Bytes := fun x _ => UInt8.ofNat x
  f32Of := fun bytes => (bytes.headD 0).toNat
  f16Bytes := fun x _ => UInt8.ofNat x
  f16Of := fun bytes => (bytes.headD 0).toNat
  quantizeRow := fun _ row b => UInt8.ofNat (row.getD b 0)
  toFloatRow := fun _ bytes j => (bytes.getD j 0).toNat

/-- Two layers, the second with fewer and shorter heads. -/
def mixedCache : PagedKVCache where
  headDim := 64
  vHeadDim := 64
  nHeadKv := 2
  nLayer := 2
  maxBlocks := 4
  layerNHeadKv := [2, 1]
  layerHeadDims := [64, 32]
  layerVHeadDims := [64, 32]
  bytesPerSlot := fun _ => 0
  bytesPerBlock := fun _ => 0
  layerStrideBytes := fun _ => 0
  cacheType := .q8_0
  useBlockAllocator := true

/-- Five slots of the narrower layer. -/
theorem mixed_layer_agrees :
    mixedCache.headCountForLayer 1 = 1 ∧ mixedCache.headDimForLayer 1 .k = 32 ∧
      writeKSlots byteCodec mixedCache.initStrides true (fun _ => 0) (fun _ => 0) 0 1 3 5 id =
        (range 5).foldl (fun arena (i : Nat) =>
          writeKSlot byteCodec mixedCache.initStrides arena 0 1 (3 + i) (advance id (i * (32 * 1))))
          (fun _ => 0) :=
  ⟨by decide, by decide,
    ((bulk_slots_agree byteCodec mixedCache 1 (by decide) 0 3 5 (Or.inl (by decide)) (by decide)
      (fun _ => 0) (fun _ => 0) (fun _ => 0) id id).1 (by decide)).1⟩

/-- Two slots from -1 on: the bulk routine returns at once, and slot by slot the second of them
is slot 0. -/
theorem negative_start_differs :
    writeKSlots byteCodec mixedCache.initStrides true (fun _ => 0) (fun _ => 0) 0 1 (-1) 2
        (fun _ => 7) ≠
      (range 2).foldl (fun arena (i : Nat) =>
        writeKSlot byteCodec mixedCache.initStrides arena 0 1 (-1 + i)
          (advance (fun _ => 7) (i * (32 * 1)))) (fun _ => 0) := by
  intro h
  have hbulk : writeKSlots byteCodec mixedCache.initStrides true (fun _ => 0) (fun _ => 0) 0 1
      (-1) 2 (fun _ => 7) 8704 = 0 := by decide +kernel
  have heach : (range 2).foldl (fun arena (i : Nat) =>
      writeKSlot byteCodec mixedCache.initStrides arena 0 1 (-1 + i)
        (advance (fun _ => 7) (i * (32 * 1)))) (fun _ => (0 : UInt8)) 8704 = 7 := by
    decide +kernel
  rw [h, heach] at hbulk
  cases hbulk

end PagedKVCache

end DenseCore
