/-
Memory written row by row.

Rows lie at equal strides, and what is written of a row may be shorter than its stride.  A
loop of such writes is one write, in which the row and the place in it of a cell are found by
division; and a loop over groups of rows is a loop over rows.

Writes at any places are chunks.  A cell ends with what all chunks over it agree on.
-/
import Mathlib.Data.List.Range
import Mathlib.Algebra.Order.Ring.Nat

namespace DenseCore.Lib

open List

variable {α σ : Type*}

/-- `n` cells from `ptr` on are written. -/
def writeCells (m : Nat → α) (ptr n : Nat) (f : Nat → α) : Nat → α :=
  fun a => if ptr ≤ a ∧ a < ptr + n then f (a - ptr) else m a

/-- `n` cells from `ptr` on. -/
def readCells (m : Nat → α) (ptr n : Nat) : List α := (range n).map fun i => m (ptr + i)

section Cells

variable {m : Nat → α} {p n : Nat} {f g : Nat → α}

theorem writeCells_apply (m : Nat → α) (p n : Nat) (f : Nat → α) (a : Nat) :
    writeCells m p n f a = if p ≤ a ∧ a < p + n then f (a - p) else m a := rfl

theorem writeCells_congr (h : ∀ b, b < n → f b = g b) :
    writeCells m p n f = writeCells m p n g := by
  funext a
  unfold writeCells
  split
  · exact h _ (by omega)
  · rfl

theorem writeCells_none (m : Nat → α) (p : Nat) (f : Nat → α) : writeCells m p 0 f = m := by
  funext a
  exact if_neg (by omega)

theorem writeCells_at {a : Nat} (h : a < n) : writeCells m p n f (p + a) = f a := by
  unfold writeCells
  rw [if_pos (by omega), Nat.add_sub_cancel_left]

theorem writeCells_again {k : Nat} (hk : k ≤ n) : writeCells (writeCells m p n f) p k g =
      writeCells m p n fun b => if b < k then g b else f b := by
  funext a
  unfold writeCells
  by_cases hin : p ≤ a ∧ a < p + n
  · rw [if_pos hin, if_pos hin]
    by_cases hfirst : a < p + k
    · rw [if_pos ⟨hin.1, hfirst⟩]
      exact (if_pos (by omega)).symm
    rw [if_neg (by omega)]
    exact (if_neg (by omega)).symm
  · rw [if_neg hin, if_neg hin, if_neg (by omega)]

end Cells

/-! ### Places in a row -/

theorem row_lt {n r j w : Nat} (hr : r < n) (hj : j < w) : r * w + j < n * w :=
  calc r * w + j < r * w + w := Nat.add_lt_add_left hj _
    _ = (r + 1) * w := (Nat.succ_mul r w).symm
    _ ≤ n * w := Nat.mul_le_mul_right w hr

theorem row_div {r j w : Nat} (hj : j < w) : (r * w + j) / w = r := by
  rw [Nat.mul_comm, Nat.mul_add_div (by omega), Nat.div_eq_of_lt hj, Nat.add_zero]

theorem row_mod {r j w : Nat} (hj : j < w) : (r * w + j) % w = j := by
  rw [Nat.mul_comm, Nat.mul_add_mod, Nat.mod_eq_of_lt hj]

/-- Rows in groups of `n`, at a stride of `w`. -/
theorem group_row (ptr r n w : Nat) : ptr + r / n * (n * w) + r % n * w = ptr + r * w := by
  rw [← Nat.mul_assoc, Nat.add_assoc, ← Nat.add_mul, Nat.div_add_mod']

/-! ### Loops -/

section Rows

variable {p w : Nat} {k : Nat → Nat} {g : Nat → Nat → α}

/-- **Rows written one after the other**, cell by cell. -/
theorem foldl_rows_apply (hk : ∀ r, k r ≤ w) (n : Nat) (m : Nat → α) (a : Nat) :
    (range n).foldl (fun m r => writeCells m (p + r * w) (k r) (g r)) m a =
      if p ≤ a ∧ a < p + n * w ∧ (a - p) % w < k ((a - p) / w) then
        g ((a - p) / w) ((a - p) % w)
      else m a := by
  induction n with
  | zero =>
    rw [if_neg (by omega)]
    rfl
  | succ n ih =>
    rw [range_succ, foldl_append, foldl_cons, foldl_nil, Nat.succ_mul]
    have hkn := hk n
    by_cases hrow : p + n * w ≤ a ∧ a < p + n * w + w
    · -- the last row
      obtain ⟨b, rfl, hb⟩ : ∃ b, a = p + n * w + b ∧ b < w :=
        ⟨a - (p + n * w), by omega, by omega⟩
      have hoff : p + n * w + b - p = n * w + b := by omega
      rw [writeCells_apply, hoff, row_div hb, row_mod hb]
      by_cases hbk : b < k n
      · rw [if_pos (by omega), if_pos (by omega), Nat.add_sub_cancel_left]
      · rw [if_neg (by omega), if_neg (by omega), ih, if_neg (by omega)]
    rw [writeCells_apply, if_neg (by omega), ih]
    refine if_congr (and_congr_right fun _ => and_congr_left fun _ => ?_) rfl rfl
    omega

theorem foldl_rows (n : Nat) (m : Nat → α) :
    (range n).foldl (fun m r => writeCells m (p + r * w) w (g r)) m =
      writeCells m p (n * w) fun b => g (b / w) (b % w) := by
  funext a
  rw [foldl_rows_apply (k := fun _ => w) fun _ => Nat.le_refl w]
  unfold writeCells
  refine if_congr (and_congr_right fun _ => and_iff_left_of_imp fun hlt => ?_) rfl rfl
  refine Nat.mod_lt _ (Nat.pos_of_ne_zero ?_)
  rintro rfl
  omega

theorem foldl_rows_over (hk : ∀ r, k r ≤ w) (n : Nat) (m f : Nat → α) :
    (range n).foldl (fun m r => writeCells m (p + r * w) (k r) (g r))
        (writeCells m p (n * w) f) =
      writeCells m p (n * w) fun b => if b % w < k (b / w) then g (b / w) (b % w) else f b := by
  funext a
  rw [foldl_rows_apply hk]
  unfold writeCells
  by_cases hin : p ≤ a ∧ a < p + n * w
  · rw [if_pos hin, if_pos hin]
    exact if_congr ⟨fun h => h.2.2, fun h => ⟨hin.1, hin.2, h⟩⟩ rfl rfl
  · rw [if_neg hin, if_neg hin, if_neg fun h => hin ⟨h.1, h.2.1⟩]

end Rows

/-- A loop that does nothing. -/
theorem foldl_idle {ι : Type*} (op : σ → ι → σ) {l : List ι} (h : ∀ i ∈ l, ∀ s, op s i = s)
    (s : σ) : l.foldl op s = s := by
  induction l generalizing s with
  | nil => rfl
  | cons i rest ih =>
    rw [foldl_cons, h i mem_cons_self]
    exact ih (fun j hj => h j (mem_cons_of_mem _ hj)) s

theorem foldl_groups (op : σ → Nat → Nat → σ) (n h : Nat) (s : σ) :
    (range n).foldl (fun s i => (range h).foldl (fun s j => op s i j) s) s =
      (range (n * h)).foldl (fun s r => op s (r / h) (r % h)) s := by
  induction n with
  | zero => rw [Nat.zero_mul]; rfl
  | succ n ih =>
    rw [range_succ, foldl_append, foldl_cons, foldl_nil, ih, Nat.succ_mul,
      range_add, foldl_append, foldl_map]
    refine foldl_ext _ _ _ fun s j hj => ?_
    have hlt := mem_range.mp hj
    rw [row_div hlt, row_mod hlt]

/-- A shorter loop is a longer one that does nothing at its end. -/
theorem foldl_upTo (op : σ → Nat → σ) {k n : Nat} (hk : k ≤ n) (s : σ) : (range k).foldl op s =
      (range n).foldl (fun s j => if j < k then op s j else s) s := by
  obtain ⟨d, rfl⟩ := Nat.exists_eq_add_of_le hk
  rw [range_add, foldl_append, foldl_map]
  have hfirst : (range k).foldl (fun s j => if j < k then op s j else s) s = (range k).foldl op s :=
    foldl_ext _ _ _ fun s j hj => if_pos (mem_range.mp hj)
  rw [hfirst]
  exact (foldl_idle _ (fun j _ s => if_neg (by omega)) _).symm

/-! ### Chunks -/

/-- Cells to be written. -/
structure Chunk (α : Type*) where
  ptr : Nat
  len : Nat
  data : Nat → α

namespace Chunk

variable {c : Chunk α} {m : Nat → α} {a : Nat}

/-- The chunk has a cell at the address. -/
def Covers (c : Chunk α) (a : Nat) : Prop := c.ptr ≤ a ∧ a < c.ptr + c.len

/-- The chunk is written to memory. -/
def write (m : Nat → α) (c : Chunk α) : Nat → α := writeCells m c.ptr c.len c.data

theorem write_covered (h : c.Covers a) : c.write m a = c.data (a - c.ptr) := if_pos h

theorem write_outside (h : ¬ c.Covers a) : c.write m a = m a := if_neg h

theorem covers_add {b : Nat} : c.Covers (c.ptr + b) ↔ b < c.len := by
  unfold Covers
  omega

end Chunk

/-- Chunks written one after the other. -/
def writeChunks (m : Nat → α) (cs : List (Chunk α)) : Nat → α := cs.foldl Chunk.write m

section Chunks

variable {cs : List (Chunk α)} {m : Nat → α} {a : Nat} {x : α}

theorem writeChunks_append (m : Nat → α) (cs ds : List (Chunk α)) :
    writeChunks m (cs ++ ds) = writeChunks (writeChunks m cs) ds := foldl_append

theorem writeChunks_outside (h : ∀ c ∈ cs, ¬ c.Covers a) : writeChunks m cs a = m a := by
  induction cs generalizing m with
  | nil => rfl
  | cons c rest ih =>
    obtain ⟨hc, hrest⟩ := forall_mem_cons.mp h
    exact (ih hrest).trans (Chunk.write_outside hc)

/-- **A cell ends with what the chunks over it agree on.** -/
theorem writeChunks_agreed (hagree : ∀ c ∈ cs, c.Covers a → c.data (a - c.ptr) = x)
    (hsome : ∃ c ∈ cs, c.Covers a) : writeChunks m cs a = x := by
  induction cs generalizing m with
  | nil => exact absurd hsome (by simp)
  | cons c rest ih =>
    obtain ⟨hc, hrest⟩ := forall_mem_cons.mp hagree
    by_cases hlater : ∃ d ∈ rest, d.Covers a
    · exact ih hrest hlater
    -- the last chunk over the cell
    have hnone : ∀ d ∈ rest, ¬ d.Covers a := fun d hd hcov => hlater ⟨d, hd, hcov⟩
    have hover : c.Covers a := by
      obtain ⟨d, hd, hcov⟩ := hsome
      rcases mem_cons.mp hd with rfl | hd
      · exact hcov
      · exact absurd hcov (hnone d hd)
    calc writeChunks (c.write m) rest a = c.write m a := writeChunks_outside hnone
      _ = c.data (a - c.ptr) := Chunk.write_covered hover
      _ = x := hc hover

end Chunks

theorem foldl_writes {ι : Type*} (part : σ → Nat → α) (step : σ → ι → σ)
    (chunks : ι → List (Chunk α)) {l : List ι}
    (h : ∀ i ∈ l, ∀ s, part (step s i) = writeChunks (part s) (chunks i)) (s : σ) :
    part (l.foldl step s) = writeChunks (part s) (l.flatMap chunks) := by
  induction l generalizing s with
  | nil => rfl
  | cons i rest ih =>
    rw [foldl_cons, flatMap_cons, writeChunks_append,
      ih (fun j hj => h j (mem_cons_of_mem _ hj)), h i mem_cons_self]

end DenseCore.Lib
