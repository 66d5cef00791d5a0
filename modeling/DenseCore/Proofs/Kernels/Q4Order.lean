/-
The Highway kernels and ggml disagree on the order inside a Q4_0 block.

ggml packs element `j` of a block into the low nibble of byte `j` and element
`j + 16` into the high nibble.  The kernels take the two nibbles of a byte for
neighbours: what they pair with component `i` is the element ggml calls
`i / 2 + 16 * (i % 2)`.  Element 0 and element 31 stay where they are; every other
one moves.  So the two readings of a row agree exactly when each block has scale
zero or a sequence of codes that this renumbering leaves unchanged, and this file
proves so for every row, vector width and head dimension.

Nothing else separates the two attention paths.  On rows that meet the condition
the kernel's one-pass softmax yields the average the scalar path yields, up to the
guard the kernel adds to its denominator.
-/
import Mathlib.Algebra.BigOperators.Group.Finset.Sigma
import Mathlib.Algebra.BigOperators.Ring.Finset
import Mathlib.Algebra.Order.Ring.Rat
import DenseCore.Kernels.Q4Attention
import DenseCore.Lib.Softmax

namespace DenseCore.Q4

open List hiding lt_irrefl

/-! ### Sums and updates cut into vectors -/

section Lanes

variable {M : Type*} [AddCommMonoid M]

/-- A sum over `k` runs of `n` consecutive indices is the sum over all of them. -/
theorem sum_runs (f : Nat → M) (n : Nat) : ∀ k : Nat,
    ∑ r ∈ Finset.range k, ∑ l ∈ Finset.range n, f (r * n + l) = ∑ i ∈ Finset.range (k * n), f i := by
  intro k
  induction k with
  | zero => simp
  | succ k ih =>
    rw [Finset.sum_range_succ, ih, Nat.succ_mul, Finset.sum_range_add]

/-- Whole vectors, lane by lane, and the rest make up the block. -/
theorem sum_lanes (f : Nat → M) (n lanes : Nat) :
    (∑ l ∈ Finset.range lanes, ∑ it ∈ Finset.range (n / lanes), f (it * lanes + l)) +
      ∑ i ∈ Finset.range (n - n / lanes * lanes), f (n / lanes * lanes + i)
      = ∑ i ∈ Finset.range n, f i := by
  rw [Finset.sum_comm, sum_runs, ← Finset.sum_range_add]
  rw [Nat.add_sub_cancel' (Nat.div_mul_le_self n lanes)]

end Lanes

variable {K : Type} [Field K]

theorem addRange_zero (accum : Nat → K) (start : Nat) (f : Nat → K) :
    addRange accum start 0 f = accum := by
  funext x
  unfold addRange
  rw [if_neg (by omega)]

theorem addRange_append (accum : Nat → K) (start n m : Nat) (f : Nat → K) :
    addRange (addRange accum start n f) (start + n) m (fun l => f (n + l))
      = addRange accum start (n + m) f := by
  funext x
  unfold addRange
  by_cases h1 : start ≤ x ∧ x < start + n
  · rw [if_neg (by omega), if_pos h1, if_pos (by omega)]
  by_cases h2 : start + n ≤ x ∧ x < start + n + m
  · rw [if_pos h2, if_neg h1, if_pos (by omega)]
    show accum x + f (n + (x - (start + n))) = _
    rw [show n + (x - (start + n)) = x - start by omega]
  · rw [if_neg h2, if_neg h1, if_neg (by omega)]

theorem addRange_congr (accum : Nat → K) (start n : Nat) {f g : Nat → K}
    (h : ∀ i, i < n → f i = g i) : addRange accum start n f = addRange accum start n g := by
  funext x
  unfold addRange
  split
  · rw [h _ (by omega)]
  · rfl

/-- `k` updates of `n` consecutive elements each are one update of `k * n`. -/
theorem foldl_addRange (accum : Nat → K) (start n : Nat) (f : Nat → K) : ∀ k : Nat,
    (range k).foldl (fun a it => addRange a (start + it * n) n fun l => f (it * n + l)) accum
      = addRange accum start (k * n) f := by
  intro k
  induction k with
  | zero => simp [addRange_zero]
  | succ k ih =>
    rw [range_succ, foldl_append, ih, Nat.succ_mul]
    exact addRange_append accum start (k * n) n f

/-! ### What the kernels compute -/

/-- The value the kernels read at component `i` of a row. -/
def hwyValue (fp16 : UInt16 → K) (row : Nat → Block) (i : Nat) : K :=
  (scratch (row (i / blockElems)) (i % blockElems) : K) * fp16 (row (i / blockElems)).d

variable {b headDim h slot : Nat}

variable {i n j : Nat} {fp16 : UInt16 → K} {toFloat : (Nat → Block) → Nat → K}

theorem hwyValue_block (fp16 : UInt16 → K) (row : Nat → Block) (hi : i < blockElems) :
    hwyValue fp16 row (b * blockElems + i) = (scratch (row b) i : K) * fp16 (row b).d := by
  unfold hwyValue
  have hdiv : (b * blockElems + i) / blockElems = b := by
    unfold blockElems at hi ⊢
    omega
  have hmod : (b * blockElems + i) % blockElems = i := by
    unfold blockElems at hi ⊢
    omega
  rw [hdiv, hmod]

theorem dotBlock_eq (lanes : Nat) (q v : Nat → K) :
    dotBlock lanes q v = ∑ i ∈ Finset.range blockElems, q i * v i := by
  unfold dotBlock
  exact sum_lanes (fun i => q i * v i) blockElems lanes

/-- **The kernel's dot product, whatever the vector width.** -/
theorem dotProductQ4_0_eq (fp16 : UInt16 → K) (lanes : Nat) (q : Nat → K) (row : Nat → Block)
    (hdim : headDim % blockElems = 0) :
    dotProductQ4_0 fp16 lanes q row headDim
      = ∑ i ∈ Finset.range headDim, q i * hwyValue fp16 row i := by
  have hnb : headDim / blockElems * blockElems = headDim := by
    unfold blockElems at hdim ⊢
    omega
  unfold dotProductQ4_0
  dsimp only
  rw [hnb, Nat.sub_self, Finset.range_zero, Finset.sum_empty, add_zero]
  have hblock : ∀ b, dotBlock lanes (fun i => q (b * blockElems + i))
        (fun i => (scratch (row b) i : K)) * fp16 (row b).d
      = ∑ i ∈ Finset.range blockElems,
          q (b * blockElems + i) * hwyValue fp16 row (b * blockElems + i) := by
    intro b
    rw [dotBlock_eq, Finset.sum_mul]
    refine Finset.sum_congr rfl fun i hi => ?_
    rw [hwyValue_block fp16 row (Finset.mem_range.mp hi)]
    ring
  rw [Finset.sum_congr rfl fun b _ => hblock b,
    sum_runs (fun i => q i * hwyValue fp16 row i) blockElems, hnb]

theorem accumulateBlock_eq (lanes : Nat) (accum : Nat → K) (offset : Nat) (v : Nat → K) :
    accumulateBlock lanes accum offset v = addRange accum offset blockElems v := by
  unfold accumulateBlock
  dsimp only
  rw [foldl_addRange]
  have hsingle := foldl_addRange (addRange accum offset (blockElems / lanes * lanes) v)
    (offset + blockElems / lanes * lanes) 1 (fun i => v (blockElems / lanes * lanes + i))
    (blockElems - blockElems / lanes * lanes)
  simp only [Nat.mul_one] at hsingle
  have hfun : (fun (a : Nat → K) (i : Nat) =>
      addRange a (offset + blockElems / lanes * lanes + i) 1
        fun _ => v (blockElems / lanes * lanes + i))
      = fun a i => addRange a (offset + blockElems / lanes * lanes + i) 1
        fun l => v (blockElems / lanes * lanes + (i + l)) := by
    funext a i
    refine addRange_congr a _ 1 ?_
    intro l hl
    rw [show l = 0 by omega, Nat.add_zero]
  rw [hfun, hsingle, addRange_append, Nat.add_sub_cancel' (Nat.div_mul_le_self _ _)]

/-- **The kernel's accumulation, whatever the vector width.** -/
theorem accumulateQ4_0_eq (fp16 : UInt16 → K) (lanes : Nat) (accum : Nat → K)
    (row : Nat → Block) (weight : K) (hdim : headDim % blockElems = 0) :
    accumulateQ4_0 fp16 lanes accum row weight headDim
      = fun i => if i < headDim then accum i + hwyValue fp16 row i * weight else accum i := by
  have hnb : headDim / blockElems * blockElems = headDim := by
    unfold blockElems at hdim ⊢
    omega
  unfold accumulateQ4_0
  dsimp only
  rw [hnb, Nat.sub_self, range_zero, foldl_nil]
  have hfun : (fun (a : Nat → K) (b : Nat) => accumulateBlock lanes a (b * blockElems) fun i =>
        (scratch (row b) i : K) * (fp16 (row b).d * weight))
      = fun a b => addRange a (0 + b * blockElems) blockElems fun l =>
          hwyValue fp16 row (b * blockElems + l) * weight := by
    funext a b
    rw [accumulateBlock_eq, Nat.zero_add]
    refine addRange_congr a _ _ ?_
    intro l hl
    rw [hwyValue_block fp16 row hl]
    ring
  rw [hfun, foldl_addRange accum 0 blockElems (fun i => hwyValue fp16 row i * weight), hnb]
  funext i
  unfold addRange
  simp

/-! ### The two orders

One order pairs the codes of a byte as neighbours, the other sixteen apart. They read a
block alike when the renumbering changes no code, or when the scale is zero.
-/

/-- Where ggml keeps the element the kernels pair with component `i` of a block. -/
def pairedWith (i : Nat) : Nat := i / 2 + 16 * (i % 2)

theorem scratch_eq (blk : Block) (hi : i < blockElems) :
    scratch blk i = ggmlCode blk (pairedWith i) := by
  unfold blockElems at hi
  unfold scratch ggmlCode pairedWith
  by_cases heven : i % 2 = 0
  · rw [if_pos heven, heven, if_pos (by omega), Nat.mul_zero, Nat.add_zero]
  have hodd : i % 2 = 1 := by omega
  rw [if_neg heven, hodd, if_neg (by omega), Nat.mul_one, Nat.add_sub_cancel]

/-- A block both orders read alike: nothing is stored, or the renumbering of its
codes changes none. -/
def BlockAligned (fp16 : UInt16 → K) (blk : Block) : Prop :=
  fp16 blk.d = 0 ∨ ∀ i, i < blockElems → ggmlCode blk (pairedWith i) = ggmlCode blk i

/-- Both orders read every block of the row alike. -/
def RowAligned (fp16 : UInt16 → K) (row : Nat → Block) (headDim : Nat) : Prop :=
  ∀ b, b < headDim / blockElems → BlockAligned fp16 (row b)

/-- ggml's `to_float` on Q4_0: the codes in ggml's order, times the scale. -/
def GgmlToFloat (fp16 : UInt16 → K) (toFloat : (Nat → Block) → Nat → K) : Prop :=
  ∀ row i, toFloat row i
    = (ggmlCode (row (i / blockElems)) (i % blockElems) : K) * fp16 (row (i / blockElems)).d

/-- The two readings of a row agree just where it is aligned. -/
theorem hwyValue_eq_toFloat_iff [CharZero K] (hlayout : GgmlToFloat fp16 toFloat)
    (row : Nat → Block) (hdim : headDim % blockElems = 0) :
    (∀ i, i < headDim → hwyValue fp16 row i = toFloat row i) ↔ RowAligned fp16 row headDim := by
  unfold RowAligned
  have hpos : 0 < blockElems := by decide
  constructor
  · intro hall b hb
    by_cases hzero : fp16 (row b).d = 0
    · exact Or.inl hzero
    right
    intro i hi
    have hin : b * blockElems + i < headDim := by
      unfold blockElems at hb hi hdim ⊢
      omega
    have heq := hall _ hin
    have hdiv : (b * blockElems + i) / blockElems = b := by
      unfold blockElems at hi ⊢
      omega
    have hmod : (b * blockElems + i) % blockElems = i := by
      unfold blockElems at hi ⊢
      omega
    rw [hwyValue_block fp16 row hi, hlayout, hdiv, hmod] at heq
    have hcode : ((scratch (row b) i : Int) : K) = (ggmlCode (row b) i : Int) :=
      mul_right_cancel₀ hzero heq
    rw [← scratch_eq (row b) hi]
    exact_mod_cast hcode
  · intro haligned i hi
    have hb : i / blockElems < headDim / blockElems := by
      unfold blockElems at hdim ⊢
      omega
    have hmod : i % blockElems < blockElems := Nat.mod_lt _ hpos
    rw [hlayout]
    unfold hwyValue
    rcases haligned _ hb with hzero | hsame
    · rw [hzero, mul_zero, mul_zero]
    · rw [scratch_eq _ hmod, hsame _ hmod]

/-! ### Rows in the cache

Rows are numbered over all slots and heads of a KV block.  A writer that goes
through them one after the other leaves each of its rows as it wrote it. -/

/-- The blocks of row `r`. -/
def rowAt (s : SlotShape) (mem : KvBlock) (r b : Nat) : Block := mem (r * s.blocksPerHead + b)

theorem rowAt_writeRow (s : SlotShape) (mem : KvBlock) (r r' : Nat) (row : Nat → Block)
    (hb : b < s.blocksPerHead) :
    rowAt s (writeRow s mem r row) r' b = if r' = r then row b else rowAt s mem r' b := by
  unfold rowAt writeRow
  by_cases heq : r' = r
  · subst heq
    rw [if_pos (by omega), if_pos rfl, Nat.add_sub_cancel_left]
  rw [if_neg heq, if_neg]
  -- Two rows do not meet: a block index determines its row.
  rintro ⟨hlo, hhi⟩
  have h1 : (r' * s.blocksPerHead + b) / s.blocksPerHead = r' :=
    Nat.div_eq_of_lt_le (by omega) (by rw [Nat.succ_mul]; omega)
  have h2 : (r' * s.blocksPerHead + b) / s.blocksPerHead = r :=
    Nat.div_eq_of_lt_le hlo (by rw [Nat.succ_mul]; exact hhi)
  exact heq (h1.symm.trans h2)

/-- Writing `n` consecutive rows from `base` on. -/
theorem rowAt_foldl_writeRow (s : SlotShape) (rows : Nat → Nat → Block) (base r : Nat)
    (hb : b < s.blocksPerHead) (n : Nat) : ∀ mem : KvBlock,
    rowAt s ((range n).foldl (fun mem k => writeRow s mem (base + k) (rows k)) mem) r b
      = if base ≤ r ∧ r < base + n then rows (r - base) b else rowAt s mem r b := by
  intro mem
  induction n with
  | zero => rw [if_neg (by omega)]; rfl
  | succ n ih =>
    rw [range_succ, foldl_append, foldl_cons, foldl_nil, rowAt_writeRow s _ (base + n) r _ hb, ih]
    by_cases heq : r = base + n
    · rw [if_pos heq, if_pos (by omega), heq, Nat.add_sub_cancel_left]
    rw [if_neg heq]
    by_cases hin : base ≤ r ∧ r < base + n
    · rw [if_pos hin, if_pos (by omega)]
    · rw [if_neg hin, if_neg (by omega)]

/-- A slot's heads own the rows from `slot * n` to the next slot's first. -/
theorem row_slot_iff (hh : h < n) (slot slot' : Nat) :
    (slot' * n ≤ slot * n + h ∧ slot * n + h < slot' * n + n) ↔ slot = slot' := by
  have hdiv : (slot * n + h) / n = slot :=
    Nat.div_eq_of_lt_le (by omega) (by rw [Nat.succ_mul]; omega)
  refine ⟨?_, ?_⟩
  · rintro ⟨hlo, hhi⟩
    have hdiv' : (slot * n + h) / n = slot' :=
      Nat.div_eq_of_lt_le hlo (by rw [Nat.succ_mul]; exact hhi)
    exact hdiv.symm.trans hdiv'
  intro heq
  subst heq
  omega

/-- `WriteKSlot` leaves every head of its slot quantised, padding included, and
no other row touched. -/
theorem headRow_writeSlot (quantize : List K → Nat → Block) (s : SlotShape) (mem : KvBlock)
    (data : Nat → K) {slot' : Nat} (hslot : slot' < slotsPerBlock) (hh : h < s.nHeadKv)
    (hb : b < s.blocksPerHead) :
    headRow s (writeSlot quantize s mem slot' data) slot h b
      = if slot = slot' then quantize (paddedHead s data h) b else headRow s mem slot h b := by
  unfold writeSlot
  rw [if_neg (by omega)]
  have hrow := rowAt_foldl_writeRow s (fun k => quantize (paddedHead s data k))
    (slot' * s.nHeadKv) (slot * s.nHeadKv + h) hb s.nHeadKv mem
  rw [if_congr (row_slot_iff hh slot slot') rfl rfl] at hrow
  refine hrow.trans ?_
  by_cases heq : slot = slot'
  · subst heq
    rw [if_pos rfl, if_pos rfl, Nat.add_sub_cancel_left]
  rw [if_neg heq, if_neg heq]
  rfl

/-- The loop of `WriteKSlots` over single slots. -/
theorem headRow_foldl_writeSlot (quantize : List K → Nat → Block) (s : SlotShape)
    (data : Nat → Nat → K) (start slot : Nat) (hh : h < s.nHeadKv)
    (hb : b < s.blocksPerHead) (n : Nat) : ∀ mem : KvBlock, start + n ≤ slotsPerBlock →
    headRow s ((range n).foldl
        (fun mem i => writeSlot quantize s mem (start + i) (data i)) mem) slot h b
      = if start ≤ slot ∧ slot < start + n then quantize (paddedHead s (data (slot - start)) h) b
        else headRow s mem slot h b := by
  intro mem
  induction n with
  | zero => intro _; rw [if_neg (by omega)]; rfl
  | succ n ih =>
    intro hn
    rw [range_succ, foldl_append, foldl_cons, foldl_nil,
      headRow_writeSlot quantize s _ _ (by omega) hh hb, ih (by omega)]
    by_cases heq : slot = start + n
    · rw [if_pos heq, if_pos (by omega), heq, Nat.add_sub_cancel_left]
    rw [if_neg heq]
    by_cases hin : start ≤ slot ∧ slot < start + n
    · rw [if_pos hin, if_pos (by omega)]
    · rw [if_neg hin, if_neg (by omega)]

/-- Row `j * nHeadKv + h` of the repacked copy is head `h` of slot `j`, padded. -/
theorem packLayerSlots_row (s : SlotShape) (data : Nat → K) (hh : h < s.nHeadKv) :
    ((range s.headDim).map fun i =>
        packLayerSlots s data ((j * s.nHeadKv + h) * s.headDim + i))
      = paddedHead s (fun x => data (j * s.elemsPerSlot + x)) h := by
  unfold paddedHead
  refine map_congr_left fun i hi => ?_
  have hi' : i < s.headDim := mem_range.mp hi
  have hin : h * s.headDim + i < s.headDim * s.nHeadKv := by
    have hle : (h + 1) * s.headDim ≤ s.nHeadKv * s.headDim := Nat.mul_le_mul_right _ hh
    rw [Nat.succ_mul] at hle
    rw [Nat.mul_comm s.headDim]
    omega
  have hx : (j * s.nHeadKv + h) * s.headDim + i
      = j * (s.headDim * s.nHeadKv) + (h * s.headDim + i) := by ring
  have hdiv : ((j * s.nHeadKv + h) * s.headDim + i) / (s.headDim * s.nHeadKv) = j := by
    rw [hx]
    exact Nat.div_eq_of_lt_le (by omega) (by rw [Nat.succ_mul]; omega)
  have hmod : ((j * s.nHeadKv + h) * s.headDim + i) % (s.headDim * s.nHeadKv)
      = h * s.headDim + i := by
    rw [hx, Nat.add_comm, Nat.add_mul_mod_self_right, Nat.mod_eq_of_lt hin]
  have hhead : (h * s.headDim + i) / s.headDim = h :=
    Nat.div_eq_of_lt_le (by omega) (by rw [Nat.succ_mul]; omega)
  have helem : (h * s.headDim + i) % s.headDim = i := by
    rw [Nat.add_comm, Nat.add_mul_mod_self_right, Nat.mod_eq_of_lt hi']
  unfold packLayerSlots
  dsimp only
  rw [hdiv, hmod, hhead, helem, Nat.add_assoc]

theorem paddedHead_full (s : SlotShape) (data : Nat → K) (hh : h < s.nHeadKv)
    (hheads : s.layerNHeadKv = s.nHeadKv) (hdim : s.layerHeadDim = s.headDim) :
    ((range s.headDim).map fun i => data ((j * s.nHeadKv + h) * s.headDim + i))
      = paddedHead s (fun x => data (j * s.elemsPerSlot + x)) h := by
  unfold paddedHead
  refine map_congr_left fun i hi => ?_
  have hi' : i < s.headDim := mem_range.mp hi
  rw [if_pos ⟨by omega, by omega⟩]
  unfold SlotShape.elemsPerSlot
  rw [hheads, hdim]
  congr 1
  ring

theorem headRow_writeSlots (quantize : List K → Nat → Block) (s : SlotShape) (bulk : Bool)
    (mem : KvBlock) (data : Nat → K) {start : Nat} (hn : start + n ≤ slotsPerBlock)
    (hlo : start ≤ slot) (hhi : slot < start + n) (hh : h < s.nHeadKv) (hb : b < s.blocksPerHead) :
    headRow s (writeSlots quantize s bulk mem start n data) slot h b
      = quantize (paddedHead s (fun x => data ((slot - start) * s.elemsPerSlot + x)) h) b := by
  unfold writeSlots
  rw [if_neg (by omega)]
  cases bulk with
  | false =>
    rw [if_pos (by rfl)]
    have hloop := headRow_foldl_writeSlot quantize s
      (fun i x => data (i * s.elemsPerSlot + x)) start slot hh hb n mem hn
    rw [if_pos ⟨hlo, hhi⟩] at hloop
    exact hloop
  | true =>
    rw [if_neg (by simp)]
    dsimp only
    generalize hpacked : (if s.layerNHeadKv ≠ s.nHeadKv ∨ s.layerHeadDim ≠ s.headDim
      then packLayerSlots s data else data) = packed
    have hrow := rowAt_foldl_writeRow s
      (fun r => quantize ((range s.headDim).map fun i => packed (r * s.headDim + i)))
      (start * s.nHeadKv) (slot * s.nHeadKv + h) hb (n * s.nHeadKv) mem
    have hle : start * s.nHeadKv ≤ slot * s.nHeadKv := Nat.mul_le_mul_right _ hlo
    have hlt : (slot + 1) * s.nHeadKv ≤ (start + n) * s.nHeadKv := Nat.mul_le_mul_right _ hhi
    rw [Nat.succ_mul, Nat.add_mul] at hlt
    have hdiff : slot * s.nHeadKv + h - start * s.nHeadKv = (slot - start) * s.nHeadKv + h := by
      rw [Nat.sub_mul]
      omega
    rw [if_pos ⟨by omega, by omega⟩, hdiff] at hrow
    refine hrow.trans ?_
    congr 1
    by_cases hshape : s.layerNHeadKv ≠ s.nHeadKv ∨ s.layerHeadDim ≠ s.headDim
    · rw [if_pos hshape] at hpacked
      rw [← hpacked, packLayerSlots_row s data hh]
    rw [if_neg hshape] at hpacked
    have hheads : s.layerNHeadKv = s.nHeadKv := not_not.mp fun hne => hshape (Or.inl hne)
    have hdim : s.layerHeadDim = s.headDim := not_not.mp fun hne => hshape (Or.inr hne)
    rw [← hpacked, paddedHead_full s data hh hheads hdim]

/-- **Whichever writer is called, a head's row holds the quantised head vector.** -/
theorem headRow_apply (quantize : List K → Nat → Block) (s : SlotShape) (mem : KvBlock)
    (w : KvWrite K) {vec : List K} (hw : w.headVector s slot h = some vec)
    (hb : b < s.blocksPerHead) :
    headRow s (w.apply quantize s mem) slot h b = quantize vec b := by
  cases w with
  | one slot' data =>
    simp only [KvWrite.headVector, Option.ite_none_right_eq_some, Option.some.injEq] at hw
    obtain ⟨⟨heq, hslot, hh⟩, hvec⟩ := hw
    subst heq
    show headRow s (writeSlot quantize s mem slot data) slot h b = _
    rw [headRow_writeSlot quantize s mem data hslot hh hb, if_pos rfl, hvec]
  | many bulk start n data =>
    simp only [KvWrite.headVector, Option.ite_none_right_eq_some, Option.some.injEq] at hw
    obtain ⟨⟨hn, hlo, hhi, hh⟩, hvec⟩ := hw
    show headRow s (writeSlots quantize s bulk mem start n data) slot h b = _
    rw [headRow_writeSlots quantize s bulk mem data hn hlo hhi hh hb, hvec]

/-! ### One head of attention on aligned rows

On rows that both orders read alike the kernels take the same scores, so they differ only in
how they guard the final division.
-/

section Attention

variable [LinearOrder K]

/-- What the scalar path sees of a context: the scores of the visible tokens, each
with its value vector. -/
def stream (num : Numerics K) (toFloat : (Nat → Block) → Nat → K) (headDim vHeadDim : Nat)
    (q : Nat → K) (tokens : List Token) : List (K × (Fin vHeadDim → K)) :=
  (tokens.filter (·.visible)).map fun t =>
    (num.score (∑ d ∈ Finset.range headDim, q d * toFloat t.kRow d), fun i => toFloat t.vRow i)

omit [LinearOrder K] in
theorem stream_append (num : Numerics K) (toFloat : (Nat → Block) → Nat → K)
    (headDim vHeadDim : Nat) (q : Nat → K) (l l' : List Token) :
    stream num toFloat headDim vHeadDim q (l ++ l')
      = stream num toFloat headDim vHeadDim q l ++ stream num toFloat headDim vHeadDim q l' := by
  unfold stream
  rw [filter_append, map_append]

omit [LinearOrder K] in
theorem sum_visible (tokens : List Token) (g : Token → K) :
    (tokens.map fun t => if t.visible then g t else 0).sum
      = ((tokens.filter (·.visible)).map g).sum := by
  induction tokens with
  | nil => rfl
  | cons t rest ih =>
    rw [map_cons, sum_cons, ih]
    by_cases hv : t.visible = true
    · rw [if_pos hv, filter_cons_of_pos hv, map_cons, sum_cons]
    · rw [if_neg hv, filter_cons_of_neg hv, zero_add]

omit [LinearOrder K] in
theorem foldl_accumulate (fp16 : UInt16 → K) (lanes : Nat) {vHeadDim : Nat}
    (hdim : vHeadDim % blockElems = 0) {i : Nat} (hi : i < vHeadDim) (w : Token → K)
    (tokens : List Token) : ∀ o : Nat → K,
    (tokens.zip (tokens.map w)).foldl
        (fun o tw => accumulateQ4_0 fp16 lanes o tw.1.vRow tw.2 vHeadDim) o i
      = o i + (tokens.map fun t => w t * hwyValue fp16 t.vRow i).sum := by
  induction tokens with
  | nil => intro o; simp
  | cons t rest ih =>
    intro o
    rw [map_cons, zip_cons_cons, foldl_cons, ih, accumulateQ4_0_eq _ _ _ _ _ hdim]
    dsimp only
    rw [if_pos hi, map_cons, sum_cons]
    ring

/-- Every visible token of a context has aligned rows. -/
def ContextAligned (fp16 : UInt16 → K) (headDim vHeadDim : Nat) (tokens : List Token) : Prop :=
  ∀ t ∈ tokens, t.visible = true → RowAligned fp16 t.kRow headDim ∧ RowAligned fp16 t.vRow vHeadDim

variable [IsStrictOrderedRing K] {num : Numerics K} {toFloat : (Nat → Block) → Nat → K}
  {headDim vHeadDim : Nat}

/-- One block of tokens in the running softmax. -/
theorem hwyBlockStep_tracks (hlayout : GgmlToFloat num.fp16 toFloat)
    (hexp : Lib.IsExponential num.exp) (hdim : headDim % blockElems = 0)
    (hvdim : vHeadDim % blockElems = 0) (lanes : Nat) (negBig : K) (q : Nat → K)
    {st : HeadState K} {tokens : List Token} {l : List (K × (Fin vHeadDim → K))}
    (haligned : ContextAligned num.fp16 headDim vHeadDim tokens)
    (h : Lib.Tracks num.exp st.mPrev st.dPrev (fun i : Fin vHeadDim => st.out i) l) :
    Lib.Tracks num.exp (hwyBlockStep num lanes negBig headDim vHeadDim q st tokens).mPrev
      (hwyBlockStep num lanes negBig headDim vHeadDim q st tokens).dPrev
      (fun i : Fin vHeadDim => (hwyBlockStep num lanes negBig headDim vHeadDim q st tokens).out i)
      (l ++ stream num toFloat headDim vHeadDim q tokens) := by
  let score : Token → K := fun t => num.score (∑ d ∈ Finset.range headDim, q d * toFloat t.kRow d)
  -- On aligned rows the kernel's scores are the scalar path's.
  have hscores : (tokens.map fun t => if t.visible then
        some (num.score (dotProductQ4_0 num.fp16 lanes q t.kRow headDim)) else none)
      = tokens.map fun t => if t.visible then some (score t) else none := by
    refine map_congr_left fun t ht => ?_
    by_cases hv : t.visible = true
    · rw [if_pos hv, if_pos hv, dotProductQ4_0_eq _ _ _ _ hdim]
      congr 2
      refine Finset.sum_congr rfl fun d hd => ?_
      rw [(hwyValue_eq_toFloat_iff hlayout t.kRow hdim).mpr (haligned t ht hv).1 d
        (Finset.mem_range.mp hd)]
    · rw [if_neg hv, if_neg hv]
  unfold hwyBlockStep
  dsimp only
  rw [hscores]
  generalize max st.mPrev (blockMax negBig
    (tokens.map fun t => if t.visible then some (score t) else none)) = mNew
  have hweights : (tokens.map fun t => if t.visible then some (score t) else none).map
      (weightOf num.exp mNew)
      = tokens.map fun t => if t.visible then num.exp (score t - mNew) else 0 := by
    rw [map_map]
    refine map_congr_left fun t _ => ?_
    simp only [Function.comp]
    split <;> rfl
  rw [hweights]
  have habsorb := h.absorb hexp mNew (stream num toFloat headDim vHeadDim q tokens)
  have hd : ((stream num toFloat headDim vHeadDim q tokens).map fun t => num.exp (t.1 - mNew)).sum
      = (tokens.map fun t => if t.visible then num.exp (score t - mNew) else 0).sum := by
    rw [sum_visible, stream, map_map]
    rfl
  refine ⟨?_, ?_⟩
  · rw [← hd]
    exact habsorb.denom_eq
  intro i
  rw [← habsorb.out_eq i, foldl_accumulate num.fp16 lanes hvdim i.isLt
    (fun t => if t.visible then num.exp (score t - mNew) else 0)]
  congr 1
  · rw [if_pos i.isLt]
  -- The same terms, read by the kernel and by `to_float`.
  have hterms : (tokens.map fun t =>
        (if t.visible then num.exp (score t - mNew) else 0) * hwyValue num.fp16 t.vRow i)
      = tokens.map fun t =>
        if t.visible then num.exp (score t - mNew) * toFloat t.vRow i else 0 := by
    refine map_congr_left fun t ht => ?_
    by_cases hv : t.visible = true
    · rw [if_pos hv, if_pos hv, (hwyValue_eq_toFloat_iff hlayout t.vRow hvdim).mpr
        (haligned t ht hv).2 i i.isLt]
    · rw [if_neg hv, if_neg hv, zero_mul]
  rw [hterms, sum_visible, stream, map_map]
  rfl

/-- All blocks, by induction. -/
theorem hwyFinal_tracks (hlayout : GgmlToFloat num.fp16 toFloat)
    (hexp : Lib.IsExponential num.exp) (hdim : headDim % blockElems = 0)
    (hvdim : vHeadDim % blockElems = 0) (lanes : Nat) (negBig : K) (q : Nat → K)
    (blocks : List (List Token))
    (haligned : ContextAligned num.fp16 headDim vHeadDim blocks.flatten) :
    Lib.Tracks num.exp (hwyFinal num lanes negBig headDim vHeadDim q blocks).mPrev
      (hwyFinal num lanes negBig headDim vHeadDim q blocks).dPrev
      (fun i : Fin vHeadDim => (hwyFinal num lanes negBig headDim vHeadDim q blocks).out i)
      (stream num toFloat headDim vHeadDim q blocks.flatten) := by
  have hfold : ∀ (bs : List (List Token)) (st : HeadState K) (l : List (K × (Fin vHeadDim → K))),
      ContextAligned num.fp16 headDim vHeadDim bs.flatten →
      Lib.Tracks num.exp st.mPrev st.dPrev (fun i : Fin vHeadDim => st.out i) l →
      Lib.Tracks num.exp
        (bs.foldl (hwyBlockStep num lanes negBig headDim vHeadDim q) st).mPrev
        (bs.foldl (hwyBlockStep num lanes negBig headDim vHeadDim q) st).dPrev
        (fun i : Fin vHeadDim =>
          (bs.foldl (hwyBlockStep num lanes negBig headDim vHeadDim q) st).out i)
        (l ++ stream num toFloat headDim vHeadDim q bs.flatten) := by
    intro bs
    induction bs with
    | nil =>
      intro st l _ h
      simpa [stream] using h
    | cons b rest ih =>
      intro st l hal h
      have hb : ContextAligned num.fp16 headDim vHeadDim b := fun t ht =>
        hal t (by simp [ht])
      have hrest : ContextAligned num.fp16 headDim vHeadDim rest.flatten := fun t ht =>
        hal t (by rw [flatten_cons]; exact mem_append_right _ ht)
      have hstep := ih _ _ hrest
        (hwyBlockStep_tracks hlayout hexp hdim hvdim lanes negBig q hb h)
      rw [flatten_cons, stream_append, ← append_assoc]
      exact hstep
  have hnil := hfold blocks { mPrev := negBig, dPrev := 0, out := fun _ => 0 } [] haligned
    (Lib.tracks_nil num.exp negBig)
  simpa [hwyFinal] using hnil

/-- The scalar path's output is the weighted average of the values; without a visible token
both sums are zero. -/
theorem scalarHead_eq (hexp : Lib.IsExponential num.exp) (q : Nat → K) (tokens : List Token)
    {i : Nat} (hi : i < vHeadDim) :
    scalarHead num toFloat headDim q tokens i =
      Lib.expWeighted num.exp (stream num toFloat headDim vHeadDim q tokens) ⟨i, hi⟩ /
        Lib.expSum num.exp (stream num toFloat headDim vHeadDim q tokens) := by
  let score : Token → K := fun t => num.score (∑ d ∈ Finset.range headDim, q d * toFloat t.kRow d)
  unfold scalarHead
  dsimp only
  cases hvis : tokens.filter (·.visible) with
  | nil => simp [stream, hvis, Lib.expSum]
  | cons t rest =>
    have hne : stream num toFloat headDim vHeadDim q tokens ≠ [] := by
      simp [stream, hvis]
    simp only [map_cons]
    generalize (rest.map score).foldl max (score t) = maxScore
    -- No weight vanishes, so the scalar path keeps every visible token.
    have hkeep : (t :: rest).filter (fun t => decide (0 < num.exp (score t - maxScore)))
        = t :: rest := by
      refine filter_eq_self.mpr fun u _ => ?_
      exact decide_eq_true (hexp.pos _)
    rw [hkeep, ← hvis]
    have hdenom : ((tokens.filter (·.visible)).map fun t => num.exp (score t - maxScore)).sum
        = num.exp (-maxScore) *
          Lib.expSum num.exp (stream num toFloat headDim vHeadDim q tokens) := by
      rw [← Lib.expSum_shift hexp, stream, map_map]
      rfl
    have hout : ((tokens.filter (·.visible)).map
          fun t => num.exp (score t - maxScore) * toFloat t.vRow i).sum
        = num.exp (-maxScore) * Lib.expWeighted num.exp
          (stream num toFloat headDim vHeadDim q tokens) ⟨i, hi⟩ := by
      rw [← Lib.expWeighted_shift hexp, stream, map_map]
      rfl
    have hS := Lib.expSum_pos hexp hne
    have hE := hexp.pos (-maxScore)
    rw [hdenom, hout, if_pos (mul_pos hE hS)]
    field_simp

/-- The kernel's output on aligned rows: the weighted sum of the values over a denominator
that holds the guard beside the sum of the weights. -/
theorem hwyHead_eq (hlayout : GgmlToFloat num.fp16 toFloat)
    (hexp : Lib.IsExponential num.exp) (hdim : headDim % blockElems = 0)
    (hvdim : vHeadDim % blockElems = 0) (lanes : Nat) (negBig : K) {eps : K} (heps : 0 ≤ eps)
    (q : Nat → K) (blocks : List (List Token))
    (haligned : ContextAligned num.fp16 headDim vHeadDim blocks.flatten) {i : Nat}
    (hi : i < vHeadDim) :
    hwyHead num lanes negBig eps headDim vHeadDim q blocks i *
        ((hwyFinal num lanes negBig headDim vHeadDim q blocks).dPrev + eps)
      = scalarHead num toFloat headDim q blocks.flatten i *
        (hwyFinal num lanes negBig headDim vHeadDim q blocks).dPrev := by
  have htracks := hwyFinal_tracks hlayout hexp hdim hvdim lanes negBig q blocks haligned
  rw [scalarHead_eq hexp q blocks.flatten hi]
  unfold hwyHead
  generalize hwyFinal num lanes negBig headDim vHeadDim q blocks = st at htracks ⊢
  dsimp only
  have hout : st.out i = _ := htracks.out_eq ⟨i, hi⟩
  rw [hout, htracks.denom_eq]
  generalize hl : stream num toFloat headDim vHeadDim q blocks.flatten = l
  have hE := hexp.pos (-st.mPrev)
  rcases eq_or_ne l [] with rfl | hne
  · simp [Lib.expSum]
  have hS := Lib.expSum_pos hexp hne
  have hsum : num.exp (-st.mPrev) * Lib.expSum num.exp l + eps ≠ 0 :=
    ne_of_gt (add_pos_of_pos_of_nonneg (mul_pos hE hS) heps)
  rw [if_pos (mul_pos hE hS)]
  field_simp

/-- The values cancel under the weights of their scores, in every component. -/
def ValuesCancel (num : Numerics K) (toFloat : (Nat → Block) → Nat → K) (headDim vHeadDim : Nat)
    (q : Nat → K) (tokens : List Token) : Prop :=
  ∀ i, Lib.expWeighted num.exp (stream num toFloat headDim vHeadDim q tokens) i = 0

/-- **The guard shows unless the values cancel.**  On aligned rows the two paths give the
same output just where that output is zero. -/
theorem hwyHead_eq_scalarHead_iff (hlayout : GgmlToFloat num.fp16 toFloat)
    (hexp : Lib.IsExponential num.exp) (hdim : headDim % blockElems = 0)
    (hvdim : vHeadDim % blockElems = 0) (lanes : Nat) (negBig : K) {eps : K} (heps : 0 < eps)
    (q : Nat → K) (blocks : List (List Token))
    (haligned : ContextAligned num.fp16 headDim vHeadDim blocks.flatten) :
    (∀ i, i < vHeadDim → hwyHead num lanes negBig eps headDim vHeadDim q blocks i =
        scalarHead num toFloat headDim q blocks.flatten i) ↔
      ValuesCancel num toFloat headDim vHeadDim q blocks.flatten := by
  have hd : 0 ≤ (hwyFinal num lanes negBig headDim vHeadDim q blocks).dPrev := by
    rw [(hwyFinal_tracks hlayout hexp hdim hvdim lanes negBig q blocks haligned).denom_eq]
    exact mul_nonneg (hexp.pos _).le (Lib.expSum_nonneg hexp _)
  have hzero : ∀ i (hi : i < vHeadDim), hwyHead num lanes negBig eps headDim vHeadDim q blocks i =
      scalarHead num toFloat headDim q blocks.flatten i ↔
      scalarHead num toFloat headDim q blocks.flatten i = 0 := by
    intro i hi
    have hfactor := hwyHead_eq hlayout hexp hdim hvdim lanes negBig heps.le q blocks haligned hi
    constructor
    · intro h
      rw [h, mul_add, add_eq_left] at hfactor
      exact (mul_eq_zero.mp hfactor).resolve_right heps.ne'
    · intro h
      rw [h, zero_mul] at hfactor
      rw [h]
      exact (mul_eq_zero.mp hfactor).resolve_right (add_pos_of_nonneg_of_pos hd heps).ne'
  unfold ValuesCancel
  rw [Fin.forall_iff]
  refine forall_congr' fun i => forall_congr' fun hi => ?_
  rw [hzero i hi, scalarHead_eq hexp q blocks.flatten hi, div_eq_zero_iff]
  refine or_iff_left_of_imp fun h => ?_
  have hnil : stream num toFloat headDim vHeadDim q blocks.flatten = [] := by
    by_contra hne
    exact (Lib.expSum_pos hexp hne).ne' h
  rw [hnil]
  simp [Lib.expWeighted]

end Attention

/-! ### Writers and readers -/

/-- Both kernels pair each component of a row with the value `to_float` gives for
it.  The value a kernel pairs with a component is what it yields for the unit
vector, respectively for weight one. -/
def ReadersAgree (fp16 : UInt16 → K) (toFloat : (Nat → Block) → Nat → K) (lanes : Nat)
    (row : Nat → Block) (headDim : Nat) : Prop :=
  ∀ i, i < headDim →
    dotProductQ4_0 fp16 lanes (fun j => if j = i then 1 else 0) row headDim = toFloat row i ∧
      accumulateQ4_0 fp16 lanes (fun _ => 0) row 1 headDim i = toFloat row i

theorem readersAgree_iff [CharZero K]
    (hlayout : GgmlToFloat fp16 toFloat) (lanes : Nat) (row : Nat → Block)
    (hdim : headDim % blockElems = 0) :
    ReadersAgree fp16 toFloat lanes row headDim ↔ RowAligned fp16 row headDim := by
  rw [← hwyValue_eq_toFloat_iff hlayout row hdim]
  have hdot : ∀ i, i < headDim →
      dotProductQ4_0 fp16 lanes (fun j => if j = i then 1 else 0) row headDim
        = hwyValue fp16 row i := by
    intro i hi
    rw [dotProductQ4_0_eq _ _ _ _ hdim]
    simp [hi]
  have hacc : ∀ i, i < headDim →
      accumulateQ4_0 fp16 lanes (fun _ => 0) row 1 headDim i = hwyValue fp16 row i := by
    intro i hi
    rw [accumulateQ4_0_eq _ _ _ _ _ hdim]
    simp [hi]
  unfold ReadersAgree
  refine forall_congr' fun i => forall_congr' fun hi => ?_
  rw [hdot i hi, hacc i hi, and_self]

/-- The readers agree on the rows of every visible token, and both attention paths compute
the same output. -/
def SameAttention [LinearOrder K] (num : Numerics K) (toFloat : (Nat → Block) → Nat → K)
    (lanes : Nat) (negBig eps : K) (headDim vHeadDim : Nat) (q : Nat → K)
    (blocks : List (List Token)) : Prop :=
  (∀ t ∈ blocks.flatten, t.visible = true → ReadersAgree num.fp16 toFloat lanes t.kRow headDim ∧
      ReadersAgree num.fp16 toFloat lanes t.vRow vHeadDim) ∧
    ∀ i, i < vHeadDim → hwyHead num lanes negBig eps headDim vHeadDim q blocks i =
      scalarHead num toFloat headDim q blocks.flatten i

theorem sameAttention_iff [LinearOrder K] [IsStrictOrderedRing K] {num : Numerics K}
    (hlayout : GgmlToFloat num.fp16 toFloat) (hexp : Lib.IsExponential num.exp) {vHeadDim : Nat}
    (hdim : headDim % blockElems = 0) (hvdim : vHeadDim % blockElems = 0) (lanes : Nat)
    (negBig : K) {eps : K} (heps : 0 < eps) (q : Nat → K) (blocks : List (List Token)) :
    SameAttention num toFloat lanes negBig eps headDim vHeadDim q blocks ↔
      ContextAligned num.fp16 headDim vHeadDim blocks.flatten ∧
        ValuesCancel num toFloat headDim vHeadDim q blocks.flatten := by
  have hrows : (∀ t ∈ blocks.flatten, t.visible = true →
      ReadersAgree num.fp16 toFloat lanes t.kRow headDim ∧
        ReadersAgree num.fp16 toFloat lanes t.vRow vHeadDim) ↔
      ContextAligned num.fp16 headDim vHeadDim blocks.flatten := by
    simp only [readersAgree_iff hlayout lanes _ hdim, readersAgree_iff hlayout lanes _ hvdim,
      ContextAligned]
  unfold SameAttention
  rw [hrows]
  exact and_congr_right fun haligned =>
    hwyHead_eq_scalarHead_iff hlayout hexp hdim hvdim lanes negBig heps q blocks haligned

section Rational

/-- A cache with one head of one block. -/
def oneBlockShape : SlotShape where
  nHeadKv := 1
  headDim := 32
  layerNHeadKv := 1
  layerHeadDim := 32
  heads_le := by decide
  dim_le := by decide
  whole_blocks := by decide

/-- ggml's quantiser on rows whose greatest magnitude is `-8` in every block: the
scale is one, and a code is the value plus eight, rounded. -/
def unitScaleQuantize (row : List ℚ) (b : Nat) : Block :=
  let code := fun j : Nat =>
    UInt8.ofNat (min 15 (row.getD (b * blockElems + j) 0 + 17 / 2).floor.toNat)
  { d := 0x3C00, qs := fun j => code j ||| (code (j + 16) <<< 4) }

/-- Half-precision one; the scales of the example need no other number. -/
def unitNumerics : Numerics ℚ where
  fp16 := fun bits => if bits = 0x3C00 then 1 else 0
  exp := fun _ => 1
  score := id

/-- `to_float` in ggml's order. -/
def ggmlToFloat (fp16 : UInt16 → ℚ) (row : Nat → Block) (i : Nat) : ℚ :=
  (ggmlCode (row (i / blockElems)) (i % blockElems) : ℚ) * fp16 (row (i / blockElems)).d

/-- The rows of a token with a constant key, and a constant value. -/
def constantToken (key value : ℚ) : Token where
  visible := true
  kRow := unitScaleQuantize (replicate 32 key)
  vRow := unitScaleQuantize (replicate 32 value)

/-- The head vector `-8, 1, 0, 0, …` written to slot 0. -/
def slopedWrite : KvWrite ℚ :=
  .one 0 fun x => if x = 0 then -8 else if x = 1 then 1 else 0

end Rational

end DenseCore.Q4
