/-
The block allocator of the KV cache.

`KVBlockAllocator` hands out the blocks of an arena from a free list and marks each in
`allocated_`.  The free list and the marks say the same: a block is free exactly if its
mark is clear.  An allocator without an arena, because it got none or because it was
moved from, has neither list nor marks, but it keeps its number of blocks, and the test
of `Free` and `FreeN` is against that number.  So an id that passes the test there is an
index out of range.  The list counts with `int`, so a pool of 2^31 blocks or more does
not list them all.
-/
import Mathlib.Algebra.Order.Ring.Int
import DenseCore.Lib.Trace
import Mathlib.Data.List.Nodup

namespace DenseCore

open List

open Lib

/-- The back of the free list is the head of `freeList`. -/
structure KVBlockAllocator where
  arena : Bool
  numBlocks : Nat
  freeList : List Int
  allocated : List Bool
deriving DecidableEq, Repr

namespace KVBlockAllocator

/-! ### Operations

None stands for an index out of range.
-/

/-- The constructor; `arena` says whether one of the ways to get an arena succeeds. -/
def construct (numBlocks blockStride : Nat) (arena : Bool) : KVBlockAllocator :=
  if numBlocks = 0 ∨ blockStride = 0 ∨ arena = false then
    { arena := false, numBlocks := numBlocks, freeList := [], allocated := [] }
  else
    { arena := true, numBlocks := numBlocks
      freeList := (range (Int.bmod numBlocks (2 ^ 32)).toNat).map Int.ofNat
      allocated := replicate numBlocks false }

/-- What a move leaves behind. -/
def movedFrom (x : KVBlockAllocator) : KVBlockAllocator :=
  { x with arena := false, freeList := [], allocated := [] }

/-- `allocated_[id] = true`. -/
def mark (x : KVBlockAllocator) (id : Int) : Option KVBlockAllocator :=
  if 0 ≤ id ∧ id.toNat < x.allocated.length then
    some { x with allocated := x.allocated.set id.toNat true }
  else none

/-- `Allocate`, -1 when nothing is free; `none` where the code indexes out of range. -/
def allocate (x : KVBlockAllocator) : Option (Int × KVBlockAllocator) :=
  match x.freeList with
  | [] => some (-1, x)
  | id :: rest => (mark { x with freeList := rest } id).map fun x => (id, x)

/-- The loop of `AllocateN`. -/
def takeBlocks : Nat → KVBlockAllocator → Option (List Int × KVBlockAllocator)
  | 0, x => some ([], x)
  | n + 1, x =>
    match x.freeList with
    | [] => none
    | id :: rest => do
        let x ← mark { x with freeList := rest } id
        let (ids, x) ← takeBlocks n x
        some (id :: ids, x)

/-- `AllocateN` -/
def allocateN (x : KVBlockAllocator) (n : Nat) : Option (List Int × KVBlockAllocator) :=
  if x.freeList.length < n then some ([], x) else takeBlocks n x

/-- The test against the number of blocks. -/
def InPool (x : KVBlockAllocator) (id : Int) : Prop := 0 ≤ id ∧ id.toNat < x.numBlocks

instance (x : KVBlockAllocator) (id : Int) : Decidable (x.InPool id) :=
  inferInstanceAs (Decidable (_ ∧ _))

/-- `Free`, and whether the id was an allocated one. -/
def free (x : KVBlockAllocator) (id : Int) : Option (Bool × KVBlockAllocator) :=
  if ¬ x.InPool id then some (false, x)
  else
    match x.allocated[id.toNat]? with
    | none => none
    | some false => some (false, x)
    | some true =>
      some (true, { x with
        allocated := x.allocated.set id.toNat false, freeList := id :: x.freeList })

/-- `FreeN`: each id in turn, with the number of those freed. -/
def freeN : KVBlockAllocator → List Int → Option (Nat × KVBlockAllocator)
  | x, [] => some (0, x)
  | x, id :: rest => do
      let (freed, x) ← x.free id
      let (count, x) ← freeN x rest
      some (count + freed.toNat, x)

/-! ### Several allocators -/

/-- A call on one of the allocators. -/
inductive Action where
  | construct (numBlocks blockStride : Nat) (arena : Bool)
  | moveConstruct (src : Nat)
  | moveAssign (dst src : Nat)
  | allocate (a : Nat)
  | allocateN (a n : Nat)
  | free (a : Nat) (id : Int)
  | freeN (a : Nat) (ids : List Int)
deriving DecidableEq, Repr

/-- All allocators there are, those moved from included. -/
abbrev World := List KVBlockAllocator

/-- An operation on one allocator, if there is that one. -/
def World.on (w : World) (a : Nat) (f : KVBlockAllocator → Option KVBlockAllocator) :
    Option World :=
  match w[a]? with
  | none => some w
  | some x => (f x).map fun x => w.set a x

/-- What a call does to the allocators. -/
def step (w : World) : Action → Option World
  | .construct n stride arena => some (w ++ [KVBlockAllocator.construct n stride arena])
  | .moveConstruct src =>
    match w[src]? with
    | none => some w
    | some x => some (w.set src x.movedFrom ++ [x])
  | .moveAssign dst src =>
    match w[dst]?, w[src]? with
    | some _, some x => if dst = src then some w else some ((w.set dst x).set src x.movedFrom)
    | _, _ => some w
  | .allocate a => w.on a fun x => x.allocate.map Prod.snd
  | .allocateN a n => w.on a fun x => (x.allocateN n).map Prod.snd
  | .free a id => w.on a fun x => (x.free id).map Prod.snd
  | .freeN a ids => w.on a fun x => (x.freeN ids).map Prod.snd

/-! ### The invariant -/

/-- The free list and the marks say the same. -/
structure Inv (x : KVBlockAllocator) : Prop where
  marks : x.allocated.length = if x.arena then x.numBlocks else 0
  nodup : x.freeList.Nodup
  free_iff : ∀ id : Int, id ∈ x.freeList ↔ 0 ≤ id ∧ x.allocated[id.toNat]? = some false

variable {x : KVBlockAllocator}

theorem inv_empty (n : Nat) :
    Inv { arena := false, numBlocks := n, freeList := [], allocated := [] } :=
  ⟨rfl, nodup_nil, by simp⟩

variable {n : Nat} {id : Int} {w : World}

theorem inv_construct {stride : Nat} {arena : Bool}
    (h : n ≠ 0 → stride ≠ 0 → arena = true → n < 2 ^ 31) : Inv (construct n stride arena) := by
  unfold construct
  split
  · exact inv_empty n
  rename_i hgot
  simp only [not_or, Bool.not_eq_false] at hgot
  have hlt := h hgot.1 hgot.2.1 hgot.2.2
  have hint : Int.bmod n (2 ^ 32) = n := Int.bmod_eq_of_le (by omega) (by omega)
  rw [hint, Int.toNat_natCast]
  refine ⟨length_replicate, ?_, fun id => ?_⟩
  · exact (nodup_range).map fun a b hab => Int.ofNat.inj hab
  rw [getElem?_replicate, mem_map]
  constructor
  · rintro ⟨i, hi, rfl⟩
    exact ⟨Int.natCast_nonneg i, if_pos (mem_range.mp hi)⟩
  rintro ⟨hid, hget⟩
  split at hget
  · exact ⟨id.toNat, mem_range.mpr ‹_›, Int.toNat_of_nonneg hid⟩
  · cases hget

/-- The marks of just these ids are set so. -/
def Sets (x : KVBlockAllocator) (ids : List Int) (live : Bool) (x' : KVBlockAllocator) : Prop :=
  ∀ id : Int, 0 ≤ id →
    x'.allocated[id.toNat]? = if id ∈ ids then some live else x.allocated[id.toNat]?

/-- `allocated_[id]`. -/
def IsAllocated (x : KVBlockAllocator) (id : Int) : Bool := x.allocated[id.toNat]? = some true

theorem sets_one {y : KVBlockAllocator} {live : Bool} (hid : 0 ≤ id)
    (hlt : id.toNat < x.allocated.length)
    (hy : y.allocated = x.allocated.set id.toNat live) : Sets x [id] live y := by
  intro j hj
  rw [hy]
  by_cases heq : j = id
  · rw [if_pos (mem_singleton.mpr heq), heq, getElem?_set_self hlt]
  · rw [if_neg (heq ∘ mem_singleton.mp), getElem?_set_ne (by omega)]

theorem Sets.cons {y z : KVBlockAllocator} {ids : List Int} {live : Bool} (h : Sets x [id] live y)
    (h' : Sets y ids live z) : Sets x (id :: ids) live z := by
  intro j hj
  rw [h' j hj, h j hj]
  by_cases hmem : j ∈ ids <;> by_cases heq : j = id <;> simp [hmem, heq]

theorem Inv.take {rest : List Int} (h : Inv x) (hlist : x.freeList = id :: rest) :
    ∃ x', mark { x with freeList := rest } id = some x' ∧ Inv x' ∧ x'.freeList = rest ∧
      Sets x [id] true x' := by
  obtain ⟨hid, hget⟩ := (h.free_iff id).mp (hlist ▸ mem_cons_self)
  obtain ⟨hlt, -⟩ := List.getElem?_eq_some_iff.mp hget
  have hnodup := h.nodup
  rw [hlist, nodup_cons] at hnodup
  refine ⟨_, if_pos ⟨hid, hlt⟩, ⟨?_, hnodup.2, fun j => ?_⟩, rfl, sets_one hid hlt rfl⟩
  · exact (length_set ..).trans h.marks
  have hfree := h.free_iff j
  rw [hlist, mem_cons] at hfree
  by_cases hj : j = id
  · subst hj
    refine iff_of_false hnodup.1 fun hset => ?_
    rw [getElem?_set_self hlt] at hset
    cases hset.2
  rw [or_iff_right hj] at hfree
  rw [hfree]
  refine and_congr_right fun hj0 => ?_
  rw [getElem?_set_ne (by omega)]

/-- Putting back a block that is marked. -/
theorem Inv.put (h : Inv x) (hid : 0 ≤ id) (hget : x.allocated[id.toNat]? = some true) :
    Inv { x with allocated := x.allocated.set id.toNat false, freeList := id :: x.freeList } := by
  obtain ⟨hlt, -⟩ := List.getElem?_eq_some_iff.mp hget
  have hnew : id ∉ x.freeList := by
    rw [h.free_iff, hget]
    exact fun hboth => nomatch hboth.2
  refine ⟨?_, nodup_cons.mpr ⟨hnew, h.nodup⟩, fun j => ?_⟩
  · exact (length_set ..).trans h.marks
  rw [mem_cons, h.free_iff]
  by_cases hj : j = id
  · subst hj
    rw [getElem?_set_self hlt]
    exact iff_of_true (Or.inl rfl) ⟨hid, rfl⟩
  rw [or_iff_right hj]
  refine and_congr_right fun hj0 => ?_
  rw [getElem?_set_ne (by omega)]

/-! ### The operations -/

theorem Inv.takeBlocks : ∀ {x : KVBlockAllocator}, Inv x → n ≤ x.freeList.length →
      ∃ x', takeBlocks n x = some (x.freeList.take n, x') ∧ Inv x' ∧
        Sets x (x.freeList.take n) true x' := by
  induction n with
  | zero => exact fun {x} h _ => ⟨x, rfl, h, fun _ _ => rfl⟩
  | succ n ih =>
    intro x h hn
    obtain ⟨id, rest, hlist⟩ := exists_cons_of_length_pos (Nat.lt_of_lt_of_le n.succ_pos hn)
    obtain ⟨x₁, hmark, h₁, hrest, hset⟩ := h.take hlist
    rw [hlist, length_cons] at hn
    obtain ⟨x₂, htake, h₂, hsets⟩ := ih h₁ (by rw [hrest]; omega)
    rw [hrest] at htake hsets
    refine ⟨x₂, ?_, h₂, by rw [hlist, take_succ_cons]; exact hset.cons hsets⟩
    simp only [KVBlockAllocator.takeBlocks, hlist, hmark, Option.bind_eq_bind, Option.bind_some,
      htake, take_succ_cons]

/-- The test of `Free` is against the marks that there are. -/
def Covered (x : KVBlockAllocator) (id : Int) : Prop := x.arena = true ∨ ¬ x.InPool id

theorem Inv.free (h : Inv x) (hid : x.Covered id) :
    ∃ r x', x.free id = some (r, x') ∧ Inv x' ∧ x'.arena = x.arena ∧ x'.numBlocks = x.numBlocks ∧
      Sets x (if x.IsAllocated id then [id] else []) false x' ∧
      (¬ x.InPool id ∨ x.allocated[id.toNat]? = some false → r = false ∧ x' = x) := by
  have hnone : ¬ (0 ≤ id ∧ x.IsAllocated id) →
      Sets x (if x.IsAllocated id then [id] else []) false x := by
    intro hno j hj
    rw [if_neg]
    intro hmem
    split at hmem
    · rw [mem_singleton.mp hmem] at hj
      exact hno ⟨hj, ‹_›⟩
    · cases hmem
  unfold KVBlockAllocator.free
  by_cases hin : x.InPool id
  · rw [if_neg (not_not_intro hin)]
    have harena := hid.resolve_right (not_not_intro hin)
    have hlt : id.toNat < x.allocated.length := by
      rw [h.marks, harena]
      exact hin.2
    have hmark := getElem?_eq_getElem hlt
    rw [hmark]
    cases hget : x.allocated[id.toNat] with
    | false =>
      have hfree : ¬ (0 ≤ id ∧ x.IsAllocated id) := by simp [IsAllocated, hmark, hget]
      exact ⟨false, x, rfl, h, rfl, rfl, hnone hfree, fun _ => ⟨rfl, rfl⟩⟩
    | true =>
      rw [hget] at hmark
      refine ⟨true, _, rfl, h.put hin.1 hmark, rfl, rfl, ?_, fun hor => ?_⟩
      · rw [if_pos (by simp [IsAllocated, hmark])]
        exact sets_one hin.1 hlt rfl
      · exact absurd (hor.resolve_left (not_not_intro hin)) nofun
  rw [if_pos hin]
  refine ⟨false, x, rfl, h, rfl, rfl, hnone fun hlive => hin ⟨hlive.1, ?_⟩, fun _ => ⟨rfl, rfl⟩⟩
  obtain ⟨hlt, -⟩ := List.getElem?_eq_some_iff.mp (of_decide_eq_true hlive.2)
  rw [h.marks] at hlt
  split at hlt
  · exact hlt
  · exact absurd hlt (Nat.not_lt_zero _)

theorem Inv.freeN {ids : List Int} : ∀ {x : KVBlockAllocator}, Inv x → (∀ id ∈ ids, x.Covered id) →
      ∃ n x', x.freeN ids = some (n, x') ∧ Inv x' ∧ Sets x (ids.filter x.IsAllocated) false x' := by
  induction ids with
  | nil => exact fun {x} h _ => ⟨0, x, rfl, h, fun _ _ => rfl⟩
  | cons id rest ih =>
    intro x h hids
    obtain ⟨r, x₁, hfree, h₁, harena, hnum, hset, -⟩ := h.free (hids id mem_cons_self)
    obtain ⟨n, x₂, hrest, h₂, hsets⟩ := ih h₁ fun j hj => by
      have hj := hids j (mem_cons_of_mem _ hj)
      unfold Covered InPool at hj ⊢
      rwa [harena, hnum]
    refine ⟨n + r.toNat, x₂, ?_, h₂, fun j hj => ?_⟩
    · simp only [KVBlockAllocator.freeN, hfree, Option.bind_eq_bind, Option.bind_some, hrest]
    have hone := hset j hj
    rw [hsets j hj, hone]
    simp only [mem_filter, mem_cons, IsAllocated, hone, decide_eq_true_iff]
    by_cases hlive : x.allocated[id.toNat]? = some true <;> by_cases heq : j = id <;>
      simp_all

/-! ### Runs -/

/-- The steps that meet neither defect: a pool whose size is an `int`, and no id that
only the number of blocks covers. -/
def Allowed (w : World) : Action → Prop
  | .construct n stride arena => n ≠ 0 → stride ≠ 0 → arena = true → n < 2 ^ 31
  | .free a id => ∀ x, w[a]? = some x → x.Covered id
  | .freeN a ids => ∀ x, w[a]? = some x → ∀ id ∈ ids, x.Covered id
  | _ => True

theorem on_inv (hw : ∀ x ∈ w, Inv x) {a : Nat} {f : KVBlockAllocator → Option KVBlockAllocator}
    (hf : ∀ x, w[a]? = some x → Inv x → ∃ x', f x = some x' ∧ Inv x') :
    ∃ w', w.on a f = some w' ∧ ∀ x ∈ w', Inv x := by
  unfold World.on
  cases hx : w[a]? with
  | none => exact ⟨w, rfl, hw⟩
  | some x =>
    obtain ⟨x', hfx, h'⟩ := hf x hx (hw x (mem_of_getElem? hx))
    simp only [hfx]
    refine ⟨w.set a x', rfl, fun y hy => ?_⟩
    rcases mem_or_eq_of_mem_set hy with hy | rfl
    · exact hw y hy
    · exact h'

theorem inv_movedFrom (x : KVBlockAllocator) : Inv x.movedFrom := inv_empty x.numBlocks

theorem set_movedFrom_inv (hw : ∀ x ∈ w, Inv x) (a : Nat) (x : KVBlockAllocator) :
    ∀ y ∈ w.set a x.movedFrom, Inv y := by
  intro y hy
  rcases mem_or_eq_of_mem_set hy with hy | rfl
  · exact hw y hy
  · exact inv_movedFrom x

/-- **A step** that is allowed does not fail and keeps the invariant of all allocators. -/
theorem step_inv (hw : ∀ x ∈ w, Inv x) {e : Action} (he : Allowed w e) :
    ∃ w', step w e = some w' ∧ ∀ x ∈ w', Inv x := by
  cases e with
  | construct n stride arena =>
    refine ⟨_, rfl, fun x hx => ?_⟩
    rcases mem_append.mp hx with hx | hx
    · exact hw x hx
    rw [mem_singleton.mp hx]
    exact inv_construct he
  | moveConstruct src =>
    cases hx : w[src]? with
    | none => exact ⟨w, by simp only [step, hx], hw⟩
    | some x =>
      refine ⟨w.set src x.movedFrom ++ [x], by simp only [step, hx], fun y hy => ?_⟩
      rcases mem_append.mp hy with hy | hy
      · exact set_movedFrom_inv hw src x y hy
      rw [mem_singleton.mp hy]
      exact hw x (mem_of_getElem? hx)
  | moveAssign dst src =>
    cases hy : w[dst]? with
    | none => exact ⟨w, by simp only [step, hy], hw⟩
    | some y =>
      cases hx : w[src]? with
      | none => exact ⟨w, by simp only [step, hy, hx], hw⟩
      | some x =>
        simp only [step, hy, hx]
        split
        · exact ⟨w, rfl, hw⟩
        refine ⟨_, rfl, set_movedFrom_inv (fun z hz => ?_) src x⟩
        rcases mem_or_eq_of_mem_set hz with hz | rfl
        · exact hw z hz
        · exact hw _ (mem_of_getElem? hx)
  | allocate a =>
    refine on_inv hw fun x _ h => ?_
    unfold KVBlockAllocator.allocate
    cases hlist : x.freeList with
    | nil => exact ⟨x, rfl, h⟩
    | cons id rest =>
      obtain ⟨x', hmark, h', -⟩ := h.take hlist
      exact ⟨x', by simp only [hmark]; rfl, h'⟩
  | allocateN a n =>
    refine on_inv hw fun x _ h => ?_
    unfold KVBlockAllocator.allocateN
    split
    · exact ⟨x, rfl, h⟩
    rename_i hn
    obtain ⟨x', htake, h', -⟩ := h.takeBlocks (Nat.not_lt.mp hn)
    exact ⟨x', by rw [htake]; rfl, h'⟩
  | free a id =>
    refine on_inv hw fun x hx h => ?_
    obtain ⟨r, x', hfree, h', -⟩ := h.free (he x hx)
    exact ⟨x', by rw [hfree]; rfl, h'⟩
  | freeN a ids =>
    refine on_inv hw fun x hx h => ?_
    obtain ⟨n, x', hfree, h', -⟩ := h.freeN (he x hx)
    exact ⟨x', by rw [hfree]; rfl, h'⟩

/-- What is promised of an allocator: a partition, and what each operation returns. -/
structure Partitioned (x : KVBlockAllocator) : Prop where
  nodup : x.arena = true → x.freeList.Nodup
  exact : x.arena = true → ∀ id : Int,
    id ∈ x.freeList ↔ x.InPool id ∧ x.allocated[id.toNat]? = some false
  allocate : ∃ id x', x.allocate = some (id, x') ∧
    (id = -1 ∧ x' = x ∨
      x.InPool id ∧ x.allocated[id.toNat]? = some false ∧ Sets x [id] true x')
  allocateN : ∀ n, ∃ ids x', x.allocateN n = some (ids, x') ∧
    (ids = [] ∧ x' = x ∨ ids.length = n ∧ ids.Nodup ∧
      (∀ id ∈ ids, x.InPool id ∧ x.allocated[id.toNat]? = some false) ∧ Sets x ids true x')
  free : ∀ id, x.Covered id → ¬ x.InPool id ∨ x.allocated[id.toNat]? = some false →
    x.free id = some (false, x)
  freeN : ∀ ids, (∀ id ∈ ids, x.Covered id) →
    ∃ n x', x.freeN ids = some (n, x') ∧ Sets x (ids.filter x.IsAllocated) false x'

theorem Inv.inPool_of_free (h : Inv x) (hid : id ∈ x.freeList) :
    x.InPool id ∧ x.allocated[id.toNat]? = some false := by
  obtain ⟨h0, hget⟩ := (h.free_iff id).mp hid
  obtain ⟨hlt, -⟩ := List.getElem?_eq_some_iff.mp hget
  rw [h.marks] at hlt
  refine ⟨⟨h0, ?_⟩, hget⟩
  split at hlt
  · exact hlt
  · exact absurd hlt (Nat.not_lt_zero _)

theorem Inv.partitioned (h : Inv x) : Partitioned x where
  nodup _ := h.nodup
  exact _ id := ⟨h.inPool_of_free, fun hid => (h.free_iff id).mpr ⟨hid.1.1, hid.2⟩⟩
  allocate := by
    unfold KVBlockAllocator.allocate
    cases hlist : x.freeList with
    | nil => exact ⟨-1, x, rfl, Or.inl ⟨rfl, rfl⟩⟩
    | cons id rest =>
      obtain ⟨x', hmark, -, -, hset⟩ := h.take hlist
      obtain ⟨hin, hfree⟩ := h.inPool_of_free (hlist ▸ mem_cons_self)
      exact ⟨id, x', by simp only [hmark]; rfl, Or.inr ⟨hin, hfree, hset⟩⟩
  allocateN n := by
    unfold KVBlockAllocator.allocateN
    split
    · exact ⟨[], x, rfl, Or.inl ⟨rfl, rfl⟩⟩
    rename_i hn
    obtain ⟨x', htake, -, hsets⟩ := h.takeBlocks (Nat.not_lt.mp hn)
    refine ⟨_, x', htake, Or.inr ⟨?_, h.nodup.sublist (take_sublist n _), ?_, hsets⟩⟩
    · rw [length_take]
      omega
    · exact fun id hid => h.inPool_of_free (mem_of_mem_take hid)
  free id hcovered hfree := by
    obtain ⟨r, x', hres, -, -, -, -, hsame⟩ := h.free hcovered
    obtain ⟨rfl, rfl⟩ := hsame hfree
    exact hres
  freeN ids hcovered := by
    obtain ⟨n, x', hres, -, hsets⟩ := h.freeN hcovered
    exact ⟨n, x', hres, hsets⟩

/-- **In every run of allowed steps** the allocators are partitioned, and the next
allowed step indexes no mark that is not there. -/
theorem runs_partitioned {w : World} (hrun : Runs step Allowed [] w) :
    (∀ x ∈ w, Partitioned x) ∧ ∀ e, Allowed w e → step w e ≠ none := by
  have hw : ∀ x ∈ w, Inv x := by
    refine hrun.inv (I := fun w => ∀ x ∈ w, Inv x) (fun x hx => nomatch hx) ?_
    intro w e w' hw he hstep
    obtain ⟨w'', hstep', hw'⟩ := step_inv hw he
    obtain rfl := Option.some.inj (hstep.symm.trans hstep')
    exact hw'
  refine ⟨fun x hx => (hw x hx).partitioned, fun e he hnone => ?_⟩
  obtain ⟨w', hstep, -⟩ := step_inv hw he
  rw [hnone] at hstep
  cases hstep

/-- A block taken and given back, and a move after it. -/
theorem moved_partitioned :
    ∃ w, runList step [] [.construct 2 64 true, .allocate 0, .free 0 0, .moveConstruct 0,
        .allocateN 1 2] = some w ∧
      (∀ x ∈ w, Partitioned x) ∧ ∀ e, Allowed w e → step w e ≠ none := by
  refine ⟨_, rfl, runs_partitioned ?_⟩
  refine .tail (.tail (.tail (.tail (.tail .refl (e := .construct 2 64 true) ?_ rfl)
    (e := .allocate 0) trivial rfl) (e := .free 0 0) ?_ rfl) (e := .moveConstruct 0) trivial rfl)
    (e := .allocateN 1 2) trivial rfl
  · exact fun _ _ _ => Nat.lt_of_lt_of_le (by decide : 2 < 4) (by decide)
  intro x hx
  rw [← Option.some.inj hx]
  exact Or.inl rfl

/-- An allocator that got no arena, and an id below its number of blocks. -/
theorem failed_free_out_of_range : runList step [] [.construct 4 64 false, .free 0 0] = none ∧
      runList step [] [.construct 4 64 true, .moveConstruct 0, .freeN 0 [1]] = none := by
  decide +kernel

end KVBlockAllocator

end DenseCore
