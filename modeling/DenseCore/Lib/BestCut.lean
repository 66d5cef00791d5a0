/-
The best way to cut a line into items.

A line has positions from 0 to its size, and an item may carry from a position to a later
one.  Where no item leads on to the end, a spare item may carry over one position instead.
A table is filled from the end backwards: a cell holds the largest total from its position
on, the first item of a cut with that total and where this item carries.  What is said of
a cell while its items are tried is an invariant with one lemma for each thing a try can
do, and a finished cell is right about all cuts from its position.
-/
import Mathlib.Algebra.BigOperators.Group.List.Basic
import Mathlib.Algebra.Order.Monoid.Defs
import Mathlib.Order.Bounds.Basic

namespace DenseCore.Lib

/-- A line of positions, the items between them, and a spare item for a single step. -/
structure Line (ι : Type*) where
  size : Nat
  /-- The item from one position to another. -/
  item : Nat → Nat → Option ι
  spare : Option ι

namespace Line

variable {ι α : Type*} {L : Line ι} {i j : Nat} {id : ι} {ids : List ι}

/-! ### Cuts -/

/-- An item leads from one cell to another. -/
def Leads (L : Line ι) (i j : Nat) (id : ι) : Prop := i < j ∧ j ≤ L.size ∧ L.item i j = some id

/-- The end can be reached from a position. -/
inductive Completes (L : Line ι) : Nat → Prop
  | done : Completes L L.size
  | item {i j : Nat} {id : ι} : L.Leads i j id → Completes L j → Completes L i
  | spare {i : Nat} {id : ι} : i < L.size → L.spare = some id → Completes L (i + 1) → Completes L i

/-- No item leads on to the end. -/
def Stuck (L : Line ι) (i : Nat) : Prop := ∀ j id, L.Leads i j id → ¬ L.Completes j

/-- One piece of a cut: an item, or the spare item where no item leads on. -/
inductive Carries (L : Line ι) : Nat → Nat → ι → Prop
  | item {i j : Nat} {id : ι} : L.Leads i j id → Carries L i j id
  | spare {i : Nat} {id : ι} : i < L.size → L.spare = some id → L.Stuck i → Carries L i (i + 1) id

/-- The items of a cut from a position to the end. -/
inductive Spells (L : Line ι) : Nat → List ι → Prop
  | done : Spells L L.size []
  | carry {i j : Nat} {id : ι} {ids : List ι} : L.Carries i j id → Spells L j ids →
      Spells L i (id :: ids)

theorem Carries.bounds (h : L.Carries i j id) : i < j ∧ j ≤ L.size := by
  cases h with
  | item h => exact ⟨h.1, h.2.1⟩
  | spare hi _ _ => exact ⟨Nat.lt_succ_self i, hi⟩

/-- From every position that reaches the end there is a cut. -/
theorem Completes.spells (h : L.Completes i) : ∃ ids, L.Spells i ids := by
  induction hk : L.size - i using Nat.strong_induction_on generalizing i with
  | _ k ih =>
    subst hk
    have hitem : ∀ {j id}, L.Leads i j id → L.Completes j → ∃ ids, L.Spells i ids := by
      intro j id hlead hrest
      have hbounds := (Carries.item hlead).bounds
      obtain ⟨ids, hids⟩ := ih (L.size - j) (by omega) hrest rfl
      exact ⟨id :: ids, Spells.carry (Carries.item hlead) hids⟩
    cases h with
    | done => exact ⟨[], Spells.done⟩
    | item hlead hrest => exact hitem hlead hrest
    | @spare _ id hi hspare hrest =>
      by_cases hstuck : L.Stuck i
      · obtain ⟨ids, hids⟩ := ih (L.size - (i + 1)) (by omega) hrest rfl
        exact ⟨id :: ids, Spells.carry (Carries.spare hi hspare hstuck) hids⟩
      unfold Stuck at hstuck
      push Not at hstuck
      obtain ⟨j, id, hlead, hrest⟩ := hstuck
      exact hitem hlead hrest

theorem Spells.completes (h : L.Spells i ids) : L.Completes i := by
  induction h with
  | done => exact Completes.done
  | carry hcarry _ ih =>
    cases hcarry with
    | item hlead => exact Completes.item hlead ih
    | spare hi hspare _ => exact Completes.spare hi hspare ih

/-- **The end can be reached exactly when there is a cut.** -/
theorem completes_iff : L.Completes i ↔ ∃ ids, L.Spells i ids :=
  ⟨Completes.spells, fun ⟨_, h⟩ => h.completes⟩

theorem spells_size (h : L.Spells L.size ids) : ids = [] := by
  cases h with
  | done => rfl
  | carry hcarry _ =>
    have := hcarry.bounds
    omega

theorem Spells.ne_nil (h : L.Spells i ids) (hi : i < L.size) : ids ≠ [] := by
  rintro rfl
  cases h
  exact Nat.lt_irrefl _ hi

/-! ### Totals -/

section Totals

variable [AddCommMonoid α] {score : ι → α} {b b' : α}

/-- The score of a list of items. -/
def total (score : ι → α) (ids : List ι) : α := (ids.map score).sum

@[simp] theorem total_cons : total score (id :: ids) = score id + total score ids := by
  simp [total]

/-- The totals of the cuts from a position. -/
def totals (L : Line ι) (score : ι → α) (i : Nat) : Set α :=
  {t | ∃ ids, L.Spells i ids ∧ total score ids = t}

variable [LinearOrder α]

/-- The largest total from a position, where there is a cut at all. -/
structure Best (L : Line ι) (score : ι → α) (i : Nat) (best : Option α) : Prop where
  greatest : ∀ b, best = some b → IsGreatest (L.totals score i) b
  none : best = none → ¬ L.Completes i

theorem best_size : L.Best score L.size (some 0) := by
  refine ⟨fun b hb => ?_, fun h => (nomatch h)⟩
  obtain rfl : 0 = b := by simpa using hb
  refine ⟨⟨[], Spells.done, rfl⟩, ?_⟩
  rintro t ⟨ids, hids, rfl⟩
  rw [spells_size hids]
  exact le_refl _

theorem Best.completes (h : L.Best score i (some b)) : L.Completes i := by
  obtain ⟨ids, hids, -⟩ := (h.greatest b rfl).1
  exact hids.completes

theorem Best.eq_some {best : Option α} (h : L.Best score i best)
    (hb : L.Best score i (some b)) : best = some b := by
  cases hbest : best with
  | none => exact absurd hb.completes (h.none hbest)
  | some b₁ => rw [(h.greatest b₁ hbest).unique (hb.greatest b rfl)]

/-! ### Cells -/

/-- What a table holds for a position. -/
structure Cell (ι α : Type*) where
  best : Option α
  id : Option ι
  next : Nat

/-- A larger total is taken over, together with its item. -/
def Cell.offer (cell : Cell ι α) (candidate : α) (id : ι) (next : Nat) : Cell ι α :=
  if cell.best.all (· < candidate) then ⟨some candidate, some id, next⟩ else cell

/-- The total of a cell is that of its item and the best that follows it. -/
def Attained (L : Line ι) (score : ι → α) (piece : Nat → Nat → ι → Prop) (i : Nat)
    (cell : Cell ι α) (b : α) : Prop :=
  ∃ id b', cell.id = some id ∧ piece i cell.next id ∧ L.Best score cell.next (some b') ∧
    b = score id + b'

/-- A cell once the items to positions below `j` have been tried. -/
structure Scanned (L : Line ι) (score : ι → α) (i j : Nat) (cell : Cell ι α) : Prop where
  attained : ∀ b, cell.best = some b → Attained L score L.Leads i cell b
  blank : cell.best = none → cell.id = none
  covers : ∀ j' id, j' < j → L.Leads i j' id → ∀ t ∈ L.totals score j',
    ∃ b, cell.best = some b ∧ score id + t ≤ b

theorem scanned_start {next : Nat} : L.Scanned score i (i + 1) ⟨none, none, next⟩ := by
  refine ⟨fun b hb => (nomatch hb), fun _ => rfl, fun j' id hj hlead => ?_⟩
  have := hlead.1
  omega

/-- Positions with nothing to try. -/
theorem Scanned.skip {cell : Cell ι α} {k : Nat} (h : L.Scanned score i j cell)
    (hnone : ∀ j' id, j ≤ j' → j' < k → L.Leads i j' id → ¬ L.Completes j') :
    L.Scanned score i k cell := by
  refine ⟨h.attained, h.blank, fun j' id hj hlead t ht => ?_⟩
  rcases Nat.lt_or_ge j' j with hlt | hge
  · exact h.covers j' id hlt hlead t ht
  obtain ⟨ids, hids, -⟩ := ht
  exact absurd hids.completes (hnone j' id hge hj hlead)

/-- A cell that is right about all cuts from its position. -/
structure Filled (L : Line ι) (score : ι → α) (i : Nat) (cell : Cell ι α) : Prop where
  best : L.Best score i cell.best
  attained : ∀ b, cell.best = some b → Attained L score L.Carries i cell b
  blank : cell.best = none → cell.id = none

/-- **When all items have been tried** and one led on, the cell is right. -/
theorem Scanned.filled {cell : Cell ι α} (h : L.Scanned score i (L.size + 1) cell)
    (hb : cell.best = some b) : L.Filled score i cell := by
  obtain ⟨id, b', hid, hlead, hbest, rfl⟩ := h.attained b hb
  refine ⟨⟨fun b hb' => ?_, fun hnone => ?_⟩, fun b hb' => ?_, h.blank⟩
  · obtain rfl : score id + b' = b := by simpa using hb.symm.trans hb'
    obtain ⟨ids, hids, htotal⟩ := (hbest.greatest b' rfl).1
    refine ⟨⟨id :: ids, Spells.carry (Carries.item hlead) hids, ?_⟩, ?_⟩
    · rw [total_cons, htotal]
    rintro t ⟨ids', hids', rfl⟩
    cases hids' with
    | done =>
      have := hlead.1
      have := hlead.2.1
      omega
    | @carry _ j' id' rest hcarry hrest =>
      cases hcarry with
      | item hlead' =>
        obtain ⟨b, hb'', hle⟩ := h.covers j' id' (by have := hlead'.2.1; omega) hlead' _
          ⟨rest, hrest, rfl⟩
        obtain rfl : score id + b' = b := by simpa using hb.symm.trans hb''
        rwa [total_cons]
      | spare _ _ hstuck => exact absurd hbest.completes (hstuck _ id hlead)
  · rw [hb] at hnone
    exact nomatch hnone
  · obtain rfl : score id + b' = b := by simpa using hb.symm.trans hb'
    exact ⟨id, b', hid, Carries.item hlead, hbest, rfl⟩

theorem Scanned.stuck {cell : Cell ι α} (h : L.Scanned score i (L.size + 1) cell)
    (hb : cell.best = none) : L.Stuck i := by
  intro j id hlead hcompletes
  obtain ⟨ids, hids⟩ := hcompletes.spells
  obtain ⟨b, hb', -⟩ := h.covers j id (by have := hlead.2.1; omega) hlead _ ⟨ids, hids, rfl⟩
  rw [hb] at hb'
  exact nomatch hb'

theorem Stuck.filled_none {cell : Cell ι α} (h : L.Stuck i) (hi : i < L.size)
    (hno : L.spare = none ∨ ¬ L.Completes (i + 1)) (hbest : cell.best = none)
    (hid : cell.id = none) : L.Filled score i cell := by
  refine ⟨⟨fun b hb => ?_, fun _ hcompletes => ?_⟩, fun b hb => ?_, fun _ => hid⟩
  · rw [hbest] at hb
    exact nomatch hb
  · cases hcompletes with
    | done => exact Nat.lt_irrefl _ hi
    | item hlead hrest => exact h _ _ hlead hrest
    | spare _ hspare hrest =>
      rcases hno with hno | hno
      · rw [hspare] at hno
        exact nomatch hno
      · exact hno hrest
  rw [hbest] at hb
  exact nomatch hb

/-- The cells from a position to the end, each of them right. -/
inductive Table (L : Line ι) (score : ι → α) : Nat → List (Cell ι α) → Prop
  | done {next : Nat} : Table L score L.size [⟨some 0, none, next⟩]
  | cell {i : Nat} {cell : Cell ι α} {ahead : List (Cell ι α)} : i < L.size →
      L.Filled score i cell → Table L score (i + 1) ahead → Table L score i (cell :: ahead)

theorem Table.head {cells : List (Cell ι α)} (h : L.Table score i cells) :
    ∃ cell ahead, cells = cell :: ahead ∧ L.Best score i cell.best := by
  cases h with
  | done => exact ⟨_, _, rfl, best_size⟩
  | cell _ hcell _ => exact ⟨_, _, rfl, hcell.best⟩

theorem Table.get {cells : List (Cell ι α)} (h : L.Table score i cells) (hij : i ≤ j)
    (hj : j < L.size) : ∃ cell, cells[j - i]? = some cell ∧ L.Filled score j cell := by
  induction h with
  | done => exact absurd hj (Nat.not_lt.mpr hij)
  | @cell i cell ahead _ hcell _ ih =>
    rcases Nat.lt_or_eq_of_le hij with hlt | rfl
    · obtain ⟨c, hc, hfilled⟩ := ih hlt
      rw [show j - i = j - (i + 1) + 1 by omega, List.getElem?_cons_succ]
      exact ⟨c, hc, hfilled⟩
    · exact ⟨cell, by simp, hcell⟩

theorem Table.get_size {cells : List (Cell ι α)} (h : L.Table score i cells) :
    ∃ next, cells[L.size - i]? = some ⟨some 0, none, next⟩ := by
  induction h with
  | @done next => exact ⟨next, by simp⟩
  | @cell i cell ahead hi _ _ ih =>
    rwa [show L.size - i = L.size - (i + 1) + 1 by omega, List.getElem?_cons_succ]

variable [IsOrderedAddMonoid α]

theorem Scanned.offer {cell : Cell ι α} (h : L.Scanned score i j cell) (hlead : L.Leads i j id)
    (hbest : L.Best score j (some b')) :
    L.Scanned score i (j + 1) (cell.offer (score id + b') id j) := by
  have hnew : ∀ id', L.Leads i j id' → ∀ t ∈ L.totals score j, score id' + t ≤ score id + b' := by
    intro id' hlead' t ht
    obtain rfl : id = id' := by simpa using hlead.2.2.symm.trans hlead'.2.2
    exact add_le_add_right ((hbest.greatest b' rfl).2 ht) _
  unfold Cell.offer
  split
  · rename_i hless
    refine ⟨fun b hb => ?_, fun hb => (nomatch hb), fun j' id' hj hlead' t ht => ?_⟩
    · obtain rfl : score id + b' = b := by simpa using hb
      exact ⟨id, b', rfl, hlead, hbest, rfl⟩
    refine ⟨_, rfl, ?_⟩
    rcases Nat.lt_succ_iff_lt_or_eq.mp hj with hlt | rfl
    · obtain ⟨b, hb, hle⟩ := h.covers j' id' hlt hlead' t ht
      rw [hb] at hless
      exact hle.trans (le_of_lt (by simpa using hless))
    · exact hnew id' hlead' t ht
  rename_i hkeep
  obtain ⟨b, hb, hle⟩ : ∃ b, cell.best = some b ∧ score id + b' ≤ b := by
    cases hcell : cell.best with
    | none => simp [hcell] at hkeep
    | some b => exact ⟨b, rfl, by simpa [hcell] using hkeep⟩
  refine ⟨h.attained, h.blank, fun j' id' hj hlead' t ht => ?_⟩
  rcases Nat.lt_succ_iff_lt_or_eq.mp hj with hlt | rfl
  · exact h.covers j' id' hlt hlead' t ht
  · exact ⟨b, hb, (hnew id' hlead' t ht).trans hle⟩

theorem Stuck.filled_spare (h : L.Stuck i) (hi : i < L.size) (hspare : L.spare = some id)
    (hbest : L.Best score (i + 1) (some b')) :
    L.Filled score i ⟨some (score id + b'), some id, i + 1⟩ := by
  have hcarry := Carries.spare hi hspare h
  refine ⟨⟨fun b hb => ?_, fun hnone => (nomatch hnone)⟩, fun b hb => ?_,
    fun hnone => (nomatch hnone)⟩
  · obtain rfl : score id + b' = b := by simpa using hb
    obtain ⟨ids, hids, htotal⟩ := (hbest.greatest b' rfl).1
    refine ⟨⟨id :: ids, Spells.carry hcarry hids, by rw [total_cons, htotal]⟩, ?_⟩
    rintro t ⟨ids', hids', rfl⟩
    cases hids' with
    | done => exact absurd hi (Nat.lt_irrefl _)
    | carry hcarry' hrest =>
      cases hcarry' with
      | item hlead => exact absurd hrest.completes (h _ _ hlead)
      | spare _ hspare' _ =>
        obtain rfl : id = _ := by simpa using hspare.symm.trans hspare'
        rw [total_cons]
        exact add_le_add_right ((hbest.greatest b' rfl).2 ⟨_, hrest, rfl⟩) _
  · obtain rfl : score id + b' = b := by simpa using hb
    exact ⟨id, b', rfl, hcarry, hbest, rfl⟩

end Totals

end Line

end DenseCore.Lib
