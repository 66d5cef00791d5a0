/-
Binary heaps in a slice.

The operations of a heap interface over a slice: `push` appends and sifts up,
`pop` swaps the root with the last element, sifts the new root down and takes the
last element off, `remove` does the same at any index.  All of them only ever
swap, so a heap operation loses and invents nothing, whatever the order is; the
first lemmas say so and ask nothing of `less`.  Where `less` is a weak order, `push`
and `pop` keep no element before its parent, and what is popped is before none.
-/
import Mathlib.Data.List.Perm.Basic

namespace DenseCore.Lib.SliceHeap

open List Option

variable {α : Type*} (less : α → α → Bool)

/-- `less` between the elements at two indices. -/
def lessAt (h : Array α) (i j : Nat) : Bool :=
  match h[i]?, h[j]? with
  | some a, some b => less a b
  | _, _ => false

/-- Sift the element at `j` up; the fuel bounds the number of levels. -/
def upLoop : Nat → Array α → Nat → Array α
  | 0, h, _ => h
  | fuel + 1, h, j =>
    let i := (j - 1) / 2
    if i = j ∨ lessAt less h j i = false then h
    else upLoop fuel (h.swapIfInBounds i j) i

/-- An entry is lifted to its place. -/
def up (h : Array α) (j : Nat) : Array α := upLoop less (j + 1) h j

/-- The child of `i` below `n` that comes first. -/
def firstChild (h : Array α) (i n : Nat) : Nat :=
  if 2 * i + 2 < n ∧ lessAt less h (2 * i + 2) (2 * i + 1) = true then 2 * i + 2 else 2 * i + 1

/-- Sift the element at `i` down within the first `n`; where it ends up is
returned as well. -/
def downLoop (n : Nat) : Nat → Array α → Nat → Array α × Nat
  | 0, h, i => (h, i)
  | fuel + 1, h, i =>
    if n ≤ 2 * i + 1 then (h, i)
    else
      let j := firstChild less h i n
      if lessAt less h j i = false then (h, i)
      else downLoop n fuel (h.swapIfInBounds i j) j

/-- `down`, with whether the element moved. -/
def down (h : Array α) (i n : Nat) : Array α × Bool :=
  let r := downLoop less n (n + 1) h i
  (r.1, decide (i < r.2))

/-- `heap.Push` -/
def push (h : Array α) (x : α) : Array α := up less (h.push x) h.size

/-- `heap.Pop` -/
def pop (h : Array α) : Option α × Array α :=
  let n := h.size - 1
  let h₁ := (down less (h.swapIfInBounds 0 n) 0 n).1
  (h₁.back?, h₁.pop)

/-- The slice of `remove` before its last element is taken off. -/
def settle (h : Array α) (i : Nat) : Array α :=
  let n := h.size - 1
  if n = i then h
  else
    let r := down less (h.swapIfInBounds i n) i n
    if r.2 then r.1 else up less r.1 i

/-- `heap.Remove` -/
def remove (h : Array α) (i : Nat) : Option α × Array α :=
  let h₁ := settle less h i
  (h₁.back?, h₁.pop)

/-! ### Swaps -/

attribute [local simp] upLoop downLoop

theorem swap_perm (h : Array α) (i j : Nat) : (h.swapIfInBounds i j).toList.Perm h.toList := by
  unfold Array.swapIfInBounds
  split
  · split
    · exact (Array.swap_perm _ _).toList
    · exact Perm.refl _
  · exact Perm.refl _

variable {i j k : Nat}

theorem swap_get_of_ne {h : Array α} (hi : k ≠ i) (hj : k ≠ j) :
    (h.swapIfInBounds i j)[k]? = h[k]? := by
  unfold Array.swapIfInBounds
  split
  · split
    · rw [Array.getElem?_swap, if_neg (Ne.symm hj), if_neg (Ne.symm hi)]
    · rfl
  · rfl

theorem swap_get_right {h : Array α} (hi : i < h.size) (hj : j < h.size) :
    (h.swapIfInBounds i j)[j]? = h[i]? := by
  rw [Array.swapIfInBounds, dif_pos hi, dif_pos hj, Array.getElem?_swap, if_pos rfl]
  exact (Array.getElem?_eq_getElem hi).symm

/-! ### The sifts -/

theorem upLoop_perm (fuel : Nat) :
    ∀ (h : Array α) (j : Nat), (upLoop less fuel h j).toList.Perm h.toList := by
  induction fuel with
  | zero => intro h j; exact Perm.refl _
  | succ fuel ih =>
    intro h j
    simp only [upLoop]
    split
    · exact Perm.refl _
    · exact (ih _ _).trans (swap_perm h _ _)

theorem upLoop_get (fuel : Nat) :
    ∀ (h : Array α) (j : Nat), j < k → (upLoop less fuel h j)[k]? = h[k]? := by
  induction fuel with
  | zero => intro h j _; rfl
  | succ fuel ih =>
    intro h j hjk
    have hparent : (j - 1) / 2 < k := by omega
    simp only [upLoop]
    split
    · rfl
    · rw [ih _ _ hparent, swap_get_of_ne (by omega) (by omega)]

theorem firstChild_lt {h : Array α} {n : Nat} (hn : ¬ n ≤ 2 * i + 1) :
    firstChild less h i n < n := by
  unfold firstChild
  split <;> omega

theorem downLoop_perm (n fuel : Nat) :
    ∀ (h : Array α) (i : Nat), (downLoop less n fuel h i).1.toList.Perm h.toList := by
  induction fuel with
  | zero => intro h i; exact Perm.refl _
  | succ fuel ih =>
    intro h i
    simp only [downLoop]
    split
    · exact Perm.refl _
    split
    · exact Perm.refl _
    · exact (ih _ _).trans (swap_perm h _ _)

/-- Sifting down stays within the first `n`. -/
theorem downLoop_get (n fuel : Nat) (hk : n ≤ k) :
    ∀ (h : Array α) (i : Nat), i < k → (downLoop less n fuel h i).1[k]? = h[k]? := by
  induction fuel with
  | zero => intro h i _; rfl
  | succ fuel ih =>
    intro h i hi
    simp only [downLoop]
    split
    · rfl
    rename_i hn
    have hchild := firstChild_lt less (h := h) hn
    split
    · rfl
    · rw [ih _ _ (by omega), swap_get_of_ne (by omega) (by omega)]

/-! ### The operations -/

theorem push_perm (h : Array α) (x : α) : (push less h x).toList.Perm (x :: h.toList) := by
  refine (upLoop_perm less _ _ _).trans ?_
  rw [Array.toList_push]
  exact perm_append_singleton x h.toList

theorem size_eq_of_perm {h h' : Array α} (hp : h'.toList.Perm h.toList) : h'.size = h.size := by
  simpa using hp.length_eq

/-- Taking the last element off. -/
theorem back_pop_perm {h : Array α} {x : α} (hx : h.back? = some x) :
    h.toList.Perm (x :: h.pop.toList) := by
  have hne : h.toList ≠ [] := by
    intro hnil
    have : h = #[] := by simpa using hnil
    simp [this] at hx
  have hlast : h.toList.getLast hne = x := by
    rw [← Array.getLast?_toList, getLast?_eq_some_getLast hne] at hx
    exact some.inj hx
  have hsplit := dropLast_append_getLast hne
  rw [hlast] at hsplit
  rw [Array.toList_pop]
  calc h.toList = h.toList.dropLast ++ [x] := hsplit.symm
    Perm _ (x :: h.toList.dropLast) := perm_append_singleton _ _

theorem back_of_perm {h h' : Array α} (hp : h'.toList.Perm h.toList) (hne : h ≠ #[]) :
    ∃ x, h'.back? = some x := by
  have hsize := size_eq_of_perm hp
  have hpos : 0 < h.size := Array.size_pos_iff.mpr hne
  exact ⟨h'[h'.size - 1], by rw [Array.back?_eq_getElem?, Array.getElem?_eq_getElem (by omega)]⟩

/-- **Popping a non-empty heap returns one of its elements and leaves the
others.** -/
theorem pop_perm {h : Array α} (hne : h ≠ #[]) :
    ∃ x, (pop less h).1 = some x ∧ h.toList.Perm (x :: (pop less h).2.toList) := by
  have hp : ((down less (h.swapIfInBounds 0 (h.size - 1)) 0 (h.size - 1)).1).toList.Perm
      h.toList := (downLoop_perm less _ _ _ _).trans (swap_perm h _ _)
  obtain ⟨x, hx⟩ := back_of_perm hp hne
  exact ⟨x, hx, hp.symm.trans (back_pop_perm hx)⟩

/-- **What is popped is the root.** -/
theorem pop_root {h : Array α} (hne : h ≠ #[]) : (pop less h).1 = h[0]? := by
  have hpos : 0 < h.size := Array.size_pos_iff.mpr hne
  have hp : ((down less (h.swapIfInBounds 0 (h.size - 1)) 0 (h.size - 1)).1).toList.Perm
      h.toList := (downLoop_perm less _ _ _ _).trans (swap_perm h _ _)
  show (down less (h.swapIfInBounds 0 (h.size - 1)) 0 (h.size - 1)).1.back? = h[0]?
  rw [Array.back?_eq_getElem?, size_eq_of_perm hp]
  show (downLoop less _ _ _ _).1[h.size - 1]? = h[0]?
  rcases Nat.eq_zero_or_pos (h.size - 1) with hone | hmany
  · rw [downLoop, if_pos (by omega)]
    exact swap_get_right hpos (by omega)
  · rw [downLoop_get less _ _ (Nat.le_refl _) _ _ hmany, swap_get_right hpos (by omega)]

theorem settle_perm (h : Array α) (i : Nat) : (settle less h i).toList.Perm h.toList := by
  unfold settle
  dsimp only
  split
  · exact Perm.refl _
  split
  · exact (downLoop_perm less _ _ _ _).trans (swap_perm h _ _)
  · exact (upLoop_perm less _ _ _).trans ((downLoop_perm less _ _ _ _).trans (swap_perm h _ _))

/-- The element to remove waits at the end while the others are sifted. -/
theorem settle_back {h : Array α} (hi : i < h.size) : (settle less h i).back? = h[i]? := by
  rw [Array.back?_eq_getElem?, size_eq_of_perm (settle_perm less h i)]
  unfold settle
  dsimp only
  split
  · rename_i heq
    rw [heq]
  rename_i hne
  have hlt : i < h.size - 1 := by omega
  have hdown : (down less (h.swapIfInBounds i (h.size - 1)) i (h.size - 1)).1[h.size - 1]? =
      h[i]? := by
    show (downLoop less _ _ _ _).1[h.size - 1]? = _
    rw [downLoop_get less _ _ (Nat.le_refl _) _ _ hlt, swap_get_right hi (by omega)]
  split
  · exact hdown
  show (upLoop less _ _ _)[h.size - 1]? = _
  rw [upLoop_get less _ _ _ hlt, hdown]

/-- **Removing index `i` returns the element there and leaves the others.** -/
theorem remove_perm {h : Array α} (hi : i < h.size) :
    (remove less h i).1 = h[i]? ∧ h.toList.Perm (h[i] :: (remove less h i).2.toList) := by
  refine ⟨settle_back less hi, (settle_perm less h i).symm.trans (back_pop_perm ?_)⟩
  rw [settle_back less hi, Array.getElem?_eq_getElem hi]

/-! ### The order

A sift leaves one element out of place.  `UpReady` and `DownReady` say that all others
are where they belong, and that the parent of the one at `i` may stand above its children.
-/

/-- `less` is a strict order of classes. -/
structure IsWeakOrder : Prop where
  asymm : ∀ a b, less a b = true → less b a = false
  negTrans : ∀ a b c, less a b = false → less b c = false → less a c = false

/-- The element at `j` is not before the one at `i`. -/
def NotBefore (h : Array α) (j i : Nat) : Prop :=
  ∀ a b, h[i]? = some a → h[j]? = some b → less b a = false

/-- No element below `n` is before its parent. -/
def OrderedBelow (n : Nat) (h : Array α) : Prop :=
  ∀ j, 0 < j → j < n → NotBefore less h j ((j - 1) / 2)

/-- No element is less than its parent. -/
def Ordered (h : Array α) : Prop := OrderedBelow less h.size h

/-- The heap is ordered but for one element, which may have to rise. -/
structure UpReady (h : Array α) (i : Nat) : Prop where
  except : ∀ j, 0 < j → j ≠ i → NotBefore less h j ((j - 1) / 2)
  grand : 0 < i → ∀ j, 0 < j → (j - 1) / 2 = i → NotBefore less h j ((i - 1) / 2)

/-- The heap is ordered but for one element, which may have to sink. -/
structure DownReady (n : Nat) (h : Array α) (i : Nat) : Prop where
  except : ∀ j, 0 < j → j < n → (j - 1) / 2 ≠ i → NotBefore less h j ((j - 1) / 2)
  grand : 0 < i → ∀ j, 0 < j → j < n → (j - 1) / 2 = i → NotBefore less h j ((i - 1) / 2)

variable {less}

theorem IsWeakOrder.irrefl (hless : IsWeakOrder less) (a : α) : less a a = false := by
  cases haa : less a a with
  | false => rfl
  | true => exact haa.symm.trans (hless.asymm a a haa)

/-- What is not before something is not before what stands above it either. -/
theorem IsWeakOrder.of_less (hless : IsWeakOrder less) {a b c : α} (hba : less b a = true)
    (hca : less c a = false) : less c b = false := by
  cases hcb : less c b with
  | false => rfl
  | true =>
    have hba' := hless.negTrans b c a (hless.asymm c b hcb) hca
    exact absurd hba (by rw [hba']; exact Bool.false_ne_true)

theorem NotBefore.trans (hless : IsWeakOrder less) {h : Array α} (hj : j < h.size)
    (hkj : NotBefore less h k j) (hji : NotBefore less h j i) : NotBefore less h k i := by
  intro a c ha hc
  have hb := Array.getElem?_eq_getElem hj
  exact hless.negTrans c _ a (hkj _ _ hb hc) (hji _ _ ha hb)

theorem lessAt_false_iff {h : Array α} : lessAt less h j i = false ↔ NotBefore less h j i := by
  unfold lessAt NotBefore
  cases hj : h[j]? with
  | none => exact ⟨fun _ a b _ hb => (nomatch hb), fun _ => rfl⟩
  | some b =>
    cases hi : h[i]? with
    | none => exact ⟨fun _ a b ha _ => (nomatch ha), fun _ => rfl⟩
    | some a =>
      refine ⟨fun hless a' b' ha hb => ?_, fun hall => hall a b rfl rfl⟩
      rw [← some.inj ha, ← some.inj hb]
      exact hless

theorem exists_of_lessAt {h : Array α} (hlt : ¬ lessAt less h j i = false) :
    ∃ a b, h[i]? = some a ∧ h[j]? = some b ∧ less b a = true := by
  rw [lessAt_false_iff] at hlt
  unfold NotBefore at hlt
  push Not at hlt
  obtain ⟨a, b, ha, hb, hba⟩ := hlt
  exact ⟨a, b, ha, hb, by simpa using hba⟩

theorem swap_get {h : Array α} {a b : α} (ha : h[i]? = some a) (hb : h[j]? = some b)
    (k : Nat) : (h.swapIfInBounds i j)[k]? =
      if k = j then some a else if k = i then some b else h[k]? := by
  obtain ⟨hi, rfl⟩ := Array.getElem?_eq_some_iff.mp ha
  obtain ⟨hj, rfl⟩ := Array.getElem?_eq_some_iff.mp hb
  rw [Array.swapIfInBounds, dif_pos hi, dif_pos hj, Array.getElem?_swap]
  by_cases hkj : k = j
  · rw [if_pos hkj.symm, if_pos hkj]
  rw [if_neg (Ne.symm hkj), if_neg hkj]
  by_cases hki : k = i
  · rw [if_pos hki.symm, if_pos hki]
  · rw [if_neg (Ne.symm hki), if_neg hki]

section Sifts

variable {h : Array α} {i j n : Nat} {a b : α}

theorem UpReady.swap (hless : IsWeakOrder less) (hup : UpReady less h j) (hj : 0 < j)
    (hi : (j - 1) / 2 = i) (ha : h[i]? = some a) (hb : h[j]? = some b) (hba : less b a = true) :
    UpReady less (h.swapIfInBounds i j) i where
  except := by
    intro k hk hki x y hx hy
    rw [swap_get ha hb] at hx hy
    rw [if_neg hki] at hy
    by_cases hkj : k = j
    · rw [if_pos hkj] at hy
      rw [hkj, hi, if_neg (by omega), if_pos rfl] at hx
      rw [← some.inj hx, ← some.inj hy]
      exact hless.asymm b a hba
    rw [if_neg hkj] at hy
    by_cases hpj : (k - 1) / 2 = j
    · rw [if_pos hpj] at hx
      rw [← some.inj hx]
      exact hup.grand hj k hk hpj a y (hi ▸ ha) hy
    rw [if_neg hpj] at hx
    by_cases hpi : (k - 1) / 2 = i
    · rw [if_pos hpi] at hx
      rw [← some.inj hx]
      exact hless.of_less hba (hup.except k hk hkj a y (hpi ▸ ha) hy)
    rw [if_neg hpi] at hx
    exact hup.except k hk hkj x y hx hy
  grand := by
    intro hi0 k hk hpk x y hx hy
    rw [swap_get ha hb, if_neg (by omega), if_neg (by omega)] at hx
    rw [swap_get ha hb] at hy
    have hai := hup.except i hi0 (by omega) x a hx ha
    by_cases hkj : k = j
    · rw [if_pos hkj] at hy
      rw [← some.inj hy]
      exact hai
    rw [if_neg hkj, if_neg (by omega)] at hy
    exact hless.negTrans y a x (hup.except k hk hkj a y (hpk ▸ ha) hy) hai

theorem UpReady.ordered (hup : UpReady less h j)
    (hstop : 0 < j → NotBefore less h j ((j - 1) / 2)) : Ordered less h := by
  intro k hk _
  by_cases hkj : k = j
  · subst hkj
    exact hstop hk
  · exact hup.except k hk hkj

theorem upLoop_ordered (hless : IsWeakOrder less) (fuel : Nat) :
    ∀ (h : Array α) (j : Nat), j < fuel → UpReady less h j →
      Ordered less (upLoop less fuel h j) := by
  induction fuel with
  | zero =>
    intro h j hj _
    exact absurd hj (Nat.not_lt_zero j)
  | succ fuel ih =>
    intro h j hj hup
    simp only [upLoop]
    split
    · rename_i hstop
      refine hup.ordered fun hj0 => ?_
      rcases hstop with heq | hfalse
      · omega
      · exact lessAt_false_iff.mp hfalse
    rename_i hgo
    rw [not_or] at hgo
    obtain ⟨a, b, ha, hb, hba⟩ := exists_of_lessAt hgo.2
    exact ih _ _ (by omega) (hup.swap hless (by omega) rfl ha hb hba)

theorem firstChild_parent (less : α → α → Bool) (h : Array α) (i n : Nat) :
    (firstChild less h i n - 1) / 2 = i := by
  unfold firstChild
  split <;> omega

theorem firstChild_gt (less : α → α → Bool) (h : Array α) (i n : Nat) :
    i < firstChild less h i n := by
  unfold firstChild
  split <;> omega

theorem firstChild_first (hless : IsWeakOrder less) {k : Nat} (hk : 0 < k) (hkn : k < n)
    (hpk : (k - 1) / 2 = i) : NotBefore less h k (firstChild less h i n) := by
  have hself : ∀ x, NotBefore less h x x := by
    intro x a b ha hb
    rw [some.inj (hb.symm.trans ha)]
    exact hless.irrefl a
  unfold firstChild
  split
  · rename_i hsecond
    have hcases : k = 2 * i + 2 ∨ k = 2 * i + 1 := by omega
    rcases hcases with rfl | rfl
    · exact hself _
    intro a b ha hb
    obtain ⟨b', a', hb', ha', hlt⟩ :=
      exists_of_lessAt (by rw [hsecond.2]; exact fun heq => nomatch heq)
    rw [some.inj (ha.symm.trans ha'), some.inj (hb.symm.trans hb')]
    exact hless.asymm _ _ hlt
  rename_i hfirst
  have hcases : k = 2 * i + 2 ∨ k = 2 * i + 1 := by omega
  rcases hcases with rfl | rfl
  · refine lessAt_false_iff.mp ?_
    rw [← Bool.not_eq_true]
    exact fun hlt => hfirst ⟨hkn, hlt⟩
  · exact hself _

theorem DownReady.swap (hless : IsWeakOrder less) (hdown : DownReady less n h i)
    (hpj : (j - 1) / 2 = i) (hij : i < j) (hjn : j < n)
    (hfirst : ∀ k, 0 < k → k < n → (k - 1) / 2 = i → NotBefore less h k j)
    (ha : h[i]? = some a) (hb : h[j]? = some b) (hba : less b a = true) :
    DownReady less n (h.swapIfInBounds i j) j where
  except := by
    intro k hk hkn hpk x y hx hy
    rw [swap_get ha hb] at hx hy
    rw [if_neg hpk] at hx
    by_cases hkj : k = j
    · rw [if_pos hkj] at hy
      rw [hkj, if_pos hpj] at hx
      rw [← some.inj hx, ← some.inj hy]
      exact hless.asymm b a hba
    rw [if_neg hkj] at hy
    by_cases hki : k = i
    · rw [if_pos hki] at hy
      rw [hki, if_neg (by omega)] at hx
      rw [← some.inj hy]
      exact hdown.grand (by omega) j (by omega) hjn hpj x b hx hb
    rw [if_neg hki] at hy
    by_cases hpi : (k - 1) / 2 = i
    · rw [if_pos hpi] at hx
      rw [← some.inj hx]
      exact hfirst k hk hkn hpi b y hb hy
    rw [if_neg hpi] at hx
    exact hdown.except k hk hkn hpi x y hx hy
  grand := by
    intro hj0 k hk hkn hpk x y hx hy
    rw [swap_get ha hb, if_neg (by omega), if_pos (by omega)] at hx
    rw [swap_get ha hb, if_neg (by omega), if_neg (by omega)] at hy
    rw [← some.inj hx]
    exact hdown.except k hk hkn (by omega) b y (hpk ▸ hb) hy

theorem DownReady.orderedBelow (hdown : DownReady less n h i)
    (hstop : ∀ k, 0 < k → k < n → (k - 1) / 2 = i → NotBefore less h k i) :
    OrderedBelow less n h := by
  intro k hk hkn
  by_cases hpk : (k - 1) / 2 = i
  · rw [hpk]
    exact hstop k hk hkn hpk
  · exact hdown.except k hk hkn hpk

theorem downLoop_ordered (hless : IsWeakOrder less) (fuel : Nat) :
    ∀ (h : Array α) (i : Nat), n ≤ h.size → n < i + fuel → DownReady less n h i →
      OrderedBelow less n (downLoop less n fuel h i).1 := by
  induction fuel with
  | zero =>
    intro h i _ hfuel hdown
    exact hdown.orderedBelow fun k hk hkn hpk => by omega
  | succ fuel ih =>
    intro h i hn hfuel hdown
    simp only [downLoop]
    split
    · exact hdown.orderedBelow fun k hk hkn hpk => by omega
    rename_i hchild
    have hjn := firstChild_lt less (h := h) hchild
    have hpj := firstChild_parent less h i n
    have hij := firstChild_gt less h i n
    split
    · rename_i hstop
      refine hdown.orderedBelow fun k hk hkn hpk => ?_
      exact (firstChild_first hless hk hkn hpk).trans hless (Nat.lt_of_lt_of_le hjn hn)
        (lessAt_false_iff.mp hstop)
    rename_i hgo
    obtain ⟨a, b, ha, hb, hba⟩ := exists_of_lessAt hgo
    refine ih _ _ ?_ (by omega) (hdown.swap hless hpj hij hjn
      (fun k hk hkn hpk => firstChild_first hless hk hkn hpk) ha hb hba)
    rw [size_eq_of_perm (swap_perm h _ _)]
    exact hn

end Sifts

/-- **Pushing keeps the order.** -/
theorem push_ordered (hless : IsWeakOrder less) {h : Array α} (hh : Ordered less h) (x : α) :
    Ordered less (push less h x) := by
  refine upLoop_ordered hless _ _ _ (Nat.lt_succ_self _) ⟨?_, ?_⟩
  · intro j hj hne a b ha hb
    have hlt := (Array.getElem?_eq_some_iff.mp hb).1
    rw [Array.size_push] at hlt
    rw [Array.getElem?_push, if_neg (by omega)] at ha hb
    exact hh j hj (by omega) a b ha hb
  intro _ j hj hpj a b _ hb
  have hlt := (Array.getElem?_eq_some_iff.mp hb).1
  rw [Array.size_push] at hlt
  omega

/-- **Popping keeps the order.** -/
theorem pop_ordered (hless : IsWeakOrder less) {h : Array α} (hh : Ordered less h) :
    Ordered less (pop less h).2 := by
  show Ordered less (downLoop less _ _ _ _).1.pop
  have hsize : (h.swapIfInBounds 0 (h.size - 1)).size = h.size :=
    size_eq_of_perm (swap_perm h _ _)
  have hdown : DownReady less (h.size - 1) (h.swapIfInBounds 0 (h.size - 1)) 0 := by
    refine ⟨fun j hj hjn hpj => ?_, fun hzero => absurd hzero (Nat.lt_irrefl 0)⟩
    intro a b ha hb
    rw [swap_get_of_ne hpj (by omega)] at ha
    rw [swap_get_of_ne (by omega) (by omega)] at hb
    exact hh j hj (by omega) a b ha hb
  have hbelow := downLoop_ordered hless (h.size - 1 + 1) _ 0 (by omega) (by omega) hdown
  intro j hj hjn a b ha hb
  rw [Array.size_pop] at hjn
  have hlength := size_eq_of_perm (downLoop_perm less (h.size - 1) (h.size - 1 + 1)
    (h.swapIfInBounds 0 (h.size - 1)) 0)
  rw [Array.getElem?_pop, if_pos (by omega)] at ha hb
  exact hbelow j hj (by omega) a b ha hb

theorem Ordered.root (hless : IsWeakOrder less) {h : Array α} (hh : Ordered less h)
    (hj : j < h.size) : NotBefore less h j 0 := by
  induction j using Nat.strongRecOn with
  | _ j ih =>
    by_cases hzero : j = 0
    · subst hzero
      intro a b ha hb
      rw [some.inj (hb.symm.trans ha)]
      exact hless.irrefl a
    have hparent : (j - 1) / 2 < j := by omega
    exact (hh j (by omega) hj).trans hless (by omega) (ih _ hparent (by omega))

/-- **No element is before the one that is popped.** -/
theorem pop_least (hless : IsWeakOrder less) {h : Array α} (hh : Ordered less h) {x y : α}
    (hx : (pop less h).1 = some x) (hy : y ∈ h) : less y x = false := by
  obtain ⟨j, hj, rfl⟩ := Array.getElem_of_mem hy
  have hne : h ≠ #[] := by
    rintro rfl
    exact absurd hj (Nat.not_lt_zero j)
  rw [pop_root less hne] at hx
  exact hh.root hless hj x _ hx (Array.getElem?_eq_getElem hj)

theorem ordered_empty : Ordered less (#[] : Array α) :=
  fun j _ hj => absurd hj (Nat.not_lt_zero j)

end DenseCore.Lib.SliceHeap
