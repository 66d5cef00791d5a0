/-
Merging a piece: it ends, and it loses nothing.

The nodes of `encodePiece` are a doubly linked list in an array.  Each node that is
alive stands for a stretch of the piece, from its own index to that of its successor,
and holds the symbols of that stretch.  A merge touches four nodes: the left one takes
over the stretch of the right one, the right one dies, and the two outer neighbours
get a new link and a new generation.  `Linked` is what all of this keeps.

A candidate of the heap may be out of date.  `Fresh` says that one that is not names
two neighbours with a merge of their own, which is why the merged value is in the
vocabulary.

Every round takes a candidate out of the heap.  A merge puts two back at most, but it
also kills a node, so the candidates and twice the living nodes together bound the
rounds.
-/
import DenseCore.Lib.Parts
import DenseCore.Server.DecisionTokenizer

namespace DenseCore.Server.Decision

open List Option

open Lib

/-! ### Stretches of a piece -/

/-- The part of `piece` from `i` up to `j`. -/
def stretch (piece : Bytes) (i j : Nat) : Bytes := (piece.take j).drop i

variable {i : Nat} {nd : Node} {nodes : List Node} {c : Int}

variable {j x : Nat} {piece : Bytes} {t : Tokenizer} {q : MergeHeap} {m : MergeCandidate}
  {nodes' : List Node} {g : Nat → Node → Node}

theorem stretch_append (piece : Bytes) {k : Nat} (hij : i ≤ j) (hjk : j ≤ k) :
    stretch piece i j ++ stretch piece j k = stretch piece i k := by
  have hsplit : (piece.take k).drop i = (piece.take j ++ (piece.take k).drop j).drop i := by
    have htake := take_append_drop j (piece.take k)
    rw [take_take, Nat.min_eq_left hjk] at htake
    rw [htake]
  unfold stretch
  by_cases hlen : j ≤ piece.length
  · rw [hsplit, drop_append_of_le_length]
    rw [length_take]
    omega
  rw [take_of_length_le (by omega), take_of_length_le (by omega),
    drop_eq_nil_of_le (Nat.le_of_not_le hlen), append_nil]

theorem stretch_length (piece : Bytes) (i : Nat) : stretch piece i piece.length = piece.drop i := by
  unfold stretch
  rw [take_length]

theorem stretch_succ {b : UInt8} (h : piece[i]? = some b) : stretch piece i (i + 1) = [b] := by
  obtain ⟨hlt, hget⟩ := List.getElem?_eq_some_iff.mp h
  unfold stretch
  rw [take_add_one, h, drop_append_of_le_length (by rw [length_take]; omega),
    drop_eq_nil_of_le (by rw [length_take]; omega)]
  rfl

theorem Tokenizer.byteImage_append (t : Tokenizer) (x y : Bytes) :
    t.byteImage (x ++ y) = t.byteImage x ++ t.byteImage y := flatMap_append

/-! ### What the constructor promises -/

/-- Every merge makes a string of the vocabulary. -/
def Tokenizer.MergesKnown (t : Tokenizer) : Prop :=
  ∀ x y, t.ranks.lookup (x, y) ≠ none → t.vocab.lookup (x ++ y) ≠ none

/-- Every byte of `piece` has its symbol in the vocabulary. -/
def Tokenizer.BytesKnown (t : Tokenizer) (piece : Bytes) : Prop :=
  ∀ b ∈ piece, t.vocab.lookup (t.byteSymbol b) ≠ none

/-! ### The list in the array -/

/-- Where the stretch of a node ends. -/
def Node.stop (nd : Node) (n : Nat) : Nat := if nd.next < 0 then n else nd.next.toNat

/-- The nodes are a doubly linked list whose stretches make up the piece. -/
structure Linked (t : Tokenizer) (piece : Bytes) (nodes : List Node) : Prop where
  length : nodes.length = piece.length
  first : ∃ nd, nodes[0]? = some nd ∧ nd.alive = true
  prev : ∀ (i : Nat) nd, nodes[i]? = some nd → nd.alive = true → nd.prev = -1 ∨
    ∃ (p : Nat) (pnd : Node), nd.prev = p ∧ p < i ∧ nodes[p]? = some pnd ∧ pnd.alive = true ∧
      pnd.next = i
  next : ∀ (i : Nat) nd, nodes[i]? = some nd → nd.alive = true → nd.next = -1 ∨
    ∃ (j : Nat) (jnd : Node), nd.next = j ∧ i < j ∧ nodes[j]? = some jnd ∧ jnd.alive = true ∧
      jnd.prev = i
  value : ∀ (i : Nat) nd, nodes[i]? = some nd → nd.alive = true →
    nd.value = t.byteImage (stretch piece i (nd.stop piece.length))
  known : ∀ (i : Nat) nd, nodes[i]? = some nd → nd.alive = true → t.vocab.lookup nd.value ≠ none

/-- A candidate that is not out of date names two neighbours with a merge. -/
def Fresh (t : Tokenizer) (nodes : List Node) (m : MergeCandidate) : Prop :=
  ∃ a, nodes[m.left]? = some a ∧ (a.alive = true → m.generation ≤ a.generation ∧
    (a.generation = m.generation → a.next = m.right →
      ∀ b, nodes[m.right]? = some b → t.ranks.lookup (a.value, b.value) ≠ none))

/-- The nodes that are alive. -/
def living (nodes : List Node) : Nat := nodes.countP Node.alive

theorem at_natCast (nodes : List Node) (i : Nat) : at? nodes (i : Int) = nodes[i]? := by
  unfold at?
  rw [if_neg (by omega), Int.toNat_natCast]

theorem Node.stop_of_next (h : nd.next = j) (n : Nat) : nd.stop n = j := by
  unfold Node.stop
  rw [h, if_neg (by omega), Int.toNat_natCast]

theorem Node.stop_of_last (h : nd.next = -1) (n : Nat) : nd.stop n = n := by
  unfold Node.stop
  rw [h, if_pos (by omega)]

/-! ### Pushing -/

theorem fresh_push (hq : ∀ m ∈ q, Fresh t nodes m) (hm : Fresh t nodes m) :
    (SliceHeap.push mergeLess q m).size ≤ q.size + 1 ∧
      ∀ x ∈ SliceHeap.push mergeLess q m, Fresh t nodes x := by
  have hperm := SliceHeap.push_perm mergeLess q m
  refine ⟨le_of_eq (by simpa using hperm.length_eq), fun x hx => ?_⟩
  rcases mem_cons.mp (hperm.mem_iff.mp (Array.mem_toList_iff.mpr hx)) with rfl | hold
  · exact hm
  · exact hq x (Array.mem_toList_iff.mp hold)

/-- **A push fails nowhere in the list, and what it adds is up to date.** -/
theorem Linked.push (h : Linked t piece nodes) (hq : ∀ m ∈ q, Fresh t nodes m) {i : Int}
    (hi : i < piece.length) :
    ∃ q', t.push nodes q i = some q' ∧ q'.size ≤ q.size + 1 ∧ ∀ m ∈ q', Fresh t nodes m := by
  unfold Tokenizer.push
  by_cases hneg : i < 0
  · rw [if_pos hneg]
    exact ⟨q, rfl, Nat.le_succ _, hq⟩
  obtain ⟨k, rfl⟩ := Int.eq_ofNat_of_zero_le (Int.not_lt.mp hneg)
  rw [if_neg hneg, at_natCast]
  obtain ⟨nd, hnd⟩ : ∃ nd, nodes[k]? = some nd := by
    refine ⟨_, getElem?_eq_getElem ?_⟩
    rw [h.length]
    exact Int.ofNat_lt.mp hi
  rw [hnd]
  dsimp only
  by_cases hstop : nd.alive = false ∨ nd.next < 0
  · rw [if_pos hstop]
    exact ⟨q, rfl, Nat.le_succ _, hq⟩
  rw [if_neg hstop]
  have halive : nd.alive = true := by
    rcases Bool.eq_false_or_eq_true nd.alive with htrue | hfalse
    · exact htrue
    · exact absurd (Or.inl hfalse) hstop
  rcases h.next k nd hnd halive with hlast | ⟨j, jnd, hnext, -, hj, -, -⟩
  · exact absurd (Or.inr (by omega)) hstop
  rw [hnext, at_natCast, hj]
  dsimp only
  split
  · exact ⟨q, rfl, Nat.le_succ _, hq⟩
  rename_i rank hrank
  refine ⟨_, rfl, fresh_push hq ⟨nd, ?_, fun _ => ⟨Nat.le_refl _, fun _ _ b hb => ?_⟩⟩⟩
  · rw [Int.toNat_natCast]
    exact hnd
  have hjb : nodes[j]? = some b := hb
  rw [← some.inj (hj.symm.trans hjb), hrank]
  exact some_ne_none _

/-! ### What a merge does to the nodes -/

/-- Apply `f` to the node at index `c`. -/
def touch (c : Int) (f : Node → Node) (x : Nat) (nd : Node) : Node := if (x : Int) = c then f nd else nd

theorem touch_self (h : (x : Int) = c) (f : Node → Node) (nd : Node) :
    touch c f x nd = f nd := if_pos h

theorem touch_ne (h : (x : Int) ≠ c) (f : Node → Node) (nd : Node) : touch c f x nd = nd := if_neg h

theorem update_touch (hi : nodes[i]? = some nd) (f : Node → Node) :
    ∃ nodes', update? nodes i f = some nodes' ∧ (∀ x, nodes'[x]? = nodes[x]?.map (touch i f x)) ∧
      living nodes' + nd.alive.toNat = living nodes + (f nd).alive.toNat := by
  refine ⟨nodes.set i (f nd), ?_, fun x => ?_, countP_set_add Node.alive hi _⟩
  · unfold update?
    rw [at_natCast, hi, Int.toNat_natCast]
    rfl
  rw [getElem?_set]
  by_cases hix : i = x
  · obtain ⟨hlt, -⟩ := List.getElem?_eq_some_iff.mp hi
    subst hix
    rw [if_pos rfl, if_pos hlt, hi, map_some, touch_self rfl]
  rw [if_neg hix]
  have hid : ∀ n : Node, touch i f x n = n := fun n => touch_ne (by omega) f n
  rw [show touch i f x = id from funext hid, Option.map_id, id]

theorem length_of_getElem?
    (hget : ∀ x, nodes'[x]? = nodes[x]?.map (g x)) : nodes'.length = nodes.length := by
  refine Nat.le_antisymm ?_ ?_
  · rw [← List.getElem?_eq_none_iff, hget, getElem?_eq_none (Nat.le_refl _), map_none]
  rw [← List.getElem?_eq_none_iff, ← map_eq_none_iff (f := g nodes'.length), ← hget]
  exact getElem?_eq_none (Nat.le_refl _)

/-- A link: to a node, or to none. -/
def IsLink (nodes : List Node) (c : Int) : Prop :=
  c = -1 ∨ ∃ (k : Nat) (nd : Node), c = k ∧ nodes[k]? = some nd

theorem IsLink.map (hc : IsLink nodes c) (hget : ∀ x, nodes'[x]? = nodes[x]?.map (g x)) :
    IsLink nodes' c := by
  rcases hc with hnone | ⟨k, nd, hk, hnd⟩
  · exact Or.inl hnone
  refine Or.inr ⟨k, g k nd, hk, ?_⟩
  rw [hget, hnd, map_some]

theorem update_link (hc : IsLink nodes c) {f : Node → Node} (hf : ∀ nd, (f nd).alive = nd.alive) :
    ∃ nodes', (if 0 ≤ c then update? nodes c f else some nodes) = some nodes' ∧
      (∀ x, nodes'[x]? = nodes[x]?.map (touch c f x)) ∧ living nodes' = living nodes := by
  rcases hc with rfl | ⟨k, nd, rfl, hk⟩
  · refine ⟨nodes, if_neg (by omega), fun x => ?_, rfl⟩
    have hid : ∀ n : Node, touch (-1) f x n = n := fun n => touch_ne (by omega) f n
    rw [show touch (-1) f x = id from funext hid, Option.map_id, id]
  obtain ⟨nodes', hupdate, hget, hliving⟩ := update_touch hk f
  refine ⟨nodes', ?_, hget, ?_⟩
  · rw [if_pos (by omega), hupdate]
  rw [hf] at hliving
  exact Nat.add_right_cancel hliving

theorem link_bind {α β : Type} {c : Prop} [Decidable c] {x : Option α} {y z : α}
    (h : (if c then x else some y) = some z) (f : α → Option β) :
    (if c then x.bind f else f y) = f z := by
  by_cases hc : c
  · rw [if_pos hc] at h ⊢
    rw [h, bind_some]
  rw [if_neg hc] at h ⊢
  rw [some.inj h]

/-- The left node after the merge. -/
def absorb (a b : Node) : Node :=
  { a with value := a.value ++ b.value, next := b.next, generation := a.generation + 1 }

/-- Any other node that lives on. -/
def relink (a b : Node) (i x : Nat) (nd : Node) : Node :=
  { nd with
    prev := if (x : Int) = b.next then (i : Int) else nd.prev
    generation := if (x : Int) = a.prev then nd.generation + 1 else nd.generation }

/-- What a merge of the neighbours `a` at `i` and `b` at `j` leaves. -/
structure Merged (nodes nodes' : List Node) (a b : Node) (i j : Nat) : Prop where
  length : nodes'.length = nodes.length
  left : nodes'[i]? = some (absorb a b)
  right : ∀ nd, nodes'[j]? = some nd → nd.alive = false
  other : ∀ x, x ≠ i → x ≠ j → nodes'[x]? = nodes[x]?.map (relink a b i x)
  living : living nodes' + 1 = living nodes

/-- A merge links the left node past the right one, and offers the two pairs that come about. -/
theorem merge_merged (t : Tokenizer) (q : MergeHeap)
    {a b : Node} (hlt : m.left < m.right) (ha : nodes[m.left]? = some a)
    (hb : nodes[m.right]? = some b) (hbalive : b.alive = true) (hnext : b.next = -1 ∨
      ∃ (k : Nat) (nd : Node), b.next = k ∧ m.right < k ∧ nodes[k]? = some nd)
    (hprev : a.prev = -1 ∨ ∃ (p : Nat) (nd : Node), a.prev = p ∧ p < m.left ∧ nodes[p]? = some nd) :
    ∃ nodes', Merged nodes nodes' a b m.left m.right ∧
      t.merge nodes q m a b = (t.push nodes' q a.prev).bind fun q =>
        (t.push nodes' q m.left).map fun q => (nodes', q) := by
  obtain ⟨n1, hu1, hg1, hl1⟩ := update_touch ha fun a =>
    { a with value := a.value ++ b.value, next := b.next, generation := a.generation + 1 }
  have hb1 : n1[m.right]? = some b := by
    rw [hg1, hb, map_some, touch_ne (by omega)]
  obtain ⟨n2, hu2, hg2, hl2⟩ := update_touch hb1 fun b => { b with alive := false }
  have hnextLink : IsLink nodes b.next := by
    rcases hnext with hlast | ⟨k, nd, hk, -, hnd⟩
    · exact Or.inl hlast
    · exact Or.inr ⟨k, nd, hk, hnd⟩
  have hprevLink : IsLink nodes a.prev := by
    rcases hprev with hfirst | ⟨p, nd, hp, -, hnd⟩
    · exact Or.inl hfirst
    · exact Or.inr ⟨p, nd, hp, hnd⟩
  obtain ⟨n3, hu3, hg3, hl3⟩ := update_link ((hnextLink.map hg1).map hg2)
    (f := fun c => { c with prev := m.left }) fun _ => rfl
  obtain ⟨n4, hu4, hg4, hl4⟩ := update_link (((hprevLink.map hg1).map hg2).map hg3)
    (f := fun p => { p with generation := p.generation + 1 }) fun _ => rfl
  -- the four nodes are different ones
  have hnextNe : (m.left : Int) ≠ b.next ∧ (m.right : Int) ≠ b.next := by
    rcases hnext with h | ⟨k, _, h, hk, -⟩ <;> omega
  have hprevNe : (m.left : Int) ≠ a.prev ∧ (m.right : Int) ≠ a.prev := by
    rcases hprev with h | ⟨p, _, h, hp, -⟩ <;> omega
  have hget : ∀ x, n4[x]? = nodes[x]?.map fun nd =>
      touch a.prev (fun p => { p with generation := p.generation + 1 }) x
        (touch b.next (fun c => { c with prev := m.left }) x
          (touch m.right (fun b => { b with alive := false }) x
            (touch m.left (fun a => { a with value := a.value ++ b.value, next := b.next,
                                             generation := a.generation + 1 }) x nd))) := by
    intro x
    rw [hg4, hg3, hg2, hg1, Option.map_map, Option.map_map, Option.map_map]
    rfl
  refine ⟨n4, ⟨length_of_getElem? hget, ?_, ?_, ?_, ?_⟩, ?_⟩
  · rw [hget, ha, map_some, touch_self rfl, touch_ne hprevNe.1, touch_ne hnextNe.1,
      touch_ne (by omega)]
    rfl
  · intro nd hnd
    rw [hget, hb, map_some, touch_ne (x := m.right) (c := m.left) (by omega), touch_self rfl,
      touch_ne hnextNe.2, touch_ne hprevNe.2] at hnd
    rw [← some.inj hnd]
  · intro x hxl hxr
    rw [hget]
    congr 1
    funext nd
    rw [touch_ne (x := x) (c := m.left) (by omega), touch_ne (x := x) (c := m.right) (by omega)]
    unfold touch relink
    split <;> split <;> rfl
  · rw [hl4, hl3]
    have hkept : living n1 = living nodes := Nat.add_right_cancel hl1
    have hkilled : living n2 + 1 = living n1 := by
      rw [hbalive] at hl2
      exact hl2
    rw [hkilled, hkept]
  unfold Tokenizer.merge
  rw [hu1]
  simp only [bind_eq_bind, bind_some, Option.pure_def]
  rw [hu2]
  simp only [bind_some]
  rw [link_bind hu3]
  by_cases hp : 0 ≤ a.prev
  · rw [if_pos hp] at hu4 ⊢
    rw [hu4]
    simp only [bind_some, map_eq_bind]
    rfl
  rw [if_neg hp] at hu4 ⊢
  have hq : t.push n4 q a.prev = some q := by
    unfold Tokenizer.push
    exact if_pos (Int.not_le.mp hp)
  rw [← some.inj hu4] at hq ⊢
  rw [hq]
  simp only [bind_some, map_eq_bind]
  rfl

/-! ### What a merge keeps -/

section Keeps

variable {t : Tokenizer} {piece : Bytes} {nodes nodes' : List Node} {a b : Node} {i j : Nat}

variable {x : Nat} {nd' : Node} {m : MergeCandidate}

theorem Merged.cases (hm : Merged nodes nodes' a b i j)
    (hx : nodes'[x]? = some nd') (halive : nd'.alive = true) :
    x = i ∧ nd' = absorb a b ∨
      x ≠ i ∧ x ≠ j ∧ ∃ nd, nodes[x]? = some nd ∧ nd.alive = true ∧ nd' = relink a b i x nd := by
  by_cases hxi : x = i
  · subst hxi
    exact Or.inl ⟨rfl, some.inj (hx.symm.trans hm.left)⟩
  by_cases hxj : x = j
  · subst hxj
    exact absurd halive (by rw [hm.right _ hx]; exact Bool.false_ne_true)
  refine Or.inr ⟨hxi, hxj, ?_⟩
  rw [hm.other x hxi hxj] at hx
  obtain ⟨nd, hnd, heq⟩ := map_eq_some_iff.mp hx
  subst heq
  exact ⟨nd, hnd, halive, rfl⟩

theorem Merged.survives (hm : Merged nodes nodes' a b i j) {nd : Node}
    (hx : nodes[x]? = some nd) (hxi : x ≠ i) (hxj : x ≠ j) :
    nodes'[x]? = some (relink a b i x nd) := by
  rw [hm.other x hxi hxj, hx, map_some]

theorem Linked.right_of (h : Linked t piece nodes) (hi : nodes[i]? = some a)
    (ha : a.alive = true) (hnext : a.next = j) :
    ∃ b, nodes[j]? = some b ∧ i < j ∧ b.alive = true ∧ b.prev = i := by
  rcases h.next i a hi ha with hlast | ⟨k, b, hk, hlt, hb, halive, hprev⟩
  · omega
  have hkj : k = j := by omega
  subst hkj
  exact ⟨b, hb, hlt, halive, hprev⟩

/-- The successor of a node that is alive is alive and knows it. -/
def Mutual (nodes : List Node) : Prop :=
  ∀ (i j : Nat) a, nodes[i]? = some a → a.alive = true → a.next = j →
    ∃ b, nodes[j]? = some b ∧ i < j ∧ b.alive = true ∧ b.prev = i

/-- A candidate that is not out of date names two neighbours whose symbols satisfy `R`. -/
def UpToDate (R : Bytes → Bytes → Prop) (nodes : List Node) (m : MergeCandidate) : Prop :=
  ∃ a, nodes[m.left]? = some a ∧ (a.alive = true → m.generation ≤ a.generation ∧
    (a.generation = m.generation → a.next = m.right →
      ∀ b, nodes[m.right]? = some b → R a.value b.value))

/-- **A candidate that is up to date after a merge was so before it.** -/
theorem Merged.upToDate (hm : Merged nodes nodes' a b i j) (h : Mutual nodes)
    (hi : nodes[i]? = some a) (ha : a.alive = true) (hnext : a.next = j)
    (hj : nodes[j]? = some b) {R : Bytes → Bytes → Prop}
    (hcur : UpToDate R nodes m) : UpToDate R nodes' m := by
  obtain ⟨b', hb', hij, hb, hbprev⟩ := h i j a hi ha hnext
  obtain rfl : b' = b := some.inj (hb'.symm.trans hj)
  obtain ⟨nd, hnd, hcurrent⟩ := hcur
  by_cases hleft : m.left = i
  · -- its generation has changed
    obtain rfl : nd = a := some.inj (hnd.symm.trans (hleft ▸ hi))
    have hle := (hcurrent ha).1
    rw [← hleft] at hm
    refine ⟨absorb nd b', hm.left, fun _ => ⟨Nat.le_succ_of_le hle, fun hgen => ?_⟩⟩
    have hsucc : nd.generation + 1 = m.generation := hgen
    omega
  by_cases hright : m.left = j
  · -- it is dead
    have hlt : j < nodes'.length := by
      rw [hm.length]
      exact (List.getElem?_eq_some_iff.mp hj).1
    have hget := getElem?_eq_getElem hlt
    refine ⟨nodes'[j], ?_, fun halive => ?_⟩
    · rw [hright]
      exact hget
    rw [hm.right _ hget] at halive
    exact absurd halive Bool.false_ne_true
  refine ⟨_, hm.survives hnd hleft hright, fun halive => ?_⟩
  obtain ⟨hle, hranked⟩ := hcurrent halive
  by_cases hbump : (m.left : Int) = a.prev
  · have hgen : (relink a b' i m.left nd).generation = nd.generation + 1 := if_pos hbump
    rw [hgen]
    exact ⟨Nat.le_succ_of_le hle, fun heq => absurd heq (by omega)⟩
  have hgen : (relink a b' i m.left nd).generation = nd.generation := if_neg hbump
  rw [hgen]
  refine ⟨hle, fun heq hnextm r' hr' => ?_⟩
  obtain ⟨r, hr, -, -, hrprev⟩ := h _ _ nd hnd halive hnextm
  have hri : m.right ≠ i := by
    intro hri
    rw [hri, hi] at hr
    rw [← some.inj hr] at hrprev
    exact hbump hrprev.symm
  have hrj : m.right ≠ j := by
    intro hrj
    rw [hrj, hj] at hr
    rw [← some.inj hr, hbprev] at hrprev
    omega
  rw [← some.inj ((hm.survives hr hri hrj).symm.trans hr')]
  exact hranked heq hnextm r hr

variable (h : Linked t piece nodes) (hm : Merged nodes nodes' a b i j)
  (hi : nodes[i]? = some a) (ha : a.alive = true) (hnext : a.next = j) (hj : nodes[j]? = some b)
include h hm hi ha hnext hj

theorem Merged.linked_prev (hx : nodes'[x]? = some nd')
    (halive : nd'.alive = true) : nd'.prev = -1 ∨
      ∃ (p : Nat) (pnd : Node), nd'.prev = p ∧ p < x ∧ nodes'[p]? = some pnd ∧
        pnd.alive = true ∧ pnd.next = x := by
  obtain ⟨b', hb', hij, hb, hbprev⟩ := h.right_of hi ha hnext
  obtain rfl : b' = b := some.inj (hb'.symm.trans hj)
  rcases hm.cases hx halive with ⟨rfl, rfl⟩ | ⟨hxi, hxj, nd, hnd, hndAlive, rfl⟩
  · -- the left node keeps its predecessor
    rcases h.prev x a hi ha with hfirst | ⟨p, pnd, hp, hpx, hpnd, hpalive, hpnext⟩
    · exact Or.inl hfirst
    · exact Or.inr ⟨p, _, hp, hpx, hm.survives hpnd (by omega) (by omega), hpalive, hpnext⟩
  by_cases hxk : (x : Int) = b'.next
  · -- the node after the right one now follows the left one
    obtain ⟨-, -, hjx, -, -⟩ := h.right_of hj hb hxk.symm
    exact Or.inr ⟨i, _, if_pos hxk, by omega, hm.left, ha, hxk.symm⟩
  have hkeep : (relink a b' i x nd).prev = nd.prev := if_neg hxk
  rw [hkeep]
  rcases h.prev x nd hnd hndAlive with hfirst | ⟨p, pnd, hp, hpx, hpnd, hpalive, hpnext⟩
  · exact Or.inl hfirst
  have hpi : p ≠ i := by
    rintro rfl
    rw [some.inj (hpnd.symm.trans hi)] at hpnext
    omega
  have hpj : p ≠ j := by
    rintro rfl
    rw [some.inj (hpnd.symm.trans hj)] at hpnext
    exact hxk hpnext.symm
  exact Or.inr ⟨p, _, hp, hpx, hm.survives hpnd hpi hpj, hpalive, hpnext⟩

theorem Merged.linked_next (hx : nodes'[x]? = some nd')
    (halive : nd'.alive = true) : nd'.next = -1 ∨
      ∃ (y : Nat) (ynd : Node), nd'.next = y ∧ x < y ∧ nodes'[y]? = some ynd ∧
        ynd.alive = true ∧ ynd.prev = x := by
  obtain ⟨b', hb', hij, hb, hbprev⟩ := h.right_of hi ha hnext
  obtain rfl : b' = b := some.inj (hb'.symm.trans hj)
  rcases hm.cases hx halive with ⟨rfl, rfl⟩ | ⟨hxi, hxj, nd, hnd, hndAlive, rfl⟩
  · -- the left node takes over the successor of the right one
    rcases h.next j b' hj hb with hlast | ⟨k, knd, hk, hjk, hknd, hkalive, hkprev⟩
    · exact Or.inl hlast
    exact Or.inr ⟨k, _, hk, by omega, hm.survives hknd (by omega) (by omega), hkalive,
      if_pos hk.symm⟩
  rcases h.next x nd hnd hndAlive with hlast | ⟨y, ynd, hy, hxy, hynd, hyalive, hyprev⟩
  · exact Or.inl hlast
  have hyj : y ≠ j := by
    rintro rfl
    rw [some.inj (hynd.symm.trans hj)] at hyprev
    omega
  by_cases hyi : y = i
  · subst hyi
    rw [some.inj (hynd.symm.trans hi)] at hyprev
    exact Or.inr ⟨y, _, hy, hxy, hm.left, ha, hyprev⟩
  refine Or.inr ⟨y, _, hy, hxy, hm.survives hynd hyi hyj, hyalive, ?_⟩
  have hyk : (y : Int) ≠ b'.next := by
    intro hyk
    obtain ⟨knd, hknd, -, -, hkprev⟩ := h.right_of hj hb hyk.symm
    rw [← some.inj (hynd.symm.trans hknd), hyprev] at hkprev
    omega
  exact (if_neg hyk).trans hyprev

omit hm in
theorem Linked.value_absorb :
    (absorb a b).value = t.byteImage (stretch piece i ((absorb a b).stop piece.length)) := by
  obtain ⟨b', hb', hij, hb, -⟩ := h.right_of hi ha hnext
  obtain rfl : b' = b := some.inj (hb'.symm.trans hj)
  have hstop : j ≤ b'.stop piece.length := by
    rcases h.next j b' hj hb with hlast | ⟨k, -, hk, hjk, -⟩
    · rw [Node.stop_of_last hlast, ← h.length]
      exact Nat.le_of_lt (List.getElem?_eq_some_iff.mp hj).1
    rw [Node.stop_of_next hk]
    omega
  calc a.value ++ b'.value
      = t.byteImage (stretch piece i j) ++ t.byteImage (stretch piece j (b'.stop piece.length)) := by
        rw [h.value i a hi ha, h.value j b' hj hb, Node.stop_of_next hnext]
    _ = t.byteImage (stretch piece i (b'.stop piece.length)) := by
        rw [← t.byteImage_append, stretch_append piece (Nat.le_of_lt hij) hstop]

/-- **A merge keeps the list.** -/
theorem Merged.linked (hknown : t.vocab.lookup (a.value ++ b.value) ≠ none) :
    Linked t piece nodes' where
  length := hm.length.trans h.length
  first := by
    obtain ⟨-, -, hij, -, -⟩ := h.right_of hi ha hnext
    obtain ⟨nd, hnd, halive⟩ := h.first
    by_cases hzero : 0 = i
    · subst hzero
      exact ⟨_, hm.left, ha⟩
    · exact ⟨_, hm.survives hnd hzero (by omega), halive⟩
  prev := fun _ _ => hm.linked_prev h hi ha hnext hj
  next := fun _ _ => hm.linked_next h hi ha hnext hj
  value := by
    intro x nd' hx halive
    rcases hm.cases hx halive with ⟨rfl, rfl⟩ | ⟨-, -, nd, hnd, hndAlive, rfl⟩
    · exact h.value_absorb hi ha hnext hj
    · exact h.value x nd hnd hndAlive
  known := by
    intro x nd' hx halive
    rcases hm.cases hx halive with ⟨rfl, rfl⟩ | ⟨-, -, nd, hnd, hndAlive, rfl⟩
    · exact hknown
    · exact h.known x nd hnd hndAlive

theorem Merged.fresh (hfresh : Fresh t nodes m) : Fresh t nodes' m :=
  hm.upToDate (fun _ _ _ => h.right_of) hi ha hnext hj
    (R := fun x y => t.ranks.lookup (x, y) ≠ none) hfresh

end Keeps

/-! ### The loop

A round takes a pair out of the heap, and a merge takes a symbol away and pushes at most two. The
pairs and twice the living symbols together therefore go down in every round.
-/

section Loop

variable {t : Tokenizer} {piece : Bytes}

variable {nodes : List Node} {i : Nat}

/-- **A round keeps the list and brings the loop nearer to its end.** -/
theorem Linked.mergeRound (ht : t.MergesKnown) (h : Linked t piece nodes)
    {q : MergeHeap} (hq : ∀ m ∈ q, Fresh t nodes m) {m : MergeCandidate} (hm : Fresh t nodes m) :
    ∃ r, t.mergeRound nodes q m = some r ∧ Linked t piece r.1 ∧ (∀ m ∈ r.2, Fresh t r.1 m) ∧
      r.2.size + 2 * living r.1 ≤ q.size + 2 * living nodes := by
  obtain ⟨a, ha, hcurrent⟩ := hm
  unfold Tokenizer.mergeRound
  rw [at_natCast, ha]
  dsimp only
  by_cases hold : a.alive = false ∨ a.generation ≠ m.generation ∨ a.next ≠ m.right
  · rw [if_pos hold]
    exact ⟨_, rfl, h, hq, Nat.le_refl _⟩
  rw [if_neg hold]
  simp only [not_or, Bool.not_eq_false, ne_eq, not_not] at hold
  obtain ⟨halive, hgen, hnext⟩ := hold
  obtain ⟨b, hb, hlt, hbalive, -⟩ := h.right_of ha halive hnext
  have hranked := (hcurrent halive).2 hgen hnext b hb
  rw [at_natCast, hb]
  dsimp only
  have hbnext : b.next = -1 ∨
      ∃ (k : Nat) (nd : Node), b.next = k ∧ m.right < k ∧ nodes[k]? = some nd := by
    rcases h.next m.right b hb hbalive with hlast | ⟨k, nd, hk, hlt, hnd, -⟩
    · exact Or.inl hlast
    · exact Or.inr ⟨k, nd, hk, hlt, hnd⟩
  have haprev : a.prev = -1 ∨
      ∃ (p : Nat) (nd : Node), a.prev = p ∧ p < m.left ∧ nodes[p]? = some nd := by
    rcases h.prev m.left a ha halive with hfirst | ⟨p, nd, hp, hlt, hnd, -⟩
    · exact Or.inl hfirst
    · exact Or.inr ⟨p, nd, hp, hlt, hnd⟩
  obtain ⟨nodes', hmerged, heq⟩ := merge_merged t q hlt ha hb hbalive hbnext haprev
  have hlinked := hmerged.linked h ha halive hnext hb (ht a.value b.value hranked)
  have hleft : m.left < piece.length := by
    rw [← h.length]
    exact (List.getElem?_eq_some_iff.mp ha).1
  have hprevLt : a.prev < piece.length := by
    rcases haprev with hfirst | ⟨p, -, hp, hlt, -⟩ <;> omega
  obtain ⟨q₁, hq₁, hsize₁, hfresh₁⟩ :=
    hlinked.push (fun m hm => hmerged.fresh h ha halive hnext hb (hq m hm)) hprevLt
  obtain ⟨q₂, hq₂, hsize₂, hfresh₂⟩ := hlinked.push hfresh₁ (Int.ofNat_lt.mpr hleft)
  refine ⟨(nodes', q₂), ?_, hlinked, hfresh₂, ?_⟩
  · rw [heq, hq₁, bind_some, hq₂, map_some]
  have hliving := hmerged.living
  show q₂.size + 2 * Decision.living nodes' ≤ _
  omega

/-- **The loop ends, with the list.** -/
theorem Linked.mergeLoop (ht : t.MergesKnown) (fuel : Nat) :
    ∀ {nodes : List Node} {q : MergeHeap}, Linked t piece nodes → (∀ m ∈ q, Fresh t nodes m) →
      q.size + 2 * living nodes < fuel →
      ∃ nodes', t.mergeLoop fuel nodes q = some nodes' ∧ Linked t piece nodes' := by
  induction fuel with
  | zero =>
    intro nodes q _ _ hfuel
    exact absurd hfuel (Nat.not_lt_zero _)
  | succ fuel ih =>
    intro nodes q h hq hfuel
    unfold Tokenizer.mergeLoop
    by_cases hempty : q.size = 0
    · rw [if_pos hempty]
      exact ⟨nodes, rfl, h⟩
    rw [if_neg hempty]
    have hne : q ≠ #[] := by
      rintro rfl
      exact hempty rfl
    obtain ⟨m, hpop, hperm⟩ := SliceHeap.pop_perm mergeLess hne
    have hmem : ∀ x, x ∈ q ↔ x ∈ m :: (SliceHeap.pop mergeLess q).2.toList := fun x =>
      Array.mem_toList_iff.symm.trans hperm.mem_iff
    have hsize := hperm.length_eq
    rw [Array.length_toList, length_cons, Array.length_toList] at hsize
    rcases hrest : SliceHeap.pop mergeLess q with ⟨first, q'⟩
    rw [hrest] at hpop hmem hsize
    obtain rfl : first = some m := hpop
    dsimp only at hmem hsize ⊢
    have hrestFresh : ∀ x ∈ q', Fresh t nodes x := fun x hx =>
      hq x ((hmem x).mpr (mem_cons_of_mem _ (Array.mem_toList_iff.mpr hx)))
    obtain ⟨r, hr, hlinked, hfresh, hless⟩ :=
      h.mergeRound ht hrestFresh (hq m ((hmem m).mpr mem_cons_self))
    rw [hr, bind_some]
    exact ih hlinked hfresh (by omega)

/-! ### The start -/

theorem startNodes_get (t : Tokenizer) (piece : Bytes) (i : Nat) :
    (t.startNodes piece)[i]? = piece[i]?.map fun b =>
      { value := t.byteSymbol b, prev := (i : Int) - 1
        next := if i + 1 = piece.length then -1 else (i : Int) + 1, generation := 0
        alive := true } := by
  unfold Tokenizer.startNodes
  rw [getElem?_map, getElem?_zipIdx, Option.map_map]
  simp only [Nat.zero_add]
  rfl

theorem startNodes_cases {nd : Node} (h : (t.startNodes piece)[i]? = some nd) :
    ∃ b, piece[i]? = some b ∧ i < piece.length ∧ nd.value = t.byteSymbol b ∧
      nd.prev = (i : Int) - 1 ∧
      nd.next = if i + 1 = piece.length then -1 else (i : Int) + 1 := by
  rw [startNodes_get] at h
  obtain ⟨b, hb, rfl⟩ := map_eq_some_iff.mp h
  exact ⟨b, hb, (List.getElem?_eq_some_iff.mp hb).1, rfl, rfl, rfl⟩

theorem startNodes_exists (t : Tokenizer) (h : i < piece.length) :
    ∃ nd, (t.startNodes piece)[i]? = some nd ∧ nd.alive = true := by
  rw [startNodes_get, getElem?_eq_getElem h, map_some]
  exact ⟨_, rfl, rfl⟩

theorem startNodes_length (t : Tokenizer) (piece : Bytes) :
    (t.startNodes piece).length = piece.length := by
  unfold Tokenizer.startNodes
  rw [length_map, length_zipIdx]

/-- **The nodes begin as a list of single bytes.** -/
theorem linked_start (hne : piece ≠ []) (hbytes : t.BytesKnown piece) :
    Linked t piece (t.startNodes piece) where
  length := startNodes_length t piece
  first := startNodes_exists t (length_pos_iff.mpr hne)
  prev := by
    intro i nd hi _
    obtain ⟨b, -, hlt, -, hprev, -⟩ := startNodes_cases hi
    by_cases hzero : i = 0
    · exact Or.inl (by omega)
    have hplt : i - 1 < piece.length := by omega
    obtain ⟨pnd, hpnd, hpalive⟩ := startNodes_exists t hplt
    obtain ⟨-, -, -, -, -, hpnext⟩ := startNodes_cases hpnd
    rw [if_neg (by omega)] at hpnext
    exact Or.inr ⟨i - 1, pnd, by omega, by omega, hpnd, hpalive, by omega⟩
  next := by
    intro i nd hi _
    obtain ⟨b, -, hlt, -, -, hnext⟩ := startNodes_cases hi
    by_cases hlast : i + 1 = piece.length
    · rw [if_pos hlast] at hnext
      exact Or.inl hnext
    rw [if_neg hlast] at hnext
    obtain ⟨jnd, hjnd, hjalive⟩ := startNodes_exists t (show i + 1 < piece.length by omega)
    obtain ⟨-, -, -, -, hjprev, -⟩ := startNodes_cases hjnd
    exact Or.inr ⟨i + 1, jnd, by omega, by omega, hjnd, hjalive, by omega⟩
  value := by
    intro i nd hi _
    obtain ⟨b, hb, hlt, hvalue, -, hnext⟩ := startNodes_cases hi
    have hstop : nd.stop piece.length = i + 1 := by
      by_cases hlast : i + 1 = piece.length
      · rw [if_pos hlast] at hnext
        rw [Node.stop_of_last hnext, hlast]
      rw [if_neg hlast] at hnext
      exact Node.stop_of_next (by omega) _
    rw [hstop, stretch_succ hb, hvalue]
    exact (append_nil _).symm
  known := by
    intro i nd hi _
    obtain ⟨b, hb, -, hvalue, -, -⟩ := startNodes_cases hi
    rw [hvalue]
    exact hbytes b (mem_of_getElem? hb)

theorem Linked.startHeap (h : Linked t piece nodes) (is : List Nat) :
    ∀ {q : MergeHeap}, (∀ i ∈ is, i < piece.length) → (∀ m ∈ q, Fresh t nodes m) →
      ∃ q', t.startHeap nodes is q = some q' ∧ q'.size ≤ q.size + is.length ∧
        ∀ m ∈ q', Fresh t nodes m := by
  induction is with
  | nil =>
    intro q _ hq
    exact ⟨q, rfl, Nat.le_refl _, hq⟩
  | cons i rest ih =>
    intro q his hq
    obtain ⟨q₁, hq₁, hsize₁, hfresh₁⟩ :=
      h.push hq (Int.ofNat_lt.mpr (his i mem_cons_self))
    obtain ⟨q₂, hq₂, hsize₂, hfresh₂⟩ :=
      ih (fun i hi => his i (mem_cons_of_mem _ hi)) hfresh₁
    refine ⟨q₂, ?_, ?_, hfresh₂⟩
    · unfold Tokenizer.startHeap
      rw [hq₁, bind_some, hq₂]
    rw [length_cons]
    omega

/-! ### The walk at the end -/

/-- The ids are those of vocabulary strings that make up the symbols of `text`. -/
def Tokenizer.Spells (t : Tokenizer) (ids : List Int) (text : Bytes) : Prop :=
  ∃ strings : List Bytes, ids.map some = strings.map t.tokenID ∧ strings.flatten = t.byteImage text

theorem Tokenizer.Spells.nil (t : Tokenizer) : t.Spells [] [] := ⟨[], rfl, rfl⟩

theorem Tokenizer.Spells.append {ids more : List Int} {x y : Bytes} (hids : t.Spells ids x)
    (hmore : t.Spells more y) : t.Spells (ids ++ more) (x ++ y) := by
  obtain ⟨strings, hlookup, hflat⟩ := hids
  obtain ⟨strings', hlookup', hflat'⟩ := hmore
  refine ⟨strings ++ strings', ?_, ?_⟩
  · rw [map_append, map_append, hlookup, hlookup']
  · rw [flatten_append, t.byteImage_append, hflat, hflat']

/-- **The walk reads a node for every stretch from `i` on.** -/
theorem Linked.collect (h : Linked t piece nodes) (fuel : Nat) :
    ∀ {i : Nat} {nd : Node}, nodes[i]? = some nd → nd.alive = true → piece.length < fuel + i →
      ∃ ids, t.collect nodes fuel i = .ok ids ∧ t.Spells ids (piece.drop i) := by
  induction fuel with
  | zero =>
    intro i nd hi _ hfuel
    have hlt := (List.getElem?_eq_some_iff.mp hi).1
    rw [h.length] at hlt
    omega
  | succ fuel ih =>
    intro i nd hi halive hfuel
    have hlt := (List.getElem?_eq_some_iff.mp hi).1
    rw [h.length] at hlt
    obtain ⟨id, hid⟩ := ne_none_iff_exists'.mp (h.known i nd hi halive)
    have hone : t.Spells [id] (stretch piece i (nd.stop piece.length)) := by
      refine ⟨[nd.value], ?_, ?_⟩
      · exact congrArg (· :: []) hid.symm
      rw [flatten_cons, flatten_nil, append_nil]
      exact h.value i nd hi halive
    unfold Tokenizer.collect
    rw [if_neg (by omega), at_natCast, hi]
    dsimp only
    rw [hid]
    dsimp only
    rcases h.next i nd hi halive with hlast | ⟨j, jnd, hnext, hij, hj, hjalive, -⟩
    · rw [hlast]
      obtain ⟨fuel, rfl⟩ : ∃ k, fuel = k + 1 := ⟨fuel - 1, by omega⟩
      rw [Node.stop_of_last hlast, stretch_length] at hone
      exact ⟨[id], rfl, hone⟩
    rw [hnext]
    obtain ⟨ids, hids, hspells⟩ := ih hj hjalive (by omega)
    rw [hids]
    refine ⟨id :: ids, rfl, ?_⟩
    rw [Node.stop_of_next hnext] at hone
    have hall := hone.append hspells
    rwa [← stretch_length, stretch_append piece (Nat.le_of_lt hij), stretch_length] at hall
    rw [← h.length]
    exact Nat.le_of_lt (List.getElem?_eq_some_iff.mp hj).1

/-- **A piece of known bytes is encoded without loss.** -/
theorem Tokenizer.encodePiece_spells (ht : t.MergesKnown) (hbytes : t.BytesKnown piece) :
    ∃ ids, t.encodePiece piece = .ok ids ∧ t.Spells ids piece := by
  unfold Tokenizer.encodePiece
  by_cases hne : piece = []
  · rw [if_pos hne, hne]
    exact ⟨[], rfl, Spells.nil t⟩
  rw [if_neg hne]
  have hstart := linked_start hne hbytes
  have hrange : ∀ i ∈ range (t.startNodes piece).length, i < piece.length := by
    intro i hi
    rw [← hstart.length]
    exact mem_range.mp hi
  obtain ⟨q, hq, hsize, hfresh⟩ := hstart.startHeap _ (q := #[]) hrange fun m hm => nomatch hm
  have hnone : (#[] : MergeHeap).size = 0 := rfl
  rw [length_range, hstart.length] at hsize
  have hliving : living (t.startNodes piece) ≤ piece.length :=
    hstart.length ▸ countP_le_length
  obtain ⟨nodes, hloop, hlinked⟩ := hstart.mergeLoop ht (3 * piece.length + 1) hfresh (by omega)
  obtain ⟨nd, hnd, halive⟩ := hlinked.first
  obtain ⟨ids, hids, hspells⟩ := hlinked.collect (nodes.length + 1) hnd halive (by
    rw [hlinked.length]
    omega)
  dsimp only
  rw [hq]
  dsimp only
  rw [hloop]
  exact ⟨ids, hids, hspells⟩

end Loop

end DenseCore.Server.Decision
