/-
Merging by a heap over a linked list is merging by scans.

The textbook algorithm keeps the symbols of a piece in a list and merges, as long as some
neighbours have a rank, the leftmost of those with the least.  `encodePiece` keeps the list
in an array of nodes and the ranked pairs in a heap.  `Chain` reads the list off the nodes.
A candidate of the heap is out of date when its left node is dead, has changed or has
another neighbour; `Current` says that one that is not names a pair of the list with its
rank, and the heap is `Complete` when every ranked pair has one.  A round therefore merges
the pair that a scan finds, or nothing.
-/
import DenseCore.Proofs.Server.DecisionMerge

namespace DenseCore.Server.Decision

open Option hiding all

open List

open Lib

/-! ### Merging by scans -/

/-- The leftmost of the neighbours of least rank: the rank, and where they are. -/
def Tokenizer.leastPair (t : Tokenizer) : List Bytes → Option (Nat × Nat)
  | x :: y :: rest =>
    match t.ranks.lookup (x, y), t.leastPair (y :: rest) with
    | none, later => later.map fun p => (p.1, p.2 + 1)
    | some rank, none => some (rank, 0)
    | some rank, some p => if rank ≤ p.1 then some (rank, 0) else some (p.1, p.2 + 1)
  | _ => none

/-- Join the symbol at a place with the next one. -/
def joinAt : Nat → List Bytes → List Bytes
  | 0, x :: y :: rest => (x ++ y) :: rest
  | place + 1, x :: rest => x :: joinAt place rest
  | _, symbols => symbols

/-- Merge until no neighbours have a rank; a merge takes a symbol away. -/
def Tokenizer.mergeScans (t : Tokenizer) : Nat → List Bytes → List Bytes
  | 0, symbols => symbols
  | fuel + 1, symbols =>
    match t.leastPair symbols with
    | none => symbols
    | some p => t.mergeScans fuel (joinAt p.2 symbols)

/-- The symbols of a piece, merged by scans for the lowest rank. -/
def Tokenizer.naiveSymbols (t : Tokenizer) (piece : Bytes) : List Bytes :=
  t.mergeScans piece.length (piece.map t.byteSymbol)

/-- The ids of symbols, up to the first that is not in the vocabulary. -/
def Tokenizer.symbolIds (t : Tokenizer) : List Bytes → Except EncodeError (List Int)
  | [] => .ok []
  | symbol :: rest =>
    match t.vocab.lookup symbol with
    | none => .error .missingEntry
    | some id => (t.symbolIds rest).map (id :: ·)

/-- The rank of the neighbours at a place. -/
def Tokenizer.rankAt (t : Tokenizer) (symbols : List Bytes) (place : Nat) : Option Nat :=
  match symbols[place]?, symbols[place + 1]? with
  | some x, some y => t.ranks.lookup (x, y)
  | _, _ => none

variable {t : Tokenizer} {symbols : List Bytes}

theorem rankAt_zero (x y : Bytes) (rest : List Bytes) :
    t.rankAt (x :: y :: rest) 0 = t.ranks.lookup (x, y) := rfl

theorem rankAt_succ (x : Bytes) (rest : List Bytes) (place : Nat) :
    t.rankAt (x :: rest) (place + 1) = t.rankAt rest place := rfl

theorem rankAt_short {x : Bytes} {place : Nat} : t.rankAt [x] place = none := by
  unfold Tokenizer.rankAt
  cases place with
  | zero => rfl
  | succ place => rfl

/-- **What a scan finds** has the least rank, and stands before all others that have it. -/
theorem leastPair_spec (symbols : List Bytes) :
    (t.leastPair symbols = none → ∀ place, t.rankAt symbols place = none) ∧
      ∀ rank place, t.leastPair symbols = some (rank, place) →
        t.rankAt symbols place = some rank ∧ ∀ other rank', t.rankAt symbols other = some rank' →
          rank < rank' ∨ rank = rank' ∧ place ≤ other := by
  induction symbols with
  | nil => exact ⟨fun _ _ => rfl, fun _ _ h => nomatch h⟩
  | cons x rest ih =>
    cases rest with
    | nil => exact ⟨fun _ _ => rankAt_short, fun _ _ h => nomatch h⟩
    | cons y rest =>
      obtain ⟨hnone, hsome⟩ := ih
      rw [Tokenizer.leastPair]
      cases hrank : t.ranks.lookup (x, y) with
      | none =>
        refine ⟨fun h place => ?_, fun rank place h => ?_⟩
        · cases place with
          | zero => exact hrank
          | succ place => exact hnone (map_eq_none_iff.mp h) place
        obtain ⟨p, hp, heq⟩ := map_eq_some_iff.mp h
        obtain ⟨rfl, rfl⟩ := Prod.mk.inj heq
        obtain ⟨hfound, hbefore⟩ := hsome _ _ hp
        refine ⟨hfound, fun other rank' hother => ?_⟩
        cases other with
        | zero => exact absurd hother (by rw [rankAt_zero, hrank]; exact fun h => nomatch h)
        | succ other =>
          have := hbefore other rank' hother
          omega
      | some first =>
        cases hlater : t.leastPair (y :: rest) with
        | none =>
          refine ⟨fun h => (nomatch h), fun rank place h => ?_⟩
          obtain ⟨rfl, rfl⟩ := Prod.mk.inj (some.inj h)
          refine ⟨hrank, fun other rank' hother => ?_⟩
          cases other with
          | zero => exact Or.inr ⟨some.inj (hrank.symm.trans hother), Nat.le_refl 0⟩
          | succ other =>
            rw [rankAt_succ, hnone hlater] at hother
            exact nomatch hother
        | some p =>
          dsimp only
          obtain ⟨hfound, hbefore⟩ := hsome p.1 p.2 hlater
          refine ⟨fun h => ?_, fun rank place h => ?_⟩
          · split at h <;> exact nomatch h
          split at h
          · rename_i hle
            obtain ⟨rfl, rfl⟩ := Prod.mk.inj (some.inj h)
            refine ⟨hrank, fun other rank' hother => ?_⟩
            cases other with
            | zero =>
              exact Or.inr ⟨some.inj (hrank.symm.trans hother), Nat.le_refl 0⟩
            | succ other =>
              have := hbefore other rank' hother
              omega
          rename_i hlt
          obtain ⟨rfl, rfl⟩ := Prod.mk.inj (some.inj h)
          refine ⟨hfound, fun other rank' hother => ?_⟩
          cases other with
          | zero =>
            have heq : first = rank' := some.inj (hrank.symm.trans hother)
            omega
          | succ other =>
            have := hbefore other rank' hother
            omega

theorem leastPair_eq_some {rank place : Nat} (h : t.rankAt symbols place = some rank)
    (hleast : ∀ other rank', t.rankAt symbols other = some rank' →
      rank < rank' ∨ rank = rank' ∧ place ≤ other) :
    t.leastPair symbols = some (rank, place) := by
  obtain ⟨hnone, hsome⟩ := leastPair_spec (t := t) symbols
  cases hp : t.leastPair symbols with
  | none => exact absurd h (by rw [hnone hp]; exact fun heq => nomatch heq)
  | some p =>
    obtain ⟨rank', place'⟩ := p
    obtain ⟨hfound, hbefore⟩ := hsome rank' place' hp
    have h₁ := hleast _ _ hfound
    have h₂ := hbefore _ _ h
    obtain ⟨rfl, rfl⟩ : rank' = rank ∧ place' = place := by omega
    rfl

theorem length_joinAt {place : Nat} (h : place + 1 < symbols.length) :
    (joinAt place symbols).length + 1 = symbols.length := by
  induction symbols generalizing place with
  | nil => exact absurd h (Nat.not_lt_zero _)
  | cons x rest ih =>
    cases place with
    | zero =>
      cases rest with
      | nil => exact absurd h (Nat.lt_irrefl 1)
      | cons y rest => rfl
    | succ place => exact congrArg (· + 1) (ih (Nat.lt_of_succ_lt_succ h))

/-! ### The list in the nodes

The nodes that are alive spell the symbols in order, linked both ways. A merge in the list
is then one step of the scan.
-/

/-- From `c` on, behind `p`, the list has these nodes and these symbols. -/
inductive Chain (nodes : List Node) : Int → Int → List Nat → List Bytes → Prop
  | last {p : Int} : Chain nodes p (-1) [] []
  | node {p : Int} {i : Nat} {nd : Node} {is : List Nat} {symbols : List Bytes} :
      nodes[i]? = some nd → nd.alive = true → nd.prev = p → p < i →
        Chain nodes i nd.next is symbols → Chain nodes p i (i :: is) (nd.value :: symbols)

section Chains

variable {nodes nodes' : List Node} {p c : Int} {is : List Nat} {i j : Nat} {a b nd : Node}

section

variable (h : Chain nodes p c is symbols)

include h

theorem Chain.lt : ∀ x ∈ is, p < (x : Int) := by
  induction h with
  | last => exact fun x hx => nomatch hx
  | node _ _ _ hlt _ ih =>
    intro x hx
    rcases mem_cons.mp hx with rfl | hx
    · exact hlt
    · exact Int.lt_trans hlt (ih x hx)

theorem Chain.first :
    c = -1 ∨ ∃ (k : Nat) (nd : Node), c = k ∧ p < k ∧ k ∈ is ∧ nodes[k]? = some nd ∧
      nd.alive = true ∧ nd.prev = p := by
  cases h with
  | last => exact Or.inl rfl
  | node hget halive hprev hlt _ =>
    exact Or.inr ⟨_, _, rfl, hlt, mem_cons_self, hget, halive, hprev⟩

theorem Chain.next (hi : i ∈ is) (ha : nodes[i]? = some a) :
    a.next = -1 ∨ ∃ (k : Nat) (nd : Node), a.next = k ∧ i < k ∧ k ∈ is ∧ nodes[k]? = some nd ∧
      nd.alive = true ∧ nd.prev = i := by
  induction h with
  | last => exact nomatch hi
  | @node p x nd is symbols hget _ _ _ hrest ih =>
    rcases mem_cons.mp hi with rfl | hi
    · obtain rfl : nd = a := some.inj (hget.symm.trans ha)
      rcases hrest.first with hlast | ⟨k, knd, hk, hlt, hmem, hget, halive, hprev⟩
      · exact Or.inl hlast
      exact Or.inr ⟨k, knd, hk, Int.ofNat_lt.mp hlt, mem_cons_of_mem _ hmem, hget, halive, hprev⟩
    rcases ih hi with hlast | ⟨k, knd, hk, hlt, hmem, hget, halive, hprev⟩
    · exact Or.inl hlast
    · exact Or.inr ⟨k, knd, hk, hlt, mem_cons_of_mem _ hmem, hget, halive, hprev⟩

theorem Chain.prev (hi : i ∈ is) (ha : nodes[i]? = some a) :
    c = i ∧ a.prev = p ∨ ∃ (k : Nat) (nd : Node), a.prev = k ∧ k < i ∧ k ∈ is ∧
      nodes[k]? = some nd ∧ nd.alive = true ∧ nd.next = i := by
  induction h with
  | last => exact nomatch hi
  | @node p x nd is symbols hget halive hprev _ hrest ih =>
    rcases mem_cons.mp hi with rfl | hi
    · obtain rfl : nd = a := some.inj (hget.symm.trans ha)
      exact Or.inl ⟨rfl, hprev⟩
    refine Or.inr ?_
    rcases ih hi with ⟨hnext, hfirst⟩ | ⟨k, knd, hk, hlt, hmem, hget, halive, hnext⟩
    · exact ⟨x, nd, hfirst, Int.ofNat_lt.mp (hrest.lt i hi), mem_cons_self, hget, halive, hnext⟩
    · exact ⟨k, knd, hk, hlt, mem_cons_of_mem _ hmem, hget, halive, hnext⟩

theorem Chain.alive (hi : i ∈ is) :
    ∃ nd, nodes[i]? = some nd ∧ nd.alive = true := by
  induction h with
  | last => exact nomatch hi
  | node hget halive _ _ _ ih =>
    rcases mem_cons.mp hi with rfl | hi
    · exact ⟨_, hget, halive⟩
    · exact ih hi

/-- Indices go up along the list. -/
theorem Chain.sorted : is.Pairwise (· < ·) := by
  induction h with
  | last => exact List.Pairwise.nil
  | node _ _ _ _ hrest ih =>
    exact pairwise_cons.mpr ⟨fun x hx => Int.ofNat_lt.mp (hrest.lt x hx), ih⟩

theorem Chain.rank (hi : i ∈ is) (ha : nodes[i]? = some a)
    (hnext : a.next = j) (hb : nodes[j]? = some b) :
    ∃ place, is[place]? = some i ∧ t.rankAt symbols place = t.ranks.lookup (a.value, b.value) ∧
      place + 1 < symbols.length := by
  induction h with
  | last => exact nomatch hi
  | @node p x nd is symbols hget _ _ _ hrest ih =>
    rcases mem_cons.mp hi with rfl | hi
    · obtain rfl : nd = a := some.inj (hget.symm.trans ha)
      generalize hc : nd.next = c at hrest
      cases hrest with
      | last => omega
      | @node _ y ynd is symbols hget' _ _ _ _ =>
        obtain rfl : y = j := by omega
        obtain rfl : ynd = b := some.inj (hget'.symm.trans hb)
        exact ⟨0, rfl, rfl, Nat.succ_lt_succ (Nat.succ_pos _)⟩
    obtain ⟨place, hplace, hrank, hlt⟩ := ih hi
    exact ⟨place + 1, hplace, hrank, Nat.succ_lt_succ hlt⟩

theorem Chain.ranked {place rank : Nat}
    (hrank : t.rankAt symbols place = some rank) :
    ∃ (i j : Nat) (a b : Node), is[place]? = some i ∧ nodes[i]? = some a ∧ a.alive = true ∧
      a.next = j ∧ nodes[j]? = some b ∧ t.ranks.lookup (a.value, b.value) = some rank := by
  induction h generalizing place with
  | last => exact nomatch hrank
  | @node p x nd is symbols hget halive _ _ hrest ih =>
    cases place with
    | zero =>
      generalize hc : nd.next = c at hrest
      cases hrest with
      | last =>
        rw [rankAt_short] at hrank
        exact nomatch hrank
      | @node _ y ynd is symbols hget' _ _ _ _ =>
        exact ⟨x, y, nd, ynd, rfl, hget, halive, hc, hget', hrank⟩
    | succ place => exact ih hrank

end

/-! ### A merge in the list -/

theorem Chain.relinked (h : Chain nodes p c is symbols) (hm : Merged nodes nodes' a b i j)
    (hout : ∀ x ∈ is, x ≠ i ∧ x ≠ j ∧ (x : Int) ≠ b.next) : Chain nodes' p c is symbols := by
  induction h with
  | last => exact Chain.last
  | @node p x nd is symbols hget halive hprev hlt _ ih =>
    obtain ⟨hxi, hxj, hxnext⟩ := hout x mem_cons_self
    have hkeep : (relink a b i x nd).prev = nd.prev := if_neg hxnext
    have hget' : nodes'[x]? = some (relink a b i x nd) := hm.survives hget hxi hxj
    have hchain : Chain nodes' p x (x :: is) ((relink a b i x nd).value :: symbols) :=
      Chain.node hget' halive (hkeep.trans hprev) hlt (ih fun x hx => hout x (mem_cons_of_mem _ hx))
    exact hchain

/-- **A merge joins two neighbours of the list.** -/
theorem Chain.merge (h : Chain nodes p c is symbols) (hm : Merged nodes nodes' a b i j)
    (ha : nodes[i]? = some a) (hnext : a.next = j) (hb : nodes[j]? = some b)
    (hlink : b.next = -1 ∨ (j : Int) < b.next) (hij : i < j) {place : Nat}
    (hplace : is[place]? = some i) :
    Chain nodes' p c (is.erase j) (joinAt place symbols) := by
  induction h generalizing place with
  | last => exact nomatch hplace
  | @node p x nd is symbols hget halive hprev hlt hrest ih =>
    cases place with
    | zero =>
      obtain rfl : x = i := some.inj hplace
      obtain rfl : nd = a := some.inj (hget.symm.trans ha)
      generalize hc : nd.next = c at hrest
      cases hrest with
      | last => omega
      | @node _ y ynd is symbols hget' _ _ _ hrest =>
        obtain rfl : y = j := by omega
        obtain rfl : ynd = b := some.inj (hget'.symm.trans hb)
        rw [erase_cons_tail (by simpa using hij.ne), erase_cons_head]
        refine Chain.node hm.left halive hprev hlt ?_
        show Chain nodes' x ynd.next is symbols
        generalize hd : ynd.next = d at hrest
        cases hrest with
        | last => exact Chain.last
        | @node _ z znd is symbols hget'' halive' _ hlt' hrest =>
          have hyz : y < z := Int.ofNat_lt.mp hlt'
          have hgetz : nodes'[z]? = some (relink nd ynd x z znd) :=
            hm.survives hget'' (by omega) (by omega)
          have hrest' : Chain nodes' z znd.next is symbols := by
            refine hrest.relinked hm fun w hw => ?_
            have hzw : z < w := Int.ofNat_lt.mp (hrest.lt w hw)
            exact ⟨by omega, by omega, by omega⟩
          have hchain : Chain nodes' x z (z :: is)
              ((relink nd ynd x z znd).value :: symbols) :=
            Chain.node hgetz halive' (if_pos hd.symm) (by omega) hrest'
          exact hchain
    | succ place =>
      have hmem : i ∈ is := mem_of_getElem? hplace
      have hxi : x < i := Int.ofNat_lt.mp (hrest.lt i hmem)
      have hkeep : (relink a b i x nd).prev = nd.prev := if_neg (by omega)
      rw [erase_cons_tail (by simpa using (hxi.trans hij).ne)]
      have hget' : nodes'[x]? = some (relink a b i x nd) :=
        hm.survives hget (by omega) (by omega)
      have hchain : Chain nodes' p x (x :: is.erase j)
          ((relink a b i x nd).value :: joinAt place symbols) :=
        Chain.node hget' halive (hkeep.trans hprev) hlt (ih hplace)
      exact hchain

end Chains

/-! ### The heap

The heap may hold pairs that have changed since. It offers every pair that can merge now, so
the first current one that comes out is the scan's choice.
-/

theorem mergeLess_weakOrder : SliceHeap.IsWeakOrder mergeLess where
  asymm := by
    intro a b h
    unfold mergeLess at h ⊢
    split at h <;> split <;> simp only [decide_eq_true_eq, decide_eq_false_iff_not] at h ⊢ <;> omega
  negTrans := by
    intro a b c hab hbc
    unfold mergeLess at hab hbc ⊢
    split at hab <;> split at hbc <;> split <;>
      simp only [decide_eq_false_iff_not] at hab hbc ⊢ <;> omega

theorem not_mergeLess {m m' : MergeCandidate} (h : mergeLess m' m = false) :
    m.rank < m'.rank ∨ m.rank = m'.rank ∧ m.left ≤ m'.left := by
  unfold mergeLess at h
  split at h <;> simp only [decide_eq_false_iff_not] at h <;> omega

/-- A candidate that is not out of date has the rank of its neighbours. -/
def Current (t : Tokenizer) (nodes : List Node) (m : MergeCandidate) : Prop :=
  UpToDate (fun x y => t.ranks.lookup (x, y) = some m.rank) nodes m

/-- The candidate of the pair at a node, if it has a rank, is in the heap. -/
def Offered (t : Tokenizer) (nodes : List Node) (q : MergeHeap) (i : Nat) : Prop :=
  ∀ (j : Nat) (a b : Node) (rank : Nat), nodes[i]? = some a → a.alive = true → a.next = j →
    nodes[j]? = some b → t.ranks.lookup (a.value, b.value) = some rank →
      ⟨rank, i, j, a.generation⟩ ∈ q

/-- The heap is ordered, and offers every pair that can merge now. -/
structure HeapInv (t : Tokenizer) (nodes : List Node) (q : MergeHeap) : Prop where
  ordered : SliceHeap.Ordered mergeLess q
  current : ∀ m ∈ q, Current t nodes m

theorem mem_push {q : MergeHeap} {m x : MergeCandidate} :
    x ∈ SliceHeap.push mergeLess q m ↔ x = m ∨ x ∈ q := by
  rw [← Array.mem_toList_iff, (SliceHeap.push_perm mergeLess q m).mem_iff, mem_cons,
    Array.mem_toList_iff]

section Pushes

variable {nodes : List Node} {q : MergeHeap}

/-- **A push offers the pair at its node**, and takes nothing away. -/
theorem HeapInv.push (hq : HeapInv t nodes q) {i : Nat} {a : Node} (ha : nodes[i]? = some a)
    (hlink : a.next = -1 ∨ ∃ (j : Nat) (b : Node), a.next = j ∧ nodes[j]? = some b) :
    ∃ q', t.push nodes q i = some q' ∧ HeapInv t nodes q' ∧ q'.size ≤ q.size + 1 ∧
      (∀ m ∈ q, m ∈ q') ∧ Offered t nodes q' i := by
  have hkept : (∀ (j : Nat) (b : Node) (rank : Nat), a.alive = true → a.next = j →
      nodes[j]? = some b → t.ranks.lookup (a.value, b.value) ≠ some rank) →
        t.push nodes q i = some q → ∃ q', t.push nodes q i = some q' ∧ HeapInv t nodes q' ∧
          q'.size ≤ q.size + 1 ∧ (∀ m ∈ q, m ∈ q') ∧ Offered t nodes q' i := by
    intro hnone hpush
    refine ⟨q, hpush, hq, Nat.le_succ _, fun m hm => hm, ?_⟩
    intro j a' b rank ha' halive hnext hb hrank
    obtain rfl : a = a' := some.inj (ha.symm.trans ha')
    exact absurd hrank (hnone j b rank halive hnext hb)
  have hunfold : t.push nodes q (i : Int) =
      if a.alive = false ∨ a.next < 0 then some q
      else
        (at? nodes a.next).bind fun other =>
          (t.ranks.lookup (a.value, other.value)).elim (some q) fun rank =>
            some (SliceHeap.push mergeLess q
              { rank := rank, left := i, right := a.next.toNat
                generation := a.generation }) := by
    unfold Tokenizer.push
    rw [if_neg (by omega), at_natCast, ha]
    dsimp only
    congr 1
    cases at? nodes a.next with
    | none => rfl
    | some other => cases hr : t.ranks.lookup (a.value, other.value) <;> simp [hr]
  by_cases hdead : a.alive = false ∨ a.next < 0
  · rw [if_pos hdead] at hunfold
    refine hkept (fun j b rank halive hnext _ => ?_) hunfold
    rcases hdead with hdead | hneg
    · rw [halive] at hdead
      cases hdead
    · omega
  rw [if_neg hdead] at hunfold
  rcases hlink with hlast | ⟨j, b, hnext, hb⟩
  · exact absurd (Or.inr (by omega)) hdead
  rw [hnext, at_natCast, hb, bind_some] at hunfold
  cases hrank : t.ranks.lookup (a.value, b.value) with
  | none =>
    rw [hrank] at hunfold
    refine hkept (fun j' b' rank _ hnext' hb' => ?_) hunfold
    obtain rfl : j = j' := by omega
    rw [← some.inj (hb.symm.trans hb'), hrank]
    simp
  | some rank =>
    rw [hrank] at hunfold
    refine ⟨_, hunfold, ⟨SliceHeap.push_ordered mergeLess_weakOrder hq.ordered _, ?_⟩, ?_, ?_, ?_⟩
    · intro m hm
      rcases mem_push.mp hm with rfl | hm
      · refine ⟨a, ha, fun _ => ⟨Nat.le_refl _, fun _ _ b' hb' => ?_⟩⟩
        obtain rfl : b = b' := some.inj (hb.symm.trans hb')
        exact hrank
      · exact hq.current m hm
    · have hsize := (SliceHeap.push_perm mergeLess q
        { rank := rank, left := i, right := j, generation := a.generation }).length_eq
      exact le_of_eq (by simpa using hsize)
    · exact fun m hm => mem_push.mpr (Or.inr hm)
    intro j' a' b' rank' ha' _ hnext' hb' hrank'
    obtain rfl : a = a' := some.inj (ha.symm.trans ha')
    obtain rfl : j = j' := by omega
    obtain rfl : b = b' := some.inj (hb.symm.trans hb')
    obtain rfl : rank = rank' := some.inj (hrank.symm.trans hrank')
    exact mem_push.mpr (Or.inl rfl)

end Pushes

/-! ### A round -/

/-- The list is in the nodes, and no other node is alive. -/
structure Listed (nodes : List Node) (is : List Nat) (symbols : List Bytes) : Prop where
  chain : Chain nodes (-1) 0 is symbols
  all : ∀ (x : Nat) nd, nodes[x]? = some nd → nd.alive = true → x ∈ is

/-- What the loop keeps: every ranked pair of the list is offered. -/
structure MergeInv (t : Tokenizer) (nodes : List Node) (q : MergeHeap) (is : List Nat)
    (symbols : List Bytes) : Prop where
  listed : Listed nodes is symbols
  heap : HeapInv t nodes q
  offered : ∀ i, Offered t nodes q i

section Rounds

variable {nodes nodes' : List Node} {q : MergeHeap} {is : List Nat} {m : MergeCandidate}
  {a b : Node} {i j : Nat}

theorem Listed.right_of (h : Listed nodes is symbols) (hi : nodes[i]? = some a)
    (ha : a.alive = true) (hnext : a.next = j) :
    ∃ b, nodes[j]? = some b ∧ i < j ∧ b.alive = true ∧ b.prev = i := by
  rcases h.chain.next (h.all i a hi ha) hi with hlast | ⟨k, b, hk, hlt, -, hb, halive, hprev⟩
  · omega
  obtain rfl : k = j := by omega
  exact ⟨b, hb, hlt, halive, hprev⟩

theorem Listed.links (h : Listed nodes is symbols) (hi : nodes[i]? = some a) (ha : a.alive = true) :
    (a.next = -1 ∨ ∃ (k : Nat) (nd : Node), a.next = k ∧ i < k ∧ nodes[k]? = some nd) ∧
      (a.prev = -1 ∨
        ∃ (k : Nat) (nd : Node), a.prev = k ∧ k < i ∧ nodes[k]? = some nd ∧ nd.alive = true) := by
  have hmem := h.all i a hi ha
  constructor
  · rcases h.chain.next hmem hi with hlast | ⟨k, nd, hk, hlt, -, hnd, -, -⟩
    · exact Or.inl hlast
    · exact Or.inr ⟨k, nd, hk, hlt, hnd⟩
  rcases h.chain.prev hmem hi with ⟨-, hfirst⟩ | ⟨k, nd, hk, hlt, -, hnd, halive, -⟩
  · exact Or.inl hfirst
  · exact Or.inr ⟨k, nd, hk, hlt, hnd, halive⟩

variable (h : Listed nodes is symbols) (hm : Merged nodes nodes' a b i j)
  (hi : nodes[i]? = some a) (ha : a.alive = true) (hnext : a.next = j) (hj : nodes[j]? = some b)
include h hm hi ha hnext hj

theorem Merged.listed {place : Nat} (hplace : is[place]? = some i) :
    Listed nodes' (is.erase j) (joinAt place symbols) := by
  obtain ⟨b', hb', hij, hb, -⟩ := h.right_of hi ha hnext
  obtain rfl : b' = b := some.inj (hb'.symm.trans hj)
  refine ⟨h.chain.merge hm hi hnext hj ?_ hij hplace, fun x nd hx halive => ?_⟩
  · rcases (h.links hj hb).1 with hlast | ⟨k, -, hk, hlt, -⟩
    · exact Or.inl hlast
    · exact Or.inr (by omega)
  rcases hm.cases hx halive with ⟨rfl, -⟩ | ⟨-, hxj, nd', hnd', halive', -⟩
  · exact (mem_erase_of_ne hij.ne).mpr (h.all x a hi ha)
  · exact (mem_erase_of_ne hxj).mpr (h.all x nd' hnd' halive')

theorem Merged.offered {x : Nat} (hx : Offered t nodes q x) (hxi : x ≠ i)
    (hxprev : (x : Int) ≠ a.prev) : Offered t nodes' q x := by
  intro y c d rank hc halive hxy hd hrank
  rcases hm.cases hc halive with ⟨rfl, -⟩ | ⟨-, hxj, nd, hnd, hndAlive, rfl⟩
  · exact absurd rfl hxi
  obtain ⟨d', hd', -, -, hprev⟩ := h.right_of hnd hndAlive hxy
  have hyi : y ≠ i := by
    rintro rfl
    rw [← some.inj (hi.symm.trans hd')] at hprev
    exact hxprev hprev.symm
  have hyj : y ≠ j := by
    rintro rfl
    obtain ⟨b', hb', -, -, hbprev⟩ := h.right_of hi ha hnext
    rw [← some.inj (hb'.symm.trans hd')] at hprev
    exact hxi (by omega)
  have hgen : (relink a b i x nd).generation = nd.generation := if_neg hxprev
  rw [hgen]
  rw [hm.survives hd' hyi hyj] at hd
  rw [← some.inj hd] at hrank
  exact hx y nd d' rank hnd hndAlive hxy hd' hrank

omit h hm hi ha hnext hj in
theorem Listed.mutual (h : Listed nodes is symbols) : Mutual nodes :=
  fun _ _ _ hi ha hnext => h.right_of hi ha hnext

/-- **What a merge makes of the heap** once the two pairs beside it are offered again. -/
theorem Merged.inv {place : Nat} (hplace : is[place]? = some i) (hq : HeapInv t nodes q)
    (hoffered : ∀ x, x ≠ i → Offered t nodes q x) :
    ∃ q₁ q₂, t.push nodes' q a.prev = some q₁ ∧ t.push nodes' q₁ i = some q₂ ∧
      MergeInv t nodes' q₂ (is.erase j) (joinAt place symbols) ∧ q₂.size ≤ q.size + 2 := by
  have hlisted := hm.listed h hi ha hnext hj hplace
  have hq' : HeapInv t nodes' q :=
    ⟨hq.ordered, fun m hmq => hm.upToDate h.mutual hi ha hnext hj (hq.current m hmq)⟩
  have hnextLink : ∀ {x : Nat} {nd : Node}, nodes'[x]? = some nd → nd.alive = true →
      nd.next = -1 ∨ ∃ (k : Nat) (c : Node), nd.next = k ∧ nodes'[k]? = some c := by
    intro x nd hx halive
    rcases (hlisted.links hx halive).1 with hlast | ⟨k, c, hk, -, hc⟩
    · exact Or.inl hlast
    · exact Or.inr ⟨k, c, hk, hc⟩
  have hfirst : ∃ q₁, t.push nodes' q a.prev = some q₁ ∧ HeapInv t nodes' q₁ ∧
      q₁.size ≤ q.size + 1 ∧ (∀ m ∈ q, m ∈ q₁) ∧
        ∀ x : Nat, (x : Int) = a.prev → Offered t nodes' q₁ x := by
    rcases (hlisted.links hm.left ha).2 with hnone | ⟨k, nd, hk, -, hnd, halive⟩
    · have hprev : a.prev = -1 := hnone
      refine ⟨q, ?_, hq', Nat.le_succ _, fun m hmq => hmq, fun x hx => by omega⟩
      unfold Tokenizer.push
      rw [hprev]
      rfl
    have hprev : a.prev = k := hk
    obtain ⟨q₁, hpush, hinv, hsize, hkept, hoff⟩ := hq'.push hnd (hnextLink hnd halive)
    refine ⟨q₁, hprev ▸ hpush, hinv, hsize, hkept, fun x hx => ?_⟩
    obtain rfl : x = k := by omega
    exact hoff
  obtain ⟨q₁, hpush₁, hinv₁, hsize₁, hkept₁, hoff₁⟩ := hfirst
  obtain ⟨q₂, hpush₂, hinv₂, hsize₂, hkept₂, hoff₂⟩ := hinv₁.push hm.left (hnextLink hm.left ha)
  refine ⟨q₁, q₂, hpush₁, hpush₂, ⟨hlisted, hinv₂, fun x => ?_⟩, by omega⟩
  by_cases hxi : x = i
  · rw [hxi]
    exact hoff₂
  by_cases hxprev : (x : Int) = a.prev
  · exact fun y c d rank hc halive hxy hd hrank =>
      hkept₂ _ (hoff₁ x hxprev y c d rank hc halive hxy hd hrank)
  exact fun y c d rank hc halive hxy hd hrank => hkept₂ _ (hkept₁ _
    (hm.offered h hi ha hnext hj (hoffered x hxi) hxi hxprev y c d rank hc halive hxy hd hrank))

end Rounds

/-! ### The loop -/

section Loop

variable {nodes : List Node} {q : MergeHeap} {is : List Nat} {m : MergeCandidate}

/-- **A candidate that is up to date and before all others** names the pair that a scan
finds. -/
theorem Listed.least (h : Listed nodes is symbols) (hoffered : ∀ i, Offered t nodes q i)
    (hleast : ∀ m' ∈ q, mergeLess m' m = false) {a b : Node} (ha : nodes[m.left]? = some a)
    (halive : a.alive = true) (hnext : a.next = m.right) (hb : nodes[m.right]? = some b)
    (hrank : t.ranks.lookup (a.value, b.value) = some m.rank) :
    ∃ place, is[place]? = some m.left ∧ place + 1 < symbols.length ∧
      t.leastPair symbols = some (m.rank, place) := by
  obtain ⟨place, hplace, hat, hlt⟩ :=
    h.chain.rank (t := t) (h.all _ a ha halive) ha hnext hb
  refine ⟨place, hplace, hlt, leastPair_eq_some (hat.trans hrank) fun other rank' hother => ?_⟩
  obtain ⟨i, j, c, d, hi, hc, hcalive, hcnext, hd, hcrank⟩ := h.chain.ranked hother
  have hbefore := not_mergeLess (hleast _ (hoffered i j c d rank' hc hcalive hcnext hd hcrank))
  refine hbefore.imp id fun hsame => ⟨hsame.1, ?_⟩
  -- the indices of the list go up, so the places do
  by_contra hback
  obtain ⟨hotherLt, hotherGet⟩ := List.getElem?_eq_some_iff.mp hi
  obtain ⟨hplaceLt, hplaceGet⟩ := List.getElem?_eq_some_iff.mp hplace
  have hup := pairwise_iff_getElem.mp h.chain.sorted other place hotherLt hplaceLt
    (Nat.lt_of_not_le hback)
  rw [hotherGet, hplaceGet] at hup
  exact absurd hsame.2 (Nat.not_le_of_lt hup)

/-- **A round merges what a scan would merge, or nothing.** -/
theorem MergeInv.round {q₀ : MergeHeap} (h : MergeInv t nodes q₀ is symbols)
    (hq : HeapInv t nodes q) (hm : ∀ x, x ∈ q₀ ↔ x = m ∨ x ∈ q)
    (hleast : ∀ m' ∈ q₀, mergeLess m' m = false) :
    ∃ nodes' q' is' symbols', t.mergeRound nodes q m = some (nodes', q') ∧
      MergeInv t nodes' q' is' symbols' ∧ q'.size + 2 * living nodes' ≤ q.size + 2 * living nodes ∧
      (symbols' = symbols ∨ ∃ rank place, place + 1 < symbols.length ∧
        t.leastPair symbols = some (rank, place) ∧ symbols' = joinAt place symbols) := by
  obtain ⟨a, ha, hcurrent⟩ := h.heap.current m ((hm m).mpr (Or.inl rfl))
  -- every other candidate is still there
  have hrest : ∀ {i j : Nat} {c : Node} {rank : Nat}, nodes[i]? = some c →
      (c.alive = true → c.next = j → i = m.left → ¬ (c.generation = m.generation ∧ j = m.right)) →
        c.alive = true → c.next = j → (⟨rank, i, j, c.generation⟩ : MergeCandidate) ∈ q₀ →
          (⟨rank, i, j, c.generation⟩ : MergeCandidate) ∈ q := by
    intro i j c rank hc hne halive hnext hmem
    rcases (hm _).mp hmem with heq | hmem
    · rw [← heq] at hne
      exact absurd ⟨rfl, rfl⟩ (hne halive hnext rfl)
    · exact hmem
  unfold Tokenizer.mergeRound
  rw [at_natCast, ha]
  dsimp only
  by_cases hold : a.alive = false ∨ a.generation ≠ m.generation ∨ a.next ≠ m.right
  · rw [if_pos hold]
    refine ⟨nodes, q, is, symbols, rfl, ⟨h.listed, hq, ?_⟩, Nat.le_refl _, Or.inl rfl⟩
    intro i j c d rank hc halive hnext hd hrank
    refine hrest hc (fun halive hnext hleft hsame => ?_) halive hnext
      (h.offered i j c d rank hc halive hnext hd hrank)
    obtain rfl : c = a := some.inj (hc.symm.trans (hleft ▸ ha))
    rcases hold with hdead | hgen | hright
    · exact absurd (halive.symm.trans hdead) fun heq => nomatch heq
    · exact hgen hsame.1
    · exact hright (by rw [hnext, hsame.2])
  rw [if_neg hold]
  simp only [not_or, Bool.not_eq_false, ne_eq, not_not] at hold
  obtain ⟨halive, hgen, hnext⟩ := hold
  obtain ⟨b, hb, hlt, hbalive, -⟩ := h.listed.right_of ha halive hnext
  have hranked := (hcurrent halive).2 hgen hnext b hb
  rw [at_natCast, hb]
  dsimp only
  obtain ⟨place, hplace, hshort, hfound⟩ :=
    h.listed.least h.offered hleast ha halive hnext hb hranked
  have hbnext := (h.listed.links hb hbalive).1
  have haprev : a.prev = -1 ∨
      ∃ (k : Nat) (nd : Node), a.prev = k ∧ k < m.left ∧ nodes[k]? = some nd := by
    rcases (h.listed.links ha halive).2 with hfirst | ⟨k, nd, hk, hlt, hnd, -⟩
    · exact Or.inl hfirst
    · exact Or.inr ⟨k, nd, hk, hlt, hnd⟩
  obtain ⟨nodes', hmerged, heq⟩ := merge_merged t q hlt ha hb hbalive hbnext haprev
  obtain ⟨q₁, q₂, hpush₁, hpush₂, hinv, hsize⟩ :=
    hmerged.inv h.listed ha halive hnext hb hplace hq fun i hi j c d rank hc hcalive hcnext hd hr =>
      hrest hc (fun _ _ hleft => absurd hleft hi) hcalive hcnext
        (h.offered i j c d rank hc hcalive hcnext hd hr)
  refine ⟨nodes', q₂, _, _, ?_, hinv, ?_, Or.inr ⟨m.rank, place, hshort, hfound, rfl⟩⟩
  · rw [heq, hpush₁, bind_some, hpush₂, map_some]
  have hliving := hmerged.living
  omega

/-- **The loop ends where scans end**, with the same symbols. -/
theorem MergeInv.loop (fuel : Nat) :
    ∀ {nodes : List Node} {q : MergeHeap} {is : List Nat} {symbols : List Bytes},
      MergeInv t nodes q is symbols → q.size + 2 * living nodes < fuel →
        ∃ nodes' is' final, t.mergeLoop fuel nodes q = some nodes' ∧ Listed nodes' is' final ∧
          (∀ place, t.rankAt final place = none) ∧
            ∀ n, symbols.length ≤ n → t.mergeScans n symbols = final := by
  induction fuel with
  | zero =>
    intro nodes q is symbols _ hfuel
    exact absurd hfuel (Nat.not_lt_zero _)
  | succ fuel ih =>
    intro nodes q is symbols h hfuel
    unfold Tokenizer.mergeLoop
    by_cases hempty : q.size = 0
    · rw [if_pos hempty]
      have hnone : ∀ place, t.rankAt symbols place = none := by
        intro place
        cases hrank : t.rankAt symbols place with
        | none => rfl
        | some rank =>
          obtain ⟨i, j, c, d, -, hc, halive, hnext, hd, hlookup⟩ := h.listed.chain.ranked hrank
          have hmem := h.offered i j c d rank hc halive hnext hd hlookup
          rw [Array.size_eq_zero_iff.mp hempty] at hmem
          exact absurd hmem (Array.not_mem_empty _)
      have hscan : t.leastPair symbols = none := by
        cases hp : t.leastPair symbols with
        | none => rfl
        | some p =>
          have hat := ((leastPair_spec symbols).2 p.1 p.2 hp).1
          rw [hnone] at hat
          cases hat
      refine ⟨nodes, is, symbols, rfl, h.listed, hnone, fun n _ => ?_⟩
      cases n with
      | zero => rfl
      | succ n => rw [Tokenizer.mergeScans, hscan]
    rw [if_neg hempty]
    have hne : q ≠ #[] := by
      rintro rfl
      exact hempty rfl
    obtain ⟨m, hpop, hperm⟩ := SliceHeap.pop_perm mergeLess hne
    have hordered := SliceHeap.pop_ordered mergeLess_weakOrder h.heap.ordered
    have hleast : ∀ m' ∈ q, mergeLess m' m = false := fun m' hm' =>
      SliceHeap.pop_least mergeLess_weakOrder h.heap.ordered hpop hm'
    rcases hrest : SliceHeap.pop mergeLess q with ⟨first, q'⟩
    rw [hrest] at hpop hperm hordered
    obtain rfl : first = some m := hpop
    have hmem : ∀ x, x ∈ q ↔ x = m ∨ x ∈ q' := by
      intro x
      rw [← Array.mem_toList_iff, hperm.mem_iff, mem_cons, Array.mem_toList_iff]
    have hsize := hperm.length_eq
    rw [Array.length_toList, length_cons, Array.length_toList] at hsize
    dsimp only at hsize
    have hq' : HeapInv t nodes q' :=
      ⟨hordered, fun x hx => h.heap.current x ((hmem x).mpr (Or.inr hx))⟩
    obtain ⟨nodes', q₂, is', symbols', hround, hinv, hless, hscan⟩ := h.round hq' hmem hleast
    obtain ⟨nodes₃, is₃, final, hloop, hlisted, hdone, hall⟩ := ih hinv (by omega)
    refine ⟨nodes₃, is₃, final, ?_, hlisted, hdone, fun n hn => ?_⟩
    · dsimp only
      rw [hround, bind_some, hloop]
    rcases hscan with rfl | ⟨rank, place, hshort, hfound, rfl⟩
    · exact hall n hn
    have hlength := length_joinAt hshort
    obtain ⟨n, rfl⟩ : ∃ k, n = k + 1 := ⟨n - 1, by omega⟩
    rw [Tokenizer.mergeScans, hfound]
    exact hall n (by omega)

end Loop

/-! ### The start and the end -/

theorem HeapInv.startHeap {nodes : List Node} (is : List Nat) :
    ∀ {q : MergeHeap}, HeapInv t nodes q → (∀ i ∈ is, ∃ a, nodes[i]? = some a ∧
      (a.next = -1 ∨ ∃ (j : Nat) (b : Node), a.next = j ∧ nodes[j]? = some b)) →
        ∃ q', t.startHeap nodes is q = some q' ∧ HeapInv t nodes q' ∧
          q'.size ≤ q.size + is.length ∧ (∀ m ∈ q, m ∈ q') ∧ ∀ i ∈ is, Offered t nodes q' i := by
  induction is with
  | nil =>
    intro q hq _
    exact ⟨q, rfl, hq, Nat.le_refl _, fun m hm => hm, fun i hi => nomatch hi⟩
  | cons i rest ih =>
    intro q hq his
    obtain ⟨a, ha, hlink⟩ := his i mem_cons_self
    obtain ⟨q₁, hpush, hq₁, hsize₁, hkept₁, hoff⟩ := hq.push ha hlink
    obtain ⟨q₂, hstart, hq₂, hsize₂, hkept₂, hrest⟩ :=
      ih hq₁ fun i hi => his i (mem_cons_of_mem _ hi)
    refine ⟨q₂, ?_, hq₂, ?_, fun m hm => hkept₂ m (hkept₁ m hm), fun k hk => ?_⟩
    · unfold Tokenizer.startHeap
      rw [hpush, bind_some, hstart]
    · rw [length_cons]
      omega
    rcases mem_cons.mp hk with rfl | hk
    · exact fun y c d rank hc halive hnext hd hrank =>
        hkept₂ _ (hoff y c d rank hc halive hnext hd hrank)
    · exact hrest k hk

theorem chain_startNodes (t : Tokenizer) (piece : Bytes) (count : Nat) : ∀ {i : Nat},
    i + (count + 1) = piece.length → Chain (t.startNodes piece) ((i : Int) - 1) i
      (range' i (count + 1)) ((piece.drop i).map t.byteSymbol) := by
  induction count with
  | zero =>
    intro i hi
    have hlt : i < piece.length := by omega
    have hget := startNodes_get t piece i
    rw [getElem?_eq_getElem hlt, map_some, if_pos hi] at hget
    rw [drop_eq_getElem_cons hlt, drop_eq_nil_of_le (by omega)]
    exact Chain.node hget rfl rfl (by omega) Chain.last
  | succ count ih =>
    intro i hi
    have hlt : i < piece.length := by omega
    have hget := startNodes_get t piece i
    rw [getElem?_eq_getElem hlt, map_some, if_neg (by omega)] at hget
    rw [drop_eq_getElem_cons hlt, range'_succ]
    have hrest := ih (i := i + 1) (by omega)
    rw [show ((i + 1 : Nat) : Int) - 1 = i by omega] at hrest
    exact Chain.node hget rfl rfl (by omega) hrest

theorem listed_startNodes {piece : Bytes} (hne : piece ≠ []) :
    Listed (t.startNodes piece) (range piece.length) (piece.map t.byteSymbol) := by
  obtain ⟨count, hcount⟩ : ∃ count, piece.length = count + 1 :=
    Nat.exists_eq_add_one_of_ne_zero (length_pos_iff.mpr hne).ne'
  refine ⟨?_, fun x nd hx _ => ?_⟩
  · have hchain := chain_startNodes t piece count (i := 0) (by omega)
    rw [drop_zero] at hchain
    rw [range_eq_range', hcount]
    exact hchain
  rw [mem_range, ← startNodes_length t piece]
  exact (List.getElem?_eq_some_iff.mp hx).1

theorem Chain.collect {nodes : List Node} {p c : Int} {is : List Nat}
    (h : Chain nodes p c is symbols) : ∀ {fuel : Nat}, is.length < fuel →
      t.collect nodes fuel c = t.symbolIds symbols := by
  induction h with
  | last =>
    intro fuel hfuel
    obtain ⟨k, rfl⟩ := Nat.exists_eq_add_one_of_ne_zero (Nat.ne_zero_of_lt hfuel)
    rfl
  | @node p i nd is symbols hget _ _ _ _ ih =>
    intro fuel hfuel
    obtain ⟨k, rfl⟩ := Nat.exists_eq_add_one_of_ne_zero (Nat.ne_zero_of_lt hfuel)
    rw [Tokenizer.collect, if_neg (by omega), at_natCast, hget]
    dsimp only
    rw [ih (Nat.lt_of_succ_lt_succ hfuel)]
    rfl

/-- **The heap and the linked list leave the symbols that scans leave**, none of which has a
ranked neighbour, and their ids are the result. -/
theorem Tokenizer.encodePiece_naive (t : Tokenizer) {piece : Bytes} (hne : piece ≠ []) :
    ∃ q nodes is, t.startHeap (t.startNodes piece) (range (t.startNodes piece).length) #[] =
        some q ∧
      t.mergeLoop (3 * piece.length + 1) (t.startNodes piece) q = some nodes ∧
      Chain nodes (-1) 0 is (t.naiveSymbols piece) ∧
      (∀ place, t.rankAt (t.naiveSymbols piece) place = none) ∧
      t.encodePiece piece = t.symbolIds (t.naiveSymbols piece) := by
  have hlisted := listed_startNodes (t := t) hne
  have hlength := startNodes_length t piece
  have hempty : HeapInv t (t.startNodes piece) #[] :=
    ⟨SliceHeap.ordered_empty, fun m hm => absurd hm (Array.not_mem_empty m)⟩
  obtain ⟨q, hstart, hq, hsize, -, hoffered⟩ :=
    hempty.startHeap (range (t.startNodes piece).length) fun i hi => by
      obtain ⟨a, ha, halive⟩ := startNodes_exists t (hlength ▸ mem_range.mp hi)
      refine ⟨a, ha, ?_⟩
      rcases (hlisted.links ha halive).1 with hlast | ⟨k, nd, hk, -, hnd⟩
      · exact Or.inl hlast
      · exact Or.inr ⟨k, nd, hk, hnd⟩
  have hinv : MergeInv t (t.startNodes piece) q (range piece.length)
      (piece.map t.byteSymbol) := by
    refine ⟨hlisted, hq, fun i j a b rank ha halive hnext hb hrank => ?_⟩
    exact hoffered i (mem_range.mpr (List.getElem?_eq_some_iff.mp ha).1) j a b rank ha halive
      hnext hb hrank
  have hliving : living (t.startNodes piece) ≤ piece.length :=
    hlength ▸ countP_le_length
  have hnone : (#[] : MergeHeap).size = 0 := rfl
  rw [length_range, hlength] at hsize
  obtain ⟨nodes, is, final, hloop, hend, hdone, hscans⟩ :=
    hinv.loop (3 * piece.length + 1) (by omega)
  have hfinal : t.naiveSymbols piece = final :=
    hscans piece.length (by rw [length_map])
  rw [hfinal]
  refine ⟨q, nodes, is, hstart, hloop, hend.chain, hdone, ?_⟩
  rw [Tokenizer.encodePiece, if_neg hne]
  dsimp only
  rw [hstart]
  dsimp only
  rw [hloop]
  refine hend.chain.collect (Nat.lt_succ_of_le ?_)
  have hwithin : ∀ i ∈ is, i ∈ range nodes.length := by
    intro i hi
    obtain ⟨nd, hnd, -⟩ := hend.chain.alive hi
    exact mem_range.mpr (List.getElem?_eq_some_iff.mp hnd).1
  have hnodup : is.Nodup := hend.chain.sorted.imp fun hlt => hlt.ne
  have hle := (subperm_of_subset hnodup hwithin).length_le
  rwa [length_range] at hle

def threeLetters : Tokenizer where
  vocab := [([97], 0), ([98], 1), ([99], 2), ([97, 98], 3), ([98, 99], 4)]
  ranks := [(([97], [98]), 1), (([98], [99]), 0)]
  addedRaw := []
  addedNormalized := []
  bytes := (range 256).map fun b => [UInt8.ofNat b]

/-- The pair of the lower rank goes first, although it is further right. -/
theorem threeLetters_naive : threeLetters.naiveSymbols [97, 98, 99] = [[97], [98, 99]] ∧
    threeLetters.encodePiece [97, 98, 99] = .ok [0, 4] := by
  obtain ⟨-, -, -, -, -, -, -, hids⟩ :=
    threeLetters.encodePiece_naive (show [97, 98, 99] ≠ ([] : Bytes) by decide)
  have hsymbols : threeLetters.naiveSymbols [97, 98, 99] = [[97], [98, 99]] := by decide +kernel
  refine ⟨hsymbols, ?_⟩
  rw [hids, hsymbols]
  rfl

end DenseCore.Server.Decision
