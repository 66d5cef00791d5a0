/-
Copy-on-write under interleaving.

Every holder stands for the references it owns: the block it came with, and the
new one once it has allocated it.  As long as the last decrement of the shared
block is made by `FreeSingle`, or the prefix cache keeps the block, every step
moves references and owners together, and the ledger stays exact.  `CopyOnWrite`
decrements without looking, so the holder that happens to come last takes the
count to zero and leaves a block that nobody holds and no free list has.  After
that step everybody has returned, so the damage is there to stay.
-/
import DenseCore.Memory.CowInterleaving
import DenseCore.Proofs.Memory.Custody
import Mathlib.Data.List.Perm.Basic

namespace DenseCore.BlockManager

open List

variable {σ : Type} {b : Int}

/-! ### Who owns what -/

/-- The references a holder of `b` owns. -/
def Holder.owns (b : Int) : Holder → List Int
  | .mayCopy => [b]
  | .shared => [b]
  | .copied b' => [b', b]
  | .returned (some b') => [b']
  | .returned none => [b]
  | .mayFree => [b]
  | .freed => []

/-- All the references of the holders. -/
def owned (b : Int) (holders : List Holder) : List Int :=
  holders.flatMap (Holder.owns b)

/-- The ledger is exact: the holders' references and those of everybody else. -/
def CowState.Exact (b : Int) (others : List Int) (s : CowState σ) : Prop :=
  Custody s.manager (owned b s.holders ++ others)

/-- The condition on a turn: a holder that is about to decrement the block it
copied finds a second reference, or the block is kept by the prefix cache. -/
def CowState.SafeTurn (b : Int) (s : CowState σ) (turn : Nat × AllocChoice) : Prop :=
  ∀ b', s.holders[turn.1]? = some (.copied b') →
    1 < (s.manager.blocks b).refCount ∨ (s.manager.blocks b).cacheResident = true

/-- Every turn of the schedule is safe where it is taken. -/
def CowState.SafeRun (b : Int) : CowState σ → List (Nat × AllocChoice) → Prop
  | _, [] => True
  | s, turn :: rest => s.SafeTurn b turn ∧ CowState.SafeRun b (s.step b turn) rest

/-- What the calls should leave behind: a block without references that is not
resident is on its free list, and the references of a block are those of the
holders that came back with it, of those that came back without a block and
still have the one they came with, and of everybody else. -/
structure CowState.Settled (b : Int) (others : List Int) (s : CowState σ) : Prop where
  freeListed : ∀ x, s.manager.InRange x → (s.manager.blocks x).refCount = 0 →
    (s.manager.blocks x).cacheResident = false → x ∈ s.manager.shards (shardOf x)
  counted : ∀ x, (s.manager.blocks x).refCount = s.holders.count (.returned (some x)) +
      (if x = b then s.holders.count (.returned none) else 0) + others.count x

/-! ### Replacing one holder -/

variable {holders : List Holder} {h : Holder} {others : List Int}

variable {i : Nat} {turn : Nat × AllocChoice}

theorem owned_perm_of_getElem (hi : holders[i]? = some h) :
    (owned b holders).Perm (h.owns b ++ owned b (holders.eraseIdx i)) := by
  have hperm : holders.Perm (h :: holders.eraseIdx i) := by
    obtain ⟨hlt, hget⟩ := List.getElem?_eq_some_iff.mp hi
    rw [← hget]
    exact (getElem_cons_eraseIdx_perm hlt).symm
  simpa [owned] using hperm.flatMap_right (Holder.owns b)

theorem owned_set_perm {h' : Holder} (hi : holders[i]? = some h) :
    (owned b (holders.set i h')).Perm (h'.owns b ++ owned b (holders.eraseIdx i)) := by
  obtain ⟨hlt, -⟩ := List.getElem?_eq_some_iff.mp hi
  have hset : (holders.set i h')[i]? = some h' := by
    rw [getElem?_set_self hlt]
  have hperm := owned_perm_of_getElem (b := b) hset
  rwa [eraseIdx_set_eq] at hperm

/-! ### One step -/

theorem holderStep_custody {m : BlockManager σ} {rest : List Int} (c : AllocChoice)
    (hcust : Custody m (h.owns b ++ rest)) (hsafe : ∀ b', h = .copied b' →
      1 < (m.blocks b).refCount ∨ (m.blocks b).cacheResident = true) :
    Custody (holderStep b m c h).2 ((holderStep b m c h).1.owns b ++ rest) := by
  cases h with
  | mayCopy =>
    show Custody m ((m.testShared b).owns b ++ rest)
    unfold testShared
    split
    · exact hcust
    · split <;> exact hcust
  | shared =>
    show Custody (m.allocateCopy c).2 ((m.allocateCopy c).1.owns b ++ rest)
    have halloc := (hcust.allocateSingle c).1
    unfold allocateCopy
    rcases hres : m.allocateSingle c with ⟨_ | b', m₁⟩
    · rw [hres] at halloc
      exact halloc
    rw [hres] at halloc
    exact halloc
  | copied b' =>
    have hswap : Custody m (b :: b' :: rest) := hcust.perm (Perm.swap _ _ _)
    exact (hswap.dropRef (hsafe b' rfl)).fill b' _
  | mayFree =>
    have hfree := hcust.freeSingle (b := b) (by simp [Holder.owns])
    simpa [Holder.owns, holderStep] using hfree
  | returned id => exact hcust
  | freed => exact hcust

theorem CowState.Exact.step {s : CowState σ} (h : s.Exact b others) (hsafe : s.SafeTurn b turn) :
    (s.step b turn).Exact b others := by
  unfold CowState.step
  split
  · exact h
  rename_i holder hget
  have hbefore : Custody s.manager
      (holder.owns b ++ (owned b (s.holders.eraseIdx turn.1) ++ others)) := by
    refine Custody.perm h ?_
    rw [← append_assoc]
    exact ((owned_perm_of_getElem hget).append_right others).symm
  have hafter := holderStep_custody turn.2 hbefore fun b' hb' => hsafe b' (by rw [hget, hb'])
  refine hafter.perm ?_
  rw [← append_assoc]
  exact (owned_set_perm hget).append_right others

/-! ### The step that goes wrong -/

/-- Holders that own nothing of `b` are back from their calls. -/
theorem done_of_count_eq_zero (h : (owned b holders).count b = 0) :
    ∀ x ∈ holders, x.done = true := by
  intro x hx
  have hnone : b ∉ x.owns b := by
    intro hb
    have hmem : b ∈ owned b holders := mem_flatMap.mpr ⟨x, hx, hb⟩
    have := count_pos_iff.mpr hmem
    omega
  cases x with
  | mayCopy | shared | copied b' | mayFree => simp [Holder.owns] at hnone
  | returned id => rfl
  | freed => rfl

/-- The block is lost: nobody holds it, the prefix cache does not keep it, and it
is on no free list.  And everybody is back, so nothing will change. -/
structure CowState.Lost (b : Int) (s : CowState σ) : Prop where
  inRange : s.manager.InRange b
  refCount : (s.manager.blocks b).refCount = 0
  resident : (s.manager.blocks b).cacheResident = false
  notListed : b ∉ s.manager.shards (shardOf b)
  done : ∀ x ∈ s.holders, x.done = true

/-- A turn that is not safe loses a reference. -/
theorem CowState.Exact.lost {s : CowState σ} (h : s.Exact b others) (hbad : ¬ s.SafeTurn b turn) :
    (s.step b turn).Lost b := by
  unfold CowState.SafeTurn at hbad
  push Not at hbad
  obtain ⟨b', hget, hle, hres⟩ := hbad
  have hres' : (s.manager.blocks b).cacheResident = false := by simpa using hres
  -- the holder owns one reference to the block, so there is exactly that one
  have hcust : Custody s.manager
      (b' :: b :: (owned b (s.holders.eraseIdx turn.1) ++ others)) := by
    refine Custody.perm h ?_
    have hperm := (owned_perm_of_getElem (b := b) hget).append_right others
    exact hperm.symm
  have hexact := hcust.exact b
  rw [count_cons, count_cons_self, count_append] at hexact
  have hpos : 0 < (s.manager.blocks b).refCount := hcust.pos (by simp)
  have hne : b' ≠ b := by
    intro heq
    rw [if_pos (by simp [heq])] at hexact
    omega
  rw [if_neg (by simpa using hne)] at hexact
  have hrest : (owned b (s.holders.eraseIdx turn.1)).count b = 0 := by omega
  have hin : s.manager.InRange b := hcust.inRange b (by simp)
  have hstep : s.step b turn =
      { manager := s.manager.dropSource b b'
        holders := s.holders.set turn.1 (.returned (some b')) } := by
    unfold CowState.step
    rw [hget]
    rfl
  rw [hstep]
  refine ⟨hin, ?_, ?_, ?_, ?_⟩
  · show ((s.manager.dropSource b b').blocks b).refCount = 0
    simp [dropSource, Ne.symm hne]
    omega
  · show ((s.manager.dropSource b b').blocks b).cacheResident = false
    simpa [dropSource, Ne.symm hne] using hres'
  · show b ∉ s.manager.shards (shardOf b)
    intro hmem
    have hfree := ((hcust.wellFormed.partition.mem_iff _ b).mp hmem).2
    have := hfree.2.1
    omega
  intro x hx
  obtain ⟨hlt, -⟩ := List.getElem?_eq_some_iff.mp hget
  rcases mem_cons.mp ((set_perm_cons_eraseIdx hlt _).mem_iff.mp hx) with rfl | hx
  · rfl
  · exact done_of_count_eq_zero hrest x hx

theorem CowState.Lost.step {s : CowState σ} (h : s.Lost b) (turn : Nat × AllocChoice) :
    s.step b turn = s := by
  unfold CowState.step
  split
  · rfl
  rename_i holder hget
  have hdone := h.done holder (mem_of_getElem? hget)
  have hset : s.holders.set turn.1 holder = s.holders := by
    obtain ⟨hlt, hval⟩ := List.getElem?_eq_some_iff.mp hget
    rw [← hval, set_getElem_self]
  cases holder with
  | mayCopy | shared | copied b' | mayFree => simp [Holder.done] at hdone
  | returned id | freed =>
    simp only [holderStep]
    rw [hset]

theorem CowState.Lost.run {s : CowState σ} (h : s.Lost b) :
    ∀ schedule : List (Nat × AllocChoice), s.run b schedule = s := by
  intro schedule
  induction schedule with
  | nil => rfl
  | cons turn rest ih =>
    show (s.step b turn).run b rest = s
    rw [h.step turn, ih]

/-! ### Whole schedules -/

theorem CowState.Exact.run (schedule : List (Nat × AllocChoice)) :
    ∀ {s : CowState σ}, s.Exact b others → s.SafeRun b schedule →
      (s.run b schedule).Exact b others := by
  induction schedule with
  | nil => intro s h _; exact h
  | cons turn rest ih =>
    intro s h hsafe
    exact ih (h.step hsafe.1) hsafe.2

theorem CowState.Exact.run_lost (schedule : List (Nat × AllocChoice)) :
    ∀ {s : CowState σ}, s.Exact b others → ¬ s.SafeRun b schedule → (s.run b schedule).Lost b := by
  induction schedule with
  | nil => intro s _ hbad; exact absurd trivial hbad
  | cons turn rest ih =>
    intro s h hbad
    by_cases hturn : s.SafeTurn b turn
    · exact ih (h.step hturn) fun hrest => hbad ⟨hturn, hrest⟩
    have hlost := h.lost hturn
    show ((s.step b turn).run b rest).Lost b
    rw [hlost.run rest]
    exact hlost

theorem count_owned_of_done (h : ∀ x ∈ holders, x.done = true) (x : Int) :
    (owned b holders).count x = holders.count (.returned (some x)) +
        if x = b then holders.count (.returned none) else 0 := by
  induction holders with
  | nil => simp [owned]
  | cons holder rest ih =>
    have hrest := ih fun y hy => h y (by simp [hy])
    have hdone := h holder (by simp)
    have hcons : (owned b (holder :: rest)).count x =
        (holder.owns b).count x + (owned b rest).count x := by
      simp [owned, count_append]
    rw [hcons, hrest, count_cons, count_cons]
    cases holder with
    | mayCopy | shared | copied b' | mayFree => simp [Holder.done] at hdone
    | freed => simp [Holder.owns]
    | returned id =>
      cases id with
      | none =>
        by_cases hx : x = b
        · subst hx
          simp [Holder.owns]
          omega
        · simp [Holder.owns, hx, Ne.symm hx]
      | some b' =>
        by_cases hx : b' = x
        · subst hx
          simp [Holder.owns]
          omega
        · simp [Holder.owns, hx]

theorem CowState.Exact.settled {s : CowState σ} (h : s.Exact b others)
    (hdone : ∀ x ∈ s.holders, x.done = true) : s.Settled b others := by
  refine ⟨?_, ?_⟩
  · intro x hin href hres
    exact (h.wellFormed.partition.mem_iff _ x).mpr ⟨rfl, hin, href, hres⟩
  intro x
  have hexact := h.exact x
  rw [count_append, count_owned_of_done hdone] at hexact
  rw [hexact]
  split <;> push_cast <;> rfl

theorem owned_of_start (h : ∀ x ∈ holders, x = .mayCopy ∨ x = .mayFree) :
    owned b holders = replicate holders.length b := by
  induction holders with
  | nil => rfl
  | cons holder rest ih =>
    have hrest := ih fun x hx => h x (by simp [hx])
    rcases h holder (by simp) with rfl | rfl
    · show b :: owned b rest = _
      rw [hrest]
      rfl
    show b :: owned b rest = _
    rw [hrest]
    rfl

/-- One holder alone does what `CopyOnWrite` does. -/
theorem run_single_eq_copyOnWrite (m : BlockManager σ) (c : AllocChoice) :
    CowState.run b ⟨m, [.mayCopy]⟩ [(0, c), (0, c), (0, c)] =
      ⟨(m.copyOnWrite b c).2, [.returned (m.copyOnWrite b c).1.1]⟩ := by
  simp only [CowState.run, foldl_cons, foldl_nil]
  unfold copyOnWrite
  by_cases hin : m.InRange b
  · by_cases href : (m.blocks b).refCount ≤ 1
    · simp [CowState.step, holderStep, testShared, hin, href]
    rcases hres : m.allocateSingle c with ⟨_ | b', m₁⟩
    · simp [CowState.step, holderStep, testShared, allocateCopy, hin, href, hres]
    · simp [CowState.step, holderStep, testShared, allocateCopy, dropSource, hin, href, hres]
  · simp [CowState.step, holderStep, testShared, hin]

/-- **Copy-on-write under interleaving.**  Holders of references to one block
call `CopyOnWrite` or `FreeSingle`, in any number and any interleaving, from any
ledger that is exact.  Once all are back, the ledger is settled exactly when no
holder of a block that is not resident decremented it as the last one. -/
theorem copyOnWrite_interleaved_settled_iff (m : BlockManager σ) (b : Int) (others : List Int)
    (holders : List Holder) (hstart : ∀ x ∈ holders, x = .mayCopy ∨ x = .mayFree)
    (hcust : Custody m (replicate holders.length b ++ others))
    (schedule : List (Nat × AllocChoice))
    (hdone : ∀ x ∈ (CowState.run b ⟨m, holders⟩ schedule).holders, x.done = true) :
    (CowState.run b ⟨m, holders⟩ schedule).Settled b others ↔
      CowState.SafeRun b ⟨m, holders⟩ schedule := by
  have hexact : CowState.Exact b others ⟨m, holders⟩ := by
    show Custody m (owned b holders ++ others)
    rwa [owned_of_start hstart]
  refine ⟨fun hsettled => ?_, fun hsafe => (hexact.run schedule hsafe).settled hdone⟩
  by_contra hbad
  have hlost := hexact.run_lost schedule hbad
  exact hlost.notListed (hsettled.freeListed b hlost.inRange hlost.refCount hlost.resident)

/-- Four blocks, of which block 0 has two references. -/
def sharedBlockZero : BlockManager Unit :=
  (((init 4 16).allocateSingle {}).2.fork 0).2

theorem sharedBlockZero_custody :
    Custody sharedBlockZero (replicate [Holder.mayCopy, Holder.mayCopy].length 0 ++ []) := by
  have hinit : Custody (init 4 16 : BlockManager Unit) [] := Custody.init 4 16
  have halloc := (hinit.allocateSingle {}).1
  have hzero : ((init 4 16 : BlockManager Unit).allocateSingle {}).1 = some 0 := by
    decide +kernel
  rw [hzero] at halloc
  exact halloc.fork (by simp)

/-- One call after the other: the second finds the block unshared and keeps it. -/
theorem sharedBlockZero_sequential_settled : (CowState.run 0 ⟨sharedBlockZero, [.mayCopy, .mayCopy]⟩
      [(0, {}), (0, {}), (0, {}), (1, {})]).Settled 0 [] := by
  refine (copyOnWrite_interleaved_settled_iff sharedBlockZero 0 [] [.mayCopy, .mayCopy]
    (by simp) sharedBlockZero_custody _ (by decide +kernel)).mpr ⟨?_, ?_, ?_, ?_, trivial⟩
  · intro b' h
    simp at h
  · intro b' h
    have hget : (CowState.step 0 ⟨sharedBlockZero, [.mayCopy, .mayCopy]⟩ (0, {})).holders[0]? =
        some .shared := by decide +kernel
    rw [hget] at h
    cases h
  · intro b' h
    exact Or.inl (by decide +kernel)
  intro b' h
  simp [CowState.step] at h

/-- Both holders test, then both allocate, then both decrement: block 0 has no
reference left and is on no free list. -/
theorem sharedBlockZero_interleaved_not_settled :
    let final := CowState.run 0 ⟨sharedBlockZero, [.mayCopy, .mayCopy]⟩
      [(0, {}), (1, {}), (0, {}), (1, {}), (0, {}), (1, {})]
    Custody sharedBlockZero (replicate 2 0 ++ []) ∧
      final.holders = [.returned (some 1), .returned (some 2)] ∧ ¬ final.Settled 0 [] := by
  refine ⟨sharedBlockZero_custody, by decide +kernel, fun h => ?_⟩
  have hlisted := h.freeListed 0 (by decide +kernel) (by decide +kernel) (by decide +kernel)
  revert hlisted
  decide +kernel

end DenseCore.BlockManager
