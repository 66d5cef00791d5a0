/-
The cache update of a layer together with the gather, as the tasks of one node run
them: `cb_kv_update_and_gather_custom` and the `WriteCurrentBatchKvToCache` it calls
(`runtime/inference_runtime.inl`).

A task first writes its share of the batch to the cache, as many tokens at a time as
sit side by side in one block, and then fills its shares of the rows of `dst`.  Which
row comes from where is `kvUpdateAndGather`; here the rows get their data.  A slot
holds the vector of one token in the type of the cache, behind a codec.

The result is that the grouping, the number of tasks and their order do not show:
cache and rows are what one token at a time would leave.
-/
import DenseCore.Proofs.Attention.Window

namespace DenseCore.Attention

open List Option

/-- How the cache stores the vector of a token. -/
structure SlotCodec (V E : Type) where
  zero : V
  store : V → E
  load : E → V

/-- The batch, over a cache of `maxBlocks` blocks. -/
structure KvBatch (maxBlocks : Nat) where
  nTokens : Nat
  seqId : List Int
  pos : List Nat
  blockTables : List (List (Fin maxBlocks))
  nPast : List Int

/-- `KVCacheUserData`: what the callback knows of its layer. -/
structure KvCacheUserData where
  readOnlySharedKv : Bool
  forceFullHistory : Bool
  policy : KVRetentionPolicy

/-- The slots of the layer, by block and place in the block, and the rows of `dst`. -/
structure KvState (maxBlocks : Nat) (V E : Type) where
  cache : Fin maxBlocks → Nat → E
  dst : Int → V

variable {maxBlocks : Nat} {V E : Type}

namespace KvBatch

/-- The block table of a sequence. -/
def blockTable (b : KvBatch maxBlocks) (seqId : Int) : Option (List (Fin maxBlocks)) :=
  if seqId < 0 then none else b.blockTables[seqId.toNat]?

/-- The sequence, position and block of a token, when it has them all. -/
def locate (b : KvBatch maxBlocks) (i : Nat) : Option (Int × Nat × Fin maxBlocks) := do
  let seqId ← b.seqId[i]?
  let pos ← b.pos[i]?
  let table ← b.blockTable seqId
  let block ← table[pos / blockSlots]?
  return (seqId, pos, block)

/-- The slot a token belongs in. -/
def slotOf (b : KvBatch maxBlocks) (i : Nat) : Option (Fin maxBlocks × Nat) :=
  (b.locate i).map fun l => (l.2.2, l.2.1 % blockSlots)

/-- The inner `while` of the write loop: how far a write may extend. -/
def extendWrite (b : KvBatch maxBlocks) (stop i : Nat) (seqId : Int) (pos : Nat) : Nat → Nat → Nat
  | 0, run => run
  | fuel + 1, run =>
    match if i + run < stop then b.seqId[i + run]? else none, b.pos[i + run]? with
    | some nextSeqId, some nextPos =>
      if nextSeqId ≠ seqId ∨ nextPos ≠ pos + run then run
      else if nextPos / blockSlots ≠ pos / blockSlots then run
      else b.extendWrite stop i seqId pos fuel (run + 1)
    | _, _ => run

/-- `WriteKSlots` and `WriteVSlots`. -/
def writeSlots (cd : SlotCodec V E) (cache : Fin maxBlocks → Nat → E) (block : Fin maxBlocks)
    (startSlot numSlots : Nat) (data : Nat → V) : Fin maxBlocks → Nat → E :=
  if blockSlots < startSlot + numSlots then cache
  else fun k s =>
    if k = block ∧ startSlot ≤ s ∧ s < startSlot + numSlots then cd.store (data (s - startSlot))
    else cache k s

/-- The loop of `WriteCurrentBatchKvToCache`, from token `i` on. -/
def writeCurrentBatch (cd : SlotCodec V E) (b : KvBatch maxBlocks) (src : Nat → V) (stop : Nat) :
    Nat → Nat → (Fin maxBlocks → Nat → E) → (Fin maxBlocks → Nat → E)
  | 0, _, cache => cache
  | fuel + 1, i, cache =>
    if stop ≤ i then cache
    else
      match b.locate i with
      | none => b.writeCurrentBatch cd src stop fuel (i + 1) cache
      | some (seqId, pos, block) =>
        let run := b.extendWrite stop i seqId pos (stop - i) 1
        b.writeCurrentBatch cd src stop fuel (i + run)
          (writeSlots cd cache block (pos % blockSlots) run fun j => src (i + j))

/-- The sequence whose history is gathered: that of the first token. -/
def historySeq (b : KvBatch maxBlocks) : Int := b.seqId.head?.getD (-1)

/-- The blocks that hold the history of the batch. -/
def historyTable (b : KvBatch maxBlocks) : List (Fin maxBlocks) :=
  (b.blockTable b.historySeq).getD []

/-- What the gather reads of the batch. -/
def gatherInput (b : KvBatch maxBlocks) (ud : KvCacheUserData) (nTotal : Int) : GatherInput :=
  { nTokens := b.nTokens
    nTotal := nTotal
    readOnlySharedKv := ud.readOnlySharedKv
    forceFullHistory := ud.forceFullHistory
    policy := ud.policy
    hasValidSeq := (b.blockTable b.historySeq).isSome
    seqNPast := b.nPast[b.historySeq.toNat]?
    blockTableSize := b.historyTable.length }

/-- The vector of a token of the batch as its row gets it: a single token is read
back from the cache. -/
def currentVector (cd : SlotCodec V E) (b : KvBatch maxBlocks) (src : Nat → V)
    (cache : Fin maxBlocks → Nat → E) (i : Nat) : V :=
  if b.nTokens = 1 then
    match b.slotOf i with
    | some (block, slot) => cd.load (cache block slot)
    | none => src i
  else src i

/-- The data of a row, from where they come. -/
def rowData (cd : SlotCodec V E) (b : KvBatch maxBlocks) (src : Nat → V)
    (cache : Fin maxBlocks → Nat → E) (old : V) : RowSource → V
  | .unwritten => old
  | .zeroed => cd.zero
  | .cached logicalBlock slot =>
    match b.historyTable[logicalBlock.toNat]? with
    | some block => cd.load (cache block slot.toNat)
    | none => cd.zero
  | .current token => b.currentVector cd src cache token.toNat

/-- One task of `cb_kv_update_and_gather_custom`. -/
def updateAndGatherTask (cd : SlotCodec V E) (b : KvBatch maxBlocks) (ud : KvCacheUserData)
    (src : Nat → V) (nTotal : Int) (nth : Nat) (st : KvState maxBlocks V E) (ith : Nat) :
    KvState maxBlocks V E :=
  if nTotal < 0 ∨ nTotal - b.nTokens < 0 then st
  else
    let share := chunk b.nTokens ith nth
    let cache :=
      if 0 < b.nTokens ∧ ud.readOnlySharedKv = false ∧ share.1 < share.2 then
        b.writeCurrentBatch cd src share.2.toNat (share.2 - share.1).toNat share.1.toNat st.cache
      else st.cache
    let rows := kvUpdateAndGather (b.gatherInput ud nTotal) nth (fun _ => .unwritten) ith
    { cache := cache, dst := fun r => b.rowData cd src cache (st.dst r) (rows r) }

/-! ### One write after another -/

variable {i stop : Nat}

theorem slotOf_eq_some {b : KvBatch maxBlocks} {c : Fin maxBlocks × Nat} :
    b.slotOf i = some c ↔ ∃ seqId pos table, b.seqId[i]? = some seqId ∧ b.pos[i]? = some pos ∧
      b.blockTable seqId = some table ∧ table[pos / blockSlots]? = some c.1 ∧
      pos % blockSlots = c.2 := by
  obtain ⟨block, slot⟩ := c
  simp only [slotOf, locate, map_eq_some_iff, bind_eq_bind, bind_eq_some_iff,
    Option.pure_def, some.injEq]
  constructor
  · rintro ⟨_, ⟨seqId, hseq, pos, hpos, table, htable, k, hk, rfl⟩, hc⟩
    obtain ⟨rfl, rfl⟩ := Prod.mk.inj hc
    exact ⟨seqId, pos, table, hseq, hpos, htable, hk, rfl⟩
  rintro ⟨seqId, pos, table, hseq, hpos, htable, hk, rfl⟩
  exact ⟨_, ⟨seqId, hseq, pos, hpos, table, htable, block, hk, rfl⟩, rfl⟩

/-- A run is extended only while its slots lie side by side in one block. -/
theorem extendWrite_side_by_side {b : KvBatch maxBlocks} (stop i : Nat) {pos : Nat} {seqId : Int}
    {table : List (Fin maxBlocks)} {block : Fin maxBlocks}
    (htable : b.blockTable seqId = some table)
    (hblock : table[pos / blockSlots]? = some block) : ∀ (fuel run : Nat),
    1 ≤ run → i + run ≤ stop → pos % blockSlots + run ≤ blockSlots →
    (∀ j, j < run → b.slotOf (i + j) = some (block, pos % blockSlots + j)) →
    ∃ run', b.extendWrite stop i seqId pos fuel run = run' ∧ 1 ≤ run' ∧ i + run' ≤ stop ∧
      pos % blockSlots + run' ≤ blockSlots ∧
      ∀ j, j < run' → b.slotOf (i + j) = some (block, pos % blockSlots + j) := by
  intro fuel
  induction fuel with
  | zero =>
    intro run h1 h2 h3 h4
    exact ⟨run, rfl, h1, h2, h3, h4⟩
  | succ fuel ih =>
    intro run h1 h2 h3 h4
    have hstay : ∃ run', run = run' ∧ 1 ≤ run' ∧ i + run' ≤ stop ∧
        pos % blockSlots + run' ≤ blockSlots ∧
        ∀ j, j < run' → b.slotOf (i + j) = some (block, pos % blockSlots + j) :=
      ⟨run, rfl, h1, h2, h3, h4⟩
    unfold extendWrite
    split
    · rename_i nextSeqId nextPos hseq hpos
      split
      · exact hstay
      rename_i hnext
      split
      · exact hstay
      rename_i hsame
      obtain ⟨rfl, rfl⟩ := (not_or.mp hnext).imp not_not.mp not_not.mp
      rw [not_not] at hsame
      have hin : i + run < stop := by
        by_contra hc
        rw [if_neg hc] at hseq
        cases hseq
      rw [if_pos hin] at hseq
      have hroom : pos % blockSlots + (run + 1) ≤ blockSlots ∧
          (pos + run) % blockSlots = pos % blockSlots + run := by
        unfold blockSlots at hsame h3 ⊢
        omega
      refine ih (run + 1) (by omega) (by omega) hroom.1 fun j hj => ?_
      by_cases hlast : j = run
      · subst hlast
        exact slotOf_eq_some.mpr
          ⟨nextSeqId, pos + j, table, hseq, hpos, htable, hsame ▸ hblock, hroom.2⟩
      · exact h4 j (by omega)
    · exact hstay

/-- One round writes a run of tokens that lie side by side, and nothing else. -/
theorem writeCurrentBatch_round (cd : SlotCodec V E) (b : KvBatch maxBlocks) (src : Nat → V)
    (fuel : Nat) (hi : i < stop) (cache : Fin maxBlocks → Nat → E) :
    ∃ run cache', 1 ≤ run ∧ i + run ≤ stop ∧ b.writeCurrentBatch cd src stop (fuel + 1) i cache
        = b.writeCurrentBatch cd src stop fuel (i + run) cache' ∧
      (∀ k c, i ≤ k → k < i + run → b.slotOf k = some c → cache' c.1 c.2 = cd.store (src k)) ∧
      (∀ c : Fin maxBlocks × Nat, (∀ k, i ≤ k → k < i + run → b.slotOf k ≠ some c) →
        cache' c.1 c.2 = cache c.1 c.2) := by
  rw [writeCurrentBatch, if_neg (by omega)]
  split
  · rename_i hnone
    have hnoslot : b.slotOf i = none := by
      rw [slotOf, hnone]
      rfl
    refine ⟨1, cache, Nat.le_refl 1, hi, rfl, ?_, fun _ _ => rfl⟩
    intro k c hk hk' hslot
    obtain rfl : k = i := by omega
    rw [hnoslot] at hslot
    cases hslot
  rename_i seqId pos block hloc
  have hslot : b.slotOf i = some (block, pos % blockSlots) := by
    rw [slotOf, hloc]
    rfl
  obtain ⟨table, htable, hblock⟩ : ∃ table, b.blockTable seqId = some table ∧
      table[pos / blockSlots]? = some block := by
    simp only [locate, bind_eq_bind, bind_eq_some_iff, Option.pure_def,
      some.injEq, Prod.mk.injEq] at hloc
    obtain ⟨_, -, _, -, table, htable, _, hblock, rfl, rfl, rfl⟩ := hloc
    exact ⟨table, htable, hblock⟩
  obtain ⟨run, hrun, h1, hstop, hroom, hall⟩ := extendWrite_side_by_side stop i htable
    hblock (stop - i) 1 (Nat.le_refl 1) hi (by unfold blockSlots; omega) fun j hj => by
      obtain rfl : j = 0 := by omega
      exact hslot
  refine ⟨run, _, h1, hstop, by rw [hrun], ?_, ?_⟩
  · intro k c hk hk' hc
    have hk2 := hall (k - i) (by omega)
    rw [show i + (k - i) = k by omega, hc] at hk2
    cases hk2
    rw [writeSlots, if_neg (by omega)]
    dsimp only
    rw [if_pos ⟨rfl, by omega, by omega⟩]
    congr 2
    omega
  intro c hc
  rw [writeSlots, if_neg (by omega)]
  refine if_neg fun hin => ?_
  refine hc (i + (c.2 - pos % blockSlots)) (by omega) (by omega) ?_
  rw [hall _ (by omega), ← hin.1, show pos % blockSlots + (c.2 - pos % blockSlots) = c.2 by omega]

theorem writeCurrentBatch_other (cd : SlotCodec V E) (b : KvBatch maxBlocks) (src : Nat → V)
    {c : Fin maxBlocks × Nat} : ∀ (fuel i : Nat) (cache : Fin maxBlocks → Nat → E),
    (∀ k, i ≤ k → k < stop → b.slotOf k ≠ some c) →
    b.writeCurrentBatch cd src stop fuel i cache c.1 c.2 = cache c.1 c.2 := by
  intro fuel
  induction fuel with
  | zero =>
    intro i cache _
    rfl
  | succ fuel ih =>
    intro i cache hnone
    by_cases hi : i < stop
    · obtain ⟨run, cache', h1, hstop, heq, -, hkeep⟩ :=
        writeCurrentBatch_round cd b src fuel hi cache
      rw [heq, ih _ _ fun k hk hk' => hnone k (by omega) hk',
        hkeep c fun k hk hk' => hnone k hk (by omega)]
    · rw [writeCurrentBatch, if_pos (by omega)]

theorem writeCurrentBatch_token (cd : SlotCodec V E) (b : KvBatch maxBlocks) (src : Nat → V)
    {k : Nat} {c : Fin maxBlocks × Nat} (hk : k < stop) (hslot : b.slotOf k = some c)
    (hlast : ∀ k', k < k' → k' < stop → b.slotOf k' ≠ some c) :
    ∀ (fuel i : Nat) (cache : Fin maxBlocks → Nat → E), i ≤ k → stop - i ≤ fuel →
    b.writeCurrentBatch cd src stop fuel i cache c.1 c.2 = cd.store (src k) := by
  intro fuel
  induction fuel with
  | zero =>
    intro i cache hik hfuel
    omega
  | succ fuel ih =>
    intro i cache hik hfuel
    obtain ⟨run, cache', h1, hstop, heq, hnew, -⟩ :=
      writeCurrentBatch_round cd b src fuel (by omega : i < stop) cache
    rw [heq]
    by_cases hin : k < i + run
    · rw [writeCurrentBatch_other cd b src fuel _ cache' fun k' hk' => hlast k' (by omega)]
      exact hnew k c hik hin hslot
    · exact ih _ _ (by omega) (by omega)

/-! ### One task after another -/

/-- The slot of the `t`-th retained position of the history, when its block exists. -/
def historySlot (b : KvBatch maxBlocks) (span : KVRetentionSpan) (t : Int) :
    Option (Fin maxBlocks × Nat) :=
  let tokenPos := mapRetainedHistoryIndex span t
  (b.historyTable[(tokenPos / blockSlots).toNat]?).map fun k => (k, (tokenPos % blockSlots).toNat)

/-- What a row of the history should hold: the vector the cache held before, or zeros. -/
def historyVector (cd : SlotCodec V E) (b : KvBatch maxBlocks) (span : KVRetentionSpan)
    (cache : Fin maxBlocks → Nat → E) (t : Int) : V :=
  if span.historyKept ≤ t then cd.zero
  else
    match b.historySlot span t with
    | some c => cd.load (cache c.1 c.2)
    | none => cd.zero

/-- The span of the history a batch gathers. -/
def retainedHistory (b : KvBatch maxBlocks) (ud : KvCacheUserData) (nTotal : Int) :
    KVRetentionSpan :=
  gatherSpan (b.gatherInput ud nTotal)

/-- Batches of several tokens, each in a slot of its own, none of them in a slot the
gather reads, with rows enough for the history. -/
structure Spread (b : KvBatch maxBlocks) (ud : KvCacheUserData) (nTotal : Int) : Prop where
  several : 2 ≤ b.nTokens
  distinct : ∀ i j c, i < b.nTokens → j < b.nTokens →
    b.slotOf i = some c → b.slotOf j = some c → i = j
  fresh : ∀ i c t, i < b.nTokens → b.slotOf i = some c →
    0 ≤ t → t < (b.retainedHistory ud nTotal).historyKept →
    b.historySlot (b.retainedHistory ud nTotal) t ≠ some c
  rows : (b.retainedHistory ud nTotal).historyKept ≤ nTotal - b.nTokens

/-- The batches the update is meant for: the layer has a cache of its own.  A layer that
only reads the cache of another (`read_only_shared_kv`) writes nothing. -/
structure Writable (b : KvBatch maxBlocks) (ud : KvCacheUserData) (nTotal : Int) : Prop
    extends Spread b ud nTotal where
  own : ud.readOnlySharedKv = false

theorem gatherSpan_retains (input : GatherInput) :
    ∃ n, 0 ≤ n ∧ RetentionSpan (gatherSpan input) n := by
  unfold gatherSpan
  split
  · exact ⟨_, by omega, computeKVRetentionSpan_retains (by omega) _⟩
  · exact ⟨0, Int.le_refl 0, by decide, by decide, by decide, by decide⟩

variable {cd : SlotCodec V E} {b : KvBatch maxBlocks} {ud : KvCacheUserData} {src : Nat → V}
  {nTotal : Int} {nth : Nat}

theorem Writable.nPast_nonneg (h : b.Writable ud nTotal) : 0 ≤ nTotal - b.nTokens := by
  obtain ⟨n, hn, h0, h1, h2, h3⟩ := gatherSpan_retains (b.gatherInput ud nTotal)
  have hrows := h.rows
  unfold retainedHistory at hrows
  omega

theorem rowData_history {cache cache₀ : Fin maxBlocks → Nat → E} {old : V} {r : Int} (hr : 0 ≤ r)
    (hsame : ∀ c, r < (b.retainedHistory ud nTotal).historyKept →
      b.historySlot (b.retainedHistory ud nTotal) r = some c → cache c.1 c.2 = cache₀ c.1 c.2) :
    b.rowData cd src cache old
        (historyRow (b.gatherInput ud nTotal) (b.retainedHistory ud nTotal) r)
      = b.historyVector cd (b.retainedHistory ud nTotal) cache₀ r := by
  obtain ⟨n, hn, h0, h1, h2, h3⟩ : ∃ n, 0 ≤ n ∧ RetentionSpan (b.retainedHistory ud nTotal) n :=
    gatherSpan_retains _
  unfold historyRow historyVector
  split
  · rename_i hzero
    rw [if_pos]
    · rfl
    rcases hzero with hseq | hkept
    · -- Without a sequence nothing is kept.
      have hspan : b.retainedHistory ud nTotal = {} := by
        unfold retainedHistory gatherSpan
        rw [hseq]
      rw [hspan]
      exact hr
    · exact hkept
  rename_i hread
  rw [if_neg (fun hkept => hread (Or.inr hkept))]
  have hlt : r < (b.retainedHistory ud nTotal).historyKept := by
    by_contra hc
    exact hread (Or.inr (by omega))
  have hpos : 0 ≤ mapRetainedHistoryIndex (b.retainedHistory ud nTotal) r := by
    unfold mapRetainedHistoryIndex
    split <;> omega
  have hslot : b.historySlot (b.retainedHistory ud nTotal) r
      = (b.historyTable[(mapRetainedHistoryIndex (b.retainedHistory ud nTotal) r
          / blockSlots).toNat]?).map fun k =>
        (k, (mapRetainedHistoryIndex (b.retainedHistory ud nTotal) r % blockSlots).toNat) := rfl
  have hsize : (b.gatherInput ud nTotal).blockTableSize = b.historyTable.length := rfl
  generalize mapRetainedHistoryIndex (b.retainedHistory ud nTotal) r = p at hpos hslot ⊢
  dsimp only
  by_cases hin : (p / (blockSlots : Int)).toNat < b.historyTable.length
  · rw [getElem?_eq_getElem hin] at hslot
    rw [if_neg (by unfold blockSlots at hin ⊢; omega), hslot]
    unfold rowData
    dsimp only
    rw [getElem?_eq_getElem hin]
    exact congrArg cd.load (hsame _ hlt hslot)
  rw [getElem?_eq_none (Nat.le_of_not_lt hin)] at hslot
  rw [if_pos (by unfold blockSlots at hin ⊢; omega), hslot]
  rfl

/-- How far a run of tasks has come. -/
structure Progress (cd : SlotCodec V E) (b : KvBatch maxBlocks) (ud : KvCacheUserData)
    (src : Nat → V) (nTotal : Int) (nth : Nat) (st₀ st : KvState maxBlocks V E)
    (done : List Nat) : Prop where
  token : ∀ i c, i < b.nTokens → b.slotOf i = some c →
    (∃ ith ∈ done, InChunk b.nTokens ith nth i) → st.cache c.1 c.2 = cd.store (src i)
  other : ∀ c, (∀ i, i < b.nTokens → b.slotOf i ≠ some c) → st.cache c.1 c.2 = st₀.cache c.1 c.2
  history : ∀ r, (∃ ith ∈ done, InChunk (nTotal - b.nTokens) ith nth r) →
    st.dst r = b.historyVector cd (b.retainedHistory ud nTotal) st₀.cache r
  current : ∀ i : Nat, (∃ ith ∈ done, InChunk b.nTokens ith nth i) →
    st.dst (nTotal - b.nTokens + i) = src i

theorem updateAndGatherTask_cache (cd : SlotCodec V E) (src : Nat → V) (nth : Nat)
    (h : b.Writable ud nTotal) (st : KvState maxBlocks V E) (ith : Nat) :
    (∀ (i : Nat) c, InChunk b.nTokens ith nth i → b.slotOf i = some c →
      (b.updateAndGatherTask cd ud src nTotal nth st ith).cache c.1 c.2 = cd.store (src i)) ∧
    (∀ c : Fin maxBlocks × Nat, (∀ i : Nat, InChunk b.nTokens ith nth i → b.slotOf i ≠ some c) →
      (b.updateAndGatherTask cd ud src nTotal nth st ith).cache c.1 c.2 = st.cache c.1 c.2) := by
  have hpast := h.nPast_nonneg
  have hmany := h.several
  obtain ⟨hlo, hhi⟩ := chunk_bounds (Int.natCast_nonneg b.nTokens) ith nth
  unfold updateAndGatherTask InChunk
  rw [if_neg (by omega)]
  dsimp only
  generalize chunk b.nTokens ith nth = share at hlo hhi ⊢
  by_cases hshare : share.1 < share.2
  · rw [if_pos ⟨by omega, h.own, hshare⟩]
    constructor
    · intro i c hi hslot
      refine writeCurrentBatch_token cd b src (by omega) hslot ?_ _ _ _ (by omega) (by omega)
      intro k hk hk' hsame
      have := h.distinct i k c (by omega) (by omega) hslot hsame
      omega
    intro c hnone
    exact writeCurrentBatch_other cd b src _ _ _ fun k hk hk' => hnone k (by omega)
  rw [if_neg (fun hc => hshare hc.2.2)]
  exact ⟨fun i c hi _ => absurd (Int.lt_of_le_of_lt hi.1 hi.2) hshare, fun _ _ => rfl⟩

theorem updateAndGatherTask_dst (h : b.Writable ud nTotal) (st : KvState maxBlocks V E)
    (ith : Nat) (r : Int) :
    (b.updateAndGatherTask cd ud src nTotal nth st ith).dst r =
      b.rowData cd src (b.updateAndGatherTask cd ud src nTotal nth st ith).cache (st.dst r)
        (if InChunk (nTotal - b.nTokens) ith nth r then
          historyRow (b.gatherInput ud nTotal) (b.retainedHistory ud nTotal) r
        else if InChunk b.nTokens ith nth (r - (nTotal - b.nTokens)) then
          .current (r - (nTotal - b.nTokens))
        else .unwritten) := by
  have hpast := h.nPast_nonneg
  unfold updateAndGatherTask
  rw [if_neg (by omega)]
  exact congrArg (b.rowData cd src _ (st.dst r)) (kvUpdateAndGather_apply h.own
    (Int.natCast_nonneg b.nTokens) (show nTotal - b.nTokens = nTotal - b.nTokens from rfl) hpast
    nth ith _ r)

/-- **One task keeps the account of what is done.** -/
theorem Progress.task (h : b.Writable ud nTotal) {st₀ st : KvState maxBlocks V E} {done : List Nat}
    (hp : Progress cd b ud src nTotal nth st₀ st done) (ith : Nat) :
    Progress cd b ud src nTotal nth st₀ (b.updateAndGatherTask cd ud src nTotal nth st ith)
      (ith :: done) := by
  have hpast := h.nPast_nonneg
  obtain ⟨hnew, hkeep⟩ := updateAndGatherTask_cache cd src nth h st ith
  obtain ⟨hlo, hhi⟩ := chunk_bounds (Int.natCast_nonneg b.nTokens) ith nth
  obtain ⟨hlo', hhi'⟩ := chunk_bounds hpast ith nth
  have hother : ∀ c, (∀ i, i < b.nTokens → b.slotOf i ≠ some c) →
      (b.updateAndGatherTask cd ud src nTotal nth st ith).cache c.1 c.2 = st₀.cache c.1 c.2 := by
    intro c hnone
    rw [hkeep c fun i hi => hnone i (by unfold InChunk at hi; omega)]
    exact hp.other c hnone
  refine ⟨?_, hother, ?_, ?_⟩
  · intro i c hi hslot hdone
    by_cases hown : InChunk b.nTokens ith nth i
    · exact hnew i c hown hslot
    obtain ⟨k, hk, hin⟩ := hdone
    rcases mem_cons.mp hk with rfl | hk
    · exact absurd hin hown
    rw [hkeep c]
    · exact hp.token i c hi hslot ⟨k, hk, hin⟩
    intro j hj hsame
    obtain rfl := h.distinct j i c (by unfold InChunk at hj; omega) hi hsame hslot
    exact hown hj
  · intro r hdone
    rw [updateAndGatherTask_dst h]
    by_cases hown : InChunk (nTotal - b.nTokens) ith nth r
    · have hr : 0 ≤ r := by
        unfold InChunk at hown
        omega
      rw [if_pos hown]
      -- The slots of the history are nobody's to write.
      refine rowData_history hr fun c hlt hslot => hother c fun i hi hc => ?_
      exact h.fresh i c r hi hc hr hlt hslot
    obtain ⟨k, hk, hin⟩ := hdone
    have hlt : r < nTotal - b.nTokens := by
      have := (chunk_bounds hpast k nth).2
      unfold InChunk at hin
      omega
    rw [if_neg hown, if_neg (by unfold InChunk; omega)]
    rcases mem_cons.mp hk with rfl | hk
    · exact absurd hin hown
    · exact hp.history r ⟨k, hk, hin⟩
  · intro i hdone
    have hi : nTotal - b.nTokens + (i : Int) - (nTotal - b.nTokens) = i := by omega
    rw [updateAndGatherTask_dst h, hi, if_neg (by unfold InChunk; omega)]
    by_cases hown : InChunk b.nTokens ith nth i
    · rw [if_pos hown]
      have hmany := h.several
      exact if_neg (by omega)
    rw [if_neg hown]
    obtain ⟨k, hk, hin⟩ := hdone
    rcases mem_cons.mp hk with rfl | hk
    · exact absurd hin hown
    · exact hp.current i ⟨k, hk, hin⟩

theorem Progress.run (h : b.Writable ud nTotal) {st₀ : KvState maxBlocks V E} (order : List Nat) :
    ∀ (st : KvState maxBlocks V E) (done : List Nat), Progress cd b ud src nTotal nth st₀ st done →
    Progress cd b ud src nTotal nth st₀
      (order.foldl (b.updateAndGatherTask cd ud src nTotal nth) st) (order.reverse ++ done) := by
  induction order with
  | nil =>
    intro st done hp
    exact hp
  | cons ith rest ih =>
    intro st done hp
    rw [reverse_cons, append_assoc]
    exact ih _ _ (hp.task h ith)

/-- **Coalescing does not show.**  However many tasks share the work and in whatever
order they run, the cache afterwards holds each token of the batch in the token's own
slot and is otherwise unchanged, and the rows hold the kept history as it was before,
zeros, and the batch. -/
theorem updateAndGather_token_by_token (cd : SlotCodec V E) (b : KvBatch maxBlocks)
    (ud : KvCacheUserData) (src : Nat → V) (nTotal : Int) (h : b.Writable ud nTotal) (nth : Nat)
    (hnth : 1 ≤ nth) (order : List Nat) (horder : order.Perm (range nth))
    (st : KvState maxBlocks V E) :
    let out := order.foldl (b.updateAndGatherTask cd ud src nTotal nth) st
    let span := b.retainedHistory ud nTotal
    (∀ i c, i < b.nTokens → b.slotOf i = some c → out.cache c.1 c.2 = cd.store (src i)) ∧
    (∀ c, (∀ i, i < b.nTokens → b.slotOf i ≠ some c) → out.cache c.1 c.2 = st.cache c.1 c.2) ∧
    (∀ t, 0 ≤ t → t < span.historyKept → out.dst t =
      match b.historySlot span t with
      | some c => cd.load (st.cache c.1 c.2)
      | none => cd.zero) ∧
    (∀ t, span.historyKept ≤ t → t < nTotal - b.nTokens → out.dst t = cd.zero) ∧
    (∀ i : Nat, i < b.nTokens → out.dst (nTotal - b.nTokens + i) = src i) := by
  intro out span
  have hstart : Progress cd b ud src nTotal nth st st [] :=
    ⟨fun _ _ _ _ hdone => by simp at hdone, fun _ _ => rfl,
      fun _ hdone => by simp at hdone, fun _ hdone => by simp at hdone⟩
  obtain ⟨htoken, hother, hhistory, hcurrent⟩ := hstart.run h order st []
  have hall : ∀ total r : Int, 0 ≤ r → r < total →
      ∃ ith ∈ order.reverse ++ [], InChunk total ith nth r := by
    intro total r h0 hr
    obtain ⟨ith, hlt, hin⟩ := exists_chunk hnth h0 hr
    refine ⟨ith, ?_, hin⟩
    rw [append_nil, mem_reverse, horder.mem_iff]
    exact mem_range.mpr hlt
  have hrows : span.historyKept ≤ nTotal - b.nTokens := h.rows
  have hkept : 0 ≤ span.historyKept := by
    obtain ⟨n, hn, h0, h1, h2, h3⟩ := gatherSpan_retains (b.gatherInput ud nTotal)
    exact h3 ▸ (by omega)
  refine ⟨?_, hother, ?_, ?_, ?_⟩
  · intro i c hi hslot
    exact htoken i c hi hslot (hall _ _ (by omega) (by omega))
  · intro t h0 ht
    refine (hhistory t (hall _ _ h0 (by omega))).trans ?_
    exact if_neg (Int.not_le.mpr ht)
  · intro t ht ht'
    refine (hhistory t (hall _ _ (by omega) ht')).trans ?_
    exact if_pos ht
  intro i hi
  exact hcurrent i (hall _ _ (by omega) (by omega))

section

local instance : NeZero 4 := ⟨four_ne_zero⟩

private def pairBatch : KvBatch 4 :=
  { nTokens := 2, seqId := [0, 0], pos := [2, 3], blockTables := [[1]], nPast := [2] }

/-- The layer of a Gemma 4 decoder that shares the keys of an earlier one, with a window
of two positions. -/
private def sharedLayer : KvCacheUserData :=
  { readOnlySharedKv := true, forceFullHistory := false, policy := ⟨2, 0, true⟩ }

private def aheadBatch : KvBatch 4 := { pairBatch with pos := [5, 6] }

end

/-- Two tokens side by side, behind two history rows in the same block. -/
theorem spread_of_block {b : KvBatch 4} {ud : KvCacheUserData} {k : Nat} (hk : 2 ≤ k)
    (htokens : b.nTokens = 2) (hkept : (b.retainedHistory ud 4).historyKept = 2)
    (hslot : ∀ i, i < 2 → b.slotOf i = some (1, i + k)) (hhistory : ∀ t : Nat, t < 2 →
      b.historySlot (b.retainedHistory ud 4) t = some (1, t)) : b.Spread ud 4 := by
  refine ⟨htokens.ge, ?_, ?_, by omega⟩
  · intro i j c hi hj h1 h2
    rw [hslot i (by omega)] at h1
    rw [hslot j (by omega), ← h1] at h2
    simpa using h2.symm
  intro i c t hi h1 h0 ht
  rw [hslot i (by omega)] at h1
  rw [← h1, show t = (t.toNat : Int) by omega, hhistory t.toNat (by omega)]
  simp only [ne_eq, some.injEq, Prod.mk.injEq, true_and]
  omega

/-- Two tokens behind a history of two, over two tasks that run in the wrong order. -/
theorem updateAndGather_token_by_token_pair :
    let out := [1, 0].foldl (pairBatch.updateAndGatherTask ⟨0, id, id⟩ ⟨false, false, {}⟩
      (100 + ·) 4 2) { cache := fun _ slot => slot, dst := fun _ => 9 }
    out.cache 1 1 = 1 ∧ out.cache 1 2 = 100 ∧ out.cache 1 3 = 101 ∧
      out.dst 0 = 0 ∧ out.dst 1 = 1 ∧ out.dst 2 = 100 ∧ out.dst 3 = 101 := by
  have hslot : ∀ i, i < 2 → pairBatch.slotOf i = some (1, i + 2) := by decide
  have hhistory : ∀ t : Nat, t < 2 →
      pairBatch.historySlot (pairBatch.retainedHistory ⟨false, false, {}⟩ 4) t = some (1, t) := by
    decide
  have h : pairBatch.Writable ⟨false, false, {}⟩ 4 :=
    ⟨spread_of_block le_rfl rfl rfl hslot hhistory, rfl⟩
  obtain ⟨htoken, hother, hhist, -, hcur⟩ := updateAndGather_token_by_token ⟨0, id, id⟩ pairBatch
    ⟨false, false, {}⟩ (100 + ·) 4 h 2 (by decide) [1, 0] (by decide)
    { cache := fun _ slot => slot, dst := fun _ => 9 }
  have hold : ∀ i, i < 2 → pairBatch.slotOf i ≠ some (1, 1) := by decide
  exact ⟨hother (1, 1) hold, htoken 0 (1, 2) (by decide) (by decide),
    htoken 1 (1, 3) (by decide) (by decide), hhist 0 (by decide) (by decide),
    hhist 1 (by decide) (by decide), hcur 0 (by decide), hcur 1 (by decide)⟩

/-- **A layer that shares another's cache is not updated.**  The tokens of the batch have
slots of their own and `dst` has the rows, yet both tasks together leave the cache as it
was and write no row of the batch. -/
theorem updateAndGather_sharedLayer :
    let out := [1, 0].foldl (aheadBatch.updateAndGatherTask ⟨0, id, id⟩ sharedLayer
      (100 + ·) 4 2) { cache := fun _ slot => slot, dst := fun _ => 9 }
    aheadBatch.Spread sharedLayer 4 ∧ aheadBatch.slotOf 0 = some (1, 5) ∧
      out.cache 1 5 = 5 ∧ out.cache 1 6 = 6 ∧ out.dst 2 ≠ 100 ∧ out.dst 3 ≠ 101 := by
  have hslot : ∀ i, i < 2 → aheadBatch.slotOf i = some (1, i + 5) := by decide
  have hhistory : ∀ t : Nat, t < 2 →
      aheadBatch.historySlot (aheadBatch.retainedHistory sharedLayer 4) t = some (1, t) := by
    decide
  exact ⟨spread_of_block (by decide) rfl rfl hslot hhistory, hslot 0 (by decide), by decide⟩

end KvBatch

end DenseCore.Attention
