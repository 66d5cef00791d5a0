/-
What a prefix lookup returns, and what it leaves behind.

The lookup takes a reference on one block after the other and may then give a tail of
them back.  Taking and giving back only ever moves reference counts, since a verified
block is resident and so never reaches a free list: after any number of them the
manager is the first one with a reference for each block still in hand, which is
`withRefs`.  The scan keeps that, and keeps that its blocks are verified in the index
as it stood at the start, one for each stretch of the prompt; so it stops only where
the next stretch is not verified or would leave no token to execute.

Where a recurrent snapshot is asked for, the scan also knows the last of its blocks with
an accepted one, and that is where the chain is cut.
-/
import DenseCore.Proofs.Memory.PrefixReuse

namespace DenseCore.BlockManager

open List

variable {σ : Type}

/-! ### What is looked for -/

/-- The block verified for the `k`-th stretch of a prompt: the index holds it under the
hash of everything up to the stretch's end, and with the sixteen tokens of the stretch. -/
def VerifiedAt (salt : UInt64) (m : BlockManager σ) (tokens : List Int32) (k : Nat) (b : Int) :
    Prop :=
  FoundAt salt m tokens k b ∧ ((tokens.drop (blockSlots * k)).take blockSlots).length = blockSlots

/-- The longest chain of verified blocks that leaves a token of the prompt to execute. -/
structure LongestChain (salt : UInt64) (m : BlockManager σ) (tokens : List Int32) (n : Int)
    (chain : List Int) : Prop where
  verified : ∀ i b, chain[i]? = some b → VerifiedAt salt m tokens i b
  leaves : chain = [] ∨ (blockSlots * chain.length : Nat) < n
  longest : (blockSlots * (chain.length + 1) : Nat) < n → ∀ b,
    ¬ VerifiedAt salt m tokens chain.length b

variable (m : BlockManager σ)

/-- A block with a snapshot that the validator, when there is one, accepts. -/
def SnapshotAccepted (v : Option (List σ → Bool)) (b : Int) : Prop :=
  ∃ snapshot, m.loadHybridSSMSnapshotForBlock b = some snapshot ∧
    ∀ accepts, v = some accepts → accepts snapshot = true

/-- The first `t` blocks of a chain end with the last block that has an accepted snapshot;
there are none when no block has. -/
structure CutsAt (m : BlockManager σ) (v : Option (List σ → Bool)) (chain : List Int) (t : Nat) :
    Prop where
  within : t ≤ chain.length
  accepted : t = 0 ∨ ∃ b, chain[t - 1]? = some b ∧ m.SnapshotAccepted v b
  last : ∀ i b, t ≤ i → chain[i]? = some b → ¬ m.SnapshotAccepted v b

theorem hasUsableSnapshot_iff (b : Int) (v : Option (List σ → Bool)) :
    m.hasUsableSnapshot b v = true ↔ m.SnapshotAccepted v b := by
  unfold hasUsableSnapshot SnapshotAccepted
  cases m.loadHybridSSMSnapshotForBlock b with
  | none => simp
  | some snapshot =>
    cases v with
    | none => simp
    | some accepts => simp

/-! ### References in hand -/

/-- The manager with one more reference for each occurrence in a list of blocks. -/
def withRefs (ids : List Int) : BlockManager σ :=
  { m with
    blocks := fun b => { m.blocks b with refCount := (m.blocks b).refCount + ids.count b } }

theorem withRefs_nil : m.withRefs [] = m := by
  unfold withRefs
  simp

theorem withRefs_perm {ids ids' : List Int} (h : ids.Perm ids') :
    m.withRefs ids = m.withRefs ids' := by
  unfold withRefs
  congr
  funext b
  rw [h.count_eq]

theorem withRefs_take (ids : List Int) (b : Int) :
    ((m.withRefs ids).modifyBlock b fun k => { k with refCount := k.refCount + 1 }) =
      m.withRefs (b :: ids) := by
  unfold withRefs modifyBlock
  congr
  funext b'
  by_cases heq : b' = b
  · subst heq
    simp
    omega
  · simp [heq, Ne.symm heq]

/-- Giving the reference back. -/
theorem withRefs_give (ids : List Int) (b : Int) :
    ((m.withRefs (b :: ids)).modifyBlock b fun k => { k with refCount := k.refCount - 1 }) =
      m.withRefs ids := by
  unfold withRefs modifyBlock
  congr
  funext b'
  by_cases heq : b' = b
  · subst heq
    simp
    omega
  · simp [heq, Ne.symm heq]

variable {b : Int} {salt : UInt64} {tokens : List Int32}

theorem acquireCached_withRefs {m : BlockManager σ} (hm : WellFormed m) (ids : List Int)
    (hres : (m.blocks b).cacheResident = true) :
    (m.withRefs ids).acquireCached b = (some b, m.withRefs (ids ++ [b])) := by
  have href := hm.partition.refNonneg b
  unfold acquireCached
  rw [if_neg ?_, withRefs_take, withRefs_perm m (perm_append_singleton b ids).symm]
  unfold withRefs
  simp only [hres, Bool.true_eq_false, false_and, or_false]
  omega

theorem freeSingle_withRefs {m : BlockManager σ} (hm : WellFormed m) (ids : List Int)
    (hres : (m.blocks b).cacheResident = true) :
    (m.withRefs (b :: ids)).freeSingle b = m.withRefs ids := by
  have href := hm.partition.refNonneg b
  have hin : (m.withRefs (b :: ids)).InRange b := hm.index.residentInRange b hres
  unfold freeSingle
  rw [if_neg (not_not.mpr hin), if_neg ?_]
  · dsimp only
    rw [withRefs_give]
    exact if_pos (Or.inr hres)
  unfold withRefs
  simp only [count_cons_self]
  omega

theorem free_withRefs {m : BlockManager σ} (hm : WellFormed m) (kept dropped : List Int)
    (hres : ∀ b ∈ dropped, (m.blocks b).cacheResident = true) :
    (m.withRefs (kept ++ dropped)).free dropped = m.withRefs kept := by
  unfold free
  induction dropped with
  | nil => rw [append_nil]; rfl
  | cons b rest ih =>
    rw [foldl_cons, withRefs_perm m perm_middle, freeSingle_withRefs hm _ (hres b mem_cons_self)]
    exact ih fun b' hb' => hres b' (mem_cons_of_mem b hb')

/-! ### One stretch -/

theorem VerifiedAt.resident {m : BlockManager σ} {k : Nat} (hm : WellFormed m)
    (h : VerifiedAt salt m tokens k b) :
    (m.blocks b).cacheResident = true :=
  ((hm.index.lookup_iff _ b).mp h.1.1).1

/-- A stretch is found or not, whatever references are in hand. -/
theorem findStretch_cases (salt : UInt64) {m : BlockManager σ} (hm : WellFormed m)
    (tokens : List Int32) (k : Nat) (ids : List Int) :
    let found := (m.withRefs ids).findCachedBlockWithVerification
      (computeTokenHash salt tokens (k * blockSlots + blockSlots : Nat))
      (some (tokens.drop (k * blockSlots))) blockSlots
    (found = (none, m.withRefs ids) ∧ ∀ b, ¬ VerifiedAt salt m tokens k b) ∨
      ∃ b, found = (some b, m.withRefs (ids ++ [b])) ∧ VerifiedAt salt m tokens k b := by
  intro found
  have hoffset : k * blockSlots = blockSlots * k := Nat.mul_comm _ _
  have hend : k * blockSlots + blockSlots = blockSlots * (k + 1) := by
    rw [hoffset, Nat.mul_succ]
  rcases findCachedBlockWithVerification_cases (m.withRefs ids)
      (computeTokenHash salt tokens (k * blockSlots + blockSlots : Nat))
      (some (tokens.drop (k * blockSlots))) blockSlots with
    hnone | ⟨l, b, hl, -, -, hlook, hstored, hlen, heq⟩
  · refine Or.inl ⟨hnone, ?_⟩
    rintro b ⟨⟨hlook, hstored⟩, hlen⟩
    obtain ⟨hres, -, hne⟩ := (hm.index.lookup_iff _ b).mp hlook
    -- Every test of the lookup passes, so it cannot have returned nothing.
    have hfound : found = (m.withRefs ids).acquireCached b := by
      show (m.withRefs ids).findCachedBlockWithVerification _ _ _ = _
      unfold findCachedBlockWithVerification
      rw [computeTokenHash_eq, hend, hoffset]
      dsimp only
      rw [if_neg (by rintro (hzero | hneg)
                     · exact hne hzero
                     · unfold blockSlots at hneg; omega)]
      rw [show (m.withRefs ids).prefixCache = m.prefixCache from rfl, hlook]
      dsimp only
      rw [show (m.withRefs ids).blockTokens = m.blockTokens from rfl, hstored]
      dsimp only
      rw [if_neg (by rw [hlen]; exact not_not.mpr rfl), if_neg (by simp)]
    rw [acquireCached_withRefs hm ids hres] at hfound
    have habsurd := hfound.symm.trans hnone
    cases habsurd
  · cases hl
    have hverified : VerifiedAt salt m tokens k b := by
      rw [computeTokenHash_eq, hend] at hlook
      rw [hoffset] at hstored hlen
      exact ⟨⟨hlook, hstored⟩, by exact_mod_cast hlen⟩
    refine Or.inr ⟨b, ?_, hverified⟩
    rw [← acquireCached_withRefs hm ids (hverified.resident hm)]
    exact heq

/-! ### The scan -/

/-- What holds of the scan when it has looked at the first stretches. -/
structure Scanned (salt : UInt64) (m₀ : BlockManager σ) (tokens : List Int32) (req : Bool)
    (v : Option (List σ → Bool)) (scan : PrefixScan) (m : BlockManager σ) : Prop where
  inHand : m = m₀.withRefs scan.acquired
  verified : ∀ i b, scan.acquired[i]? = some b → VerifiedAt salt m₀ tokens i b
  terminal : req = true →
    ∃ t : Nat, scan.terminalSnapshotBlockCount = t ∧ CutsAt m₀ v scan.acquired t

theorem getElem?_snoc {l : List Int} {b' : Int} {i : Nat} (h : (l ++ [b])[i]? = some b') :
    l[i]? = some b' ∨ i = l.length ∧ b' = b := by
  rw [getElem?_append] at h
  split at h
  · exact Or.inl h
  rename_i hlong
  obtain ⟨hlt, hget⟩ := List.getElem?_eq_some_iff.mp h
  rw [length_singleton] at hlt
  refine Or.inr ⟨by omega, ?_⟩
  simpa using hget.symm

theorem CutsAt.snoc {m : BlockManager σ} {v : Option (List σ → Bool)} {chain : List Int} {t : Nat}
    (h : CutsAt m v chain t) (b : Int) :
    CutsAt m v (chain ++ [b])
      (if m.hasUsableSnapshot b v = true then (chain ++ [b]).length else t) := by
  split
  · rename_i husable
    refine ⟨Nat.le_refl _, Or.inr ⟨b, by simp, (hasUsableSnapshot_iff m b v).mp husable⟩, ?_⟩
    intro i b' hi hget
    obtain ⟨hlt, -⟩ := List.getElem?_eq_some_iff.mp hget
    omega
  rename_i husable
  refine ⟨?_, h.accepted.imp_right ?_, ?_⟩
  · rw [length_append]
    exact Nat.le_add_right_of_le h.within
  · rintro ⟨b', hget, haccepted⟩
    obtain ⟨hlt, -⟩ := List.getElem?_eq_some_iff.mp hget
    exact ⟨b', by rw [getElem?_append_left hlt, hget], haccepted⟩
  intro i b' hi hget
  rcases getElem?_snoc hget with hold | ⟨-, rfl⟩
  · exact h.last i b' hi hold
  · exact fun haccepted => husable ((hasUsableSnapshot_iff m b' v).mpr haccepted)

variable {req : Bool} {scan : PrefixScan}

theorem Scanned.snoc {m₀ : BlockManager σ} {v : Option (List σ → Bool)} {m : BlockManager σ}
    (h : Scanned salt m₀ tokens req v scan m)
    (hb : VerifiedAt salt m₀ tokens scan.acquired.length b) :
    Scanned salt m₀ tokens req v ⟨scan.acquired ++ [b],
        if req && (m₀.withRefs (scan.acquired ++ [b])).hasUsableSnapshot b v then
          ((scan.acquired ++ [b]).length : Int)
        else scan.terminalSnapshotBlockCount⟩ (m₀.withRefs (scan.acquired ++ [b])) := by
  refine ⟨rfl, ?_, ?_⟩
  · intro i b' hget
    rcases getElem?_snoc hget with hold | ⟨rfl, rfl⟩
    · exact h.verified i b' hold
    · exact hb
  intro hreq
  obtain ⟨t, ht, hcuts⟩ := h.terminal hreq
  refine ⟨_, ?_, hcuts.snoc b⟩
  rw [hreq, Bool.true_and, ht]
  exact (apply_ite Nat.cast _ _ _).symm

/-- **The scan stops only where it has to.** -/
theorem scanCachedPrefix_scanned {m₀ : BlockManager σ} (hm : WellFormed m₀)
    (tokens : List Int32) (req : Bool) (v : Option (List σ → Bool)) :
    ∀ (left : Nat) (scan : PrefixScan) (m : BlockManager σ), Scanned salt m₀ tokens req v scan m →
      let r := scanCachedPrefix salt tokens req v left scan.acquired.length scan m
      Scanned salt m₀ tokens req v r.1 r.2 ∧ r.1.acquired.length ≤ scan.acquired.length + left ∧
        (r.1.acquired.length < scan.acquired.length + left → ∀ b,
          ¬ VerifiedAt salt m₀ tokens r.1.acquired.length b) := by
  intro left
  induction left with
  | zero => exact fun scan m h => ⟨h, Nat.le_refl _, fun hlt => absurd hlt (Nat.lt_irrefl _)⟩
  | succ left ih =>
    intro scan m h
    obtain rfl := h.inHand
    unfold scanCachedPrefix
    dsimp only
    rcases findStretch_cases salt hm tokens scan.acquired.length scan.acquired with
      ⟨hnone, hunverified⟩ | ⟨b, hsome, hverified⟩
    · rw [hnone]
      exact ⟨h, Nat.le_add_right _ _, fun _ => hunverified⟩
    rw [hsome]
    have hnext := ih _ _ (h.snoc hverified)
    dsimp only at hnext
    rw [length_append, length_singleton, Nat.add_assoc, Nat.add_comm 1 left] at hnext
    dsimp only
    rwa [length_append, length_singleton]

/-! ### The cut -/

/-- **The lookup keeps the chain, or cuts it behind the last accepted snapshot.** -/
theorem dropBeyondSnapshot_scanned {m₀ : BlockManager σ} (hm : WellFormed m₀)
    {v : Option (List σ → Bool)}
    {m : BlockManager σ} (h : Scanned salt m₀ tokens req v scan m) :
    let kept := dropBeyondSnapshot req scan m
    kept.2 = m₀.withRefs kept.1 ∧
      if req then ∃ t, CutsAt m₀ v scan.acquired t ∧ kept.1 = scan.acquired.take t
      else kept.1 = scan.acquired := by
  obtain rfl := h.inHand
  have hresident : ∀ b ∈ scan.acquired, (m₀.blocks b).cacheResident = true := by
    intro b hb
    obtain ⟨i, hi⟩ := getElem?_of_mem hb
    exact (h.verified i b hi).resident hm
  unfold dropBeyondSnapshot
  cases req with
  | false => exact ⟨rfl, rfl⟩
  | true =>
    obtain ⟨t, ht, hcuts⟩ := h.terminal rfl
    rw [if_neg (by simp), ht]
    dsimp only
    split
    · rename_i hzero
      obtain rfl : t = 0 := by omega
      refine ⟨?_, 0, hcuts, (take_zero).symm⟩
      have hall := free_withRefs hm [] scan.acquired hresident
      rwa [nil_append] at hall
    rw [Int.toNat_natCast]
    split
    · refine ⟨?_, t, hcuts, rfl⟩
      have htail := free_withRefs hm (scan.acquired.take t) (scan.acquired.drop t)
        fun b hb => hresident b (mem_of_mem_drop hb)
      rwa [take_append_drop] at htail
    rename_i hall
    have hlen : scan.acquired.length ≤ t := by omega
    exact ⟨rfl, t, hcuts, (take_of_length_le hlen).symm⟩

/-! ### The lookup -/

/-- What a lookup returns and leaves behind. -/
structure LooksUp (salt : UInt64) (m : BlockManager σ) (tokens : List Int32) (n : Int)
    (req : Bool) (v : Option (List σ → Bool)) (r : PrefixCacheMatch × BlockManager σ) : Prop where
  accounted : r.2 = m.withRefs r.1.cachedBlockIds
  covers : r.1.cachedTokens = r.1.cachedBlockIds.length * blockSlots
  chain : ∃ chain, LongestChain salt m tokens n chain ∧
    if req then ∃ t, CutsAt m v chain t ∧ r.1.cachedBlockIds = chain.take t
    else r.1.cachedBlockIds = chain

/-- Where no chain can be, nothing is returned. -/
theorem looksUp_empty {m : BlockManager σ} {n : Int} (req : Bool) (v : Option (List σ → Bool))
    (h : (blockSlots : Int) < n → ∀ b, ¬ VerifiedAt salt m tokens 0 b) :
    LooksUp salt m tokens n req v ({}, m) := by
  refine ⟨(withRefs_nil m).symm, rfl, [], ⟨fun i b hget => by simp at hget, Or.inl rfl, ?_⟩, ?_⟩
  · intro hlong
    exact h (by simpa using hlong)
  cases req with
  | false => rfl
  | true => exact ⟨0, ⟨Nat.le_refl 0, Or.inl rfl, fun i b _ hget => by simp at hget⟩, rfl⟩

/-- **A prefix lookup is exact.**  In every reachable manager, for every prompt, length
and validator: the lookup changes no more than the reference counts, by the occurrences
of each block in the list it returns; and that list is the longest chain of verified
blocks that leaves a token to execute, cut behind its last accepted snapshot when one is
required. -/
theorem run_lookup_exact (salt : UInt64) (numBlocks : Nat) (blockSize : Int) (ops : List (Op σ))
    (tokens : Option (List Int32)) (n : Int) (req : Bool) (v : Option (List σ → Bool)) :
    LooksUp salt (run salt (init numBlocks blockSize) ops) (tokens.getD []) n req v
      ((run salt (init numBlocks blockSize) ops).findLongestCachedPrefixWithVerification salt
        tokens n req v) := by
  have hm : WellFormed (run salt (init numBlocks blockSize : BlockManager σ) ops) :=
    run_wellFormed salt numBlocks blockSize ops
  generalize run salt (init numBlocks blockSize : BlockManager σ) ops = m at hm
  unfold findLongestCachedPrefixWithVerification
  cases tokens with
  | none =>
    refine looksUp_empty req v ?_
    rintro - b ⟨-, hlen⟩
    simp [blockSlots] at hlen
  | some ts =>
    dsimp only [Option.getD_some]
    split
    · exact looksUp_empty req v fun hlong => by omega
    rename_i hlong
    rw [if_neg (by unfold blockSlots at hlong ⊢; omega)]
    have hleft : (((n - 1) / blockSlots * blockSlots / blockSlots).toNat : Int) =
        (n - 1) / blockSlots := by
      unfold blockSlots at hlong ⊢
      omega
    generalize ((n - 1) / blockSlots * blockSlots / blockSlots).toNat = left at hleft ⊢
    have hstart : Scanned salt m ts req v ⟨[], if req then 0 else -1⟩ m := by
      refine ⟨(withRefs_nil m).symm, fun i b hget => by simp at hget, ?_⟩
      rintro rfl
      exact ⟨0, rfl, Nat.le_refl 0, Or.inl rfl, fun i b _ hget => by simp at hget⟩
    obtain ⟨hscanned, hle, hstop⟩ := scanCachedPrefix_scanned hm ts req v left _ _ hstart
    simp only [length_nil, Nat.zero_add] at hscanned hle hstop
    obtain ⟨haccounted, hkept⟩ := dropBeyondSnapshot_scanned hm hscanned
    refine ⟨haccounted, rfl, _, ⟨hscanned.verified, ?_, ?_⟩, hkept⟩
    · refine Or.inr ?_
      unfold blockSlots at hleft ⊢
      omega
    intro hroom
    refine hstop ?_
    unfold blockSlots at hleft hroom
    omega

end DenseCore.BlockManager
