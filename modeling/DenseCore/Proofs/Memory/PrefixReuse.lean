/-
Reusing a cached prefix is sound.

A prompt is matched block by block.  For each block the lookup compares the
sixteen local tokens and nothing else; the tokens to the left are vouched for by
the cumulative hash alone.  What makes that enough is a property of whole runs:
a block whose tokens are remembered was registered with them at some point, has
been resident under the hash of that registration ever since, and has not been
registered under any other.  `RegisteredSince` says so, and it is an invariant.

The hash is sixty-four bits, so two prefixes may collide.  That the prefixes of
the run do not is the hypothesis the result rests on, and it is about the hash
only: which prefix a block was registered for comes from the run.
-/
import Mathlib.Data.List.Induction
import DenseCore.Proofs.Memory.Operations

namespace DenseCore.BlockManager

open List

variable {σ : Type}

/-! ### Remembered tokens under one operation -/

variable {b b₀ : Int} {ts : List Int32} {h₀ : UInt64}

theorem QuietMove.tokens {m m' : BlockManager σ} (h : QuietMove m m') (hm : WellFormed m)
    (hts : m'.blockTokens.lookup b = some ts) :
    m.blockTokens.lookup b = some ts ∧ (m'.blocks b).contentHash = (m.blocks b).contentHash := by
  -- A block whose tokens are remembered is resident, hence on no free list.
  have hres : m.blockTokens.lookup b = some ts → (m.blocks b).cacheResident = true := by
    intro hlook
    exact hm.index.tokensResident b (AList.lookup_isSome.mp (by simp [hlook]))
  cases h with
  | @takeFree s b₀ rest hhead =>
    have hlook : m.blockTokens.lookup b = some ts := hts
    have hfree := ((hm.partition.mem_iff s b₀).mp (by simp [hhead])).2
    have hne : b ≠ b₀ := by
      rintro rfl
      have := hres hlook
      rw [hfree.2.2] at this
      cases this
    exact ⟨hlook, by simp [resetAllocatedBlock, hne]⟩
  | @evict h₀ b₀ hl href =>
    have hts' : (m.blockTokens.erase b₀).lookup b = some ts := hts
    have hne : b ≠ b₀ := by
      rintro rfl
      simp at hts'
    rw [AList.lookup_erase_ne hne] at hts'
    exact ⟨hts', by rw [evictBlock_blocks, Function.update_of_ne hne]⟩
  | dropRef hpos hkeep | addRef hlive | fill =>
    exact ⟨hts, modifyBlock_field (·.contentHash) m _ b rfl⟩
  | @giveBack b₀ hin href hnres =>
    have hlook : m.blockTokens.lookup b = some ts := hts
    have hne : b ≠ b₀ := by
      rintro rfl
      have := hres hlook
      rw [hnres] at this
      cases this
    exact ⟨hlook, by simp [hne]⟩
  | @release b₀ hin hres₀ =>
    have hr := releasePrefixResidencyLocked_released m hin hres₀
    rw [hr.tokens] at hts
    have hne : b ≠ b₀ := by
      rintro rfl
      simp at hts
    rw [AList.lookup_erase_ne hne] at hts
    exact ⟨hts, by rw [hr.blocks, Function.update_of_ne hne]⟩

theorem QuietMoves.tokens {m m' : BlockManager σ} (h : QuietMoves m m') (hm : WellFormed m)
    (hts : m'.blockTokens.lookup b = some ts) :
    m.blockTokens.lookup b = some ts ∧ (m'.blocks b).contentHash = (m.blocks b).contentHash := by
  induction h with
  | refl => exact ⟨hts, rfl⟩
  | @tail m₁ m₂ hchain hstep ih =>
    obtain ⟨hts₁, hhash₁⟩ := hstep.tokens (QuietMoves.wellFormed hchain hm) hts
    obtain ⟨hts₀, hhash₀⟩ := ih hts₁
    exact ⟨hts₀, hhash₁.trans hhash₀⟩

/-- The block and the hash a registration names. -/
def Op.registration : Op σ → Option (Int × UInt64)
  | .registerPrefixBlock b h => some (b, h)
  | .registerPrefixBlockWithTokens b h _ _ _ => some (b, h)
  | _ => none

theorem indexBare_tokens {m : BlockManager σ} (hm : WellFormed m)
    (hts : (m.indexBare b₀ h₀).blockTokens.lookup b = some ts) :
    m.blockTokens.lookup b = some ts ∧
      ((m.indexBare b₀ h₀).blocks b).contentHash = (m.blocks b).contentHash ∧
      (b = b₀ → h₀ = (m.blocks b).contentHash) := by
  rw [indexBare_blocks]
  unfold indexBare at hts
  rw [enterIndex_blockTokens, modifyBlock_blockTokens] at hts
  split at hts
  · rename_i hold
    rw [eraseContents_blockTokens, eraseIndexIfOwned_blockTokens] at hts
    have hne : b ≠ b₀ := by
      rintro rfl
      simp at hts
    rw [AList.lookup_erase_ne hne] at hts
    exact ⟨hts, by rw [Function.update_of_ne hne], fun hc => absurd hc hne⟩
  rename_i hold
  have hres := hm.index.tokensResident b (AList.lookup_isSome.mp (by simp [hts]))
  by_cases heq : b = b₀
  · subst heq
    have hsame : (m.blocks b).contentHash = h₀ := by
      by_contra hc
      exact hold ⟨hres, (hm.index.hash_iff b).mpr hres, hc⟩
    exact ⟨hts, by simp [hsame], fun _ => hsame.symm⟩
  · exact ⟨hts, by rw [Function.update_of_ne heq], fun hc => absurd hc heq⟩

theorem unaccepted_tokens {m m' : BlockManager σ} (hm : WellFormed m) (hq : QuietMoves m m')
    (hun : (¬ m.InRange b₀ ∨ h₀ = 0) ∨
      (m.releaseExisting b₀ h₀).refusesRegistration b₀ = true) (hts : m'.blockTokens.lookup b = some ts) :
    m.blockTokens.lookup b = some ts ∧
      (m'.blocks b).contentHash = (m.blocks b).contentHash ∧ (b = b₀ → h₀ = 0) := by
  obtain ⟨hts₀, hhash⟩ := hq.tokens hm hts
  refine ⟨hts₀, hhash, ?_⟩
  rintro rfl
  have hres := hm.index.tokensResident b (AList.lookup_isSome.mp (by simp [hts₀]))
  rcases hun with (hin | hzero) | hrefuse
  · exact absurd (hm.index.residentInRange b hres) hin
  · exact hzero
  have hsame := (releaseExisting_spec m b h₀ hm).2.2.1
  simp [refusesRegistration, hsame, hres] at hrefuse

theorem registerPrefixBlock_tokens {m : BlockManager σ} (hm : WellFormed m)
    (hts : (m.registerPrefixBlock b₀ h₀).blockTokens.lookup b = some ts) :
    m.blockTokens.lookup b = some ts ∧
      ((m.registerPrefixBlock b₀ h₀).blocks b).contentHash = (m.blocks b).contentHash ∧
      (b = b₀ → h₀ ≠ 0 → h₀ = (m.blocks b).contentHash) := by
  have hquiet := (releaseExisting_spec m b₀ h₀ hm).1
  unfold registerPrefixBlock at hts ⊢
  split at hts
  · rename_i hargs
    rw [if_pos hargs]
    obtain ⟨hts₀, hhash, hzero⟩ := unaccepted_tokens hm (.refl m) (Or.inl hargs) hts
    exact ⟨hts₀, hhash, fun hb hne => absurd (hzero hb) hne⟩
  rename_i hargs
  rw [if_neg hargs]
  dsimp only at hts ⊢
  split at hts
  · rename_i hrefuse
    rw [if_pos hrefuse]
    obtain ⟨hts₀, hhash, hzero⟩ := unaccepted_tokens hm hquiet (Or.inr hrefuse) hts
    exact ⟨hts₀, hhash, fun hb hne => absurd (hzero hb) hne⟩
  rename_i haccept
  rw [if_neg haccept]
  obtain ⟨hts₁, hhash₁, hown⟩ := indexBare_tokens (hquiet.wellFormed hm) hts
  obtain ⟨hts₀, hhash₀⟩ := hquiet.tokens hm hts₁
  exact ⟨hts₀, hhash₁.trans hhash₀, fun hb _ => (hown hb).trans hhash₀⟩

theorem registerPrefixBlockWithTokens_tokens {m : BlockManager σ} (hm : WellFormed m)
    {l : Option (List Int32)} {n : Int} {snap : Option (List σ)}
    (hts : (m.registerPrefixBlockWithTokens b₀ h₀ l n snap).blockTokens.lookup b = some ts) :
    (b = b₀ ∧ ((m.registerPrefixBlockWithTokens b₀ h₀ l n snap).blocks b).contentHash = h₀) ∨
      (m.blockTokens.lookup b = some ts ∧
        ((m.registerPrefixBlockWithTokens b₀ h₀ l n snap).blocks b).contentHash =
          (m.blocks b).contentHash ∧ (b = b₀ → h₀ = 0)) := by
  have hquiet := (releaseExisting_spec m b₀ h₀ hm).1
  unfold registerPrefixBlockWithTokens at hts ⊢
  split at hts
  · rename_i hargs
    rw [if_pos hargs]
    exact Or.inr (unaccepted_tokens hm (.refl m) (Or.inl hargs) hts)
  rename_i hargs
  rw [if_neg hargs]
  dsimp only at hts ⊢
  split at hts
  · rename_i hrefuse
    rw [if_pos hrefuse]
    exact Or.inr (unaccepted_tokens hm hquiet (Or.inr hrefuse) hts)
  rename_i haccept
  rw [if_neg haccept]
  by_cases heq : b = b₀
  · subst heq
    exact Or.inl ⟨rfl, by simp⟩
  have hts₁ : (m.releaseExisting b₀ h₀).blockTokens.lookup b = some ts := by
    rw [storeContents_blockTokens] at hts
    split at hts
    · split at hts
      · simpa [AList.lookup_insert_ne heq] using hts
      · simpa [AList.lookup_erase_ne heq] using hts
    · simpa [AList.lookup_erase_ne heq] using hts
  obtain ⟨hts₀, hhash₀⟩ := hquiet.tokens hm hts₁
  exact Or.inr ⟨hts₀, by simpa [heq] using hhash₀, fun hc => absurd hc heq⟩

variable (salt : UInt64) (m : BlockManager σ)

/-- **Where tokens come from.**  Tokens remembered after an operation were stored
by it, or were there before under the same hash, and then the operation is no
registration of the block but possibly a bare one under that hash. -/
theorem apply_tokens (op : Op σ) (hm : WellFormed m)
    (hts : (apply salt m op).blockTokens.lookup b = some ts) :
    (∃ h l n snap, op = .registerPrefixBlockWithTokens b h l n snap ∧
        ((apply salt m op).blocks b).contentHash = h) ∨
      (m.blockTokens.lookup b = some ts ∧
        ((apply salt m op).blocks b).contentHash = (m.blocks b).contentHash ∧
        ∀ h, op.registration = some (b, h) → h ≠ 0 →
          op = .registerPrefixBlock b (m.blocks b).contentHash) := by
  by_cases hop : op.Registering
  · cases op with
    | registerPrefixBlock b₀ h₀ =>
      obtain ⟨hts₀, hhash, hown⟩ := registerPrefixBlock_tokens hm hts
      refine Or.inr ⟨hts₀, hhash, ?_⟩
      intro h hreg hne
      simp only [Op.registration, Option.some.injEq, Prod.mk.injEq] at hreg
      obtain ⟨rfl, rfl⟩ := hreg
      rw [← hown rfl hne]
    | registerPrefixBlockWithTokens b₀ h₀ l n snap =>
      rcases registerPrefixBlockWithTokens_tokens hm hts with ⟨rfl, hnew⟩ | ⟨hts₀, hhash, hzero⟩
      · exact Or.inl ⟨h₀, l, n, snap, rfl, hnew⟩
      refine Or.inr ⟨hts₀, hhash, ?_⟩
      intro h hreg hne
      simp only [Op.registration, Option.some.injEq, Prod.mk.injEq] at hreg
      obtain ⟨rfl, rfl⟩ := hreg
      exact absurd (hzero rfl) hne
    | _ => exact absurd hop id
  · obtain ⟨hts₀, hhash⟩ := (apply_quiet salt m op hm hop).tokens hm hts
    refine Or.inr ⟨hts₀, hhash, ?_⟩
    intro h hreg _
    cases op with
    | registerPrefixBlock b₀ h₀ => exact absurd trivial hop
    | registerPrefixBlockWithTokens b₀ h₀ l n snap => exact absurd trivial hop
    | _ => cases hreg

/-! ### Registrations along a run -/

/-- The cumulative hash of a whole prefix. -/
def prefixHash (p : List Int32) : UInt64 := computeTokenHash salt p p.length

theorem computeTokenHash_eq (ts : List Int32) (n : Nat) :
    computeTokenHash salt ts n = prefixHash salt (ts.take n) := by
  unfold prefixHash computeTokenHash
  rw [Int.toNat_natCast, Int.toNat_natCast, take_length]

/-- The call registers a block for the first `k + 1` blocks of a sequence `P`, with
the cumulative hash and the sixteen tokens of the last of them. -/
def RegistersPrefix (op : Op σ) (b : Int) (p : List Int32) : Prop :=
  ∃ (P : List Int32) (k : Nat) (ts : List Int32) (snap : Option (List σ)),
    blockSlots * (k + 1) ≤ P.length ∧ p = P.take (blockSlots * (k + 1)) ∧
    ts.take blockSlots = (P.drop (blockSlots * k)).take blockSlots ∧
    op = .registerPrefixBlockWithTokens b
      (computeTokenHash salt P (blockSlots * (k + 1) : Nat)) (some ts) blockSlots snap

/-- Some call of the run registered `b` for the prefix `p`; since then the block
has been resident under the hash of `p` at all times, and no call has registered
it again, but for bare registrations under that very hash. -/
def RegisteredSince (prefixOf : Op σ → List Int32) (m₀ : BlockManager σ)
    (ops : List (Op σ)) (b : Int) (p : List Int32) : Prop :=
  ∃ before op after, ops = before ++ op :: after ∧
    RegistersPrefix salt op b (prefixOf op) ∧ prefixOf op = p ∧
    (∀ mid, mid <+: after → ((run salt m₀ (before ++ op :: mid)).blocks b).cacheResident = true ∧
      ((run salt m₀ (before ++ op :: mid)).blocks b).contentHash = prefixHash salt p) ∧
    (∀ op' ∈ after, ∀ h, op'.registration = some (b, h) → h ≠ 0 →
      op' = .registerPrefixBlock b (prefixHash salt p))

/-- Every registration with tokens is made for the prefix `prefixOf` names. -/
def RegistersPrefixes (prefixOf : Op σ → List Int32) (ops : List (Op σ)) :
    Prop :=
  ∀ b h ts n snap, .registerPrefixBlockWithTokens b h ts n snap ∈ ops →
    RegistersPrefix salt (.registerPrefixBlockWithTokens b h ts n snap : Op σ) b
      (prefixOf (.registerPrefixBlockWithTokens b h ts n snap))

theorem RegistersPrefix.hash {salt : UInt64} {b' : Int} {h : UInt64}
    {ts : Option (List Int32)} {n : Int} {snap : Option (List σ)} {p : List Int32}
    (hreg : RegistersPrefix salt (.registerPrefixBlockWithTokens b h ts n snap : Op σ) b' p) :
    h = prefixHash salt p := by
  obtain ⟨P, k, l, s, _, hp, _, hop⟩ := hreg
  injection hop with _ hh
  rw [hh, computeTokenHash_eq, hp]

theorem run_snoc (ops : List (Op σ)) (op : Op σ) :
    run salt m (ops ++ [op]) = apply salt (run salt m ops) op := by
  unfold run
  rw [foldl_append]
  rfl

/-- **Remembered tokens have been under their hash since they were stored.** -/
theorem run_registeredSince (prefixOf : Op σ → List Int32) (numBlocks : Nat)
    (blockSize : Int) (ops : List (Op σ)) : RegistersPrefixes salt prefixOf ops → ∀ b ts,
      (run salt (init numBlocks blockSize : BlockManager σ) ops).blockTokens.lookup b = some ts →
      ∃ p, RegisteredSince salt prefixOf (init numBlocks blockSize) ops b p ∧
        ((run salt (init numBlocks blockSize) ops).blocks b).contentHash = prefixHash salt p := by
  induction ops using List.reverseRecOn with
  | nil =>
    intro _ b ts hts
    -- The constructor remembers no tokens, or they would be of a resident block.
    have hwf : WellFormed (init numBlocks blockSize : BlockManager σ) :=
      init_wellFormed numBlocks blockSize
    have hinit : (init numBlocks blockSize : BlockManager σ).blockTokens.lookup b = some ts := hts
    have hres := hwf.index.tokensResident b (AList.lookup_isSome.mp (by simp [hinit]))
    rw [init_blocks] at hres
    cases hres
  | append_singleton ops op ih =>
    intro hall b ts hts
    have hwf := run_wellFormed salt numBlocks blockSize ops
    have hwf' := run_wellFormed salt numBlocks blockSize (ops ++ [op])
    have hres := hwf'.index.tokensResident b (AList.lookup_isSome.mp (by simp [hts]))
    rw [run_snoc] at hts
    rcases apply_tokens salt _ op hwf hts with ⟨h, l, n, snap, rfl, hnew⟩ | ⟨hold, hkeep, hno⟩
    · -- Stored just now: the history after the registration is empty.
      have hp := hall b h l n snap (by simp)
      have hhash := hnew.trans hp.hash
      rw [← run_snoc] at hhash
      refine ⟨_, ⟨ops, _, [], rfl, hp, rfl, ?_, by simp⟩, hhash⟩
      intro mid hmid
      obtain rfl := prefix_nil.mp hmid
      exact ⟨hres, hhash⟩
    -- Kept: the history grows by one call.
    have hall' : RegistersPrefixes salt prefixOf ops := by
      intro b' h' ts' n' snap' hmem
      exact hall b' h' ts' n' snap' (mem_append_left _ hmem)
    obtain ⟨p, ⟨before, reg, after, hops, hreg, hp, hsince, honly⟩, hhash⟩ :=
      ih hall' b ts hold
    have hhash' : ((run salt (init numBlocks blockSize) (ops ++ [op])).blocks b).contentHash
        = prefixHash salt p := by
      rw [run_snoc, hkeep, hhash]
    refine ⟨p, ⟨before, reg, after ++ [op], by simp [hops], hreg, hp, ?_, ?_⟩, hhash'⟩
    · intro mid hmid
      rcases prefix_concat_iff.mp hmid with rfl | hmid
      · have heq : before ++ reg :: (after ++ [op]) = ops ++ [op] := by simp [hops]
        rw [heq]
        exact ⟨hres, hhash'⟩
      · exact hsince mid hmid
    intro op' hop' h hregister hne
    rcases mem_append.mp hop' with hmem | hmem
    · exact honly op' hmem h hregister hne
    obtain rfl := mem_singleton.mp hmem
    rw [hno h hregister hne, hhash]

/-! ### The lookup -/

theorem acquireCached_frame (b : Int) : (m.acquireCached b).2.prefixCache = m.prefixCache ∧
      (m.acquireCached b).2.blockTokens = m.blockTokens ∧
      ∀ b', (m.acquireCached b).1 = some b' → b' = b := by
  unfold acquireCached
  split
  · exact ⟨rfl, rfl, fun b' hb' => by cases hb'⟩
  · exact ⟨rfl, rfl, fun b' hb' => (Option.some.inj hb').symm⟩

/-- What the scan has found of a block at position `i`. -/
def FoundAt (m : BlockManager σ) (tokens : List Int32) (i : Nat) (b : Int) :
    Prop :=
  m.prefixCache.lookup (prefixHash salt (tokens.take (blockSlots * (i + 1)))) = some b ∧
    m.blockTokens.lookup b = some ((tokens.drop (blockSlots * i)).take blockSlots)

/-- The scan acquires blocks that the index names, one for each stretch. -/
theorem scanCachedPrefix_found (tokens : List Int32) (req : Bool)
    (v : Option (List σ → Bool)) (m₀ : BlockManager σ) :
    ∀ (left k : Nat) (scan : PrefixScan) (m : BlockManager σ),
      m.prefixCache = m₀.prefixCache → m.blockTokens = m₀.blockTokens →
      ∃ new, (scanCachedPrefix salt tokens req v left k scan m).1.acquired
          = scan.acquired ++ new ∧ new.length ≤ left ∧
        ∀ i b, new[i]? = some b → FoundAt salt m₀ tokens (k + i) b := by
  intro left
  induction left with
  | zero =>
    intro k scan m _ _
    exact ⟨[], by simp [scanCachedPrefix], Nat.le_refl 0, by simp⟩
  | succ left ih =>
    intro k scan m hcache htok
    unfold scanCachedPrefix
    dsimp only
    rcases findCachedBlockWithVerification_cases m
        (computeTokenHash salt tokens (k * blockSlots + blockSlots : Nat))
        (some (tokens.drop (k * blockSlots))) blockSlots with
      hnone | ⟨l, b, hl, _, _, hlook, hstored, _, heq⟩
    · rw [hnone]
      exact ⟨[], by simp, Nat.zero_le _, by simp⟩
    obtain ⟨hc, ht, hb⟩ := acquireCached_frame m b
    rw [heq]
    rcases hres : m.acquireCached b with ⟨_ | b', m₁⟩
    · exact ⟨[], by simp, Nat.zero_le _, by simp⟩
    rw [hres] at hc ht hb
    obtain rfl := hb b' rfl
    obtain ⟨new, hacq, hlen, hfound⟩ := ih (k + 1)
      ⟨scan.acquired ++ [b'], if req && m₁.hasUsableSnapshot b' v
        then ((scan.acquired ++ [b']).length : Int) else scan.terminalSnapshotBlockCount⟩
      m₁ (hc.trans hcache) (ht.trans htok)
    refine ⟨b' :: new, ?_, by simpa using hlen, ?_⟩
    · rw [hacq]
      simp
    intro i b hi
    cases i with
    | zero =>
      simp only [getElem?_cons_zero, Option.some.injEq] at hi
      obtain rfl := hi
      injection hl with hl
      subst hl
      rw [computeTokenHash_eq, hcache] at hlook
      rw [htok] at hstored
      have h1 : k * blockSlots + blockSlots = blockSlots * (k + 0 + 1) := by
        unfold blockSlots; omega
      have h2 : k * blockSlots = blockSlots * (k + 0) := by unfold blockSlots; omega
      rw [h1] at hlook
      rw [h2] at hstored
      exact ⟨hlook, by simpa using hstored⟩
    | succ i =>
      have := hfound i b (by simpa using hi)
      rwa [show k + 1 + i = k + (i + 1) by omega] at this

theorem dropBeyondSnapshot_take (req : Bool) (scan : PrefixScan) (m : BlockManager σ) :
    ∃ k, (dropBeyondSnapshot req scan m).1 = scan.acquired.take k := by
  unfold dropBeyondSnapshot
  split
  · exact ⟨scan.acquired.length, by simp⟩
  split
  · exact ⟨0, by simp⟩
  split
  · exact ⟨_, rfl⟩
  · exact ⟨scan.acquired.length, by simp⟩

/-- Each block of a longest prefix is found at its stretch. -/
theorem findLongest_found (m : BlockManager σ) (salt : UInt64) (tokens : List Int32) (n : Int)
    (req : Bool) (v : Option (List σ → Bool)) :
    let ids := (m.findLongestCachedPrefixWithVerification salt (some tokens) n req v).1.cachedBlockIds
    (∀ j b, ids[j]? = some b → FoundAt salt m tokens j b) ∧
      (0 < n → (blockSlots : Int) * ids.length < n) ∧ (n ≤ 0 → ids = []) := by
  unfold findLongestCachedPrefixWithVerification
  dsimp only
  split
  · exact ⟨by simp, by simp, by simp⟩
  rename_i hlong
  split
  · exact ⟨by simp, by simp, by simp⟩
  obtain ⟨new, hacq, hlen, hfound⟩ := scanCachedPrefix_found salt tokens req v m
    ((n - 1) / blockSlots * blockSlots / blockSlots).toNat 0
    ⟨[], if req then 0 else -1⟩ m rfl rfl
  obtain ⟨k, hk⟩ := dropBeyondSnapshot_take req
    (scanCachedPrefix salt tokens req v ((n - 1) / blockSlots * blockSlots / blockSlots).toNat
      0 ⟨[], if req then 0 else -1⟩ m).1
    (scanCachedPrefix salt tokens req v ((n - 1) / blockSlots * blockSlots / blockSlots).toNat
      0 ⟨[], if req then 0 else -1⟩ m).2
  dsimp only
  rw [hk, hacq, nil_append]
  refine ⟨?_, ?_, ?_⟩
  · intro j b hj
    have hj' : new[j]? = some b := by
      rw [getElem?_take] at hj
      split at hj
      · exact hj
      · cases hj
    simpa using hfound j b hj'
  · intro _
    have hle : (new.take k).length ≤ new.length := length_take_le' k new
    unfold blockSlots at hlen ⊢
    omega
  intro hneg
  unfold blockSlots at hlong
  omega

/-! ### Soundness

A block that a lookup accepts was registered with just these tokens, and it has stayed resident
since.
-/

/-- The prefixes whose hashes must not collide: those the run registered and the
block prefixes of the query. -/
inductive Occurs (prefixOf : Op σ → List Int32) (ops : List (Op σ)) (tokens : List Int32)
    (n : Int) : List Int32 → Prop where
  | registered {b : Int} {h : UInt64} {ts : Option (List Int32)} {k : Int}
      {snap : Option (List σ)} (hop : .registerPrefixBlockWithTokens b h ts k snap ∈ ops) :
      Occurs prefixOf ops tokens n (prefixOf (.registerPrefixBlockWithTokens b h ts k snap))
  | queried (j : Nat) (hj : ((blockSlots * (j + 1) : Nat) : Int) < n) :
      Occurs prefixOf ops tokens n (tokens.take (blockSlots * (j + 1)))

/-- **A reused block holds the prefix it is reused for.**  With every registration
made for a prefix of some sequence and no collision among the prefixes involved,
each block a lookup returns was last registered, and has been resident since, for
the very tokens that lead up to it in the query; and the match stops short of the
last token of a non-empty query. -/
theorem cached_prefix_reuse_sound (salt : UInt64) (numBlocks : Nat) (blockSize : Int)
    (ops : List (Op σ)) (prefixOf : Op σ → List Int32) (tokens : List Int32) (n : Int)
    (req : Bool) (v : Option (List σ → Bool)) (hregs : RegistersPrefixes salt prefixOf ops)
    (hinj : ∀ p q, Occurs prefixOf ops tokens n p → Occurs prefixOf ops tokens n q →
      prefixHash salt p = prefixHash salt q → p = q) :
    let m := run salt (init numBlocks blockSize : BlockManager σ) ops
    let ids := (m.findLongestCachedPrefixWithVerification salt (some tokens) n req v).1.cachedBlockIds
    (∀ j b, ids[j]? = some b → RegisteredSince salt prefixOf (init numBlocks blockSize) ops b
          (tokens.take (blockSlots * (j + 1)))) ∧
      (0 < n → (blockSlots : Int) * ids.length < n) ∧ (n ≤ 0 → ids = []) := by
  intro m ids
  obtain ⟨hfound, hbound, hempty⟩ := findLongest_found m salt tokens n req v
  refine ⟨?_, hbound, hempty⟩
  intro j b hj
  obtain ⟨hlook, htok⟩ := hfound j b hj
  have hwf : WellFormed m := run_wellFormed salt numBlocks blockSize ops
  obtain ⟨p, hsince, hhash⟩ :=
    run_registeredSince salt prefixOf numBlocks blockSize ops hregs b _ htok
  have hsame : prefixHash salt p = prefixHash salt (tokens.take (blockSlots * (j + 1))) := by
    rw [← hhash]
    exact ((hwf.index.lookup_iff _ b).mp hlook).2.1
  -- Position `j` of the match lies before the last token, so its prefix is queried.
  have hjlt : j < ids.length := (List.getElem?_eq_some_iff.mp hj).1
  have hpos : 0 < n := by
    by_contra hc
    have hnil : ids = [] := hempty (by omega)
    rw [hnil] at hjlt
    simp at hjlt
  have hquery : ((blockSlots * (j + 1) : Nat) : Int) < n := by
    have hlt : (blockSlots : Int) * ids.length < n := hbound hpos
    unfold blockSlots at hlt ⊢
    omega
  have hocc : Occurs prefixOf ops tokens n p := by
    obtain ⟨before, op, after, hops, ⟨_, _, _, _, _, _, _, hop⟩, hp, _, _⟩ := hsince
    rw [← hp, hop]
    exact .registered (by rw [← hop]; simp [hops])
  rw [← hinj p _ hocc (.queried j hquery) hsame]
  exact hsince

/-- One block of sixteen equal tokens, taken and registered. -/
private def oneBlockRun : List (Op Unit) :=
  [.allocateSingle {}, .registerPrefixBlockWithTokens 0 (computeTokenHash 0 (replicate 16 5) 16)
      (some (replicate 16 5)) 16 none]

/-- The prompt of seventeen such tokens reuses the block. -/
theorem cached_prefix_reuse_sound_one_block :
    RegisteredSince 0 (fun _ => replicate 16 5) (init 1 16) oneBlockRun 0
      (replicate 16 5) := by
  have h := cached_prefix_reuse_sound 0 1 16 oneBlockRun
    (fun _ => replicate 16 5) (replicate 17 5) 17 false none ?_ ?_
  · exact h.1 0 0 (by decide +kernel)
  · intro b h ts n snap hmem
    simp only [oneBlockRun, mem_cons, not_mem_nil, or_false, reduceCtorEq,
      false_or, Op.registerPrefixBlockWithTokens.injEq] at hmem
    obtain ⟨rfl, rfl, rfl, rfl, rfl⟩ := hmem
    exact ⟨replicate 16 5, 0, replicate 16 5, none, by decide, rfl, rfl, rfl⟩
  -- One prefix was registered, and the query has no other block prefix.
  have hall : ∀ p, Occurs (fun _ => replicate 16 5) oneBlockRun (replicate 17 5) 17 p →
      p = replicate 16 5 := by
    intro p hp
    cases hp with
    | registered hop => rfl
    | queried j hj =>
      have hj0 : j = 0 := by unfold blockSlots at hj; omega
      subst hj0
      decide
  intro p q hp hq _
  rw [hall p hp, hall q hq]

/-- An empty query matches nothing, and nothing is not less than nothing: the
bound on the match needs a token to leave over. -/
theorem empty_query_leaves_no_token :
    ¬ ((blockSlots : Int) * ((init 1 16 : BlockManager Unit).findLongestCachedPrefixWithVerification
      0 (some []) 0 false none).1.cachedBlockIds.length < 0) := by
  decide

end DenseCore.BlockManager
