/-
How long a context the KV cache is sized for (`ComputeKVCacheConfig` in
`runtime/engine.cpp`).

The documentation calls `DENSECORE_MAX_SEQ_LEN` the ceiling of the context length, with
the model's own context as its default.  The code caps by it, then raises the result to
256, and on one path doubles it after that.  What remains of the ceiling, and which of
the narrowing conversions are exact, depends on which settings are present.

Sizes are `size_t`, so products wrap, and an `int` is what the conversion makes of it.
What `EstimateGraphContextSize` reserves is a parameter: no result depends on it.
-/
import DenseCore.Memory.KvStorage

namespace DenseCore.KvSizing

/-! ### The code -/

/-- An `int` that is at least one: what `ReadPositiveIntEnv` accepts. -/
def PositiveInt : Type := { n : Nat // 0 < n ∧ n < 2 ^ 31 }

/-- The settings, where they are present and accepted. -/
structure Settings where
  maxSeqLen : Option PositiveInt := none
  maxNumSeqs : Option PositiveInt := none
  kvTargetMb : Option PositiveInt := none

/-- What is read of the model. -/
structure ModelShape where
  nCtx : PositiveInt
  nEmbd : Int
  nHead : Int
  nHeadKv : Int
  nLayer : Int
  nEmbdHeadK : Int
  nEmbdHeadV : Int
  glmIndexHeadDim : Int := 0
  isBert : Bool := false
  isGemma4 : Bool := false
  isGlmDsa : Bool := false
  isHybridSsm : Bool := false
  isQwenTarget : Bool := false

namespace ModelShape

variable (m : ModelShape)

def kvHeadDim : Int :=
  if 0 < m.nEmbdHeadK then m.nEmbdHeadK
  else if m.nHead ≤ 0 then 0
  else m.nEmbd.tdiv m.nHead

def kvValueHeadDim : Int :=
  if 0 < m.nEmbdHeadV then m.nEmbdHeadV else m.kvHeadDim

def kvIndexHeadDim : Int :=
  if m.isGlmDsa = false ∨ m.glmIndexHeadDim ≤ 0 then 0 else m.glmIndexHeadDim

/-- `ResolveEffectiveKVCacheType`; `none` is a type the cache does not support. -/
def effectiveKVCacheType : Option CacheType → CacheType
  | none => .f16
  | some requested =>
    let requested := if m.isGemma4 ∧ requested = .q4_0 then .q8_0 else requested
    if requested.isQuantized = false then requested
    else if m.isQwenTarget then .f16
    else if m.kvHeadDim ≤ 0 ∨ m.kvValueHeadDim ≤ 0 ∨ m.kvHeadDim % 32 ≠ 0 ∨
        m.kvValueHeadDim % 32 ≠ 0 then .f16
    else requested

end ModelShape

/-- The bytes that a token takes in all layers. -/
def computeKVCacheBytesPerToken (cacheType : CacheType)
    (kHeadDim vHeadDim nHeadKv nLayer indexHeadDim : Int) : Nat :=
  if kHeadDim ≤ 0 ∨ vHeadDim ≤ 0 ∨ nHeadKv ≤ 0 ∨ nLayer ≤ 0 then 1
  else
    let cacheType :=
      if cacheType.isQuantized ∧ (kHeadDim % 32 ≠ 0 ∨ vHeadDim % 32 ≠ 0) then .f16 else cacheType
    let bytesPerSlotForDim (headDim : Int) : Nat :=
      if cacheType.isQuantized then cacheType.rowSize headDim.toNat * nHeadKv.toNat
      else cacheType.rowSize (headDim.toNat * nHeadKv.toNat)
    let indexBytesPerSlot :=
      if 0 < indexHeadDim then CacheType.f16.rowSize indexHeadDim.toNat else 0
    (bytesPerSlotForDim kHeadDim + bytesPerSlotForDim vHeadDim + indexBytesPerSlot)
      * nLayer.toNat % 2 ^ 64

variable (m : ModelShape)

/-- `bytes_per_token` of the configuration. -/
def ModelShape.bytesPerToken (requested : Option CacheType) : Nat :=
  let bytes :=
    if m.isBert then 4
    else computeKVCacheBytesPerToken (m.effectiveKVCacheType requested) m.kvHeadDim
      m.kvValueHeadDim m.nHeadKv m.nLayer m.kvIndexHeadDim
  if bytes = 0 then 1 else bytes

def saturatingMulSize (a b : Nat) : Nat :=
  if a = 0 ∨ b = 0 then 0 else if (2 ^ 64 - 1) / b < a then 2 ^ 64 - 1 else a * b

def mb : Nat := 1024 * 1024

/-- `graphTotalBytes` is `total_bytes` of the graph estimate, by sequence hint, number of
sequences and chunk hint. -/
def resolveAutoKVTargetMb (graphTotalBytes : Nat → Nat → Nat → Nat)
    (availableMb seqs bytesPerToken maxSeqLen : Nat) : Nat :=
  if availableMb = 0 then 512
  else
    let availableBytes := saturatingMulSize availableMb mb
    let runtimeReserve := max (availableBytes / 10) (512 * mb)
    let allocatorSlack := max (availableBytes / 32) (256 * mb)
    let graphSeqHint := max 1 (min maxSeqLen 2048)
    let graphChunkHint := if m.isHybridSsm then graphSeqHint else min graphSeqHint 192
    let graphBytes := graphTotalBytes graphSeqHint seqs graphChunkHint
    let graphReserve := max (max (availableBytes / 6) (1024 * mb)) graphBytes
    let graphReserve := (graphReserve + max (graphBytes / 4) (2048 * mb)) % 2 ^ 64
    let totalReserve := (runtimeReserve + allocatorSlack + graphReserve) % 2 ^ 64
    let budget :=
      if totalReserve < availableBytes then availableBytes - totalReserve else availableBytes / 2
    let requestedTotal := saturatingMulSize (saturatingMulSize bytesPerToken maxSeqLen) seqs
    let budget := if 0 < requestedTotal then min budget requestedTotal else budget
    max 1 (budget / seqs / mb)

/-- What an `int` holds after a conversion from `n`. -/
def toInt (n : Int) : Int := n.bmod (2 ^ 32)

/-- How the cache is sized. -/
structure KVCacheConfig where
  effectiveCacheType : CacheType
  maxNumSeqs : Nat
  bytesPerToken : Nat
  targetKvMemory : Nat
  maxSeqLen : Int
  /-- The sizes that were converted to an `int` on the way. -/
  narrowed : List Nat

section

variable (m : ModelShape) (s : Settings) (graphTotalBytes : Nat → Nat → Nat → Nat)
  (availableMb : Nat) (requested : Option CacheType)

/-- The configured context: the setting, else the model's. -/
def configuredContext : PositiveInt := s.maxSeqLen.getD m.nCtx

/-- The default of `ResolveDefaultMaxNumSeqs` is four. -/
def maxNumSeqs : Nat := (s.maxNumSeqs.map Subtype.val).getD 4

/-- The automatic target for these inputs. -/
def autoTargetMb : Nat :=
  resolveAutoKVTargetMb m graphTotalBytes availableMb (maxNumSeqs s) (m.bytesPerToken requested)
    (configuredContext m s).val

/-- `ComputeKVCacheConfig` -/
def computeKVCacheConfig : KVCacheConfig :=
  let maxSeqLen : Int := (configuredContext m s).val
  let bytesPerToken := m.bytesPerToken requested
  let auto := autoTargetMb m s graphTotalBytes availableMb requested
  let targetMb : Int :=
    match s.kvTargetMb with
    | some t => t.val
    | none => toInt auto
  let target : Nat := (targetMb * mb % 2 ^ 64).toNat
  let tokens : Nat := target / bytesPerToken
  let optimal := max 256 (min (toInt tokens) maxSeqLen)
  let perSeq : Nat := target * maxNumSeqs s % 2 ^ 64 / bytesPerToken / maxNumSeqs s
  { effectiveCacheType := m.effectiveKVCacheType requested
    maxNumSeqs := maxNumSeqs s
    bytesPerToken := bytesPerToken
    targetKvMemory := target
    maxSeqLen :=
      match s.kvTargetMb, s.maxSeqLen with
      | none, none => min (max optimal (toInt perSeq)) maxSeqLen
      | some _, none => if bytesPerToken < 1024 then min (toInt (optimal * 2)) 8192 else optimal
      | _, some _ => optimal
    narrowed :=
      (if s.kvTargetMb.isNone then [auto] else []) ++ [tokens] ++
        if s.kvTargetMb.isNone ∧ s.maxSeqLen.isNone then [perSeq] else [] }

/-! ### Where the ceiling holds -/

/-- The result lies between one and the configured context, and every conversion on the
way is exact. -/
def RespectsContext (config : KVCacheConfig) : Prop :=
  1 ≤ config.maxSeqLen ∧ config.maxSeqLen ≤ (configuredContext m s).val ∧
    ∀ n ∈ config.narrowed, n < 2 ^ 31

instance (config : KVCacheConfig) : Decidable (RespectsContext m s config) :=
  inferInstanceAs (Decidable (_ ∧ _))

/-- The tokens that a target memory of `t` MB has room for. -/
def targetTokens (t : PositiveInt) : Nat := t.val * mb / m.bytesPerToken requested

/-- The inputs for which the ceiling holds, by the settings that are present. -/
def ContextFits : Prop :=
  match s.kvTargetMb, s.maxSeqLen with
  | none, none => autoTargetMb m s graphTotalBytes availableMb requested < 2 ^ 31
  | none, some limit =>
    autoTargetMb m s graphTotalBytes availableMb requested < 2 ^ 31 ∧ 256 ≤ limit.val
  | some t, some limit => targetTokens m requested t < 2 ^ 31 ∧ 256 ≤ limit.val
  | some t, none =>
    targetTokens m requested t < 2 ^ 31 ∧
      if m.bytesPerToken requested < 1024 then
        min (targetTokens m requested t) m.nCtx.val < 2 ^ 30 ∧
          (8192 ≤ m.nCtx.val ∨ 512 ≤ m.nCtx.val ∧ 2 * targetTokens m requested t ≤ m.nCtx.val)
      else 256 ≤ m.nCtx.val

end

/-! ### Sizes -/

theorem toInt_eq {n : Int} (h0 : 0 ≤ n) (h : n < 2 ^ 31) : toInt n = n :=
  Int.bmod_eq_of_le (by omega) (by omega)

/-- Past the range of an `int` a doubled length turns negative. -/
theorem toInt_neg {n : Int} (h : 2 ^ 31 ≤ n) (h' : n < 2 ^ 32) : toInt n < 0 := by
  unfold toInt
  rw [Int.bmod_def]
  split <;> omega

theorem saturatingMulSize_le (a b : Nat) : saturatingMulSize a b ≤ a * b := by
  unfold saturatingMulSize
  split
  · exact Nat.zero_le _
  rename_i hne
  split
  · rename_i hlt
    exact Nat.le_of_lt ((Nat.div_lt_iff_lt_mul (by omega)).mp hlt)
  · exact Nat.le_refl _

theorem saturatingMulSize_pos {a b : Nat} (ha : 0 < a) (hb : 0 < b) :
    0 < saturatingMulSize a b := by
  unfold saturatingMulSize
  rw [if_neg (by omega)]
  split
  · decide
  · exact Nat.mul_pos ha hb

theorem bytesPerToken_pos (requested : Option CacheType) : 0 < m.bytesPerToken requested := by
  have hone : ∀ n : Nat, 0 < if n = 0 then 1 else n := by
    intro n
    split <;> omega
  exact hone _

theorem maxNumSeqs_pos (s : Settings) : 0 < maxNumSeqs s := by
  unfold maxNumSeqs
  cases s.maxNumSeqs with
  | none => decide
  | some n => exact n.2.1

/-- Past its default and its least value the automatic target stays within what the
context needs. -/
theorem resolveAutoKVTargetMb_le (graphTotalBytes : Nat → Nat → Nat → Nat)
    (availableMb : Nat) {seqs bytes len : Nat} (hseqs : 0 < seqs) (hbytes : 0 < bytes)
    (hlen : 0 < len) :
    resolveAutoKVTargetMb m graphTotalBytes availableMb seqs bytes len * mb
      ≤ max (512 * mb) (bytes * len) := by
  have hcap : ∀ budget total, 0 < total → total ≤ bytes * len * seqs →
      max 1 ((if 0 < total then min budget total else budget) / seqs / mb) * mb
        ≤ max (512 * mb) (bytes * len) := by
    intro budget total hpos hle
    rw [if_pos hpos]
    have hper : min budget total / seqs ≤ bytes * len :=
      Nat.div_le_of_le_mul (by rw [Nat.mul_comm]; omega)
    have hround := Nat.div_mul_le_self (min budget total / seqs) mb
    generalize min budget total / seqs / mb = per at hround ⊢
    rcases Nat.le_total 1 per with h1 | h1
    · rw [Nat.max_eq_right h1]
      exact (hround.trans hper).trans (Nat.le_max_right _ _)
    rw [Nat.max_eq_left h1]
    exact Nat.le_trans (by decide) (Nat.le_max_left _ _)
  unfold resolveAutoKVTargetMb
  split
  · exact Nat.le_max_left _ _
  refine hcap _ _ (saturatingMulSize_pos (saturatingMulSize_pos hbytes hlen) hseqs) ?_
  exact (saturatingMulSize_le _ _).trans (Nat.mul_le_mul_right _ (saturatingMulSize_le _ _))

/-- A target below `2^31` MB is stored as it is. -/
theorem target_exact {t : Nat} (h : t < 2 ^ 31) : ((t : Int) * mb % 2 ^ 64).toNat = t * mb := by
  unfold mb
  omega

/-- The number of sequences cancels; a product that wraps only makes less of it. -/
theorem perSeq_le (target seqs bytes : Nat) (hseqs : 0 < seqs) :
    target * seqs % 2 ^ 64 / bytes / seqs ≤ target / bytes := by
  calc target * seqs % 2 ^ 64 / bytes / seqs
      ≤ target * seqs / bytes / seqs :=
        Nat.div_le_div_right (Nat.div_le_div_right (Nat.mod_le _ _))
    _ = target / bytes := by rw [Nat.div_div_eq_div_mul, Nat.mul_div_mul_right _ _ hseqs]

/-- The automatic target asks for no more tokens than an `int` holds. -/
theorem autoTarget_tokens (s : Settings)
    (graphTotalBytes : Nat → Nat → Nat → Nat) (availableMb : Nat) (requested : Option CacheType) :
    autoTargetMb m s graphTotalBytes availableMb requested * mb / m.bytesPerToken requested
      < 2 ^ 31 := by
  have hbytes := bytesPerToken_pos m requested
  have hlimit := (configuredContext m s).2
  have hle : autoTargetMb m s graphTotalBytes availableMb requested * mb
      ≤ max (512 * mb) (m.bytesPerToken requested * (configuredContext m s).val) :=
    resolveAutoKVTargetMb_le m graphTotalBytes availableMb (maxNumSeqs_pos s) hbytes hlimit.1
  refine (Nat.div_lt_iff_lt_mul hbytes).mpr (Nat.lt_of_le_of_lt hle (Nat.max_lt.mpr ⟨?_, ?_⟩))
  · unfold mb
    omega
  rw [Nat.mul_comm]
  exact Nat.mul_lt_mul_of_pos_right hlimit.2 hbytes

/-- **Where the configured context is respected.**  With a length set, or a target set
for a large cache entry, the length must be at least 256; with a target set for a small
entry the doubling must stay below the model's context as well; with nothing set the cap
comes last.  Beside that the conversions must be exact. -/
theorem respectsContext_iff (m : ModelShape) (s : Settings)
    (graphTotalBytes : Nat → Nat → Nat → Nat) (availableMb : Nat) (requested : Option CacheType) :
    RespectsContext m s (computeKVCacheConfig m s graphTotalBytes availableMb requested) ↔
      ContextFits m s graphTotalBytes availableMb requested := by
  have hauto := autoTarget_tokens m s graphTotalBytes availableMb requested
  have hper := fun target => perSeq_le target (maxNumSeqs s) (m.bytesPerToken requested)
    (maxNumSeqs_pos s)
  have hlimit := (configuredContext m s).2
  have hexact : ∀ n : Nat, n < 2 ^ 31 → toInt n = n := fun n h => toInt_eq (by omega) (by omega)
  unfold RespectsContext computeKVCacheConfig ContextFits targetTokens
  dsimp only
  generalize autoTargetMb m s graphTotalBytes availableMb requested = auto at hauto ⊢
  generalize m.bytesPerToken requested = bytes at hauto hper ⊢
  cases htarget : s.kvTargetMb with
  | none =>
    by_cases hfit : auto < 2 ^ 31
    · dsimp only
      rw [hexact auto hfit, target_exact hfit]
      have hp := hper (auto * mb)
      generalize auto * mb * maxNumSeqs s % 2 ^ 64 / bytes / maxNumSeqs s = p at hp ⊢
      generalize auto * mb / bytes = q at hauto hp ⊢
      rw [hexact q hauto, hexact p (by omega)]
      cases hlen : s.maxSeqLen with
      | none =>
        simp
        omega
      | some limit =>
        have hc : configuredContext m s = limit := by rw [configuredContext, hlen]; rfl
        rw [hc] at hlimit ⊢
        simp
        omega
    · refine iff_of_false (fun h => hfit (h.2.2 auto (by simp))) fun h => hfit ?_
      cases hlen : s.maxSeqLen with
      | none =>
        rw [hlen] at h
        exact h
      | some limit =>
        rw [hlen] at h
        exact h.1
  | some t =>
    dsimp only
    rw [target_exact t.2.2]
    obtain ⟨q, hq⟩ : ∃ q, t.val * mb / bytes = q := ⟨_, rfl⟩
    rw [hq]
    cases hlen : s.maxSeqLen with
    | none =>
      have hc : configuredContext m s = m.nCtx := by rw [configuredContext, hlen]; rfl
      rw [hc] at hlimit ⊢
      by_cases hfit : q < 2 ^ 31
      · rw [hexact q hfit]
        dsimp only
        rw [hq]
        by_cases hsmall : bytes < 1024
        · -- Doubled, the length may leave the range of an `int` or the model's context.
          rw [if_pos hsmall, if_pos hsmall]
          by_cases hbig : max 256 (min (q : Int) m.nCtx.val) * 2 < 2 ^ 31
          · rw [toInt_eq (by omega) hbig]
            simp
            omega
          have hneg := toInt_neg (n := max 256 (min (q : Int) m.nCtx.val) * 2) (by omega)
            (by omega)
          simp
          omega
        rw [if_neg hsmall, if_neg hsmall]
        simp
        omega
      · refine iff_of_false (fun h => hfit (h.2.2 q (by simp))) fun h => hfit ?_
        exact hq ▸ h.1
    | some limit =>
      have hc : configuredContext m s = limit := by rw [configuredContext, hlen]; rfl
      rw [hc] at hlimit ⊢
      dsimp only
      rw [hq]
      by_cases hfit : q < 2 ^ 31
      · rw [hexact q hfit]
        simp
        omega
      · exact iff_of_false (fun h => hfit (h.2.2 q (by simp))) fun h => hfit h.1

private def smallModel (isBert : Bool) : ModelShape :=
  { nCtx := ⟨512, by decide⟩, nEmbd := 1024, nHead := 16, nHeadKv := 16, nLayer := 24
    nEmbdHeadK := 64, nEmbdHeadV := 64, isBert := isBert }

private def shortContext : Settings := { maxSeqLen := some ⟨128, by decide⟩ }

private def oneMegabyte : Settings := { kvTargetMb := some ⟨1, by decide⟩ }

/-- A ceiling of 128 is raised to 256; and with a target of one megabyte a small entry
takes a model of 512 positions to 1024. -/
theorem ceiling_exceeded :
    (computeKVCacheConfig (smallModel false) shortContext (fun _ _ _ => 0) 8192
      (some .f16)).maxSeqLen = 256 ∧
    (computeKVCacheConfig (smallModel true) oneMegabyte (fun _ _ _ => 0) 8192
      (some .f16)).maxSeqLen = 1024 ∧
    ¬ RespectsContext (smallModel false) shortContext
      (computeKVCacheConfig (smallModel false) shortContext (fun _ _ _ => 0) 8192 (some .f16)) := by
  decide +kernel

end DenseCore.KvSizing
