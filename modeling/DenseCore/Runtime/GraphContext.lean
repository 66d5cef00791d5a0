/-
How much memory the context of a compute graph is given (`EstimateGraphContextSize` in
`runtime/engine_internal.h`).

The estimate adds what a graph of the requested shape needs, with pads for what the sum
misses, and then holds the result between a least and a greatest size that depend on the
memory the host has left.  Sums that may be large saturate; the others are listed in
`rawSizes`, and the calls of `std::clamp`, which has no meaning for bounds out of order,
in `clampBounds`.

The least size an architecture asks for is not compared with what is left.
-/
import Mathlib.Algebra.Order.Ring.Int

namespace DenseCore.GraphContext

open List

/-! ### The code -/

/-- The model variants that the estimate tells apart. -/
inductive Variant where
  | qwen35
  | qwen36
  | other
deriving DecidableEq

/-- The processor the engine is compiled for. -/
inductive Target where
  | x86
  | arm
  | other
deriving DecidableEq

/-- What is read of the model. -/
structure GraphModel where
  nLayer : Nat
  nEmbd : Nat
  nCtx : Nat
  nHead : Nat
  nHeadKv : Nat
  nEmbdHeadK : Nat := 0
  nEmbdHeadV : Nat := 0
  nExpertsUsed : Nat := 0
  ssmInnerSize : Nat := 0
  variant : Variant := .other
  isHybridSsm : Bool := false
  isGemma4 : Bool := false
  /-- Whether the hyper-parameters, the decoder or a layer show experts. -/
  hasMoeLayers : Bool := false

/-- The environment variables, where they hold a number. -/
structure Env where
  maxSeqLen : Option Int := none
  maxNumSeqs : Option Int := none
  extraMb : Option Nat := none
  minMb : Option Nat := none
  maxMb : Option Nat := none

/-- What the caller knows of the graph. -/
structure Hints where
  seqLen : Nat := 0
  numSeqs : Nat := 0
  chunkTokens : Nat := 0

def sizeMax : Nat := 2 ^ 64 - 1

def mib : Nat := 1024 * 1024

/-- A sum that stops at the largest value. -/
def saturatingAdd (a b : Nat) : Nat := if sizeMax - b < a then sizeMax else a + b

/-- A product that stops at the largest value. -/
def saturatingMul (a b : Nat) : Nat := if a ≠ 0 ∧ sizeMax / a < b then sizeMax else a * b

/-- `std::clamp`. -/
def clamp (v lo hi : Nat) : Nat := if v < lo then lo else if hi < v then hi else v

/-- A setting in megabytes, within its bounds. -/
def parseEnvMb (env : Option Nat) (defaultMb minMb maxMb : Nat) : Nat :=
  let effectiveMax := max 1 maxMb
  let effectiveMin := min minMb effectiveMax
  match env with
  | none => min (max defaultMb effectiveMin) effectiveMax
  | some v =>
    if v < effectiveMin then effectiveMin else if effectiveMax < v then effectiveMax else v

/-- The value as a `size_t`, by way of an `int`. -/
def parseEnvInt (env : Option Int) (default : Nat) : Nat :=
  match env with
  | none => default
  | some v => ((max 1 v).bmod (2 ^ 32) % 2 ^ 64).toNat

def ceilBytesToMb (bytes : Nat) : Nat :=
  if sizeMax - (mib - 1) ≤ bytes then sizeMax / mib else (bytes + mib - 1) / mib

/-- The lengths the graph is sized for. -/
structure Shape where
  seqLen : Nat
  queryLen : Nat
  numSeqs : Nat
  chunkTokens : Nat
  keyLen : Nat
  runtimeMaxNumSeqs : Nat

variable (m : GraphModel)

def isQwenMoe : Bool := (m.variant = .qwen35 || m.variant = .qwen36) && m.hasMoeLayers

/-- The shape that the estimate is made for. -/
def shape (env : Env) (h : Hints) : Shape :=
  let largeHidden := 40 ≤ max 1 m.nLayer ∧ 2048 ≤ max 1 m.nEmbd
  let defaultMaxNumSeqs :=
    if largeHidden ∧ (m.isHybridSsm ∨ m.isGemma4 ∨ m.hasMoeLayers) then 2 else 4
  let runtimeMaxNumSeqs := parseEnvInt env.maxNumSeqs defaultMaxNumSeqs
  let modelMax := max 1 m.nCtx
  let hasHint := 0 < h.seqLen ∨ 0 < h.chunkTokens ∨ 0 < h.numSeqs
  let defaultLen := max 1 (min modelMax (parseEnvInt env.maxSeqLen 4096))
  let requestLen := max 1 (min modelMax (max h.seqLen h.chunkTokens))
  let seqLen := if hasHint then requestLen else defaultLen
  let queryLen :=
    if hasHint then max 1 (min modelMax (if 0 < h.chunkTokens then h.chunkTokens else requestLen))
    else defaultLen
  let chunked := isQwenMoe m ∧ m.isHybridSsm ∧ hasHint ∧ 1 < h.chunkTokens ∧ 1 < queryLen ∧
    queryLen < seqLen
  { seqLen := seqLen
    queryLen := queryLen
    numSeqs :=
      max 1 (if hasHint then if 0 < h.numSeqs then h.numSeqs else 1 else runtimeMaxNumSeqs)
    chunkTokens := h.chunkTokens
    keyLen := if chunked then queryLen else seqLen
    runtimeMaxNumSeqs := runtimeMaxNumSeqs }

section

variable (sh : Shape)

def hiddenQueryBytes : Nat :=
  saturatingMul (saturatingMul (max 1 m.nEmbd) (saturatingMul sh.numSeqs sh.queryLen)) 4

/-- The gathered history of one layer. -/
def kvHistoryBytes : Nat :=
  let nHead := max 1 m.nHead
  let nHeadKv := max 1 (if 0 < m.nHeadKv then m.nHeadKv else m.nHead)
  let headDimK := max 1 (if 0 < m.nEmbdHeadK then m.nEmbdHeadK else m.nEmbd / nHead)
  let headDimV := max 1 (if 0 < m.nEmbdHeadV then m.nEmbdHeadV else headDimK)
  saturatingMul (saturatingMul (saturatingMul (headDimK + headDimV) nHeadKv)
    (saturatingMul sh.numSeqs sh.keyLen)) 4

def attentionScoreBytes : Nat :=
  saturatingMul (saturatingMul (saturatingMul (saturatingMul (max 1 m.nHead) sh.numSeqs)
    sh.queryLen) sh.keyLen) 4

def baseGraphWorkingSetBytes : Nat :=
  let buffers := if m.isGemma4 ∧ 1 < sh.queryLen then 3 else 2
  saturatingMul (max 1 m.nLayer)
    (saturatingAdd (saturatingAdd (saturatingMul (hiddenQueryBytes m sh) 7) (kvHistoryBytes m sh))
      (saturatingMul (attentionScoreBytes m sh) buffers))

def overheadBytes : Nat :=
  let overhead := saturatingAdd (saturatingAdd (saturatingMul (hiddenQueryBytes m sh) 4)
    (kvHistoryBytes m sh)) (attentionScoreBytes m sh / 2)
  if m.isGemma4 then
    saturatingAdd (saturatingAdd overhead (hiddenQueryBytes m sh)) (kvHistoryBytes m sh)
  else overhead

def hybridSsmExtraBytes : Nat :=
  let tokens := saturatingMul sh.numSeqs sh.queryLen
  let inner := max 1 m.ssmInnerSize
  let extra :=
    if m.isHybridSsm then
      saturatingAdd (saturatingMul (saturatingMul inner tokens) 4 / 2)
        (saturatingMul (saturatingMul inner (max sh.chunkTokens sh.queryLen)) 4 / 4)
    else 0
  if isQwenMoe m ∧ 1 < sh.queryLen then
    let assignments := min (saturatingMul tokens (max 1 m.nExpertsUsed)) (4096 * 64)
    saturatingAdd extra (saturatingMul (saturatingMul (saturatingMul assignments (max 1 m.nEmbd)) 4)
      (max 1 m.nLayer))
  else extra

def longPromptPadMb : Nat := clamp (max 128 (sh.seqLen / 1024 * 64)) 128 1024

def hybridLongPrefillObjectPadMb : Nat := clamp ((sh.queryLen + 1023) / 1024 * 96) 96 768

/-- The bytes for ggml objects, by pairs of positions, where the products fit. -/
def objectPadBytes : Nat :=
  if sh.seqLen ≤ sizeMax / sh.queryLen ∧ sh.seqLen * sh.queryLen ≤ sizeMax / max 1 sh.numSeqs ∧
      sh.seqLen * sh.queryLen * max 1 sh.numSeqs ≤ sizeMax / 64 then
    sh.seqLen * sh.queryLen * max 1 sh.numSeqs * 64
  else 0

/-- The pads, in the order they are added. -/
def safetyPads (target : Target) (total : Nat) : List Nat :=
  let qwenHybridMoe := isQwenMoe m ∧ m.isHybridSsm
  [max (total / 4) (128 * mib), 8 * mib, 4 * mib] ++
  (if m.isHybridSsm ∧ 16 < sh.seqLen then [longPromptPadMb sh * mib] else []) ++
  (match target with
    | .x86 =>
      (if qwenHybridMoe ∧ 1 < sh.queryLen then
        512 * mib :: if sh.queryLen < sh.seqLen then [objectPadBytes sh] else []
      else []) ++
      if m.variant = .qwen36 ∧ m.isHybridSsm ∧ 1024 ≤ sh.seqLen ∧ 1 < sh.queryLen then [256 * mib]
      else []
    | .arm => if qwenHybridMoe ∧ 128 < sh.queryLen then [3072 * mib] else []
    | .other => []) ++
  (if m.isHybridSsm ∧ 1024 ≤ sh.queryLen then [hybridLongPrefillObjectPadMb sh * mib] else []) ++
  if m.isGemma4 ∧ 1 < sh.queryLen then
    [max (hiddenQueryBytes m sh / 2) (attentionScoreBytes m sh / 8)] else []

end

/-- The lower bound of the context size. -/
def recommendedMinMb : Nat :=
  let least := if m.isGemma4 then 1536 else if m.isHybridSsm then 320 else 256
  if m.isGemma4 = false ∧ m.isHybridSsm = false ∧ 24 ≤ max 1 m.nLayer ∧ 3072 ≤ max 1 m.nEmbd then
    max least 2560
  else least

/-- The cap of every configured size. -/
def dynamicEnvCapMb (availableMb : Nat) : Nat :=
  max 128 (if 0 < availableMb then availableMb else 1024 * 1024)

/-- What is set aside of the available memory, in its two parts. -/
def reserves (availableMb total : Nat) : Nat × Nat :=
  let graphMb := max 1 (ceilBytesToMb total)
  (max 512 (availableMb / 16 + min (graphMb / 64) (max 1 (availableMb / 8))),
    max 256 (availableMb / 64 + min (graphMb / 128) (max 1 (availableMb / 16))))

/-- The memory that a graph may use. -/
def usableGraphMb (availableMb total : Nat) : Nat :=
  let requested := (reserves availableMb total).1 + (reserves availableMb total).2
  let maxReserve := if recommendedMinMb m < availableMb then availableMb - recommendedMinMb m else 0
  let reserved := min requested maxReserve
  if reserved < availableMb then availableMb - reserved else recommendedMinMb m

/-- The upper bound of the context size. -/
def recommendedMaxMb (sh : Shape) (availableMb total : Nat) : Nat :=
  if 0 < availableMb then
    clamp (usableGraphMb m availableMb total) (recommendedMinMb m) (dynamicEnvCapMb availableMb)
  else if m.isHybridSsm ∧ max 1 m.nEmbd ≤ 2048 ∧ max 1 m.nLayer ≤ 24 ∧ sh.seqLen ≤ 4096 ∧
      sh.runtimeMaxNumSeqs ≤ 4 then 4096
  else if m.isHybridSsm ∧ sh.seqLen ≤ 2048 ∧ sh.runtimeMaxNumSeqs ≤ 4 then 6144
  else 8192

/-- `GraphContextEstimate` -/
structure GraphContextEstimate where
  shape : Shape
  baseGraphWorkingSetBytes : Nat
  hybridSsmExtraBytes : Nat
  longContextSafetyPadBytes : Nat
  envExtraBytes : Nat
  totalBytes : Nat
  /-- The exact value of every sum and product that does not saturate. -/
  rawSizes : List Nat
  /-- The bounds of every call of `std::clamp`. -/
  clampBounds : List (Nat × Nat)

/-- `EstimateGraphContextSize` -/
def estimateGraphContextSize (target : Target) (env : Env) (h : Hints) (availableMb : Nat) :
    GraphContextEstimate :=
  let sh := shape m env h
  let working := saturatingAdd (saturatingAdd (baseGraphWorkingSetBytes m sh) (overheadBytes m sh))
    (hybridSsmExtraBytes m sh)
  let pad := (safetyPads m sh target working).foldl saturatingAdd 0
  let cap := dynamicEnvCapMb availableMb
  let extraMb := parseEnvMb env.extraMb 128 0 cap
  let total := saturatingAdd (saturatingAdd working pad) (extraMb * mib)
  let minMb := parseEnvMb env.minMb (recommendedMinMb m) 128 cap
  let maxMb := max minMb (parseEnvMb env.maxMb (recommendedMaxMb m sh availableMb total) 128 cap)
  let r := reserves availableMb total
  { shape := sh
    baseGraphWorkingSetBytes := baseGraphWorkingSetBytes m sh
    hybridSsmExtraBytes := hybridSsmExtraBytes m sh
    longContextSafetyPadBytes := pad
    envExtraBytes := extraMb * mib
    totalBytes := min (max total (minMb * mib)) (maxMb * mib)
    rawSizes :=
      (if m.isHybridSsm ∧ 16 < sh.seqLen then
        [sh.seqLen / 1024 * 64, longPromptPadMb sh * mib] else []) ++
      (if m.isHybridSsm ∧ 1024 ≤ sh.queryLen then
        [sh.queryLen + 1023, (sh.queryLen + 1023) / 1024 * 96,
          hybridLongPrefillObjectPadMb sh * mib] else []) ++
      [objectPadBytes sh, extraMb * mib] ++
      (if 0 < availableMb then
        (if total < sizeMax - (mib - 1) then [total + mib] else []) ++ [r.1, r.2, r.1 + r.2]
      else []) ++
      [minMb * mib, maxMb * mib]
    clampBounds :=
      (if m.isHybridSsm ∧ 16 < sh.seqLen then [(128, 1024)] else []) ++
      (if m.isHybridSsm ∧ 1024 ≤ sh.queryLen then [(96, 768)] else []) ++
      if 0 < availableMb then [(recommendedMinMb m, cap)] else [] }

/-! ### Where the sizing is well defined -/

/-- Every clamp has its bounds in order, nothing wraps, and the result is within the
memory that is known to be available. -/
def WellDefined (e : GraphContextEstimate) (availableMb : Nat) : Prop :=
  (∀ bounds ∈ e.clampBounds, bounds.1 ≤ bounds.2) ∧ (∀ n ∈ e.rawSizes, n < 2 ^ 64) ∧
    (0 < availableMb → e.totalBytes ≤ max 128 availableMb * mib)

instance (e : GraphContextEstimate) (availableMb : Nat) : Decidable (WellDefined e availableMb) :=
  inferInstanceAs (Decidable (_ ∧ _))

theorem parseEnvMb_le (env : Option Nat) (defaultMb minMb maxMb : Nat) :
    parseEnvMb env defaultMb minMb maxMb ≤ max 1 maxMb := by
  unfold parseEnvMb
  dsimp only
  split
  · omega
  split
  · omega
  · split <;> omega

theorem clamp_le {v lo hi : Nat} (h : lo ≤ hi) : clamp v lo hi ≤ hi := by
  unfold clamp
  split
  · exact h
  · split <;> omega

theorem shape_lens_le (env : Env) (h : Hints) :
    (shape m env h).seqLen ≤ max 1 m.nCtx ∧ (shape m env h).queryLen ≤ max 1 m.nCtx := by
  unfold shape
  dsimp only
  constructor
  · split <;> omega
  · split <;> omega

theorem objectPadBytes_lt (sh : Shape) : objectPadBytes sh < 2 ^ 64 := by
  unfold objectPadBytes
  split
  · rename_i h
    have hle := (Nat.le_div_iff_mul_le (by decide : 0 < 64)).mp h.2.2
    exact Nat.lt_of_le_of_lt hle (by decide)
  · decide

variable {availableMb : Nat}

theorem reserves_lt (h : availableMb < 2 ^ 40) (total : Nat) :
    (reserves availableMb total).1 < 2 ^ 41 ∧ (reserves availableMb total).2 < 2 ^ 41 := by
  unfold reserves
  dsimp only
  omega

theorem dynamicEnvCapMb_lt (h : availableMb < 2 ^ 40) :
    1 ≤ dynamicEnvCapMb availableMb ∧ dynamicEnvCapMb availableMb < 2 ^ 40 := by
  unfold dynamicEnvCapMb
  split <;> omega

/-- A configured size fits, in bytes. -/
theorem mib_lt {n : Nat} (h : n < 2 ^ 40) : n * mib < 2 ^ 64 := by
  unfold mib
  omega

theorem clampBounds_ordered (target : Target) (env : Env) (h : Hints) (availableMb : Nat) :
    (∀ bounds ∈ (estimateGraphContextSize m target env h availableMb).clampBounds,
      bounds.1 ≤ bounds.2) ↔ availableMb = 0 ∨ recommendedMinMb m ≤ availableMb := by
  have hmin : 256 ≤ recommendedMinMb m := by
    unfold recommendedMinMb
    dsimp only
    split <;> split <;> (try split) <;> omega
  unfold estimateGraphContextSize dynamicEnvCapMb
  dsimp only
  by_cases hknown : 0 < availableMb
  · rw [if_pos hknown, if_pos hknown]
    refine ⟨fun hall => ?_, fun hle bounds hmem => ?_⟩
    · have hlast := hall (recommendedMinMb m, max 128 availableMb) (by simp)
      dsimp only at hlast
      omega
    simp only [mem_append, mem_ite_nil_right, mem_singleton] at hmem
    rcases hmem with ((⟨-, rfl⟩ | ⟨-, rfl⟩) | rfl)
    · decide
    · decide
    dsimp only
    omega
  rw [if_neg hknown, append_nil]
  refine ⟨fun _ => Or.inl (by omega), fun _ bounds hmem => ?_⟩
  simp only [mem_append, mem_ite_nil_right, mem_singleton] at hmem
  rcases hmem with ⟨-, rfl⟩ | ⟨-, rfl⟩
  · decide
  · decide

theorem rawSizes_lt (hctx : m.nCtx < 2 ^ 20) (target : Target) (env : Env) (h : Hints)
    (havailable : availableMb < 2 ^ 40) :
    ∀ n ∈ (estimateGraphContextSize m target env h availableMb).rawSizes, n < 2 ^ 64 := by
  obtain ⟨hseq, hquery⟩ := shape_lens_le m env h
  obtain ⟨hcap0, hcap⟩ := dynamicEnvCapMb_lt havailable
  have hmb : ∀ e d lo, parseEnvMb e d lo (dynamicEnvCapMb availableMb) < 2 ^ 40 := by
    intro e d lo
    have := parseEnvMb_le e d lo (dynamicEnvCapMb availableMb)
    omega
  have hlong : longPromptPadMb (shape m env h) ≤ 1024 := clamp_le (by decide)
  have hprefill : hybridLongPrefillObjectPadMb (shape m env h) ≤ 768 := clamp_le (by decide)
  unfold estimateGraphContextSize
  dsimp only
  intro n hn
  simp only [mem_append, mem_ite_nil_right, mem_cons, not_mem_nil, or_false] at hn
  rcases hn with (((⟨-, rfl | rfl⟩ | ⟨-, rfl | rfl | rfl⟩) | rfl | rfl) | ⟨-, ⟨hroom, rfl⟩ | hr⟩) |
    rfl | rfl
  · omega
  · exact mib_lt (by omega)
  · omega
  · omega
  · exact mib_lt (by omega)
  · exact objectPadBytes_lt _
  · exact mib_lt (hmb _ _ _)
  · unfold sizeMax mib at hroom
    unfold mib
    omega
  · have hreserves := reserves_lt havailable
    rcases hr with rfl | rfl | rfl
    · exact Nat.lt_trans (hreserves _).1 (by decide)
    · exact Nat.lt_trans (hreserves _).2 (by decide)
    · exact Nat.lt_trans (Nat.add_lt_add (hreserves _).1 (hreserves _).2) (by decide)
  · exact mib_lt (hmb _ _ _)
  · exact mib_lt (Nat.max_lt.mpr ⟨hmb _ _ _, hmb _ _ _⟩)

/-- **The sizing is well defined exactly where the architecture's least size is left.**
The sums and the result are in order for every input; the bounds of the last clamp are,
when the available memory is not known or covers the least size. -/
theorem wellDefined_iff (m : GraphModel) (target : Target) (env : Env) (h : Hints)
    (availableMb : Nat) (hctx : m.nCtx < 2 ^ 20) (havailable : availableMb < 2 ^ 40) :
    WellDefined (estimateGraphContextSize m target env h availableMb) availableMb ↔
      availableMb = 0 ∨ recommendedMinMb m ≤ availableMb := by
  rw [← clampBounds_ordered m target env h availableMb]
  refine ⟨fun hdef => hdef.1, fun hclamps => ⟨hclamps, ?_, fun hknown => ?_⟩⟩
  · exact rawSizes_lt m hctx target env h havailable
  unfold estimateGraphContextSize
  dsimp only
  refine Nat.le_trans (Nat.min_le_right _ _) (Nat.mul_le_mul_right _ ?_)
  have hcap : dynamicEnvCapMb availableMb = max 128 availableMb := by
    unfold dynamicEnvCapMb
    rw [if_pos hknown]
  have hle := fun env default lo => parseEnvMb_le env default lo (dynamicEnvCapMb availableMb)
  rw [hcap] at hle ⊢
  exact Nat.max_le.mpr ⟨Nat.le_trans (hle _ _ _) (by omega), Nat.le_trans (hle _ _ _) (by omega)⟩

private def smallDense : GraphModel :=
  { nLayer := 4, nEmbd := 256, nCtx := 2048, nHead := 4, nHeadKv := 4 }

/-- With 512 MB left a small model's graph is sized in order. -/
theorem wellDefined_small :
    WellDefined (estimateGraphContextSize smallDense .x86 {} { seqLen := 128 } 512) 512 :=
  (wellDefined_iff smallDense .x86 {} { seqLen := 128 } 512 (by decide) (by decide)).mpr
    (Or.inr (by decide))

/-- With 200 MB left the last clamp runs from 256 to 200. -/
theorem clamp_out_of_order :
    (256, 200) ∈ (estimateGraphContextSize smallDense .x86 {} { seqLen := 128 } 200).clampBounds ∧
      ¬ WellDefined (estimateGraphContextSize smallDense .x86 {} { seqLen := 128 } 200) 200 := by
  decide +kernel

end DenseCore.GraphContext
