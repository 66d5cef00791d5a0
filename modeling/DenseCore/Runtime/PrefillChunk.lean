/-
Choosing a prefill chunk that fits.

`ApplyGraphContextPrefillChunkDowngrade` (`runtime/worker_prefill_chunking.inl`) tests whether
the requested chunk fits the available memory.  If so it may take a larger one, which it
tests with the margin of the requested chunk; and if it takes none it leaves the failure
that an earlier call noted.  If not, it takes the largest chunk of a table that fits.

The estimate and the margin are any functions of the tokens; 0 stands for an unchunked
prompt.  They are `size_t`, and so are the sums that the code compares, which can wrap.

When the chosen chunk fits is said without the code: the largest entry of a table that
passes a test is described by the entries, the estimate and the margin (`Largest`), and
the two searches are shown to return it.
-/
import Mathlib.Algebra.Group.Nat.Defs
import Mathlib.Data.List.Basic

namespace DenseCore.PrefillChunk

/-! ### The code -/

/-- The variants that have chunk sizes of their own. -/
inductive ModelVariant where
  | qwen35 | qwen36 | gemma4 | other
deriving DecidableEq

/-- What is read of a model.  Only descriptors of Qwen models set `is_hybrid_ssm`. -/
structure ModelClass where
  variant : ModelVariant
  hasMoE : Bool
  hasExperts : Bool  -- n_experts > 0
  isHybridSsm : Bool
  aarch64 : Bool  -- of the build
  gemma : variant = .gemma4 → isHybridSsm = false

def ModelClass.gemma4MoE (m : ModelClass) : Bool := m.variant = .gemma4 && m.hasMoE

/-- The fields that a request has for its graph context. -/
structure Request where
  requestedMb : Nat := 0
  availableMb : Nat := 0
  safetyMarginMb : Nat := 0
  downgradedChunkTokens : Int := 0
  failReason : String := ""
deriving DecidableEq

/-- `EstimatePrefillGraphContextReservationBytes` and
`GraphContextPrefillAdmissionMarginBytes`. -/
structure Sizes where
  estimate : Nat → UInt64
  margin : Nat → UInt64

/-- The chunks that an upgrade may choose. -/
def upgradeCandidates (m : ModelClass) : List Nat :=
  if m.gemma4MoE then [448, 384, 320, 288, 256, 224, 192, 160, 128]
  else (if m.aarch64 then [192, 160]
    else [2048, 1536, 1024, 768, 512, 384, 320, 256, 192, 160]) ++ [128, 96, 64, 48, 32]

/-- The models whose chunk may grow. -/
def ModelClass.upgrades (m : ModelClass) : Bool :=
  m.hasMoE && (m.variant = .qwen35 || m.variant = .qwen36) || m.isHybridSsm || m.gemma4MoE

/-- `SelectLargestModelPrefillChunkThatFits`. -/
def selectLargestThatFits (m : ModelClass) (s : Sizes) (prompt : Nat) (available margin : UInt64)
    (current : Int) : Int :=
  if available = 0 ∨ current ≤ 1 then current
  else if !m.upgrades then current
  else
    match (upgradeCandidates m).find? fun c : Nat =>
      current < (c : Int) && c ≤ prompt && s.estimate c + margin ≤ available with
    | some c => c
    | none => current

/-- The chunks to fall back to under memory pressure. -/
def pressureCandidates (m : ModelClass) : List Nat :=
  (if m.gemma4MoE then [448] else []) ++
    [384, 320, 288, 256, 224, 192, 160, 128, 96, 64, 48, 32, 24, 16, 12, 8, 4, 2, 1]

/-- The requested chunk, or the prompt where it is not chunked. -/
def activeTokens (prompt : Nat) (chunk : Int) : Nat := if chunk ≤ 1 then prompt else chunk.toNat

/-- What the estimate is asked for: 0 where the prompt is not chunked. -/
def requestedTokens (chunk : Int) : Nat := if chunk ≤ 1 then 0 else chunk.toNat

/-- Whether the request passes the test as it is. -/
def fitsAtOnce (s : Sizes) (prompt : Nat) (available : UInt64) (chunk : Int) : Bool :=
  s.estimate (requestedTokens chunk) + s.margin (activeTokens prompt chunk) ≤ available

/-- `ApplyGraphContextPrefillChunkDowngrade`, by the tokens of the prompt. -/
def applyDowngrade (m : ModelClass) (s : Sizes) (promptTokens : Int) (available : UInt64)
    (req : Request) (chunk : Int) : Int × Request :=
  if available = 0 then (chunk, req)
  else
    let mb := 1024 * 1024
    let prompt := (max 1 promptTokens).toNat
    let margin := s.margin (activeTokens prompt chunk)
    let req := { req with
      requestedMb := (s.estimate (requestedTokens chunk)).toNat / mb
      availableMb := available.toNat / mb
      safetyMarginMb := margin.toNat / mb }
    if fitsAtOnce s prompt available chunk then
      let expanded := selectLargestThatFits m s prompt available margin chunk
      if expanded ≠ chunk then
        (expanded, { req with
          requestedMb := (s.estimate expanded.toNat).toNat / mb
          downgradedChunkTokens := expanded
          failReason := "" })
      else (chunk, req)
    else
      let effective : Int := if chunk ≤ 1 then
          max 1 (min (if m.variant = .qwen35 && m.hasExperts || m.isHybridSsm then 384 else 512)
            prompt)
        else chunk
      match (pressureCandidates m).find? fun c : Nat =>
        (c : Int) ≤ effective && c ≤ prompt && s.estimate c + s.margin c ≤ available with
      | some c =>
        (c, { req with
          downgradedChunkTokens := c
          requestedMb := (s.estimate c).toNat / mb
          safetyMarginMb := (s.margin c).toNat / mb
          failReason := "" })
      | none =>
        (1, { req with
          downgradedChunkTokens := 1
          failReason := "prefill_graph_ctx_exceeds_available_after_min_chunk" })

/-! ### The largest entry of a table

Both tables are listed from the largest entry down, so the first that passes a test is
the largest that does. -/

/-- An entry that passes, with none above it that does. -/
def Largest (table : List Nat) (passes : Nat → Prop) (c : Nat) : Prop :=
  c ∈ table ∧ passes c ∧ ∀ c' ∈ table, c < c' → ¬ passes c'

theorem find_eq_some_iff_largest {passes : Nat → Bool} {c : Nat} {table : List Nat}
    (hdesc : table.Pairwise (· > ·)) :
    table.find? passes = some c ↔ Largest table (passes · = true) c := by
  induction table with
  | nil => simp [Largest]
  | cons head rest ih =>
    obtain ⟨habove, hrest⟩ := List.pairwise_cons.mp hdesc
    cases hhead : passes head with
    | true =>
      simp only [List.find?_cons_of_pos hhead, Option.some.injEq]
      constructor
      · rintro rfl
        refine ⟨List.mem_cons_self, hhead, fun c' hc' hlt => ?_⟩
        rcases List.mem_cons.mp hc' with rfl | hc'
        · exact absurd hlt (Nat.lt_irrefl _)
        · exact absurd (habove c' hc') (by omega)
      · rintro ⟨hc, -, hnone⟩
        rcases List.mem_cons.mp hc with rfl | hc
        · rfl
        · exact absurd hhead (hnone head List.mem_cons_self (habove c hc))
    | false =>
      rw [List.find?_cons_of_neg (by simp [hhead]), ih hrest]
      constructor
      · rintro ⟨hc, hpass, hnone⟩
        refine ⟨List.mem_cons_of_mem _ hc, hpass, fun c' hc' hlt => ?_⟩
        rcases List.mem_cons.mp hc' with rfl | hc'
        · simp [hhead]
        · exact hnone c' hc' hlt
      · rintro ⟨hc, hpass, hnone⟩
        rcases List.mem_cons.mp hc with rfl | hc
        · simp [hhead] at hpass
        · exact ⟨hc, hpass, fun c' hc' => hnone c' (List.mem_cons_of_mem _ hc')⟩

theorem exists_largest_or_none {table : List Nat} (hdesc : table.Pairwise (· > ·))
    (passes : Nat → Prop) : (∃ c, Largest table passes c) ∨ ∀ c ∈ table, ¬ passes c := by
  classical
  cases h : table.find? fun c => decide (passes c) with
  | some c => exact Or.inl ⟨c, by simpa using (find_eq_some_iff_largest hdesc).mp h⟩
  | none => exact Or.inr (by simpa using h)

theorem Largest.congr {table : List Nat} {p q : Nat → Prop} (h : ∀ c ∈ table, p c ↔ q c) {c : Nat}
    (hc : Largest table p c) : Largest table q c :=
  ⟨hc.1, (h c hc.1).mp hc.2.1, fun c' hc' hlt hq => hc.2.2 c' hc' hlt ((h c' hc').mpr hq)⟩

theorem Largest.unique {table : List Nat} {p : Nat → Prop} {c c' : Nat} (hc : Largest table p c)
    (hc' : Largest table p c') : c = c' := by
  by_contra hne
  rcases Nat.lt_or_gt_of_ne hne with hlt | hlt
  · exact hc.2.2 c' hc'.1 hlt hc'.2.1
  · exact hc'.2.2 c hc.1 hlt hc.2.1

theorem upgradeCandidates_desc (m : ModelClass) : (upgradeCandidates m).Pairwise (· > ·) := by
  unfold upgradeCandidates
  split
  · decide
  · split <;> decide

theorem pressureCandidates_desc (m : ModelClass) : (pressureCandidates m).Pairwise (· > ·) := by
  unfold pressureCandidates
  split <;> decide

/-! ### The property -/

section Choice

variable (m : ModelClass) (s : Sizes) (promptTokens : Int) (available : UInt64) (req : Request)
  (chunk : Int)

/-- A chunk fits: as numbers, its estimate and its own margin are within the memory. -/
def Fits (c : Nat) : Prop := (s.estimate c).toNat + (s.margin c).toNat ≤ available.toNat

instance (c : Nat) : Decidable (Fits s available c) := inferInstanceAs (Decidable (_ ≤ _))

/-- The request fits as it is. -/
def RequestFits (prompt : Nat) : Prop :=
  (s.estimate (requestedTokens chunk)).toNat + (s.margin (activeTokens prompt chunk)).toNat ≤
    available.toNat

/-- No chunk of the table, up to what is requested, fits. -/
def NoneFits (prompt : Nat) : Prop :=
  ∀ c ∈ pressureCandidates m, c ≤ prompt → c ≤ activeTokens prompt chunk → ¬ Fits s available c

/-- The chunk fits and no failure is noted, or no chunk fits and one is. -/
def Chooses : Prop :=
  let prompt := (max 1 promptTokens).toNat
  let r := applyDowngrade m s promptTokens available req chunk
  (0 < r.1 ∧ Fits s available r.1.toNat ∨
        r.1 = chunk ∧ chunk ≤ 1 ∧ RequestFits s available chunk prompt) ∧ r.2.failReason = "" ∨
    NoneFits m s available chunk prompt ∧ r.2.failReason ≠ ""

/-! The three tests the code makes compare sums of `size_t`. -/

/-- The request passes its test. -/
def RequestPasses (prompt : Nat) : Prop :=
  s.estimate (requestedTokens chunk) + s.margin (activeTokens prompt chunk) ≤ available

instance (prompt : Nat) : Decidable (RequestPasses s available chunk prompt) :=
  inferInstanceAs (Decidable (_ ≤ _))

/-- A larger chunk passes its test, which has the margin of the request. -/
def UpgradePasses (prompt c : Nat) : Prop :=
  1 < chunk ∧ m.upgrades = true ∧ chunk < c ∧ c ≤ prompt ∧
    s.estimate c + s.margin (activeTokens prompt chunk) ≤ available

/-- A smaller chunk passes its test, which has its own margin. -/
def DowngradePasses (prompt c : Nat) : Prop :=
  c ≤ activeTokens prompt chunk ∧ c ≤ prompt ∧ s.estimate c + s.margin c ≤ available

/-- What the sizes must be like for the choice to be right.  Where the request passes, the
largest chunk above it that passes with the request's margin has room for its own; and if
there is none, the sum of the request has not wrapped and no old failure is there, or one
is and no chunk fits.  Where the request does not pass, the sum of the largest chunk that
does has not wrapped. -/
def SizesAllow : Prop :=
  let prompt := (max 1 promptTokens).toNat
  (RequestPasses s available chunk prompt →
    (∀ c, Largest (upgradeCandidates m) (UpgradePasses m s available chunk prompt) c →
      Fits s available c) ∧
    ((∀ c ∈ upgradeCandidates m, ¬ UpgradePasses m s available chunk prompt c) →
      ((s.estimate (requestedTokens chunk)).toNat + (s.margin (activeTokens prompt chunk)).toNat
          < 2 ^ 64 ∨ chunk = 1 ∧ Fits s available 1) ∧ req.failReason = "" ∨
        NoneFits m s available chunk prompt ∧ req.failReason ≠ "")) ∧
  (¬ RequestPasses s available chunk prompt →
    ∀ c, Largest (pressureCandidates m) (DowngradePasses s available chunk prompt) c →
      (s.estimate c).toNat + (s.margin c).toNat < 2 ^ 64)

theorem pressure_le_effective {prompt c : Nat} (hc : c ∈ pressureCandidates m) (hle : c ≤ prompt) :
    (c : Int) ≤ max (1 : Int) (min
      (if m.variant = .qwen35 && m.hasExperts || m.isHybridSsm then 384 else 512) prompt) := by
  have hbound : c ≤ if m.gemma4MoE then 448 else 384 := by
    simp only [pressureCandidates] at hc
    split <;> simp_all <;> omega
  by_cases hg : m.gemma4MoE = true
  · have hv : m.variant = .gemma4 := by
      simp only [ModelClass.gemma4MoE, Bool.and_eq_true, decide_eq_true_eq] at hg
      exact hg.1
    simp only [hg, hv, m.gemma hv, if_true] at hbound ⊢
    simp
    omega
  · simp only [hg, Bool.false_eq_true, if_false] at hbound
    split <;> omega

/-- As numbers two sizes fit if the wrapped sum does and had no need to wrap. -/
theorem toNat_add_le_iff {a b c : UInt64} :
    a.toNat + b.toNat ≤ c.toNat ↔ a + b ≤ c ∧ a.toNat + b.toNat < 2 ^ 64 := by
  have hc := c.toNat_lt
  rw [UInt64.le_iff_toNat_le, UInt64.toNat_add]
  constructor
  · intro h
    rw [Nat.mod_eq_of_lt (by omega)]
    omega
  · rintro ⟨h, hlt⟩
    rwa [Nat.mod_eq_of_lt hlt] at h

/-! ### The two searches -/

section Search

variable {m s available chunk} {prompt c : Nat}

theorem selectLargestThatFits_eq_some (ha : available ≠ 0)
    (hc : Largest (upgradeCandidates m) (UpgradePasses m s available chunk prompt) c) :
    selectLargestThatFits m s prompt available (s.margin (activeTokens prompt chunk)) chunk = c := by
  obtain ⟨hmem, ⟨hchunk, hup, hpass⟩, hnone⟩ := hc
  have hfind : (upgradeCandidates m).find? (fun c : Nat => chunk < (c : Int) && c ≤ prompt &&
      s.estimate c + s.margin (activeTokens prompt chunk) ≤ available) = some c := by
    refine (find_eq_some_iff_largest (upgradeCandidates_desc m)).mpr ⟨hmem, ?_, ?_⟩
    · simpa [and_assoc] using hpass
    · intro c' hc' hlt hp
      exact hnone c' hc' hlt ⟨hchunk, hup, by simpa [and_assoc] using hp⟩
  rw [selectLargestThatFits, if_neg (by simp [ha]; omega), if_neg (by simp [hup]), hfind]

theorem selectLargestThatFits_eq_self
    (hnone : ∀ c ∈ upgradeCandidates m, ¬ UpgradePasses m s available chunk prompt c) :
    selectLargestThatFits m s prompt available (s.margin (activeTokens prompt chunk)) chunk
      = chunk := by
  unfold selectLargestThatFits
  split
  · rfl
  next hchunk =>
    split
    · rfl
    next hup =>
      rw [List.find?_eq_none.mpr]
      intro c hc hp
      refine hnone c hc ⟨by omega, by simpa using hup, ?_⟩
      simpa [and_assoc] using hp

end Search

/-- What the downgrade asks of an entry of its table is `DowngradePasses`. -/
theorem downgrade_test (prompt : Nat) {c : Nat} (hc : c ∈ pressureCandidates m) :
    (((c : Int) ≤ (if chunk ≤ 1 then
          max 1 (min (if m.variant = .qwen35 && m.hasExperts || m.isHybridSsm then 384 else 512)
            (prompt : Int))
        else chunk) && c ≤ prompt && s.estimate c + s.margin c ≤ available) = true) ↔
      DowngradePasses s available chunk prompt c := by
  simp only [Bool.and_eq_true, decide_eq_true_eq, and_assoc, DowngradePasses, activeTokens]
  by_cases hchunk : chunk ≤ 1
  · simp only [if_pos hchunk]
    constructor
    · rintro ⟨-, hprompt, hsum⟩
      exact ⟨hprompt, hprompt, hsum⟩
    · rintro ⟨-, hprompt, hsum⟩
      exact ⟨pressure_le_effective m hc hprompt, hprompt, hsum⟩
  · simp only [if_neg hchunk]
    refine and_congr_left fun _ => ?_
    omega

/-- The request does not pass: the choice is right just where the sum of the largest chunk
that passes has not wrapped. -/
theorem chooses_iff_of_not_passes (ha : available ≠ 0)
    (hf : ¬ RequestPasses s available chunk (max 1 promptTokens).toNat) :
    Chooses m s promptTokens available req chunk ↔
      ∀ c, Largest (pressureCandidates m)
          (DowngradePasses s available chunk (max 1 promptTokens).toNat) c →
        (s.estimate c).toNat + (s.margin c).toNat < 2 ^ 64 := by
  have hf' : fitsAtOnce s (max 1 promptTokens).toNat available chunk = false := by
    simpa [fitsAtOnce, RequestPasses] using hf
  have hno : ¬ RequestFits s available chunk (max 1 promptTokens).toNat := fun h =>
    hf (toNat_add_le_iff.mp h).1
  have htest := fun c (hc : c ∈ pressureCandidates m) =>
    downgrade_test m s available chunk (max 1 promptTokens).toNat hc
  unfold Chooses
  simp only [applyDowngrade, ha, if_false, hf', Bool.false_eq_true]
  split
  next c hc =>
    have hlargest := ((find_eq_some_iff_largest (pressureCandidates_desc m)).mp hc).congr htest
    have hpos : 0 < c := by
      have := hlargest.1
      unfold pressureCandidates at this
      split at this <;> simp at this <;> omega
    simp only [hno, and_false, or_false, and_true, ne_eq, not_true, Int.toNat_natCast, Fits,
      toNat_add_le_iff, hlargest.2.1.2.2, true_and]
    constructor
    · rintro ⟨-, h⟩ c' hc'
      rwa [← hlargest.unique hc']
    · intro h
      exact ⟨by omega, h c hlargest⟩
  next hnone =>
    refine iff_of_true (Or.inr ⟨fun c hc hprompt hact hfit => ?_, by simp⟩) fun c hc => ?_
    · exact List.find?_eq_none.mp hnone c hc
        ((htest c hc).mpr ⟨hact, hprompt, (toNat_add_le_iff.mp hfit).1⟩)
    · exact absurd ((htest c hc.1).mpr hc.2.1) (List.find?_eq_none.mp hnone c hc.1)

/-- The request passes and so does a larger chunk: the choice is right just where the
largest of these fits. -/
theorem chooses_iff_of_upgrade (ha : available ≠ 0)
    (hf : RequestPasses s available chunk (max 1 promptTokens).toNat) {c : Nat}
    (hc : Largest (upgradeCandidates m)
      (UpgradePasses m s available chunk (max 1 promptTokens).toNat) c) :
    Chooses m s promptTokens available req chunk ↔ Fits s available c := by
  have hf' : fitsAtOnce s (max 1 promptTokens).toNat available chunk = true := by
    simpa [fitsAtOnce, RequestPasses] using hf
  obtain ⟨hchunk, -, hlt, -, -⟩ := hc.2.1
  have hne : (c : Int) ≠ chunk := by omega
  have hpos : 0 < c := by omega
  unfold Chooses
  simp [applyDowngrade, ha, hf', selectLargestThatFits_eq_some ha hc, hne, hpos]

/-- The request passes and no larger chunk does: it is returned as it is, with the note of
an earlier failure. -/
theorem chooses_iff_of_stay (ha : available ≠ 0)
    (hf : RequestPasses s available chunk (max 1 promptTokens).toNat)
    (hnone : ∀ c ∈ upgradeCandidates m,
      ¬ UpgradePasses m s available chunk (max 1 promptTokens).toNat c) :
    Chooses m s promptTokens available req chunk ↔
      ((s.estimate (requestedTokens chunk)).toNat +
          (s.margin (activeTokens (max 1 promptTokens).toNat chunk)).toNat < 2 ^ 64 ∨
        chunk = 1 ∧ Fits s available 1) ∧ req.failReason = "" ∨
      NoneFits m s available chunk (max 1 promptTokens).toNat ∧ req.failReason ≠ "" := by
  have hf' : fitsAtOnce s (max 1 promptTokens).toNat available chunk = true := by
    simpa [fitsAtOnce, RequestPasses] using hf
  have hwrap : RequestFits s available chunk (max 1 promptTokens).toNat ↔
      (s.estimate (requestedTokens chunk)).toNat +
        (s.margin (activeTokens (max 1 promptTokens).toNat chunk)).toNat < 2 ^ 64 :=
    toNat_add_le_iff.trans (and_iff_right hf)
  unfold Chooses
  simp only [applyDowngrade, ha, if_false, hf', if_true, selectLargestThatFits_eq_self hnone,
    ne_eq, not_true, true_and, ← hwrap]
  refine or_congr_left (and_congr_left fun _ => ?_)
  rcases Int.lt_trichotomy chunk 1 with hlt | rfl | hgt
  · simp [show ¬ 0 < chunk by omega, show chunk ≤ 1 by omega, show chunk ≠ 1 by omega]
  · simp [or_comm]
  · have hactive : RequestFits s available chunk (max 1 promptTokens).toNat ↔
        Fits s available chunk.toNat := by
      simp only [RequestFits, Fits, requestedTokens, activeTokens, if_neg (Int.not_le.mpr hgt)]
    simp [hactive, show 0 < chunk by omega, show ¬ chunk ≤ 1 by omega, show chunk ≠ 1 by omega]

/-- **The chosen chunk fits** just where the sizes allow it. -/
theorem chooses_iff (ha : available ≠ 0) : Chooses m s promptTokens available req chunk ↔
    SizesAllow m s promptTokens available req chunk := by
  by_cases hf : RequestPasses s available chunk (max 1 promptTokens).toNat
  · rcases exists_largest_or_none (upgradeCandidates_desc m)
      (UpgradePasses m s available chunk (max 1 promptTokens).toNat) with ⟨c, hc⟩ | hnone
    · rw [chooses_iff_of_upgrade m s promptTokens available req chunk ha hf hc]
      refine ⟨fun hfit => ⟨fun _ => ⟨fun c' hc' => hc.unique hc' ▸ hfit, fun hnone => ?_⟩,
        fun hno => absurd hf hno⟩, fun h => (h.1 hf).1 c hc⟩
      exact absurd hc.2.1 (hnone c hc.1)
    · rw [chooses_iff_of_stay m s promptTokens available req chunk ha hf hnone]
      exact ⟨fun h => ⟨fun _ => ⟨fun c hc => absurd hc.2.1 (hnone c hc.1), fun _ => h⟩,
        fun hno => absurd hf hno⟩, fun h => (h.1 hf).2 hnone⟩
  · rw [chooses_iff_of_not_passes m s promptTokens available req chunk ha hf]
    exact ⟨fun h => ⟨fun hyes => absurd hyes hf, fun _ => h⟩, fun h => h.2 hf⟩

end Choice

/-- With 400 bytes the upgrade from 64 to 192 tokens has room for its own margin.  With 256
it is chosen all the same, on the margin of the 64. -/
theorem upgrade_chooses :
    Chooses ⟨.qwen36, true, true, true, true, nofun⟩ ⟨.ofNat, .ofNat⟩ 200 400 {} 64 ∧
      ¬ Chooses ⟨.qwen36, true, true, true, true, nofun⟩ ⟨.ofNat, .ofNat⟩ 200 256 {} 64 := by
  have hpass : ∀ available : UInt64, 256 ≤ available → UpgradePasses
      ⟨.qwen36, true, true, true, true, nofun⟩ ⟨.ofNat, .ofNat⟩ available 64 200 192 := fun _ h =>
    ⟨by decide, by decide, by decide, by decide, h⟩
  have hlargest : ∀ available : UInt64, 256 ≤ available →
      Largest (upgradeCandidates ⟨.qwen36, true, true, true, true, nofun⟩) (UpgradePasses
        ⟨.qwen36, true, true, true, true, nofun⟩ ⟨.ofNat, .ofNat⟩ available 64 200) 192 :=
    fun _ h => ⟨by decide, hpass _ h, fun c' hc' hlt _ => absurd hlt
      ((by decide : ∀ c' ∈ upgradeCandidates ⟨.qwen36, true, true, true, true, nofun⟩,
        ¬ 192 < c') c' hc')⟩
  constructor
  · refine (chooses_iff _ _ _ _ _ _ (by decide)).mpr ⟨fun _ => ⟨fun c hc => ?_, fun h => ?_⟩,
      fun h => absurd (show RequestPasses _ _ _ _ by decide) h⟩
    · rw [hc.unique (hlargest 400 (by decide))]
      decide
    · exact absurd (hpass 400 (by decide)) (h 192 (by decide))
  · intro h
    have hfit := (((chooses_iff _ _ _ _ _ _ (by decide)).mp h).1 (by decide)).1 192
      (hlargest 256 (by decide))
    exact absurd hfit (by decide)

/-- A failure that an earlier call noted stays although the request fits. -/
theorem stale_failReason :
    ¬ Chooses ⟨.other, false, false, false, false, nofun⟩ ⟨fun _ => 0, fun _ => 0⟩ 8 1
      { failReason := "prefill_graph_ctx_exceeds_available_after_min_chunk" } 4 := by
  rintro (⟨-, h⟩ | ⟨h, -⟩)
  · exact absurd h (by decide)
  · exact h 4 (by decide) (by decide) (by decide) (by simp [Fits])

end DenseCore.PrefillChunk
