/-
Trimming the cache of repacked Q4_K weights to the memory that is left.

`Q4KRepackedGemvTrimCacheForAvailableMemory` (`kernels/q4k_repacked_gemv.cpp`) takes its
target from `Q4KRepackedGemvRefreshRuntimeCacheBudget`, which never goes below what is
resident.  So nothing is ever removed, and the cache fits afterwards only where it did.
-/
import DenseCore.Matmul.RepackCache

namespace DenseCore.Repack

variable {P : Type}

def mib : UInt64 := 1024 * 1024

/-- `Q4KRepackedGemvAutoCacheLimitBytes`, by what `ReadAvailableMemoryBytes` reads. -/
def autoCacheLimitBytes (available reserved : UInt64) : UInt64 :=
  if available = 0 then 1024 * mib
  else
    let headroom := max (available / 8) (512 * mib)
    if available ≤ reserved + headroom then 0
    else
      let target := (available - reserved - headroom) / 2
      if target < 256 * mib then 0 else target / (64 * mib) * (64 * mib)

/-- `Q4KRepackedGemvRefreshRuntimeCacheBudget`. -/
def refreshRuntimeCacheBudget (c : Q4kCache P) (floor : Nat) (available reserved : UInt64) : Nat :=
  max (max (autoCacheLimitBytes available reserved).toNat c.cacheBytes) floor

/-- `Q4KRepackedGemvTrimCacheForAvailableMemory`. -/
def trimCacheForAvailableMemory (c : Q4kCache P) (floor : Nat) (available reserved : UInt64) :
    Q4kCache P :=
  c.trimToBytes (refreshRuntimeCacheBudget c floor available reserved)

/-- The cache fits a bound, what left it was used before all that may leave and stayed, and
the last that left did not fit. -/
structure Trims (c c' : Q4kCache P) (bound : Nat) : Prop where
  fits : c'.cacheBytes ≤ bound
  oldest : ∀ e ∈ c.entries, e ∉ c'.entries → ∀ e' ∈ c'.entries, ∀ w ∈ c.evictable e,
    ∀ w' ∈ c.evictable e', w.lastUse ≤ w'.lastUse
  needed : ∀ e ∈ c.entries, e ∉ c'.entries → ∀ w ∈ c.evictable e,
    (∀ e' ∈ c.entries, e' ∉ c'.entries → ∀ w' ∈ c.evictable e', w'.lastUse ≤ w.lastUse) →
      bound < c'.cacheBytes + w.bytes

theorem trimToBytes_of_le {c : Q4kCache P} {target : Nat} (h : c.cacheBytes ≤ target) :
    c.trimToBytes target = c := by
  unfold Q4kCache.trimToBytes
  cases c.entries.length with
  | zero => rfl
  | succ n => exact if_neg (by simpa using h)

/-- **Trimming removes nothing**: it does its work just where there is none. -/
theorem trims_iff (c : Q4kCache P) (floor : Nat) (available reserved : UInt64) :
    Trims c (trimCacheForAvailableMemory c floor available reserved)
        (max (autoCacheLimitBytes available reserved).toNat floor) ↔
      c.cacheBytes ≤ max (autoCacheLimitBytes available reserved).toNat floor := by
  have hsame : trimCacheForAvailableMemory c floor available reserved = c :=
    trimToBytes_of_le (Nat.le_trans (Nat.le_max_right _ _) (Nat.le_max_left _ floor))
  rw [hsame]
  exact ⟨Trims.fits, fun h => ⟨h, fun _ he hno => absurd he hno, fun _ he hno => absurd he hno⟩⟩

/-- One weight of 9 KiB and 1 MiB of free memory: the limit is 0, and the weight stays. -/
theorem resident_weight_stays :
    let key : Key := ⟨⟨4096, 8, 2048⟩, 0⟩
    let c : Q4kCache Unit :=
      { entries := [(key, 0)], heap := fun _ => some ⟨key, some ⟨(), 9216, 1⟩, false⟩
        nextId := 1, cacheBytes := 9216, useClock := 1 }
    autoCacheLimitBytes mib 0 = 0 ∧ (trimCacheForAvailableMemory c 0 mib 0).entries = [(key, 0)] ∧
      ¬ Trims c (trimCacheForAvailableMemory c 0 mib 0)
        (max (autoCacheLimitBytes mib 0).toNat 0) := by
  refine ⟨by decide, by decide, fun h => ?_⟩
  exact absurd h.fits (by decide)

end DenseCore.Repack
