/-
What a registration does that the manager declines.

A block that nobody holds and that the cache does not keep cannot be registered.  The
manager finds that out after it has taken the hash from the block that had it, so what
a declined call leaves untouched depends on that other block: the ledger is as it was
exactly when the hash was nobody's.
-/
import DenseCore.Proofs.Memory.Operations

namespace DenseCore.BlockManager

variable {σ : Type}

/-- The calls that register nothing: a block or a hash that is none, or a block that is
neither held nor resident. -/
def DeclinesRegistration (m : BlockManager σ) (b : Int) (hash : UInt64) : Prop :=
  (¬ m.InRange b ∨ hash = 0) ∨ m.refusesRegistration b = true

theorem releaseExisting_refuses {m : BlockManager σ} (hm : WellFormed m) (b : Int) (hash : UInt64) :
    (m.releaseExisting b hash).refusesRegistration b = m.refusesRegistration b := by
  obtain ⟨-, -, hblock, -⟩ := releaseExisting_spec m b hash hm
  unfold refusesRegistration
  rw [hblock]

variable {b : Int} {hash : UInt64}

theorem registerPrefixBlock_declined {m : BlockManager σ} (hm : WellFormed m)
    (hargs : ¬ (¬ m.InRange b ∨ hash = 0))
    (hrefuse : m.refusesRegistration b = true) :
    m.registerPrefixBlock b hash = m.releaseExisting b hash := by
  unfold registerPrefixBlock
  rw [if_neg hargs]
  dsimp only
  rw [if_pos ((releaseExisting_refuses hm b hash).trans hrefuse)]

theorem registerPrefixBlockWithTokens_declined {m : BlockManager σ} (hm : WellFormed m)
    (ts : Option (List Int32)) (n : Int) (snap : Option (List σ))
    (hargs : ¬ (¬ m.InRange b ∨ hash = 0)) (hrefuse : m.refusesRegistration b = true) :
    m.registerPrefixBlockWithTokens b hash ts n snap = m.releaseExisting b hash := by
  unfold registerPrefixBlockWithTokens
  rw [if_neg hargs]
  dsimp only
  rw [if_pos ((releaseExisting_refuses hm b hash).trans hrefuse)]

theorem releaseExisting_eq_self_iff {m : BlockManager σ} (hm : WellFormed m)
    (hash : UInt64) (hrefuse : m.refusesRegistration b = true) :
    m.releaseExisting b hash = m ↔ m.prefixCache.lookup hash = none := by
  constructor
  · intro hsame
    obtain ⟨-, howner, -, -⟩ := releaseExisting_spec m b hash hm
    rw [hsame] at howner
    cases hlook : m.prefixCache.lookup hash with
    | none => rfl
    | some e =>
      -- The hash would be the block's own, so the block would be resident.
      have hself := howner e hlook
      subst hself
      have hres := ((hm.index.lookup_iff hash e).mp hlook).1
      simp [refusesRegistration, hres] at hrefuse
  intro hnone
  unfold releaseExisting
  rw [hnone]

private theorem declined_iff {m m' : BlockManager σ} (hm : WellFormed m)
    (hargs : ¬ m.InRange b ∨ hash = 0 → m' = m)
    (hdeclined : ¬ (¬ m.InRange b ∨ hash = 0) → m.refusesRegistration b = true →
      m' = m.releaseExisting b hash) :
    (m.DeclinesRegistration b hash → m' = m) ↔
      ¬ m.InRange b ∨ hash = 0 ∨ m.refusesRegistration b = false ∨
        m.prefixCache.lookup hash = none := by
  unfold DeclinesRegistration
  by_cases hinvalid : ¬ m.InRange b ∨ hash = 0
  · exact iff_of_true (fun _ => hargs hinvalid) (hinvalid.imp_right Or.inl)
  cases hrefuse : m.refusesRegistration b with
  | false =>
    refine iff_of_true ?_ (Or.inr (Or.inr (Or.inl rfl)))
    rintro (habsurd | habsurd)
    · exact absurd habsurd hinvalid
    · cases habsurd
  | true =>
    have hrelease := releaseExisting_eq_self_iff hm hash hrefuse
    rw [← hdeclined hinvalid hrefuse] at hrelease
    constructor
    · exact fun h => Or.inr (Or.inr (Or.inr (hrelease.mp (h (Or.inr rfl)))))
    rintro (hrange | hzero | habsurd | hnone) -
    · exact absurd (Or.inl hrange) hinvalid
    · exact absurd (Or.inr hzero) hinvalid
    · cases habsurd
    · exact hrelease.mpr hnone

/-- **A declined registration is harmless exactly when the hash is nobody's.**  In every
reachable manager, for every block and hash: a call that registers nothing leaves the
whole manager as it was precisely when the block or the hash is none, when the block
is held or resident and the call is not declined, or when no block owns the hash. -/
theorem run_declined_registration_harmless_iff (salt : UInt64) (numBlocks : Nat)
    (blockSize : Int) (ops : List (Op σ)) (b : Int) (hash : UInt64)
    (ts : Option (List Int32)) (n : Int) (snap : Option (List σ)) :
    let m := run salt (init numBlocks blockSize : BlockManager σ) ops
    ((m.DeclinesRegistration b hash → m.registerPrefixBlock b hash = m) ↔
        ¬ m.InRange b ∨ hash = 0 ∨ m.refusesRegistration b = false ∨
          m.prefixCache.lookup hash = none) ∧
      ((m.DeclinesRegistration b hash → m.registerPrefixBlockWithTokens b hash ts n snap = m) ↔
        ¬ m.InRange b ∨ hash = 0 ∨ m.refusesRegistration b = false ∨
          m.prefixCache.lookup hash = none) := by
  intro m
  have hwf : WellFormed m := run_wellFormed salt numBlocks blockSize ops
  constructor
  · refine declined_iff hwf ?_ (registerPrefixBlock_declined hwf)
    intro hinvalid
    unfold registerPrefixBlock
    rw [if_pos hinvalid]
  refine declined_iff hwf ?_ (registerPrefixBlockWithTokens_declined hwf ts n snap)
  intro hinvalid
  unfold registerPrefixBlockWithTokens
  rw [if_pos hinvalid]

/-- Block 0 is registered, and block 1, which nobody holds, is then offered under the
same hash: both calls decline it, and block 0 has lost its registration. -/
theorem declined_registration_releases_owner :
    let m := run 0 (init 2 16 : BlockManager Unit) [.allocateSingle {}, .registerPrefixBlock 0 7]
    m.DeclinesRegistration 1 7 ∧ m.prefixCache.lookup 7 = some 0 ∧
      (m.registerPrefixBlock 1 7).prefixCache.lookup 7 = none ∧
      (m.registerPrefixBlockWithTokens 1 7 none 0 none).prefixCache.lookup 7 = none :=
  ⟨Or.inr (by decide), by decide, by decide, by decide⟩

end DenseCore.BlockManager
