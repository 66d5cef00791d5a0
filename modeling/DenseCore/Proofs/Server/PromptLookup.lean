/-
What a lookup in the prompt cache reports.

A prefix that can be reused is one shared with an entry of a compatible identity that has
not expired and, where the identity asks for it, was stored with a snapshot.  The scan of
the lists finds the longest: every entry is named in the list of its identity, and the
filters are those of the specification.  In front of the scan an entry with just these
tokens answers at once, and that answer does not ask for the snapshot.
`lookup_exact_iff` says when this shows.
-/
import DenseCore.Proofs.Server.PromptCache

namespace DenseCore.Server.PromptCache

open List

open Lib (Bytes Table.get Runs)

/-! ### Keys -/

/-- No hashed field contains a zero byte. -/
def Identity.NoNul (identity : Identity) : Prop := ∀ part ∈ identity.parts, (0 : UInt8) ∉ part

/-- Fields that are closed by a zero byte can be told apart. -/
theorem parts_inj {x y : Bytes} : ∀ {ps qs : List Bytes}, ps.length = qs.length →
    (∀ p ∈ ps, (0 : UInt8) ∉ p) → (∀ q ∈ qs, (0 : UInt8) ∉ q) →
    (ps.flatMap fun p => p ++ [0]) ++ x = (qs.flatMap fun q => q ++ [0]) ++ y → ps = qs := by
  intro ps
  induction ps with
  | nil =>
    intro qs hlen _ _ _
    exact (eq_nil_of_length_eq_zero hlen.symm).symm
  | cons p ps ih =>
    intro qs hlen hps hqs h
    cases qs with
    | nil => cases hlen
    | cons q qs =>
      rw [flatMap_cons, flatMap_cons, append_assoc, append_assoc,
        append_assoc, append_assoc, singleton_append,
        singleton_append] at h
      have hp := Lib.Strings.index_single (hps p mem_cons_self)
        ((ps.flatMap fun p => p ++ [0]) ++ x)
      have hq := Lib.Strings.index_single (hqs q mem_cons_self)
        ((qs.flatMap fun q => q ++ [0]) ++ y)
      rw [h, hq] at hp
      obtain ⟨rfl, hrest⟩ := append_inj h (Option.some.inj hp).symm
      rw [ih (Nat.succ.inj hlen) (fun x hx => hps x (mem_cons_of_mem _ hx))
        (fun x hx => hqs x (mem_cons_of_mem _ hx)) (List.cons.inj hrest).2]

theorem parts_eq_of_preimage {a b : Identity} {s t : List Int} (ha : a.NoNul) (hb : b.NoNul)
    (h : keyPreimage a s = keyPreimage b t) : a.parts = b.parts :=
  parts_inj rfl ha hb h

theorem compatible_iff (a b : Identity) : compatibleIdentity a b = true ↔ a.parts = b.parts := by
  simp [compatibleIdentity, Identity.parts, and_assoc]

theorem hexDigit_inj {a b : Nat} (ha : a < 16) (hb : b < 16) (h : hexDigit a = hexDigit b) :
    a = b := by
  have hall : ∀ a < 16, ∀ b < 16, hexDigit a = hexDigit b → a = b := by decide
  exact hall a ha b hb h

theorem hexEncode_inj : ∀ {s t : Bytes}, hexEncode s = hexEncode t → s = t := by
  intro s
  induction s with
  | nil =>
    intro t h
    cases t with
    | nil => rfl
    | cons c t => cases h
  | cons b s ih =>
    intro t h
    cases t with
    | nil => cases h
    | cons c t =>
      have hb := b.toNat_lt
      have hc := c.toNat_lt
      obtain ⟨hhigh, hrest⟩ := List.cons.inj h
      obtain ⟨hlow, htail⟩ := List.cons.inj hrest
      have hdiv := hexDigit_inj (by omega) (by omega) hhigh
      have hmod := hexDigit_inj (by omega) (by omega) hlow
      have hbyte : b = c := UInt8.toNat_inj.mp (by omega)
      rw [hbyte, ih htail]

theorem lineageKey_eq (sha : Sha256) {a b : Identity} (h : a.parts = b.parts) :
    lineageKey sha a = lineageKey sha b := by
  have hpreimage : ∀ i : Identity, keyPreimage { i with conversationID := [], cacheID := [] } [] =
      (i.parts.flatMap fun part => part ++ [0]) ++ [] := fun _ => rfl
  unfold lineageKey cacheKey
  rw [hpreimage, hpreimage, h]

/-! ### Common prefixes -/

theorem commonPrefix_le (a b : List Int) : commonPrefix a b ≤ b.length := by
  induction a generalizing b with
  | nil => exact Nat.zero_le _
  | cons x a ih =>
    cases b with
    | nil => exact Nat.zero_le _
    | cons y b =>
      rw [commonPrefix]
      split
      · exact Nat.succ_le_succ (ih b)
      · exact Nat.zero_le _

theorem commonPrefix_eq_length {a b : List Int} : commonPrefix a b = b.length ↔ b <+: a := by
  induction a generalizing b with
  | nil =>
    cases b with
    | nil => exact ⟨fun _ => prefix_rfl, fun _ => rfl⟩
    | cons y b => exact ⟨fun h => absurd h.symm (Nat.succ_ne_zero _),
        fun h => absurd (List.prefix_nil.mp h) (cons_ne_nil y b)⟩
  | cons x a ih =>
    cases b with
    | nil => exact ⟨fun _ => nil_prefix, fun _ => rfl⟩
    | cons y b =>
      rw [commonPrefix, cons_prefix_cons, length_cons]
      by_cases hxy : x = y
      · rw [if_pos hxy, Nat.succ_inj, ih]
        exact ⟨fun h => ⟨hxy.symm, h⟩, fun h => h.2⟩
      rw [if_neg hxy]
      exact ⟨fun h => absurd h.symm (Nat.succ_ne_zero _), fun h => absurd h.1.symm hxy⟩

theorem equalTokens_iff {a b : List Int} : equalTokens a b = true ↔ a = b := by
  unfold equalTokens
  rw [Bool.and_eq_true, decide_eq_true_iff, decide_eq_true_iff]
  refine ⟨fun ⟨hlen, hcommon⟩ => ?_, fun h => ?_⟩
  · rw [hlen] at hcommon
    exact ((commonPrefix_eq_length.mp hcommon).eq_of_length hlen.symm).symm
  subst h
  exact ⟨rfl, commonPrefix_eq_length.mpr prefix_rfl⟩

namespace Manager

/-! ### What can be reused -/

/-- An entry that a lookup may reuse at a time. -/
def Reusable (identity : Identity) (now : Int) (e : Entry) : Prop :=
  ¬ e.expiresAt < now ∧ compatibleIdentity e.identity identity = true ∧
    (identity.requiresSSM = true → e.hasSSMSnapshot = true)

instance (identity : Identity) (now : Int) (e : Entry) : Decidable (Reusable identity now e) := by
  unfold Reusable
  infer_instance

/-- The length of the longest prefix of the tokens that can be reused. -/
def longestReusable (m : Manager) (identity : Identity) (tokens : List Int) (now : Int) : Nat :=
  ((m.entries.filter fun e => Reusable identity now e).map
    fun e => commonPrefix e.tokens tokens).foldr max 0

/-- The lookup reports that length, as a hit if there is one. -/
def Exact (m : Manager) (identity : Identity) (tokens : List Int) (now : Int) (d : Decision) :
    Prop :=
  (d.hit = true ↔ 0 < m.longestReusable identity tokens now) ∧
    d.reusedTokens = m.longestReusable identity tokens now

variable {sha : Sha256} {lower : Char → Char} {m : Manager} {identity : Identity}
  {tokens : List Int} {now : Int}

theorem foldr_max_le {l : List Nat} {n : Nat} : l.foldr max 0 ≤ n ↔ ∀ x ∈ l, x ≤ n := by
  induction l with
  | nil => simp
  | cons x l ih => simp [ih]

theorem longestReusable_le {n : Nat} : m.longestReusable identity tokens now ≤ n ↔
      ∀ e ∈ m.entries, Reusable identity now e → commonPrefix e.tokens tokens ≤ n := by
  unfold longestReusable
  rw [foldr_max_le]
  refine ⟨fun h e he hreusable => ?_, fun h x hx => ?_⟩
  · refine h _ (mem_map_of_mem (List.mem_filter.mpr ⟨he, decide_eq_true hreusable⟩))
  obtain ⟨e, he, rfl⟩ := List.mem_map.mp hx
  obtain ⟨he, hreusable⟩ := List.mem_filter.mp he
  exact h e he (of_decide_eq_true hreusable)

theorem le_longestReusable {e : Entry} (he : e ∈ m.entries) (hreusable : Reusable identity now e) :
    commonPrefix e.tokens tokens ≤ m.longestReusable identity tokens now :=
  longestReusable_le.mp (Nat.le_refl _) e he hreusable

/-! ### The scan

The scan visits the keys of the session and of the identity, and keeps the longest prefix
with an entry that can be reused.
-/

/-- Every entry is under its key, and named in the list of its identity. -/
structure Indexed (sha : Sha256) (m : Manager) : Prop where
  keyed : ∀ e ∈ m.entries, e.key = cacheKey sha e.identity e.tokens ∧ e.tokens ≠ []
  named : ∀ e ∈ m.entries, e.key ∈ m.lineage (lineageKey sha e.identity)

theorem longestOf_le {n : Nat} (keys : List Bytes) (best : Nat) :
    m.longestOf identity tokens keys best ≤ n ↔ best ≤ n ∧ ∀ key ∈ keys, ∀ e, m.get key = some e →
        compatibleIdentity e.identity identity = true →
        (identity.requiresSSM = true → e.hasSSMSnapshot = true) →
        commonPrefix e.tokens tokens ≤ n := by
  unfold longestOf
  induction keys generalizing best with
  | nil => simp
  | cons key keys ih =>
    rw [foldl_cons, ih]
    cases hget : m.get key with
    | none => simp [hget]
    | some e =>
      simp only [forall_mem_cons, hget, Option.some.injEq, forall_eq']
      by_cases hcompatible : compatibleIdentity e.identity identity = true
      · by_cases hsnapshot : identity.requiresSSM = true ∧ e.hasSSMSnapshot = false
        · simp [hcompatible, hsnapshot]
        have hadmits : identity.requiresSSM = true → e.hasSSMSnapshot = true := by
          intro hrequires
          by_contra hno
          exact hsnapshot ⟨hrequires, Bool.eq_false_iff.mpr hno⟩
        have hopen : ¬ compatibleIdentity e.identity identity = false := by
          simp [hcompatible]
        rw [if_neg hopen, if_neg hsnapshot]
        have hmax : (if best < commonPrefix e.tokens tokens then commonPrefix e.tokens tokens
            else best) ≤ n ↔ best ≤ n ∧ commonPrefix e.tokens tokens ≤ n := by
          split <;> omega
        have hthis : (compatibleIdentity e.identity identity = true →
            (identity.requiresSSM = true → e.hasSSMSnapshot = true) →
            commonPrefix e.tokens tokens ≤ n) ↔ commonPrefix e.tokens tokens ≤ n :=
          ⟨fun h => h hcompatible hadmits, fun h _ _ => h⟩
        rw [hmax, and_assoc, hthis]
      · simp [hcompatible]

/-- **The scan finds the longest prefix that can be reused**, as nothing has expired. -/
theorem longestVerified_eq (hdistinct : Lib.Table.Distinct Entry.key m.entries)
    (hindexed : m.Indexed sha) (hfresh : m.NothingExpired now) :
    m.longestVerifiedPrefixLocked sha identity tokens = m.longestReusable identity tokens now := by
  have hscan : ∀ n, m.longestVerifiedPrefixLocked sha identity tokens ≤ n ↔
      ∀ line, Names sha identity line → ∀ key ∈ m.lineage line, ∀ e, m.get key = some e →
        compatibleIdentity e.identity identity = true →
        (identity.requiresSSM = true → e.hasSSMSnapshot = true) →
        commonPrefix e.tokens tokens ≤ n := by
    intro n
    unfold longestVerifiedPrefixLocked Names
    dsimp only
    by_cases hsession : identity.hasSession = true
    · rw [if_pos hsession, foldl_cons, foldl_cons, foldl_nil, longestOf_le, longestOf_le]
      refine ⟨fun ⟨⟨_, hline⟩, hplain⟩ line hnames => ?_, fun h => ⟨⟨Nat.zero_le n, ?_⟩, ?_⟩⟩
      · rcases hnames with rfl | ⟨-, rfl⟩
        · exact hplain
        · exact hline
      · exact h _ (Or.inr ⟨hsession, rfl⟩)
      · exact h _ (Or.inl rfl)
    rw [if_neg hsession, foldl_cons, foldl_nil, longestOf_le]
    refine ⟨fun ⟨_, hplain⟩ line hnames => ?_, fun h => ⟨Nat.zero_le n, h _ (Or.inl rfl)⟩⟩
    rcases hnames with rfl | ⟨hyes, -⟩
    · exact hplain
    · exact absurd hyes hsession
  apply Nat.le_antisymm
  · rw [hscan]
    intro line _ key _ e hget hcompatible hsnapshot
    have he := (Lib.Table.get_eq_some hget).1
    exact le_longestReusable he ⟨hfresh e he, hcompatible, hsnapshot⟩
  rw [longestReusable_le]
  intro e he hreusable
  have hline := hindexed.named e he
  rw [lineageKey_eq sha ((compatible_iff _ _).mp hreusable.2.1)] at hline
  exact (hscan _).mp (Nat.le_refl _) _ (Or.inl rfl) e.key hline e (hdistinct.get he)
    hreusable.2.1 hreusable.2.2

/-! ### The lookup -/

theorem longestReusable_evictExpired :
    (m.evictExpiredLocked now).longestReusable identity tokens now =
      m.longestReusable identity tokens now := by
  have hmem : ∀ e, Reusable identity now e →
      (e ∈ (m.evictExpiredLocked now).entries ↔ e ∈ m.entries) := by
    intro e hreusable
    show e ∈ m.entries.filter _ ↔ _
    rw [mem_filter]
    exact and_iff_left (decide_eq_true hreusable.1)
  apply Nat.le_antisymm
  · rw [longestReusable_le]
    exact fun e he hreusable => le_longestReusable ((hmem e hreusable).mp he) hreusable
  rw [longestReusable_le]
  exact fun e he hreusable => le_longestReusable ((hmem e hreusable).mpr he) hreusable

/-- The prompt itself is stored and has not expired, the identity asks for a snapshot, and
it was stored without one, while nothing that may be reused begins with all of it. -/
def SnapshotSkipped (m : Manager) (identity : Identity) (tokens : List Int) (now : Int) : Prop :=
  identity.requiresSSM = true ∧
    (∃ e ∈ m.entries, ¬ e.expiresAt < now ∧ compatibleIdentity e.identity identity = true ∧
      e.tokens = tokens ∧ e.hasSSMSnapshot = false) ∧
    ∀ e ∈ m.entries, Reusable identity now e → ¬ tokens <+: e.tokens

/-- No entry that may be reused begins with the first token. -/
def NothingToReuse (m : Manager) (identity : Identity) (tokens : List Int) (now : Int) : Prop :=
  ∀ e ∈ m.entries, Reusable identity now e → commonPrefix e.tokens tokens = 0

theorem exact_of_turned_away {accessAt : Int} (hturned : turnAway lower m identity ≠ none) :
    m.Exact identity tokens now (m.lookup sha lower identity tokens now accessAt).1 ↔
      m.NothingToReuse identity tokens now := by
  have hzero : m.longestReusable identity tokens now = 0 ↔
      m.NothingToReuse identity tokens now := by
    rw [← Nat.le_zero, longestReusable_le]
    exact forall₃_congr fun e _ _ => Nat.le_zero
  rw [← hzero]
  obtain ⟨r, hr⟩ := Option.ne_none_iff_exists'.mp hturned
  unfold lookup Exact
  rw [hr]
  dsimp only
  refine ⟨fun h => h.2.symm, fun h => ⟨⟨fun hfalse => Bool.noConfusion hfalse, fun hpos => ?_⟩,
    h.symm⟩⟩
  rw [h] at hpos
  exact absurd hpos (Nat.lt_irrefl 0)

theorem keyPreimage_eq {a b : Identity} (h : a.parts = b.parts) (tokens : List Int) :
    keyPreimage a tokens = keyPreimage b tokens := by
  unfold keyPreimage
  rw [h]

theorem exactEntry_iff {key : Bytes} :
    ((m.get key).filter fun e => equalTokens e.tokens tokens).isSome = true ↔
      ∃ e, m.get key = some e ∧ e.tokens = tokens := by
  cases hget : m.get key with
  | none => simp
  | some e =>
    rw [Option.isSome_filter, Option.any_some, equalTokens_iff]
    exact ⟨fun h => ⟨e, rfl, h⟩, fun ⟨x, hx, h⟩ => Option.some.inj hx ▸ h⟩

theorem exact_of_entry {e : Entry} (he : e ∈ m.entries) (hfresh : ¬ e.expiresAt < now)
    (hcompatible : compatibleIdentity e.identity identity = true) (htokens : e.tokens = tokens)
    (hne : tokens ≠ []) {d : Decision} (hhit : d.hit = true)
    (hreused : d.reusedTokens = tokens.length) :
    m.Exact identity tokens now d ↔ ¬ m.SnapshotSkipped identity tokens now := by
  have hpos : 0 < tokens.length := List.length_pos_iff.mpr hne
  have hle : m.longestReusable identity tokens now ≤ tokens.length :=
    longestReusable_le.mpr fun f _ _ => commonPrefix_le f.tokens tokens
  have hwhole : ∀ f ∈ m.entries, Reusable identity now f → tokens <+: f.tokens →
      m.longestReusable identity tokens now = tokens.length := by
    intro f hf hreusable hpre
    have hshared : commonPrefix f.tokens tokens ≤ _ := le_longestReusable hf hreusable
    rw [commonPrefix_eq_length.mpr hpre] at hshared
    exact Nat.le_antisymm hle hshared
  have hexact : m.Exact identity tokens now d ↔
      m.longestReusable identity tokens now = tokens.length := by
    unfold Exact
    rw [hhit, hreused]
    exact ⟨fun h => h.2.symm, fun h => ⟨iff_of_true rfl (h ▸ hpos), h.symm⟩⟩
  rw [hexact]
  constructor
  · rintro hlength ⟨-, -, hnone⟩
    have hshort : m.longestReusable identity tokens now ≤ tokens.length - 1 := by
      refine longestReusable_le.mpr fun f hf hreusable => ?_
      have hno : commonPrefix f.tokens tokens ≠ tokens.length := fun h =>
        hnone f hf hreusable (commonPrefix_eq_length.mp h)
      have := commonPrefix_le f.tokens tokens
      omega
    omega
  intro hskipped
  by_cases hsnapshot : identity.requiresSSM = true → e.hasSSMSnapshot = true
  · exact hwhole e he ⟨hfresh, hcompatible, hsnapshot⟩ (htokens ▸ prefix_rfl)
  obtain ⟨hrequires, hlacks⟩ := Classical.not_imp.mp hsnapshot
  by_contra hlength
  exact hskipped ⟨hrequires,
    ⟨e, he, hfresh, hcompatible, htokens, Bool.eq_false_iff.mpr hlacks⟩,
    fun f hf hreusable hpre => hlength (hwhole f hf hreusable hpre)⟩

/-- No two keys of a lookup and of the entries collide. -/
def NoCollision (sha : Sha256) (m : Manager) (identity : Identity) (tokens : List Int) : Prop :=
  ∀ e ∈ m.entries,
    sha.sum (keyPreimage e.identity e.tokens) = sha.sum (keyPreimage identity tokens) →
      keyPreimage e.identity e.tokens = keyPreimage identity tokens

/-- A lookup that is let through is exact, unless a snapshot is skipped. -/
theorem exact_of_admitted (hacc : m.Accounted) (hindexed : m.Indexed sha)
    (hstored : ∀ e ∈ m.entries, e.identity.NoNul) (hidentity : identity.NoNul)
    (hcollision : NoCollision sha m identity tokens) (hadmitted : turnAway lower m identity = none)
    (accessAt : Int) :
    m.Exact identity tokens now (m.lookup sha lower identity tokens now accessAt).1 ↔
      ¬ m.SnapshotSkipped identity tokens now := by
  have hsub : ∀ e, e ∈ (m.evictExpiredLocked now).entries ↔
      e ∈ m.entries ∧ ¬ e.expiresAt < now := by
    intro e
    show e ∈ m.entries.filter _ ↔ _
    rw [mem_filter, decide_eq_true_iff]
  have hdistinct := (hacc.evictExpired now).distinct
  have hindexed' : (m.evictExpiredLocked now).Indexed sha :=
    ⟨fun e he => hindexed.keyed e ((hsub e).mp he).1,
      fun e he => hindexed.named e ((hsub e).mp he).1⟩
  unfold lookup
  rw [hadmitted]
  dsimp only
  by_cases hfast : (((m.evictExpiredLocked now).get (cacheKey sha identity tokens)).filter
      fun e => equalTokens e.tokens tokens).isSome = true
  · rw [if_pos hfast]
    obtain ⟨e, hget, htokens⟩ := exactEntry_iff.mp hfast
    obtain ⟨he, hkey⟩ := Lib.Table.get_eq_some hget
    obtain ⟨he, hfresh⟩ := (hsub e).mp he
    have hsum := hexEncode_inj ((hindexed.keyed e he).1.symm.trans hkey)
    have hparts := parts_eq_of_preimage (hstored e he) hidentity (hcollision e he hsum)
    exact exact_of_entry he hfresh ((compatible_iff _ _).mpr hparts) htokens
      (htokens ▸ (hindexed.keyed e he).2) rfl rfl
  rw [if_neg hfast, longestVerified_eq hdistinct hindexed' fun e he => ((hsub e).mp he).2,
    longestReusable_evictExpired]
  have hskipped : ¬ m.SnapshotSkipped identity tokens now := by
    rintro ⟨-, ⟨e, he, hfresh, hcompatible, htokens, -⟩, -⟩
    have hkey : e.key = cacheKey sha identity tokens := by
      rw [(hindexed.keyed e he).1, htokens, cacheKey, cacheKey,
        keyPreimage_eq ((compatible_iff _ _).mp hcompatible)]
    have hget := hdistinct.get ((hsub e).mpr ⟨he, hfresh⟩)
    rw [hkey] at hget
    exact hfast (exactEntry_iff.mpr ⟨e, hget, htokens⟩)
  refine iff_of_true ?_ hskipped
  by_cases hpos : 0 < m.longestReusable identity tokens now
  · rw [if_pos hpos]
    exact ⟨iff_of_true rfl hpos, rfl⟩
  rw [if_neg hpos]
  exact ⟨iff_of_false Bool.false_ne_true hpos, (Nat.eq_zero_of_not_pos hpos).symm⟩

/-! ### Reachable states -/

theorem Indexed.of_subset {m' : Manager} (h : m.Indexed sha)
    (hsub : ∀ e ∈ m'.entries, e ∈ m.entries) (hlineage : m'.lineage = m.lineage) :
    m'.Indexed sha :=
  ⟨fun e he => h.keyed e (hsub e he), fun e he => hlineage ▸ h.named e (hsub e he)⟩

theorem Indexed.store (h : m.Indexed sha) (identity : Identity) (tokens : List Int)
    (storedAt accessAt : Int) (order : MapOrder) :
    (m.store sha identity tokens storedAt accessAt order).Indexed sha := by
  unfold Manager.store
  by_cases hempty : tokens = []
  · rwa [if_pos hempty]
  rw [if_neg hempty]
  let e := newEntry sha m identity tokens storedAt accessAt
  obtain ⟨lineage, hindex⟩ := index_cases sha (m.put e) identity e.key
  have hentries : ∀ x ∈ ((m.put e).index sha identity e.key).entries, x = e ∨ x ∈ m.entries := by
    intro x hx
    rw [hindex] at hx
    exact (List.mem_cons.mp hx).imp_right fun hx => (Lib.Table.mem_without.mp hx).1
  have hgrows : ∀ line, ∀ key ∈ m.lineage line,
      key ∈ ((m.put e).index sha identity e.key).lineage line := by
    intro line key hkey
    by_cases hnames : Names sha identity line
    · rw [index_lineage_of_names hnames]
      exact mem_append_left _ hkey
    rw [index_lineage_of_not_names hnames]
    exact hkey
  have hindexed : ((m.put e).index sha identity e.key).Indexed sha := by
    refine ⟨fun x hx => ?_, fun x hx => ?_⟩
    · rcases hentries x hx with rfl | hx
      · exact ⟨rfl, hempty⟩
      · exact h.keyed x hx
    rcases hentries x hx with rfl | hx
    · show e.key ∈ ((m.put e).index sha identity e.key).lineage (lineageKey sha identity)
      rw [index_lineage_of_names (Or.inl rfl)]
      exact mem_append_right _ mem_cons_self
    · exact hgrows _ _ (h.named x hx)
  exact evictPressure_inv (P := Indexed sha)
    (fun m key h => h.of_subset (fun x hx => (Lib.Table.mem_without.mp hx).1) rfl) order _ _
    hindexed

theorem Indexed.call (h : m.Indexed sha) (c : Call) : (m.call sha lower c).Indexed sha := by
  refine call_inv (P := Indexed sha) (fun m now h => ?_) (fun m key at' h => ?_)
    (fun m _ _ _ _ _ h => h.store ..) (fun m _ => ?_) c h
  · exact h.of_subset (fun e he => mem_of_mem_filter he) rfl
  · exact ⟨touch_all (P := fun e => e.key = cacheKey sha e.identity e.tokens ∧ e.tokens ≠ [])
      (fun _ _ he => he) h.keyed,
      touch_all (P := fun e => e.key ∈ m.lineage (lineageKey sha e.identity))
        (fun _ _ he => he) h.named⟩
  · exact ⟨fun _ he => absurd he not_mem_nil, fun _ he => absurd he not_mem_nil⟩

theorem indexed_of_run {config : Config}
    (hrun : Runs (step sha lower) (fun _ _ => True) (newManager config) m) : m.Indexed sha :=
  hrun.inv ⟨fun _ he => absurd he not_mem_nil, fun _ he => absurd he not_mem_nil⟩
    fun _ c _ h _ htaken => Option.some.inj htaken ▸ h.call c

/-- **A lookup reports the longest prefix that can be reused**, in every reachable state,
exactly if it is let in and the entry with just its tokens does not stand for a snapshot
that it lacks, or it is turned away and there is nothing to reuse. -/
theorem lookup_exact_iff {config : Config}
    (hrun : Runs (step sha lower) (fun _ _ => True) (newManager config) m) (identity : Identity)
    (tokens : List Int) (hstored : ∀ e ∈ m.entries, e.identity.NoNul) (hidentity : identity.NoNul)
    (hcollision : NoCollision sha m identity tokens) (now accessAt : Int) :
    m.Exact identity tokens now (m.lookup sha lower identity tokens now accessAt).1 ↔
      turnAway lower m identity = none ∧ ¬ m.SnapshotSkipped identity tokens now ∨
        turnAway lower m identity ≠ none ∧ m.NothingToReuse identity tokens now := by
  by_cases hadmitted : turnAway lower m identity = none
  · rw [exact_of_admitted (kept_of_run hrun).accounted (indexed_of_run hrun) hstored hidentity
      hcollision hadmitted]
    exact ⟨fun h => Or.inl ⟨hadmitted, h⟩, fun h => h.elim (·.2) fun h => absurd hadmitted h.1⟩
  rw [exact_of_turned_away hadmitted]
  exact ⟨fun h => Or.inr ⟨hadmitted, h⟩, fun h => h.elim (fun h => absurd h.1 hadmitted) (·.2)⟩

theorem stored_lookup_exact :
    let m := (newManager {}).call plainSha id stored
    m.Exact plainIdentity [1] 0 (m.lookup plainSha id plainIdentity [1] 0 0).1 := by
  intro m
  have hadmitted : turnAway id m plainIdentity = none := by decide +kernel
  have hlacks : ¬ m.SnapshotSkipped plainIdentity [1] 0 := by
    unfold Manager.SnapshotSkipped
    decide +kernel
  exact (lookup_exact_iff (Runs.refl.tail (e := stored) trivial rfl) plainIdentity [1]
    (by unfold Identity.NoNul; decide +kernel) (by unfold Identity.NoNul; decide +kernel)
    (by unfold NoCollision; decide +kernel) 0 0).mpr (Or.inl ⟨hadmitted, hlacks⟩)

/-- A prompt that was stored without a snapshot is reported as reusable to an identity that
asks for one. -/
theorem hit_without_snapshot :
    let m := (newManager {}).call plainSha id stored
    let identity := { plainIdentity with requiresSSM := true, hasSSMSnapshot := true }
    Runs (step plainSha id) (fun _ _ => True) (newManager {}) m ∧
      (∀ e ∈ m.entries, e.identity.NoNul) ∧ identity.NoNul ∧
      NoCollision plainSha m identity [1] ∧ identity.supported = true ∧
      turnAway id m identity = none ∧ m.longestReusable identity [1] 0 = 0 ∧
      (m.lookup plainSha id identity [1] 0 0).1.hit = true ∧
      (m.lookup plainSha id identity [1] 0 0).1.reusedTokens = 1 := by
  refine ⟨Runs.refl.tail (e := stored) trivial rfl, ?_, ?_, ?_, rfl, ?_, ?_, ?_, ?_⟩
  · unfold Identity.NoNul
    decide +kernel
  · unfold Identity.NoNul
    decide +kernel
  · unfold NoCollision
    decide +kernel
  · decide +kernel
  · decide +kernel
  · decide +kernel
  · decide +kernel

end Manager

end DenseCore.Server.PromptCache
