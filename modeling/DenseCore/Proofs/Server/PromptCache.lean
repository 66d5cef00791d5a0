/-
The bookkeeping of the prompt cache.

The bytes are those of the entries, and both limits hold, in every state of every run:
each of the three ways in which an entry goes takes its bytes along, and a round of the
eviction takes an entry out as long as there is one.  None of the three takes the key out
of the lists that name it, and an entry that is stored once more is named once more.  So
the lists are exact only in runs where entries are neither replaced nor dropped
(`Spares`); there they are, in every state.
-/
import DenseCore.Lib.Trace
import DenseCore.Server.PromptCache
import Mathlib.Algebra.Order.BigOperators.Group.List
import Mathlib.Data.List.Perm.Subperm

namespace DenseCore.Server.PromptCache

open List

open Lib (Bytes Table.get Table.without Table.Distinct Runs)

namespace Manager

/-- Keys are distinct, and the bytes are those of the entries. -/
structure Accounted (m : Manager) : Prop where
  distinct : Table.Distinct Entry.key m.entries
  bytes_eq : m.bytes = (m.entries.map Entry.bytes).sum
  key_ne : ∀ e ∈ m.entries, e.key ≠ []
  bytes_nonneg : ∀ e ∈ m.entries, 0 ≤ e.bytes

/-- The limits, as `NewManager` leaves them. -/
def Configured (m : Manager) : Prop := 0 < m.config.maxBytes ∧ 0 < m.config.maxSessions

/-- The cache keeps to its limits. -/
def WithinLimits (m : Manager) : Prop :=
  m.bytes ≤ m.config.maxBytes ∧ (m.entries.length : Int) ≤ m.config.maxSessions

/-- The lists name live entries only, each at most once. -/
structure LineageLive (m : Manager) : Prop where
  nodup : ∀ line, (m.lineage line).Nodup
  live : ∀ line, ∀ key ∈ m.lineage line, ∃ e ∈ m.entries, e.key = key

variable {sha : Sha256} {lower : Char → Char} {m : Manager} {identity : Identity}
  {tokens : List Int}

theorem LineageLive.length_le (h : m.LineageLive) (line : Bytes) :
    (m.lineage line).length ≤ m.entries.length := by
  have hsub : m.lineage line ⊆ m.entries.map Entry.key := by
    intro key hkey
    obtain ⟨e, he, rfl⟩ := h.live line key hkey
    exact mem_map_of_mem he
  have hle := (subperm_of_subset (h.nodup line) hsub).length_le
  rwa [length_map] at hle

theorem overLimit_eq_false : m.overLimit = false ↔ m.WithinLimits := by
  unfold overLimit WithinLimits
  simp

/-! ### Taking entries out -/

theorem Accounted.delete (h : m.Accounted) (key : Bytes) : (m.delete key).Accounted where
  distinct := h.distinct.without key
  bytes_eq := by
    have hsum := h.distinct.sum_without Entry.bytes key
    show m.bytes - Lib.Table.weightAt Entry.key Entry.bytes key m.entries =
      ((Table.without Entry.key key m.entries).map Entry.bytes).sum
    rw [h.bytes_eq]
    omega
  key_ne e he := h.key_ne e (Lib.Table.mem_without.mp he).1
  bytes_nonneg e he := h.bytes_nonneg e (Lib.Table.mem_without.mp he).1

theorem sum_filter_add (l : List Entry) (p : Entry → Bool) :
    ((l.filter p).map Entry.bytes).sum + ((l.filter fun e => !p e).map Entry.bytes).sum =
      (l.map Entry.bytes).sum := by
  induction l with
  | nil => rfl
  | cons e l ih =>
    cases hp : p e <;> simp [hp] <;> omega

theorem Accounted.evictExpired (h : m.Accounted) (now : Int) :
    (m.evictExpiredLocked now).Accounted where
  distinct := h.distinct.of_sublist filter_sublist
  bytes_eq := by
    have hsum := sum_filter_add m.entries fun e => decide (e.expiresAt < now)
    have hkept : (m.entries.filter fun e => decide ¬ e.expiresAt < now) =
        m.entries.filter fun e => !decide (e.expiresAt < now) :=
      filter_congr fun e _ => decide_not
    show m.bytes - ((m.entries.filter fun e => e.expiresAt < now).map Entry.bytes).sum =
      ((m.entries.filter fun e => decide ¬ e.expiresAt < now).map Entry.bytes).sum
    rw [h.bytes_eq, hkept, ← hsum]
    omega
  key_ne e he := h.key_ne e (mem_of_mem_filter he)
  bytes_nonneg e he := h.bytes_nonneg e (mem_of_mem_filter he)

theorem WithinLimits.evictExpired (h : m.WithinLimits) (hacc : m.Accounted) (now : Int) :
    (m.evictExpiredLocked now).WithinLimits := by
  have hgone : 0 ≤ ((m.entries.filter fun e => e.expiresAt < now).map Entry.bytes).sum := by
    refine sum_nonneg fun b hb => ?_
    obtain ⟨e, he, rfl⟩ := mem_map.mp hb
    exact hacc.bytes_nonneg e (mem_of_mem_filter he)
  refine ⟨?_, ?_⟩
  · show m.bytes - ((m.entries.filter fun e => e.expiresAt < now).map Entry.bytes).sum ≤ _
    exact Int.le_trans (Int.sub_le_self _ hgone) h.1
  · exact Int.le_trans (Int.ofNat_le.mpr (length_filter_le _ _)) h.2

theorem evictExpired_of_unexpired {now : Int} (h : ∀ e ∈ m.entries, ¬ e.expiresAt < now) :
    m.evictExpiredLocked now = m := by
  have hkept : (m.entries.filter fun e => decide ¬ e.expiresAt < now) = m.entries :=
    filter_eq_self.mpr fun e he => decide_eq_true (h e he)
  have hgone : (m.entries.filter fun e => decide (e.expiresAt < now)) = [] :=
    filter_eq_nil_iff.mpr fun e he hexp => h e he (of_decide_eq_true hexp)
  unfold evictExpiredLocked
  rw [hkept, hgone]
  simp

theorem oldestKey_mem (l : List Entry) :
    ∀ (key : Bytes) (oldest : Int), (∀ e ∈ l, e.key ≠ []) → key ≠ [] ∨ l ≠ [] →
      oldestKey key oldest l ≠ [] ∧
        (oldestKey key oldest l = key ∨ ∃ e ∈ l, e.key = oldestKey key oldest l) := by
  induction l with
  | nil =>
    intro key oldest _ hne
    exact ⟨hne.resolve_right fun h => h rfl, Or.inl rfl⟩
  | cons e l ih =>
    intro key oldest hkeys _
    have hrest : ∀ x ∈ l, x.key ≠ [] := fun x hx => hkeys x (mem_cons_of_mem e hx)
    have he : e.key ≠ [] := hkeys e mem_cons_self
    rw [oldestKey]
    split
    · obtain ⟨hne, hfound⟩ := ih e.key e.lastAccess hrest (Or.inl he)
      refine ⟨hne, Or.inr ?_⟩
      rcases hfound with hself | ⟨x, hx, hkey⟩
      · exact ⟨e, mem_cons_self, hself.symm⟩
      · exact ⟨x, mem_cons_of_mem e hx, hkey⟩
    rename_i hkeep
    obtain ⟨hne, hfound⟩ := ih key oldest hrest (Or.inl fun hnil => hkeep (Or.inl hnil))
    refine ⟨hne, hfound.imp_right ?_⟩
    rintro ⟨x, hx, hkey⟩
    exact ⟨x, mem_cons_of_mem e hx, hkey⟩

variable {P : Manager → Prop} {evictAt : Int} {line : Bytes}

theorem evictPressure_inv (hdelete : ∀ m key, P m → P (m.delete key))
    (order : MapOrder) : ∀ (fuel : Nat) (m : Manager), P m → P (evictPressure order fuel m) := by
  intro fuel
  induction fuel with
  | zero => exact fun m h => h
  | succ fuel ih =>
    intro m h
    rw [evictPressure]
    split
    · dsimp only
      split
      · exact h
      · exact ih _ (hdelete m _ h)
    · exact h

theorem evictPressure_of_within (h : m.WithinLimits) (order : MapOrder) (fuel : Nat) :
    evictPressure order fuel m = m := by
  cases fuel with
  | zero => rfl
  | succ fuel =>
    rw [evictPressure, overLimit_eq_false.mpr h]
    exact if_neg Bool.false_ne_true

/-- **The eviction ends within the limits.** -/
theorem evictPressure_within (order : MapOrder) :
    ∀ (fuel : Nat) (m : Manager), m.Accounted → m.Configured → m.entries.length < fuel →
      (evictPressure order fuel m).WithinLimits := by
  intro fuel
  induction fuel with
  | zero => exact fun m _ _ hfuel => absurd hfuel (Nat.not_lt_zero _)
  | succ fuel ih =>
    intro m hacc hconf hfuel
    by_cases hover : m.overLimit = true
    swap
    · have hwithin := overLimit_eq_false.mp (Bool.eq_false_iff.mpr hover)
      rw [evictPressure_of_within hwithin]
      exact hwithin
    have hne : m.entries ≠ [] := by
      intro hnil
      have hbytes := hacc.bytes_eq
      rw [hnil] at hbytes
      have hwithin : m.WithinLimits := by
        refine ⟨?_, ?_⟩
        · rw [hbytes]
          exact Int.le_of_lt hconf.1
        rw [hnil]
        exact Int.le_of_lt hconf.2
      rw [overLimit_eq_false.mpr hwithin] at hover
      exact Bool.false_ne_true hover
    have hperm := order.perm fuel m.entries
    obtain ⟨hkey, hfound⟩ := oldestKey_mem (order.order fuel m.entries) [] 0
      (fun e he => hacc.key_ne e (hperm.mem_iff.mp he))
      (Or.inr fun hnil => hne (perm_nil.mp (hnil ▸ hperm).symm))
    obtain ⟨e, he, hek⟩ := hfound.resolve_left hkey
    rw [evictPressure, if_pos hover]
    dsimp only
    rw [if_neg hkey]
    refine ih _ (hacc.delete _) hconf ?_
    have hshorter := Lib.Table.length_without_lt Entry.key (hperm.mem_iff.mp he)
    rw [hek] at hshorter
    show (Table.without Entry.key _ m.entries).length < fuel
    omega

/-! ### Putting an entry in -/

theorem Accounted.put (h : m.Accounted) {e : Entry} (he : e.key ≠ []) (hbytes : 0 ≤ e.bytes) :
    (m.put e).Accounted where
  distinct := (h.distinct.without e.key).cons fun x hx => (Lib.Table.mem_without.mp hx).2
  bytes_eq := by
    have hdelete := (h.delete e.key).bytes_eq
    show m.bytes - ((m.get e.key).map Entry.bytes).getD 0 + e.bytes = _
    have hdelete' : m.bytes - ((m.get e.key).map Entry.bytes).getD 0 =
      ((Table.without Entry.key e.key m.entries).map Entry.bytes).sum := hdelete
    rw [hdelete']
    exact Int.add_comm _ _
  key_ne x hx := by
    rcases mem_cons.mp hx with rfl | hx
    · exact he
    · exact h.key_ne x (Lib.Table.mem_without.mp hx).1
  bytes_nonneg x hx := by
    rcases mem_cons.mp hx with rfl | hx
    · exact hbytes
    · exact h.bytes_nonneg x (Lib.Table.mem_without.mp hx).1

theorem index_cases (sha : Sha256) (m : Manager) (identity : Identity) (key : Bytes) :
    ∃ lineage, m.index sha identity key = { m with lineage := lineage } := by
  unfold index
  dsimp only
  split
  · exact ⟨_, rfl⟩
  · exact ⟨_, rfl⟩

theorem Accounted.withLineage (h : m.Accounted) (lineage : Bytes → List Bytes) :
    ({ m with lineage := lineage } : Manager).Accounted :=
  ⟨h.distinct, h.bytes_eq, h.key_ne, h.bytes_nonneg⟩

theorem cacheKey_ne (sha : Sha256) (identity : Identity) (tokens : List Int) :
    cacheKey sha identity tokens ≠ [] := by
  intro hnil
  have hlen := sha.length_sum (keyPreimage identity tokens)
  unfold cacheKey hexEncode at hnil
  cases hsum : sha.sum (keyPreimage identity tokens) with
  | nil =>
    rw [hsum] at hlen
    cases hlen
  | cons b rest =>
    rw [hsum] at hnil
    cases hnil

/-! ### The calls -/

/-- The entry under a key is accessed. -/
def touch (m : Manager) (key : Bytes) (accessAt : Int) : Manager :=
  { m with
    entries := m.entries.map fun e =>
      if e.key = key then { e with lastAccess := accessAt } else e }

theorem touch_map {α : Type} (f : Entry → α) (hf : ∀ e at', f { e with lastAccess := at' } = f e)
    (m : Manager) (key : Bytes) (accessAt : Int) :
    (m.touch key accessAt).entries.map f = m.entries.map f := by
  show (m.entries.map _).map f = _
  rw [map_map]
  refine map_congr_left fun e _ => ?_
  by_cases hkey : e.key = key
  · rw [Function.comp_apply, if_pos hkey, hf]
  · rw [Function.comp_apply, if_neg hkey]

theorem touch_all {P : Entry → Prop} (hP : ∀ e at', P e → P { e with lastAccess := at' })
    {key : Bytes} {accessAt : Int} (h : ∀ e ∈ m.entries, P e) :
    ∀ e ∈ (m.touch key accessAt).entries, P e := by
  intro e he
  obtain ⟨x, hx, rfl⟩ := mem_map.mp he
  split
  · exact hP x _ (h x hx)
  · exact h x hx

theorem Accounted.touch (h : m.Accounted) (key : Bytes) (accessAt : Int) :
    (m.touch key accessAt).Accounted where
  distinct := by
    show ((m.touch key accessAt).entries.map Entry.key).Nodup
    rw [touch_map Entry.key fun _ _ => rfl]
    exact h.distinct
  bytes_eq := by
    rw [touch_map Entry.bytes fun _ _ => rfl]
    exact h.bytes_eq
  key_ne := touch_all (fun _ _ he => he) h.key_ne
  bytes_nonneg := touch_all (fun _ _ he => he) h.bytes_nonneg

theorem WithinLimits.touch (h : m.WithinLimits) (key : Bytes) (accessAt : Int) :
    (m.touch key accessAt).WithinLimits := by
  refine ⟨h.1, ?_⟩
  show ((m.entries.map _).length : Int) ≤ _
  rw [length_map]
  exact h.2

theorem lookup_cases (sha : Sha256) (lower : Char → Char) (m : Manager) (identity : Identity)
    (tokens : List Int)
    (evictAt accessAt : Int) :
    (m.lookup sha lower identity tokens evictAt accessAt).2 = m ∧ turnAway lower m identity ≠ none ∨
      turnAway lower m identity = none ∧
        ((m.lookup sha lower identity tokens evictAt accessAt).2 = m.evictExpiredLocked evictAt ∨
          (m.lookup sha lower identity tokens evictAt accessAt).2 =
            (m.evictExpiredLocked evictAt).touch (cacheKey sha identity tokens) accessAt) := by
  unfold lookup
  cases hturn : turnAway lower m identity with
  | some r => exact Or.inl ⟨rfl, Option.some_ne_none r⟩
  | none =>
    refine Or.inr ⟨rfl, ?_⟩
    dsimp only
    split
    · exact Or.inr rfl
    split
    · exact Or.inl rfl
    · exact Or.inl rfl

theorem turned_reason {accessAt : Int} (h : turnAway lower m identity ≠ none) :
    (m.lookup sha lower identity tokens evictAt accessAt).1.invalidationReason ≠ none := by
  unfold lookup
  cases hturn : turnAway lower m identity with
  | none => exact absurd hturn h
  | some r => exact Option.some_ne_none r.1

theorem lookup_inv (sha : Sha256) (lower : Char → Char)
    (hexpire : ∀ m now, P m → P (m.evictExpiredLocked now))
    (htouch : ∀ m key at', P m → P (m.touch key at')) (h : P m) (identity : Identity)
    (tokens : List Int) (evictAt accessAt : Int) :
    P (m.lookup sha lower identity tokens evictAt accessAt).2 := by
  rcases lookup_cases sha lower m identity tokens evictAt accessAt with
    ⟨hsame, -⟩ | ⟨-, hexpired | htouched⟩
  · rwa [hsame]
  · rw [hexpired]
    exact hexpire m evictAt h
  rw [htouched]
  exact htouch _ _ _ (hexpire m evictAt h)

theorem call_inv (hexpire : ∀ m now, P m → P (m.evictExpiredLocked now))
    (htouch : ∀ m key at', P m → P (m.touch key at'))
    (hstore : ∀ m identity tokens storedAt accessAt order, P m →
      P (m.store sha identity tokens storedAt accessAt order))
    (hclear : ∀ m, P m → P m.clear) (c : Call) (h : P m) : P (m.call sha lower c) := by
  cases c with
  | lookup identity tokens evictAt accessAt => exact lookup_inv sha lower hexpire htouch h _ _ _ _
  | store identity tokens storedAt accessAt order => exact hstore m _ _ _ _ _ h
  | lookupAndStore identity tokens evictAt lookupAt storedAt accessAt order =>
    have hlookup := lookup_inv sha lower hexpire htouch h identity tokens
      evictAt lookupAt
    show P (m.lookupAndStore sha lower identity tokens evictAt lookupAt storedAt accessAt order).2
    unfold lookupAndStore
    dsimp only
    split
    · exact hstore _ _ _ _ _ _ hlookup
    · exact hlookup
  | clear => exact hclear m h

/-- The bookkeeping and the limits. -/
structure Kept (m : Manager) : Prop where
  accounted : m.Accounted
  configured : m.Configured
  within : m.WithinLimits

theorem Kept.store (h : m.Kept) (sha : Sha256) (identity : Identity) (tokens : List Int)
    (storedAt accessAt : Int) (order : MapOrder) :
    (m.store sha identity tokens storedAt accessAt order).Kept := by
  unfold Manager.store
  by_cases hempty : tokens = []
  · rwa [if_pos hempty]
  rw [if_neg hempty]
  dsimp only
  obtain ⟨lineage, hindex⟩ := index_cases sha
    (m.put (newEntry sha m identity tokens storedAt accessAt)) identity
    (newEntry sha m identity tokens storedAt accessAt).key
  rw [hindex]
  have hacc := (h.accounted.put (e := newEntry sha m identity tokens storedAt accessAt)
    (cacheKey_ne sha identity tokens) (Int.mul_nonneg (Int.natCast_nonneg _) (by decide))
    ).withLineage lineage
  exact
    { accounted := evictPressure_inv (fun m key h => h.delete key) order _ _ hacc
      configured := evictPressure_inv (P := Configured) (fun m key h => h) order _ _ h.configured
      within := evictPressure_within order _ _ hacc h.configured (Nat.lt_succ_self _) }

theorem Kept.call (h : m.Kept) (c : Call) : (m.call sha lower c).Kept := by
  refine call_inv (fun m now h => ?_) (fun m key at' h => ?_) (fun m _ _ _ _ _ h => h.store ..)
    (fun m h => ?_) c h
  · exact ⟨h.accounted.evictExpired now, h.configured, h.within.evictExpired h.accounted now⟩
  · exact ⟨h.accounted.touch key at', h.configured, h.within.touch key at'⟩
  refine ⟨⟨nodup_nil, rfl, ?_, ?_⟩, h.configured, Int.le_of_lt h.configured.1,
    Int.le_of_lt h.configured.2⟩
  · exact fun e he => absurd he not_mem_nil
  · exact fun e he => absurd he not_mem_nil

theorem kept_newManager (config : Config) : (newManager config).Kept := by
  have hbytes : 0 < (newManager config).config.maxBytes := by
    show 0 < if config.maxBytes ≤ 0 then 2 ^ 30 else config.maxBytes
    split <;> omega
  have hsessions : 0 < (newManager config).config.maxSessions := by
    show 0 < if config.maxSessions ≤ 0 then 1024 else config.maxSessions
    split <;> omega
  refine ⟨⟨nodup_nil, rfl, ?_, ?_⟩, ⟨hbytes, hsessions⟩, Int.le_of_lt hbytes,
    Int.le_of_lt hsessions⟩
  · exact fun e he => absurd he not_mem_nil
  · exact fun e he => absurd he not_mem_nil

/-! ### The lists that name the entries

An entry that goes leaves its name in the lists, and a key that is stored again is named again.
The lists are exact only where entries are neither replaced nor dropped.
-/

theorem lineageKey_ne_sessionLineageKey (sha : Sha256) (identity : Identity) :
    lineageKey sha identity ≠ sessionLineageKey sha identity := by
  intro h
  have hlen := congrArg List.length h
  unfold sessionLineageKey at hlen
  rw [length_append, length_append, length_cons] at hlen
  omega

/-- The lists that an entry of an identity is named in. -/
def Names (sha : Sha256) (identity : Identity) (line : Bytes) : Prop :=
  line = lineageKey sha identity ∨
    identity.hasSession = true ∧ line = sessionLineageKey sha identity

theorem index_lineage_of_names (h : Names sha identity line) (key : Bytes) :
    (m.index sha identity key).lineage line = m.lineage line ++ [key] := by
  have hne := lineageKey_ne_sessionLineageKey sha identity
  unfold index
  dsimp only
  rcases h with rfl | ⟨hsession, rfl⟩
  · split
    · exact (if_neg hne).trans (if_pos rfl)
    · exact if_pos rfl
  rw [if_pos hsession]
  show (if _ then _ ++ [key] else _) = _
  rw [if_pos rfl]
  exact congrArg (· ++ [key]) (if_neg hne.symm)

theorem index_lineage_of_not_names (h : ¬ Names sha identity line) (key : Bytes) :
    (m.index sha identity key).lineage line = m.lineage line := by
  have hline : line ≠ lineageKey sha identity := fun heq => h (Or.inl heq)
  unfold index
  dsimp only
  split
  · rename_i hsession
    have hsessionLine : line ≠ sessionLineageKey sha identity := fun heq =>
      h (Or.inr ⟨hsession, heq⟩)
    exact (if_neg hsessionLine).trans (if_neg hline)
  · exact if_neg hline

/-- No entry has expired. -/
def NothingExpired (m : Manager) (now : Int) : Prop := ∀ e ∈ m.entries, ¬ e.expiresAt < now

/-- The prompt is not stored yet, and there is room for it. -/
def Fits (sha : Sha256) (m : Manager) (identity : Identity) (tokens : List Int) : Prop :=
  tokens = [] ∨ (∀ e ∈ m.entries, e.key ≠ cacheKey sha identity tokens) ∧
      m.bytes + tokens.length * 4 ≤ m.config.maxBytes ∧
      (m.entries.length : Int) + 1 ≤ m.config.maxSessions

/-- The call neither replaces an entry nor drops one, clearing apart. -/
def Spares (sha : Sha256) (lower : Char → Char) (m : Manager) : Call → Prop
  | .lookup identity _ evictAt _ => turnAway lower m identity = none → m.NothingExpired evictAt
  | .store identity tokens _ _ _ => Fits sha m identity tokens
  | .lookupAndStore identity tokens evictAt _ _ _ _ =>
    turnAway lower m identity = none → m.NothingExpired evictAt ∧ Fits sha m identity tokens
  | .clear => True

theorem LineageLive.touch (h : m.LineageLive) (key : Bytes) (accessAt : Int) :
    (m.touch key accessAt).LineageLive where
  nodup := h.nodup
  live line k hk := by
    obtain ⟨e, he, rfl⟩ := h.live line k hk
    have hkeys := touch_map Entry.key (fun _ _ => rfl) m key accessAt
    have hmem : e.key ∈ (m.touch key accessAt).entries.map Entry.key :=
      hkeys ▸ mem_map_of_mem he
    obtain ⟨x, hx, hxk⟩ := mem_map.mp hmem
    exact ⟨x, hx, hxk⟩

theorem Fits.touch (h : Fits sha m identity tokens) (key : Bytes) (accessAt : Int) :
    Fits sha (m.touch key accessAt) identity tokens := by
  refine h.imp_right fun ⟨hnew, hbytes, hcount⟩ => ⟨?_, hbytes, ?_⟩
  · exact touch_all (P := fun e => e.key ≠ cacheKey sha identity tokens) (fun _ _ he => he) hnew
  show ((m.entries.map _).length : Int) + 1 ≤ _
  rw [length_map]
  exact hcount

theorem LineageLive.lookup (h : m.LineageLive) (sha : Sha256)
    (hspares : turnAway lower m identity = none → m.NothingExpired evictAt)
    (tokens : List Int) (accessAt : Int) :
    (m.lookup sha lower identity tokens evictAt accessAt).2.LineageLive := by
  rcases lookup_cases sha lower m identity tokens evictAt accessAt with
    ⟨hsame, -⟩ | ⟨hnone, hexpired | htouched⟩
  · rwa [hsame]
  · rwa [hexpired, evictExpired_of_unexpired (hspares hnone)]
  rw [htouched, evictExpired_of_unexpired (hspares hnone)]
  exact h.touch _ _

/-- A store that replaces and drops nothing keeps the lists exact. -/
theorem LineageLive.store (h : m.LineageLive) (hfits : Fits sha m identity tokens)
    (storedAt accessAt : Int) (order : MapOrder) :
    (m.store sha identity tokens storedAt accessAt order).LineageLive := by
  unfold Manager.store
  by_cases hempty : tokens = []
  · rwa [if_pos hempty]
  rw [if_neg hempty]
  obtain ⟨hnew, hbytes, hcount⟩ := hfits.resolve_left hempty
  let e := newEntry sha m identity tokens storedAt accessAt
  have hrest : Table.without Entry.key e.key m.entries = m.entries :=
    Lib.Table.without_of_absent hnew
  have hentries : (m.put e).entries = e :: m.entries := congrArg (e :: ·) hrest
  have hnone : m.get e.key = none := Lib.Table.get_eq_none.mpr hnew
  obtain ⟨lineage, hindex⟩ := index_cases sha (m.put e) identity e.key
  have hindexed : ((m.put e).index sha identity e.key).entries = e :: m.entries := by
    rw [hindex]
    exact hentries
  have hwithin : ((m.put e).index sha identity e.key).WithinLimits := by
    rw [hindex]
    refine ⟨?_, ?_⟩
    · show m.bytes - ((m.get e.key).map Entry.bytes).getD 0 + e.bytes ≤ _
      rw [hnone]
      show m.bytes - 0 + tokens.length * 4 ≤ _
      rwa [Int.sub_zero]
    show ((m.put e).entries.length : Int) ≤ _
    rw [hentries, length_cons]
    exact_mod_cast hcount
  have hdone : ((m.put e).index sha identity e.key).evictPressureLocked order =
      (m.put e).index sha identity e.key := evictPressure_of_within hwithin order _
  show (((m.put e).index sha identity e.key).evictPressureLocked order).LineageLive
  rw [hdone]
  have hnotNamed : ∀ line, e.key ∉ m.lineage line := by
    intro line hmem
    obtain ⟨x, hx, hxk⟩ := h.live line _ hmem
    exact hnew x hx hxk
  constructor
  · intro line
    by_cases hnames : Names sha identity line
    · rw [index_lineage_of_names hnames]
      exact nodup_append.mpr ⟨h.nodup line, nodup_singleton _, by
        intro a ha b hb
        rw [mem_singleton.mp hb]
        exact fun heq => hnotNamed line (heq ▸ ha)⟩
    rw [index_lineage_of_not_names hnames]
    exact h.nodup line
  intro line key hkey
  rw [hindexed]
  by_cases hnames : Names sha identity line
  · rw [index_lineage_of_names hnames] at hkey
    rcases mem_append.mp hkey with hold | hself
    · obtain ⟨x, hx, hxk⟩ := h.live line key hold
      exact ⟨x, mem_cons_of_mem e hx, hxk⟩
    · exact ⟨e, mem_cons_self, (mem_singleton.mp hself).symm⟩
  rw [index_lineage_of_not_names hnames] at hkey
  obtain ⟨x, hx, hxk⟩ := h.live line key hkey
  exact ⟨x, mem_cons_of_mem e hx, hxk⟩

theorem LineageLive.call (h : m.LineageLive) {c : Call} (hspares : Spares sha lower m c) :
    (m.call sha lower c).LineageLive := by
  cases c with
  | lookup identity tokens evictAt accessAt => exact h.lookup sha hspares tokens accessAt
  | store identity tokens storedAt accessAt order => exact h.store hspares storedAt accessAt order
  | lookupAndStore identity tokens evictAt lookupAt storedAt accessAt order =>
    have hlookup := h.lookup sha (fun hnone => (hspares hnone).1) tokens lookupAt
    show (m.lookupAndStore sha lower identity tokens evictAt lookupAt storedAt accessAt
      order).2.LineageLive
    unfold lookupAndStore
    dsimp only
    split
    · rename_i hgo
      refine hlookup.store ?_ storedAt accessAt order
      rcases lookup_cases sha lower m identity tokens evictAt lookupAt with
        ⟨-, hturned⟩ | ⟨hnone, hexpired | htouched⟩
      · exact absurd hgo.2 (turned_reason hturned)
      · rw [hexpired, evictExpired_of_unexpired (hspares hnone).1]
        exact (hspares hnone).2
      rw [htouched, evictExpired_of_unexpired (hspares hnone).1]
      exact (hspares hnone).2.touch _ _
    · exact hlookup
  | clear => exact ⟨fun _ => nodup_nil, fun _ key hkey => absurd hkey not_mem_nil⟩

/-! ### Runs -/

/-- A call as a step, which always succeeds. -/
def step (sha : Sha256) (lower : Char → Char) (m : Manager) (c : Call) : Option Manager :=
  some (m.call sha lower c)

/-- **The bytes are those of the entries, and the limits hold**, in every state of every
run. -/
theorem kept_of_run {config : Config} {m : Manager}
    (hrun : Runs (step sha lower) (fun _ _ => True) (newManager config) m) : m.Kept :=
  hrun.inv (kept_newManager config) fun _ c _ hkept _ htaken =>
    Option.some.inj htaken ▸ hkept.call c

/-- **The books of the cache are in order** in every run whose calls spare the entries: the
bytes are those of the entries, the limits hold, and the lists name live entries only,
each at most once, so that none is longer than the table. -/
theorem books_of_sparing_run {config : Config} {m : Manager}
    (hrun : Runs (step sha lower) (Spares sha lower) (newManager config) m) :
    m.bytes = (m.entries.map Entry.bytes).sum ∧ m.WithinLimits ∧ m.LineageLive ∧
      ∀ line, (m.lineage line).length ≤ m.entries.length := by
  have hkept := kept_of_run (hrun.mono fun _ _ _ => trivial)
  have hlive : m.LineageLive :=
    hrun.inv ⟨fun _ => nodup_nil, fun _ _ hkey => absurd hkey not_mem_nil⟩
      fun _ _ _ h hspares htaken => Option.some.inj htaken ▸ h.call hspares
  exact ⟨hkept.accounted.bytes_eq, hkept.within, hlive, hlive.length_le⟩

/-- Model `m`, and no more. -/
def plainIdentity : Identity := { modelID := [0x6D], supported := true }

/-- The hashes of `m` without tokens and of `m` with the token 1. -/
def plainSha : Sha256 where
  sum x :=
    if x = keyPreimage plainIdentity [] then
      [226, 204, 28, 11, 189, 27, 133, 192, 152, 40, 14, 235, 137, 90, 0, 162,
    208, 222, 166, 220, 200, 182, 96, 87, 203, 171, 30, 149, 196, 82, 156, 240]
    else if x = keyPreimage plainIdentity [1] then
      [220, 220, 108, 79, 47, 125, 172, 227, 12, 130, 23, 106, 107, 91, 143, 114,
    45, 67, 214, 232, 89, 179, 36, 27, 27, 101, 161, 193, 235, 175, 239, 131]
    else replicate 32 0
  length_sum x := by
    split
    · rfl
    split
    · rfl
    · exact length_replicate

def mapOrder : MapOrder := ⟨fun _ l => l, fun _ l => Perm.refl l⟩

def stored : Call := .store plainIdentity [1] 0 0 mapOrder

theorem first_store_books :
    let m := (newManager {}).call plainSha id stored
    m.bytes = (m.entries.map Entry.bytes).sum ∧ m.WithinLimits ∧ m.LineageLive ∧
      ∀ line, (m.lineage line).length ≤ m.entries.length := by
  refine @books_of_sparing_run plainSha id _ _ (Runs.refl.tail (e := stored) ?_ rfl)
  refine Or.inr ⟨fun e he => absurd he not_mem_nil, ?_, ?_⟩
  · decide
  · decide

/-- A prompt that is stored twice is named twice. -/
theorem stored_twice_named_twice :
    let m := ((newManager {}).call plainSha id stored).call plainSha id stored
    Runs (step plainSha id) (fun _ _ => True) (newManager {}) m ∧
      m.entries.length = 1 ∧ (m.lineage (lineageKey plainSha plainIdentity)).length = 2 ∧
      ¬ (m.lineage (lineageKey plainSha plainIdentity)).Nodup := by
  refine ⟨(Runs.refl.tail (e := stored) trivial rfl).tail (e := stored) trivial rfl, ?_, ?_, ?_⟩
  · decide +kernel
  · decide +kernel
  · decide +kernel

end Manager

end DenseCore.Server.PromptCache
