/-
What the repack caches return.

A weight in the Q4_K cache is the repacking of bytes that some lookup of the same
address and shape found there, under the fingerprint in the entry's key.  Entries
may leave the cache while threads wait on them, so the invariant speaks of entry
objects and not only of what the cache still lists; and a thread that is building
or waiting relies on the memory of its weight staying as its lookup found it, which
a race-free history grants.  The Q8 cache has only the first half of this: what it
holds is the repacking of bytes that some earlier lookup found.

So a Q4_K weight is current unless the bytes have changed under an unchanged
fingerprint, and they can, since the fingerprint samples two windows.
-/
import DenseCore.Matmul.RepackCache

namespace DenseCore.Repack

open Option hiding any_eq_true min

open List
open Function (update update_of_ne update_self)

variable {P : Type}

/-! ### Memory -/

variable {n : Nat} {s s' : State P} {cfg : Config P} {ret : Option (Returned P)}

theorem readBytes_writeBytes {mem : Memory} {addr ptr : Nat} {data : List UInt8}
    (h : ptr + n ≤ addr ∨ addr + data.length ≤ ptr) :
    readBytes (writeBytes mem addr data) ptr n = readBytes mem ptr n := by
  unfold readBytes
  refine map_congr_left fun i hi => ?_
  have hi' : i < n := mem_range.mp hi
  unfold writeBytes
  rw [if_neg (by omega)]

theorem length_readBytes (mem : Memory) (ptr n : Nat) : (readBytes mem ptr n).length = n := by
  unfold readBytes
  rw [length_map, length_range]

theorem getD_readBytes (mem : Memory) (ptr : Nat) {i : Nat} (hi : i < n) :
    (readBytes mem ptr n).getD i 0 = mem (ptr + i) := by
  unfold readBytes
  rw [getD_eq_getElem?_getD, getElem?_map, getElem?_range hi]
  rfl

theorem take_readBytes (mem : Memory) (ptr n k : Nat) :
    (readBytes mem ptr n).take k = readBytes mem ptr (min k n) := by
  unfold readBytes
  rw [← map_take, take_range]

theorem drop_readBytes (mem : Memory) (ptr n k : Nat) :
    (readBytes mem ptr n).drop k = readBytes mem (ptr + k) (n - k) := by
  unfold readBytes
  refine ext_getElem (by simp) ?_
  intro i h1 h2
  simp [Nat.add_assoc]

theorem fingerprint_of_windows {raw raw' : List UInt8} (hlen : raw.length = raw'.length)
    (hbig : window * 2 < raw.length) (htake : raw.take window = raw'.take window)
    (hdrop : raw.drop (raw.length - window) = raw'.drop (raw'.length - window)) :
    fingerprint raw = fingerprint raw' := by
  unfold fingerprint
  dsimp only
  rw [if_neg (by omega), if_neg (by omega), if_neg (by omega), if_neg (by omega), htake, hdrop,
    hlen]

/-! ### The invariant

A weight in a cache was packed from bytes that some lookup found at its address. That is all
a later lookup may rely on, since writes are not seen.
-/

/-- A packed weight that a lookup of the key's region accounts for. -/
def Justified (cfg : Config P) (found : List Found) (key : Key) (packed : P) : Prop :=
  ∃ f ∈ found, f.cache = .q4k ∧ f.region = key.region ∧ fingerprint f.raw = key.fingerprint ∧
    cfg.repackQ4k f.raw key.region = some packed

/-- The same for the Q8 cache, whose key has no fingerprint. -/
def JustifiedQ8 (cfg : Config P) (found : List Found) (r : Region) (packed : P) : Prop :=
  ∃ f ∈ found, f.cache = .q8 ∧ f.region = r ∧ cfg.repackQ8 f.raw r = some packed

/-- The bytes of the key's region have been looked up, and are as they were then. -/
def Looked (found : List Found) (mem : Memory) (key : Key) : Prop :=
  fingerprint (readBytes mem key.region.ptr key.region.q4kBytes) = key.fingerprint ∧
    ⟨.q4k, key.region, readBytes mem key.region.ptr key.region.q4kBytes⟩ ∈ found

/-- The Q4_K cache and the lookups under way. -/
structure CacheInv (cfg : Config P) (found : List Found) (mem : Memory)
    (pending : List (Nat × Pending)) (c : Q4kCache P) : Prop where
  weight_ok : ∀ {id entry w}, c.heap id = some entry → entry.weight = some w →
    Justified cfg found entry.key w.packed
  entry_key : ∀ {e entry}, e ∈ c.entries → c.heap e.2 = some entry → entry.key = e.1
  entry_lt : ∀ {e}, e ∈ c.entries → e.2 < c.nextId
  pending_key : ∀ {q entry}, q ∈ pending → c.heap q.2.id = some entry → entry.key = q.2.key
  pending_lt : ∀ {q}, q ∈ pending → q.2.id < c.nextId
  pending_looked : ∀ {q}, q ∈ pending → Looked found mem q.2.key

/-- Every weight that a thread can be given is justified. -/
structure Inv (cfg : Config P) (s : State P) : Prop where
  cache : CacheInv cfg s.found s.mem s.pending s.q4k
  q8_ok : ∀ {e}, e ∈ s.q8 → JustifiedQ8 cfg s.found e.1 e.2
  tls_ok : ∀ {t e}, s.tls t = some e → JustifiedQ8 cfg s.found e.1 e.2

theorem inv_init (cfg : Config P) (mem : Memory) : Inv cfg (State.init mem : State P) where
  cache :=
    { weight_ok := fun h => nomatch h
      entry_key := fun h => nomatch h
      entry_lt := fun h => nomatch h
      pending_key := fun h => nomatch h
      pending_lt := fun h => nomatch h
      pending_looked := fun h => nomatch h }
  q8_ok := fun h => nomatch h
  tls_ok := fun h => nomatch h

section Moves

variable {cfg : Config P} {found : List Found} {mem : Memory} {pending : List (Nat × Pending)}
  {c : Q4kCache P}

variable {found' : List Found} {key : Key}

variable {packed : P} {pending' : List (Nat × Pending)} {q : Nat × Pending}

theorem Justified.mono (hsub : found ⊆ found')
    (h : Justified cfg found key packed) : Justified cfg found' key packed := by
  obtain ⟨f, hf, hrest⟩ := h
  exact ⟨f, hsub hf, hrest⟩

theorem JustifiedQ8.mono (hsub : found ⊆ found') {r : Region}
    (h : JustifiedQ8 cfg found r packed) : JustifiedQ8 cfg found' r packed := by
  obtain ⟨f, hf, hrest⟩ := h
  exact ⟨f, hsub hf, hrest⟩

/-- More lookups. -/
theorem CacheInv.grow (hsub : found ⊆ found')
    (h : CacheInv cfg found mem pending c) : CacheInv cfg found' mem pending c where
  weight_ok := fun hid hw => (h.weight_ok hid hw).mono hsub
  entry_key := h.entry_key
  entry_lt := h.entry_lt
  pending_key := h.pending_key
  pending_lt := h.pending_lt
  pending_looked := fun hq => ⟨(h.pending_looked hq).1, hsub (h.pending_looked hq).2⟩

theorem CacheInv.shrink {c' : Q4kCache P}
    (h : CacheInv cfg found mem pending c) (hentries : c'.entries ⊆ c.entries)
    (hheap : c'.heap = c.heap) (hnext : c'.nextId = c.nextId) (hpending : pending' ⊆ pending) :
    CacheInv cfg found mem pending' c' where
  weight_ok := by
    rw [hheap]
    exact h.weight_ok
  entry_key := by
    intro e entry he hid
    rw [hheap] at hid
    exact h.entry_key (hentries he) hid
  entry_lt := by
    intro e he
    rw [hnext]
    exact h.entry_lt (hentries he)
  pending_key := by
    intro q entry hq hid
    rw [hheap] at hid
    exact h.pending_key (hpending hq) hid
  pending_lt := by
    intro q hq
    rw [hnext]
    exact h.pending_lt (hpending hq)
  pending_looked := fun hq => h.pending_looked (hpending hq)

theorem CacheInv.setEntry {id : Nat} {old : Entry P} (new : Entry P)
    (h : CacheInv cfg found mem pending c) (hold : c.heap id = some old) (hkey : new.key = old.key)
    (hweight : ∀ w, new.weight = some w → Justified cfg found new.key w.packed) :
    CacheInv cfg found mem pending { c with heap := update c.heap id (some new) } where
  weight_ok := by
    intro id' entry w hid hw
    by_cases heq : id' = id
    · subst heq
      obtain rfl : new = entry := by simpa using hid
      exact hweight w hw
    · exact h.weight_ok ((update_of_ne heq _ _).symm.trans hid) hw
  entry_key := by
    intro e entry he hid
    by_cases heq : e.2 = id
    · obtain rfl : new = entry := by simpa [heq] using hid
      rw [hkey]
      exact h.entry_key he (heq ▸ hold)
    · exact h.entry_key he ((update_of_ne heq _ _).symm.trans hid)
  entry_lt := h.entry_lt
  pending_key := by
    intro q entry hq hid
    by_cases heq : q.2.id = id
    · obtain rfl : new = entry := by simpa [heq] using hid
      rw [hkey]
      exact h.pending_key hq (heq ▸ hold)
    · exact h.pending_key hq ((update_of_ne heq _ _).symm.trans hid)
  pending_lt := h.pending_lt
  pending_looked := h.pending_looked

/-- A new entry of a key that the thread has looked up. -/
theorem CacheInv.alloc (h : CacheInv cfg found mem pending c)
    (hlooked : Looked found mem key) {entries : List (Key × Nat)}
    (hentries : ∀ e ∈ entries, e = (key, c.nextId) ∨ e ∈ c.entries)
    (hqkey : q.2.key = key) (hqid : q.2.id = c.nextId) (hpending : pending' ⊆ pending) :
    CacheInv cfg found mem (q :: pending') { c with
        heap := update c.heap c.nextId
          (some { key := key, weight := none, building := true })
        entries := entries
        nextId := c.nextId + 1 } where
  weight_ok := by
    intro id entry w hid hw
    by_cases heq : id = c.nextId
    · subst heq
      obtain rfl : entry = { key := key, weight := none, building := true } := by
        simpa using hid.symm
      cases hw
    · exact h.weight_ok ((update_of_ne heq _ _).symm.trans hid) hw
  entry_key := by
    intro e entry he hid
    rcases hentries e he with rfl | hin
    · obtain rfl : entry = { key := key, weight := none, building := true } := by
        simpa using hid.symm
      rfl
    have hne : e.2 ≠ c.nextId := Nat.ne_of_lt (h.entry_lt hin)
    exact h.entry_key hin ((update_of_ne hne _ _).symm.trans hid)
  entry_lt := by
    intro e he
    rcases hentries e he with rfl | hin
    · exact Nat.lt_succ_self c.nextId
    · exact Nat.lt_succ_of_lt (h.entry_lt hin)
  pending_key := by
    intro q' entry hq' hid
    rcases mem_cons.mp hq' with rfl | hin
    · rw [hqid] at hid
      obtain rfl : entry = { key := key, weight := none, building := true } := by
        simpa using hid.symm
      exact hqkey.symm
    have hne : q'.2.id ≠ c.nextId := Nat.ne_of_lt (h.pending_lt (hpending hin))
    exact h.pending_key (hpending hin) ((update_of_ne hne _ _).symm.trans hid)
  pending_lt := by
    intro q' hq'
    rcases mem_cons.mp hq' with rfl | hin
    · rw [hqid]
      exact Nat.lt_succ_self c.nextId
    · exact Nat.lt_succ_of_lt (h.pending_lt (hpending hin))
  pending_looked := by
    intro q' hq'
    rcases mem_cons.mp hq' with rfl | hin
    · rw [hqkey]
      exact hlooked
    · exact h.pending_looked (hpending hin)

theorem CacheInv.wait (id : Nat) (h : CacheInv cfg found mem pending c)
    (hlooked : Looked found mem key) (hentry : (key, id) ∈ c.entries)
    (hqkey : q.2.key = key) (hqid : q.2.id = id)
    (hpending : pending' ⊆ pending) : CacheInv cfg found mem (q :: pending') c where
  weight_ok := h.weight_ok
  entry_key := h.entry_key
  entry_lt := h.entry_lt
  pending_key := by
    intro q' entry hq' hid
    rcases mem_cons.mp hq' with rfl | hin
    · rw [hqid] at hid
      rw [hqkey]
      exact h.entry_key hentry hid
    · exact h.pending_key (hpending hin) hid
  pending_lt := by
    intro q' hq'
    rcases mem_cons.mp hq' with rfl | hin
    · rw [hqid]
      exact h.entry_lt hentry
    · exact h.pending_lt (hpending hin)
  pending_looked := by
    intro q' hq'
    rcases mem_cons.mp hq' with rfl | hin
    · rw [hqkey]
      exact hlooked
    · exact h.pending_looked (hpending hin)

theorem CacheInv.write {addr : Nat} {data : List UInt8} (h : CacheInv cfg found mem pending c)
    (hfree : ∀ q ∈ pending, q.2.touches addr data.length = false) :
    CacheInv cfg found (writeBytes mem addr data) pending c where
  weight_ok := h.weight_ok
  entry_key := h.entry_key
  entry_lt := h.entry_lt
  pending_key := h.pending_key
  pending_lt := h.pending_lt
  pending_looked := by
    intro q hq
    have hclear := hfree q hq
    unfold Pending.touches at hclear
    have hapart : q.2.key.region.ptr + q.2.key.region.q4kBytes ≤ addr ∨
        addr + data.length ≤ q.2.key.region.ptr := by
      by_contra hno
      simp at hclear
      omega
    unfold Looked
    rw [readBytes_writeBytes hapart]
    exact h.pending_looked hq

end Moves

/-! ### Eviction -/

theorem evictWhile_shrinks (ok : Key → Bool) (more : Q4kCache P → Bool) (fuel : Nat) :
    ∀ c : Q4kCache P,
    (Q4kCache.evictWhile ok more fuel c).entries ⊆ c.entries ∧
      (Q4kCache.evictWhile ok more fuel c).heap = c.heap ∧
      (Q4kCache.evictWhile ok more fuel c).nextId = c.nextId := by
  induction fuel with
  | zero => intro c; exact ⟨List.Subset.refl _, rfl, rfl⟩
  | succ fuel ih =>
    intro c
    unfold Q4kCache.evictWhile
    split
    · split
      · rename_i e w _
        obtain ⟨hentries, hheap, hnext⟩ := ih
          { c with entries := c.entries.filter (· ≠ e), cacheBytes := c.cacheBytes - w.bytes }
        exact ⟨List.Subset.trans hentries filter_sublist.subset, hheap, hnext⟩
      · exact ⟨List.Subset.refl _, rfl, rfl⟩
    · exact ⟨List.Subset.refl _, rfl, rfl⟩

/-! ### The steps of a lookup -/

section Lookups

variable {cfg : Config P} {s : State P}

theorem others_subset (s : State P) (thread : Nat) : s.others thread ⊆ s.pending :=
  filter_sublist.subset

theorem Inv.look (h : Inv cfg s) (f : Found) (clock : Nat) :
    Inv cfg { s with found := f :: s.found, q4k := { s.q4k with useClock := clock } } where
  cache := (h.cache.grow (subset_cons_self f s.found)).shrink (List.Subset.refl _) rfl rfl
    (List.Subset.refl _)
  q8_ok := fun he => (h.q8_ok he).mono (subset_cons_self f s.found)
  tls_ok := fun he => (h.tls_ok he).mono (subset_cons_self f s.found)

variable {key : Key} {id : Nat} {entry : Entry P}

theorem q4kBuild_inv (h : Inv cfg s) (hlooked : Looked s.found s.mem key)
    (thread cacheLimit now : Nat) :
    Inv cfg (q4kBuild s thread key cacheLimit now).1 ∧
      (q4kBuild s thread key cacheLimit now).2 = none := by
  unfold q4kBuild
  split
  · exact ⟨⟨h.cache.shrink (List.Subset.refl _) rfl rfl (others_subset s thread), h.q8_ok,
      h.tls_ok⟩, rfl⟩
  refine ⟨⟨h.cache.alloc hlooked ?_ rfl rfl (others_subset s thread), h.q8_ok, h.tls_ok⟩, rfl⟩
  intro e he
  rcases mem_cons.mp he with heq | hin
  · exact Or.inl heq
  · exact Or.inr (mem_filter.mp hin).1

theorem q4kHit_inv (h : Inv cfg s) {w : Weight P}
    (hid : s.q4k.heap id = some entry) (hw : entry.weight = some w) (now : Nat) :
    Inv cfg (q4kHit s id entry w now).1 ∧
      ∀ p, (q4kHit s id entry w now).2 = some p → Justified cfg s.found entry.key p := by
  have hjust := h.cache.weight_ok hid hw
  refine ⟨⟨h.cache.setEntry _ hid rfl ?_, h.q8_ok, h.tls_ok⟩, ?_⟩
  · intro w' hw'
    obtain rfl : w' = { w with lastUse := now } := by simpa using hw'.symm
    exact hjust
  intro p hp
  obtain rfl : w.packed = p := by simpa [q4kHit] using hp
  exact hjust

/-- A lookup of a Q4_K weight, and what its result was packed from. -/
theorem q4kLookup_inv (h : Inv cfg s) (thread : Nat) (r : Region) (cacheLimit : Nat) :
    Inv cfg (q4kLookup cfg s thread r cacheLimit).1 ∧
      ∀ p, (q4kLookup cfg s thread r cacheLimit).2 = some p →
        Justified cfg (q4kLookup cfg s thread r cacheLimit).1.found
          ⟨r, fingerprint (s.q4kRaw r)⟩ p := by
  unfold q4kLookup
  split
  · exact ⟨h, fun p hp => nomatch hp⟩
  dsimp only
  have hlook := h.look ⟨.q4k, r, s.q4kRaw r⟩ (s.q4k.useClock + 1)
  have hlooked : Looked (⟨.q4k, r, s.q4kRaw r⟩ :: s.found) s.mem ⟨r, fingerprint (s.q4kRaw r)⟩ :=
    ⟨rfl, mem_cons_self⟩
  have hbuild := q4kBuild_inv hlook hlooked thread cacheLimit (s.q4k.useClock + 1)
  have hnone : ∀ {found : List Found} {key : Key} (p : P), (q4kBuild { s with
          found := ⟨.q4k, r, s.q4kRaw r⟩ :: s.found
          q4k := { s.q4k with useClock := s.q4k.useClock + 1 } }
        thread ⟨r, fingerprint (s.q4kRaw r)⟩ cacheLimit (s.q4k.useClock + 1)).2 = some p →
      Justified cfg found key p := by
    intro found key p hp
    rw [hbuild.2] at hp
    cases hp
  cases hfind : s.q4k.entries.find? (·.1 = (⟨r, fingerprint (s.q4kRaw r)⟩ : Key)) with
  | none => exact ⟨hbuild.1, hnone⟩
  | some e =>
    have hkey : e.1 = ⟨r, fingerprint (s.q4kRaw r)⟩ := by simpa using find?_some hfind
    have hmem : e ∈ s.q4k.entries := mem_of_find?_eq_some hfind
    dsimp only
    cases hid : s.q4k.heap e.2 with
    | none => exact ⟨hbuild.1, hnone⟩
    | some entry =>
      dsimp only
      cases hw : entry.weight with
      | some w =>
        obtain ⟨hinv, hres⟩ := q4kHit_inv hlook hid hw (s.q4k.useClock + 1)
        rw [h.cache.entry_key hmem hid, hkey] at hres
        exact ⟨hinv, hres⟩
      | none =>
        dsimp only
        split
        · refine ⟨⟨hlook.cache.wait e.2 hlooked ?_ rfl rfl (others_subset _ thread),
            hlook.q8_ok, hlook.tls_ok⟩, fun p hp => nomatch hp⟩
          rw [← hkey]
          exact hmem
        · exact ⟨hbuild.1, hnone⟩

theorem q4kWake_inv (h : Inv cfg s) {thread cacheLimit now : Nat}
    (hpending : (thread, .waiting key id cacheLimit now) ∈ s.pending)
    (hid : s.q4k.heap id = some entry) :
    Inv cfg (q4kWake s thread key id cacheLimit now entry).1 ∧
      ∀ p, (q4kWake s thread key id cacheLimit now entry).2 = some p →
        Justified cfg (q4kWake s thread key id cacheLimit now entry).1.found key p := by
  have hkey : entry.key = key := h.cache.pending_key hpending hid
  unfold q4kWake
  cases hw : entry.weight with
  | some w =>
    have hdone : Inv cfg { s with pending := s.others thread } :=
      ⟨h.cache.shrink (List.Subset.refl _) rfl rfl (others_subset s thread), h.q8_ok, h.tls_ok⟩
    obtain ⟨hinv, hres⟩ := q4kHit_inv hdone hid hw now
    rw [hkey] at hres
    exact ⟨hinv, hres⟩
  | none =>
    have hlooked : Looked s.found s.mem key := h.cache.pending_looked hpending
    obtain ⟨hinv, hnone⟩ := q4kBuild_inv h hlooked thread cacheLimit now
    refine ⟨hinv, ?_⟩
    intro p hp
    dsimp only at hp
    rw [hnone] at hp
    cases hp

/-- A build that ends, published or thrown away. -/
theorem q4kBuilt_inv (h : Inv cfg s) {thread cacheLimit now : Nat}
    (hpending : (thread, .building key id cacheLimit now) ∈ s.pending)
    (hid : s.q4k.heap id = some entry) :
    Inv cfg (q4kBuilt cfg s thread key id cacheLimit now entry).1 ∧
      ∀ p, (q4kBuilt cfg s thread key id cacheLimit now entry).2 = some p →
        Justified cfg (q4kBuilt cfg s thread key id cacheLimit now entry).1.found key p := by
  have hkey : entry.key = key := h.cache.pending_key hpending hid
  have hlooked : Looked s.found s.mem key := h.cache.pending_looked hpending
  have hdone : CacheInv cfg s.found s.mem (s.others thread) s.q4k :=
    h.cache.shrink (List.Subset.refl _) rfl rfl (others_subset s thread)
  unfold q4kBuilt
  dsimp only
  cases hpack : cfg.repackQ4k (State.q4kRaw { s with pending := s.others thread } key.region)
      key.region with
  | some packed =>
    have hjust : Justified cfg s.found key packed :=
      ⟨_, hlooked.2, rfl, rfl, hlooked.1, hpack⟩
    have hweight : ∀ w, some (⟨packed, key.region.q4kPackedBytes, now⟩ : Weight P) = some w →
        Justified cfg s.found entry.key w.packed := by
      intro w hw
      cases hw
      rw [hkey]
      exact hjust
    dsimp only
    refine ⟨⟨?_, h.q8_ok, h.tls_ok⟩, ?_⟩
    · -- Publish, evict, and clear the building mark.
      have hset := hdone.setEntry { entry with weight := some _ } hid rfl hweight
      obtain ⟨hentries, hheap, hnext⟩ := evictWhile_shrinks (· ≠ key)
        (fun c => cacheLimit < c.cacheBytes && 1 < c.entries.length) s.q4k.entries.length
        { s.q4k with
          heap := update s.q4k.heap id
            (some { entry with weight := some ⟨packed, key.region.q4kPackedBytes, now⟩ })
          cacheBytes := s.q4k.cacheBytes + key.region.q4kPackedBytes }
      have hevicted := hset.shrink hentries hheap hnext (List.Subset.refl _)
      exact hevicted.setEntry _ ((congrFun hheap id).trans (update_self id _ _)) rfl
        hweight
    intro p hp
    cases hp
    exact hjust
  | none =>
    dsimp only
    refine ⟨⟨?_, ?_, ?_⟩, fun p hp => nomatch hp⟩
    · have hold : ∀ w, entry.weight = some w → Justified cfg s.found entry.key w.packed :=
        fun w hw => h.cache.weight_ok hid hw
      split
      · have hout : CacheInv cfg s.found s.mem (s.others thread)
            { s.q4k with entries := s.q4k.entries.filter (·.1 ≠ key) } :=
          hdone.shrink filter_sublist.subset rfl rfl (List.Subset.refl _)
        exact hout.setEntry _ hid rfl hold
      · exact hdone.setEntry _ hid rfl hold
    · split <;> exact h.q8_ok
    · split <;> exact h.tls_ok

/-- A lookup of a Q8 weight, and what its result was packed from. -/
theorem q8Lookup_inv (h : Inv cfg s) (thread : Nat) (r : Region) (force : Bool) :
    Inv cfg (q8Lookup cfg s thread r force).1 ∧ ∀ p, (q8Lookup cfg s thread r force).2 = some p →
        JustifiedQ8 cfg (q8Lookup cfg s thread r force).1.found r p := by
  unfold q8Lookup
  split
  · exact ⟨h, fun p hp => nomatch hp⟩
  dsimp only
  have hlook := h.look ⟨.q8, r, s.q8Raw r⟩ s.q4k.useClock
  -- A packed weight that is put into the thread's copy is one the lookups account for.
  have hput : ∀ p, JustifiedQ8 cfg (⟨.q8, r, s.q8Raw r⟩ :: s.found) r p → ∀ {t e},
      update s.tls thread (some (r, p)) t = some e →
      JustifiedQ8 cfg (⟨.q8, r, s.q8Raw r⟩ :: s.found) e.1 e.2 := by
    intro p hp t e he
    by_cases heq : t = thread
    · subst heq
      rw [update_self] at he
      cases he
      exact hp
    rw [update_of_ne heq] at he
    exact hlook.tls_ok he
  split
  · rename_i packed hcached
    refine ⟨hlook, ?_⟩
    intro p hp
    cases hp
    split at hcached
    · rename_i key packed' htls
      split at hcached
      · rename_i hkey
        cases hcached
        subst hkey
        exact hlook.tls_ok htls
      · cases hcached
    · cases hcached
  · split
    · rename_i r' packed hfind
      have hkey : r' = r := by simpa using find?_some hfind
      have hjust := hlook.q8_ok (mem_of_find?_eq_some hfind)
      subst hkey
      refine ⟨⟨hlook.cache, hlook.q8_ok, hput packed hjust⟩, ?_⟩
      intro p hp
      cases hp
      exact hjust
    split
    · exact ⟨hlook, fun p hp => nomatch hp⟩
    rename_i packed hpack
    have hjust : JustifiedQ8 cfg (⟨.q8, r, s.q8Raw r⟩ :: s.found) r packed :=
      ⟨_, mem_cons_self, rfl, rfl, hpack⟩
    refine ⟨⟨hlook.cache, ?_, hput packed hjust⟩, ?_⟩
    · intro e he
      rcases mem_cons.mp he with rfl | hin
      · exact hjust
      · exact hlook.q8_ok hin
    intro p hp
    cases hp
    exact hjust

end Lookups

/-! ### Histories -/

theorem mem_of_pendingOf {thread : Nat} {p : Pending}
    (h : s.pendingOf thread = some p) : (thread, p) ∈ s.pending := by
  unfold State.pendingOf at h
  obtain ⟨q, hfind, rfl⟩ := map_eq_some_iff.mp h
  have hthread : q.1 = thread := by simpa using find?_some hfind
  subst hthread
  exact mem_of_find?_eq_some hfind

/-- A result that the lookups so far account for. -/
def Accounted (cfg : Config P) (found : List Found) (ret : Returned P) : Prop :=
  match ret.cache with
  | .q8 => JustifiedQ8 cfg found ret.region ret.packed
  | .q4k => Justified cfg found ⟨ret.region, fingerprint ret.raw⟩ ret.packed

private theorem answer_accounted {cache : Which} {r : Region} {res : State P × Option P}
    (h : answer s cache r res = (s', ret)) (hinv : Inv cfg res.1)
    (hres : ∀ p, res.2 = some p → Accounted cfg res.1.found ⟨cache, r, s.rawFor r cache, p⟩) :
    Inv cfg s' ∧ ∀ x, ret = some x → Accounted cfg s'.found x := by
  obtain ⟨rfl, rfl⟩ : res.1 = s' ∧ _ = ret := by
    have h' := Prod.mk.inj h
    exact h'
  refine ⟨hinv, ?_⟩
  intro x hx
  obtain ⟨p, hp, rfl⟩ := map_eq_some_iff.mp hx
  exact hres p hp

/-- **One event keeps the invariant, and what it returns is accounted for.** -/
theorem step_inv {e : Event} (h : Inv cfg s) (hstep : step cfg s e = some (s', ret)) :
    Inv cfg s' ∧ ∀ x, ret = some x → Accounted cfg s'.found x := by
  cases e with
  | write addr data =>
    simp only [step, ite_none_left_eq_some, some.injEq, Prod.mk.injEq] at hstep
    obtain ⟨hfree, rfl, rfl⟩ := hstep
    refine ⟨⟨h.cache.write ?_, h.q8_ok, h.tls_ok⟩, fun x hx => nomatch hx⟩
    intro q hq
    by_contra htouch
    exact hfree (any_eq_true.mpr ⟨q, hq, by simpa using htouch⟩)
  | q8Lookup thread r force =>
    simp only [step, ite_none_left_eq_some, some.injEq] at hstep
    obtain ⟨hinv, hres⟩ := q8Lookup_inv h thread r force
    exact answer_accounted hstep.2 hinv hres
  | q4kLookup thread r cacheLimit =>
    simp only [step, ite_none_left_eq_some, some.injEq] at hstep
    obtain ⟨hinv, hres⟩ := q4kLookup_inv h thread r cacheLimit
    exact answer_accounted hstep.2 hinv hres
  | q4kWake thread =>
    simp only [step] at hstep
    split at hstep
    · rename_i key id cacheLimit now hpending
      split at hstep
      · rename_i entry hid
        simp only [ite_none_left_eq_some, some.injEq] at hstep
        have hmem := mem_of_pendingOf hpending
        obtain ⟨hinv, hres⟩ := q4kWake_inv h hmem hid
        refine answer_accounted hstep.2 hinv ?_
        intro p hp
        have hfp : fingerprint (s.q4kRaw key.region) = key.fingerprint :=
          (h.cache.pending_looked hmem).1
        show Justified cfg _ ⟨key.region, fingerprint (s.q4kRaw key.region)⟩ p
        rw [hfp]
        exact hres p hp
      · cases hstep
    · cases hstep
  | q4kBuilt thread =>
    simp only [step] at hstep
    split at hstep
    · rename_i key id cacheLimit now hpending
      split at hstep
      · rename_i entry hid
        have hmem := mem_of_pendingOf hpending
        obtain ⟨hinv, hres⟩ := q4kBuilt_inv h hmem hid
        refine answer_accounted (some.inj hstep) hinv ?_
        intro p hp
        have hfp : fingerprint (s.q4kRaw key.region) = key.fingerprint :=
          (h.cache.pending_looked hmem).1
        show Justified cfg _ ⟨key.region, fingerprint (s.q4kRaw key.region)⟩ p
        rw [hfp]
        exact hres p hp
      · cases hstep
    · cases hstep
  | trim target =>
    simp only [step, some.injEq, Prod.mk.injEq] at hstep
    obtain ⟨rfl, rfl⟩ := hstep
    obtain ⟨hentries, hheap, hnext⟩ := evictWhile_shrinks (fun _ => true)
      (fun c : Q4kCache P => target < c.cacheBytes) s.q4k.entries.length s.q4k
    exact ⟨⟨h.cache.shrink hentries hheap hnext (List.Subset.refl _), h.q8_ok, h.tls_ok⟩,
      fun x hx => nomatch hx⟩

theorem run_inv (history : List Event) : ∀ {s s' : State P}, Inv cfg s →
    run cfg s history = some s' → Inv cfg s' := by
  induction history with
  | nil =>
    intro s s' h hrun
    cases hrun
    exact h
  | cons e rest ih =>
    intro s s' h hrun
    obtain ⟨r, hstep, hrest⟩ := bind_eq_some_iff.mp hrun
    exact ih (step_inv h hstep).1 hrest

/-- **What a lookup returns.**  After any history, a packed weight that the Q4_K
cache returns is the repacking of bytes that this lookup or an earlier one of the
same address and shape found, with the fingerprint of the bytes there now; so it is
the repacking of those unless contents with one fingerprint have been looked up that
differ.  What the Q8 cache returns is the repacking of the bytes there now if all
lookups of that address and shape have found these. -/
theorem repacked_weight_accounted (cfg : Config P) (mem : Memory) (history : List Event)
    (s s' : State P) (e : Event) (ret : Returned P)
    (hrun : run cfg (State.init mem) history = some s)
    (hstep : step cfg s e = some (s', some ret)) :
    (ret.cache = .q4k → (∃ f ∈ s'.found, f.cache = .q4k ∧ f.region = ret.region ∧
        fingerprint f.raw = fingerprint ret.raw ∧
        cfg.repackQ4k f.raw ret.region = some ret.packed) ∧
      ((∀ f ∈ s'.found, f.cache = .q4k → f.region = ret.region →
          fingerprint f.raw = fingerprint ret.raw → f.raw = ret.raw) →
        cfg.repackQ4k ret.raw ret.region = some ret.packed)) ∧
      (ret.cache = .q8 → (∀ f ∈ s'.found, f.cache = .q8 → f.region = ret.region → f.raw = ret.raw) →
        cfg.repackQ8 ret.raw ret.region = some ret.packed) := by
  have hacc := (step_inv (run_inv history (inv_init cfg mem) hrun) hstep).2 ret rfl
  unfold Accounted at hacc
  refine ⟨?_, ?_⟩
  · intro hcache
    rw [hcache] at hacc
    refine ⟨hacc, ?_⟩
    intro hsame
    obtain ⟨f, hf, hq4k, hregion, hfp, hpack⟩ := hacc
    rw [← hsame f hf hq4k hregion hfp]
    exact hpack
  intro hcache hsame
  rw [hcache] at hacc
  obtain ⟨f, hf, hq8, hregion, hpack⟩ := hacc
  rw [← hsame f hf hq8 hregion]
  exact hpack

section Example

theorem q4kLookup_hit {cfg : Config P} {s : State P} {thread : Nat} {r : Region}
    {cacheLimit id : Nat} {key : Key} {entry : Entry P} {w : Weight P}
    (hguard : ¬ (r.ptr = 0 ∨ r.rows = 0 ∨ r.cols = 0 ∨ r.rows % 8 ≠ 0 ∨ r.cols % 256 ≠ 0 ∨
      cfg.q4kAvailable = false ∨ r.q4kPackedBytes = 0))
    (hfind : s.q4k.entries.find? (·.1 = ⟨r, fingerprint (s.q4kRaw r)⟩) = some (key, id))
    (hid : s.q4k.heap id = some entry) (hw : entry.weight = some w) :
    (q4kLookup cfg s thread r cacheLimit).2 = some w.packed := by
  unfold q4kLookup
  rw [if_neg hguard]
  dsimp only
  rw [hfind]
  dsimp only
  rw [hid]
  dsimp only
  rw [hw]
  rfl

/-- Eight rows interleaved by superblock, in the layout of the packed blocks: the
scales of a block, which the example leaves zero, row by row, then the quants of the
rows in turns of eight bytes. -/
@[irreducible]
def interleave8x8 (raw : List UInt8) (r : Region) : List UInt8 :=
  (range r.q4kPackedBytes).map fun x =>
    let perRow := r.cols / 256
    let k := x % 1152
    let src : Nat × Nat :=
      if k < 16 then (k / 2, k % 2)
      else if k < 32 then ((k - 16) / 2, 2 + (k - 16) % 2)
      else if k < 128 then ((k - 32) / 12, 4 + (k - 32) % 12)
      else ((k - 128) / 8 % 8, 16 + (k - 128) / 64 * 8 + (k - 128) % 8)
    raw.getD (((x / 1152 / perRow * 8 + src.1) * perRow + x / 1152 % perRow) * 144 + src.2) 0

def exampleConfig : Config (List UInt8) where
  repackQ8 := fun raw _ => some raw
  repackQ4k := fun raw r => some (interleave8x8 raw r)
  q8Enabled := true
  q4kAvailable := true

/-- Eight rows of eight superblocks: 9216 bytes, more than two windows. -/
def exampleRegion : Region := ⟨64, 8, 2048⟩

/-- Pack a zero matrix and then change its byte 4500. -/
def exampleHistory : List Event :=
  [.q4kLookup 0 exampleRegion 1000000, .q4kBuilt 0, .write 4564 [1]]

/-- The matrix in a memory. -/
def exampleRaw (mem : Memory) : List UInt8 :=
  readBytes mem exampleRegion.ptr exampleRegion.q4kBytes

/-- Memory after the change. -/
def changedMemory : Memory := writeBytes (fun _ => 0) 4564 [1]

private theorem example_fingerprint :
    fingerprint (exampleRaw changedMemory) = fingerprint (exampleRaw fun _ => 0) := by
  unfold exampleRaw changedMemory
  refine fingerprint_of_windows ?_ ?_ ?_ ?_
  · rw [length_readBytes, length_readBytes]
  · rw [length_readBytes]
    decide
  · rw [take_readBytes, take_readBytes, readBytes_writeBytes (Or.inl (by decide))]
  rw [drop_readBytes, drop_readBytes, length_readBytes, length_readBytes,
    readBytes_writeBytes (Or.inr (by decide))]

/-- Entry 8348 of the packed weight is byte 4500 of the matrix. -/
private theorem interleave_at (raw : List UInt8) :
    (interleave8x8 raw exampleRegion).getD 8348 0 = raw.getD 4500 0 := by
  unfold interleave8x8
  rw [getD_eq_getElem?_getD, getElem?_map, getElem?_range (by decide)]
  rfl

/-- The second lookup finds the entry of the first. -/
private theorem example_hit :
    ∃ s s' ret, run exampleConfig (State.init fun _ => 0) exampleHistory = some s ∧
      step exampleConfig s (.q4kLookup 0 exampleRegion 1000000) = some (s', some ret) ∧
      ret.cache = .q4k ∧ ret.region = exampleRegion ∧ ret.raw = exampleRaw changedMemory ∧
      ret.packed = interleave8x8 (exampleRaw fun _ => 0) exampleRegion := by
  obtain ⟨s, hrun, hmem, hidle, hentries, entry, w, hid, hw, hpacked⟩ :
      ∃ s, run exampleConfig (State.init fun _ => 0) exampleHistory = some s ∧
        s.mem = changedMemory ∧ s.pending = [] ∧
        s.q4k.entries = [(⟨exampleRegion, fingerprint (exampleRaw fun _ => 0)⟩, 0)] ∧
        ∃ entry w, s.q4k.heap 0 = some entry ∧ entry.weight = some w ∧
          w.packed = interleave8x8 (exampleRaw fun _ => 0) exampleRegion :=
    ⟨_, rfl, rfl, rfl, rfl, _, _, rfl, rfl, rfl⟩
  have hraw : s.q4kRaw exampleRegion = exampleRaw changedMemory := by
    unfold State.q4kRaw
    rw [hmem]
    rfl
  have hhit : (q4kLookup exampleConfig s 0 exampleRegion 1000000).2 = some w.packed := by
    have hfind : s.q4k.entries.find? (·.1 = ⟨exampleRegion, fingerprint (s.q4kRaw exampleRegion)⟩)
        = some (⟨exampleRegion, fingerprint (exampleRaw fun _ => 0)⟩, 0) := by
      rw [hentries, hraw, example_fingerprint, find?_cons_of_pos (by simp)]
    exact q4kLookup_hit (by decide) hfind hid hw
  have hstep : step exampleConfig s (.q4kLookup 0 exampleRegion 1000000)
      = some ((q4kLookup exampleConfig s 0 exampleRegion 1000000).1,
          some ⟨.q4k, exampleRegion, s.q4kRaw exampleRegion, w.packed⟩) := by
    simp only [step, State.pendingOf, hidle, answer, hhit]
    rfl
  refine ⟨s, _, _, hrun, hstep, rfl, rfl, ?_, hpacked⟩
  dsimp only
  exact hraw

/-- A matrix written to and served from the cache, and one looked up twice in the Q8 cache. -/
theorem repacked_weight_accounted_cached :
    (∃ s s' ret, run exampleConfig (State.init fun _ => 0) exampleHistory = some s ∧
      step exampleConfig s (.q4kLookup 0 exampleRegion 1000000) = some (s', some ret) ∧
      ∃ f ∈ s'.found, f.cache = .q4k ∧ f.region = ret.region ∧
        fingerprint f.raw = fingerprint ret.raw ∧
        exampleConfig.repackQ4k f.raw ret.region = some ret.packed) ∧
    ∃ s s' ret, run exampleConfig (State.init fun _ => 0)
        [.write 64 [1], .q8Lookup 0 exampleRegion true] = some s ∧
      step exampleConfig s (.q8Lookup 0 exampleRegion true) = some (s', some ret) ∧
      exampleConfig.repackQ8 ret.raw ret.region = some ret.packed := by
  constructor
  · obtain ⟨s, s', ret, hrun, hstep, hcache, -⟩ := example_hit
    exact ⟨s, s', ret, hrun, hstep,
      ((repacked_weight_accounted exampleConfig _ _ s s' _ ret hrun hstep).1 hcache).1⟩
  obtain ⟨s, hrun, hmem, hidle, htls, hfound⟩ : ∃ s, run exampleConfig (State.init fun _ => 0)
        [.write 64 [1], .q8Lookup 0 exampleRegion true] = some s ∧
      s.mem = writeBytes (fun _ => 0) 64 [1] ∧ s.pending = [] ∧
      s.tls 0 = some (exampleRegion, s.q8Raw exampleRegion) ∧
      s.found = [⟨.q8, exampleRegion, s.q8Raw exampleRegion⟩] :=
    ⟨_, rfl, rfl, rfl, rfl, rfl⟩
  have hstep : step exampleConfig s (.q8Lookup 0 exampleRegion true) =
      some ({ s with found := ⟨.q8, exampleRegion, s.q8Raw exampleRegion⟩ :: s.found },
        some ⟨.q8, exampleRegion, s.q8Raw exampleRegion, s.q8Raw exampleRegion⟩) := by
    simp only [step, State.pendingOf, hidle, q8Lookup, htls, answer]
    rfl
  refine ⟨s, _, _, hrun, hstep, (repacked_weight_accounted exampleConfig _ _ s _ _ _ hrun
    hstep).2 rfl fun f hf _ _ => ?_⟩
  rw [hfound] at hf
  have hboth : f = ⟨.q8, exampleRegion, s.q8Raw exampleRegion⟩ := by simpa using hf
  rw [hboth]

/-- A changed byte outside the windows: the second lookup returns the packed zeros,
not the repacking of what is there. -/
theorem middle_byte_served_stale :
    ∃ s s' ret, run exampleConfig (State.init fun _ => 0) exampleHistory = some s ∧
      step exampleConfig s (.q4kLookup 0 exampleRegion 1000000) = some (s', some ret) ∧
      ret.cache = .q4k ∧ exampleConfig.repackQ4k ret.raw ret.region ≠ some ret.packed := by
  obtain ⟨s, s', ret, hrun, hstep, hcache, hregion, hraw, hpacked⟩ := example_hit
  refine ⟨s, s', ret, hrun, hstep, hcache, fun heq => ?_⟩
  have hbyte : (interleave8x8 ret.raw ret.region).getD 8348 0 = ret.packed.getD 8348 0 :=
    congrArg (·.getD 8348 0) (some.inj heq)
  unfold exampleRaw at hraw hpacked
  rw [hpacked, hraw, hregion, interleave_at, interleave_at, getD_readBytes _ _ (by decide),
    getD_readBytes _ _ (by decide)] at hbyte
  exact absurd hbyte (by decide)

end Example

end DenseCore.Repack
