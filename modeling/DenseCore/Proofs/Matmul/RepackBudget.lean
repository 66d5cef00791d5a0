/-
One budget for two caches of repacked weights.

Each cache drops weights until its own count is within the limit, and none looks at the
other's.  So each alone stays within it, whatever its threads do, and both together may
come to twice as much.  They stay within it as long as what a publication leaves in its own
cache has room beside the bytes of the other.

The Q4_K cache is shown to be a cache of built values, section by section, so that the
rules of those hold for both.
-/
import DenseCore.Matmul.RepackBudget
import DenseCore.Proofs.Matmul.RepackAccounting

namespace DenseCore.Repack

open Option hiding filter_map

open Lib List

variable {P : Type}

/-! ### The property -/

/-- The bytes in both caches. -/
def Both.residentBytes (s : Both P) : Nat := s.q4k.q4k.residentBytes + s.dense.cache.resident

/-- What a publication leaves in its own cache has room beside the bytes of the other. -/
def Both.HasRoom (s : Both P) : EitherSection P → Prop
  | .q4k e => ∀ e', e.toSection? = some e' →
      s.q4k.toBuild.HasRoom Key.packedBytes s.dense.cache.resident e'
  | .dense e => s.dense.HasRoom DenseKey.packedBytes s.q4k.q4k.residentBytes e

/-! ### The Q4_K cache -/

section Caches

variable {c : Q4kCache P}

theorem toCache_bytesOf (e : Key × Nat) : c.toCache.bytesOf e = c.bytesOf e := by
  unfold BuildCache.Cache.bytesOf Q4kCache.bytesOf Q4kCache.toCache
  dsimp only [Function.comp_apply]
  cases c.heap e.2 with
  | none => rfl
  | some entry =>
    unfold Entry.toEntry
    cases hw : entry.weight with
    | none => simp [hw]
    | some w => simp [hw, Weight.toValue]

theorem toCache_resident : c.toCache.resident = c.residentBytes :=
  congrArg List.sum (map_congr_left fun e _ => toCache_bytesOf e)

theorem toCache_droppable (e : Key × Nat) :
    c.toCache.droppable e = (c.evictable e).map Weight.toValue := by
  unfold BuildCache.Cache.droppable Q4kCache.evictable Q4kCache.toCache
  dsimp only [Function.comp_apply]
  cases c.heap e.2 with
  | none => rfl
  | some entry =>
    unfold Entry.toEntry
    cases hb : entry.building <;> simp [hb]

theorem toCache_setEntry (id : Nat) (entry : Entry P) :
    ({ c with heap := Function.update c.heap id (some entry) } : Q4kCache P).toCache =
      c.toCache.setEntry id entry.toEntry := by
  unfold Q4kCache.toCache BuildCache.Cache.setEntry
  dsimp only
  rw [Function.comp_update]
  rfl

theorem toCache_started (key : Key) : (started c key).toCache = c.toCache.insert key := by
  unfold started Q4kCache.toCache BuildCache.Cache.insert BuildCache.Cache.setEntry
  dsimp only
  rw [Function.comp_update]
  rfl

/-- The weight used longest ago is the same. -/
theorem toCache_oldest (ok : Key → Bool) :
    c.toCache.oldest ok = (c.oldest ok).map fun x => (x.1, x.2.toValue) := by
  unfold BuildCache.Cache.oldest BuildCache.Cache.candidates Q4kCache.oldest
  show (c.entries.filterMap _).argmin _ = _
  induction c.entries using List.reverseRecOn with
  | nil => rfl
  | append_singleton init e ih =>
    rw [filterMap_append, foldl_append, foldl_cons, foldl_nil]
    generalize init.foldl _ none = best at ih ⊢
    cases hv : c.evictable e with
    | none =>
      have hnil : [e].filterMap (fun e => if ok e.1 then
          (c.toCache.droppable e).map fun v => (e, v) else none) = [] := by
        simp [toCache_droppable, hv]
      rw [hnil, append_nil]
      exact ih
    | some w =>
      dsimp only
      by_cases hok : ok e.1 = true
      · have hone : [e].filterMap (fun e => if ok e.1 then
            (c.toCache.droppable e).map fun v => (e, v) else none) = [(e, w.toValue)] := by
          simp [toCache_droppable, hv, hok]
        rw [hone, argmin_concat, ih, if_pos hok]
        cases best with
        | none => rfl
        | some b =>
          show (if w.lastUse < b.2.lastUse then some (e, w.toValue)
            else some (b.1, b.2.toValue)) =
            (if w.lastUse < b.2.lastUse then some (e, w) else some b).map
              fun x => (x.1, x.2.toValue)
          split <;> rfl
      have hnil : [e].filterMap (fun e => if ok e.1 then
          (c.toCache.droppable e).map fun v => (e, v) else none) = [] := by
        simp [hok]
      rw [hnil, append_nil, if_neg hok]
      exact ih

theorem toCache_evictWhile (ok : Key → Bool) (more : Q4kCache P → Bool)
    (more' : BuildCache.Cache Key P → Bool) (hmore : ∀ c, more' c.toCache = more c) (fuel : Nat) :
    ∀ c : Q4kCache P, (Q4kCache.evictWhile ok more fuel c).toCache =
      BuildCache.Cache.dropWhile ok more' fuel c.toCache := by
  induction fuel with
  | zero => exact fun _ => rfl
  | succ fuel ih =>
    intro c
    rw [Q4kCache.evictWhile, BuildCache.Cache.dropWhile, hmore, toCache_oldest]
    cases c.oldest ok with
    | none => split <;> rfl
    | some x =>
      split
      · exact ih _
      · rfl

theorem toCache_evictIfNeeded (key : Key) (cacheLimit : Nat) :
    (c.evictIfNeeded key cacheLimit).toCache = c.toCache.fit key cacheLimit :=
  toCache_evictWhile (· ≠ key) (fun c => cacheLimit < c.cacheBytes && 1 < c.entries.length)
    (fun c => cacheLimit < c.counted && 1 < c.entries.length) (fun _ => rfl) c.entries.length c

theorem toCache_published (key : Key) (id cacheLimit : Nat) (entry : Entry P) (w : Weight P) :
    (published c key id cacheLimit entry w).toCache =
      c.toCache.publish key id cacheLimit entry.toEntry w.toValue := by
  have hweighed : (weighed c id entry w).toCache = c.toCache.weigh id entry.toEntry w.toValue := by
    unfold weighed Q4kCache.toCache BuildCache.Cache.weigh BuildCache.Cache.setEntry
    dsimp only
    rw [Function.comp_update]
    rfl
  unfold published BuildCache.Cache.publish
  rw [toCache_setEntry, toCache_evictIfNeeded, hweighed]
  rfl

theorem toCache_trim (target : Nat) : (c.trimToBytes target).toCache = c.toCache.trim target :=
  toCache_evictWhile (fun _ => true) (fun c => target < c.cacheBytes) (fun c => target < c.counted)
    (fun _ => rfl) c.entries.length c

end Caches

/-! ### Its sections -/

section Sections

variable {s t : State P}

variable (thread : Nat)

theorem toBuild_jobOf : s.toBuild.jobOf thread = (s.pendingOf thread).map Pending.toJob := by
  unfold BuildCache.State.jobOf State.pendingOf State.toBuild
  rw [find?_map, Option.map_map, Option.map_map]
  rfl

theorem toBuild_others :
    s.toBuild.others thread = (s.others thread).map fun q => (q.1, q.2.toJob) := by
  unfold BuildCache.State.others State.others State.toBuild
  rw [filter_map]
  rfl

theorem toBuild_hit (id : Nat) (entry : Entry P) (w : Weight P) (now : Nat) :
    (q4kHit s id entry w now).1.toBuild =
      (BuildCache.hit s.toBuild id entry.toEntry w.toValue now).1 := by
  show (⟨({ s.q4k with heap := Function.update s.q4k.heap id (some { entry with
    weight := some { w with lastUse := now } }) } : Q4kCache P).toCache, _⟩ :
      BuildCache.State Key P) = _
  rw [toCache_setEntry]
  rfl

theorem toBuild_build (key : Key) (cacheLimit now : Nat) :
    (q4kBuild s thread key cacheLimit now).1.toBuild =
      (BuildCache.start Key.packedBytes s.toBuild thread key cacheLimit now).1 := by
  unfold BuildCache.start Key.packedBytes
  by_cases hfull : cacheLimit = 0 ∨ cacheLimit < key.region.q4kPackedBytes
  · unfold q4kBuild
    rw [if_pos hfull, if_pos hfull, toBuild_others]
    rfl
  rw [q4kBuild_room hfull, if_neg hfull, toBuild_others]
  exact congrArg (BuildCache.State.mk · _) (toCache_started key)

theorem toBuild_heap (id : Nat) : s.toBuild.cache.heap id = (s.q4k.heap id).map Entry.toEntry := rfl

theorem toBuild_find (key : Key) (cacheLimit now : Nat) :
    (findSection s thread key cacheLimit now).1.toBuild =
      (BuildCache.find Key.packedBytes s.toBuild thread key cacheLimit now).1 := by
  have hentries : s.toBuild.cache.entries = s.q4k.entries := rfl
  unfold findSection BuildCache.find
  rw [hentries]
  cases s.q4k.entries.find? (·.1 = key) with
  | none => exact toBuild_build thread key cacheLimit now
  | some e =>
    dsimp only
    rw [toBuild_heap]
    cases s.q4k.heap e.2 with
    | none => exact toBuild_build thread key cacheLimit now
    | some entry =>
      obtain ⟨entryKey, weight, building⟩ := entry
      cases weight with
      | some w => exact toBuild_hit e.2 _ w now
      | none =>
        cases building with
        | true =>
          simp only [Entry.toEntry, map_some, map_none, if_true]
          rw [toBuild_others]
          rfl
        | false => exact toBuild_build thread key cacheLimit now

theorem toBuild_wake (key : Key) (id cacheLimit now : Nat) (entry : Entry P) :
    (q4kWake s thread key id cacheLimit now entry).1.toBuild =
      (BuildCache.resume Key.packedBytes s.toBuild thread key id cacheLimit now
        entry.toEntry).1 := by
  obtain ⟨entryKey, weight, building⟩ := entry
  cases weight with
  | some w =>
    have hhit := toBuild_hit (s := { s with pending := s.others thread }) id
      ⟨entryKey, some w, building⟩ w now
    refine hhit.trans ?_
    unfold BuildCache.resume
    simp only [Entry.toEntry, map_some]
    rw [toBuild_others]
    rfl
  | none => exact toBuild_build thread key cacheLimit now

theorem toBuild_built (key : Key) (id cacheLimit now : Nat) (entry : Entry P) (result : Option P) :
    (q4kBuilt (packing result) s thread key id cacheLimit now entry).1.toBuild =
      (BuildCache.finish Key.packedBytes s.toBuild thread key id cacheLimit now entry.toEntry
        result).1 := by
  cases result with
  | some packed =>
    rw [q4kBuilt_some]
    simp only [BuildCache.finish]
    rw [toBuild_others]
    exact congrArg (BuildCache.State.mk · _) (toCache_published key id cacheLimit entry _)
  | none =>
    obtain ⟨entryKey, weight, building⟩ := entry
    simp only [BuildCache.finish]
    rw [toBuild_others]
    cases weight with
    | some w =>
      exact congrArg (BuildCache.State.mk · _)
        (toCache_setEntry (c := s.q4k) id ⟨entryKey, some w, false⟩)
    | none =>
      exact congrArg (BuildCache.State.mk · _)
        (toCache_setEntry (c := { s.q4k with entries := s.q4k.entries.filter (·.1 ≠ key) }) id
          ⟨entryKey, none, false⟩)

/-- **Each section of the Q4_K cache is one of a cache of built values.** -/
theorem takeSection_simulates {e : Section P} {e' : BuildCache.Section Key P}
    (he : e.toSection? = some e') (hs : takeSection s e = some t) :
    BuildCache.step Key.packedBytes s.toBuild e' = some t.toBuild := by
  cases e with
  | lookup thread key cacheLimit now =>
    cases he
    obtain ⟨⟨hnone, hsize⟩, rfl⟩ := when_eq_some hs
    rw [toBuild_find]
    refine when_pos ⟨?_, hsize⟩ _
    rw [toBuild_jobOf, hnone]
    rfl
  | wake thread =>
    cases he
    simp only [takeSection] at hs
    split at hs
    · rename_i key id cacheLimit now hp
      split at hs
      · rename_i entry hentry
        obtain ⟨hdone, rfl⟩ := when_eq_some hs
        simp only [BuildCache.step, toBuild_jobOf, hp, map_some, Pending.toJob,
          toBuild_heap, hentry, toBuild_wake]
        exact when_pos hdone _
      · cases hs
    · cases hs
  | built thread result =>
    cases he
    simp only [takeSection] at hs
    split at hs
    · rename_i key id cacheLimit now hp
      split at hs
      · rename_i entry hentry
        cases hs
        simp only [BuildCache.step, toBuild_jobOf, hp, map_some, Pending.toJob,
          toBuild_heap, hentry, toBuild_built]
      · cases hs
    · cases hs
  | thrown thread =>
    cases he
    simp only [takeSection] at hs
    split at hs
    · rename_i key id cacheLimit now hp
      cases hs
      simp only [BuildCache.step, toBuild_jobOf, hp, map_some, Pending.toJob, toBuild_others]
      rfl
    · cases hs
  | trim target => cases he

end Sections

/-! ### Both caches -/

/-- Each cache alone is within the limit. -/
structure BothInv (cacheLimit : Nat) (s : Both P) : Prop where
  q4k : BuildCache.Bounded Key.packedBytes cacheLimit s.q4k.toBuild
  dense : BuildCache.Bounded DenseKey.packedBytes cacheLimit s.dense

theorem bothInv_init (cacheLimit : Nat) (mem : Memory) :
    BothInv cacheLimit (Both.init mem : Both P) :=
  ⟨BuildCache.bounded_init _ _, BuildCache.bounded_init _ _⟩

section Runs

variable {cacheLimit : Nat} {s t : Both P}

theorem BothInv.alone (h : BothInv cacheLimit s) :
    s.q4k.q4k.residentBytes ≤ cacheLimit ∧ s.dense.cache.resident ≤ cacheLimit := by
  refine ⟨?_, h.dense.cache.within⟩
  rw [← toCache_resident]
  exact h.q4k.cache.within

/-- A section of the Q4_K cache keeps its own bound, and the common one where there is room. -/
theorem BothInv.q4k_step (h : BothInv cacheLimit s) {e : Section P}
    (hlimit : (EitherSection.q4k e).readsLimit cacheLimit = true) {u : State P}
    (hs : takeSection s.q4k e = some u) :
    BuildCache.Bounded Key.packedBytes cacheLimit u.toBuild ∧
      (s.HasRoom (.q4k e) → s.residentBytes ≤ cacheLimit →
        u.q4k.residentBytes + s.dense.cache.resident ≤ cacheLimit) := by
  have hkeep : ∀ elsewhere, s.q4k.q4k.residentBytes + elsewhere =
      s.q4k.toBuild.cache.resident + elsewhere :=
    fun elsewhere => congrArg (· + elsewhere) toCache_resident.symm
  cases he : e.toSection? with
  | some e' =>
    have hunder : e'.Under cacheLimit := by
      cases e with
      | lookup thread key limit now =>
        cases he
        exact Nat.le_of_eq (of_decide_eq_true hlimit)
      | trim target => cases he
      | _ =>
        cases he
        trivial
    obtain ⟨hbounded, hwithin⟩ := h.q4k.step hunder (takeSection_simulates he hs)
    refine ⟨hbounded, fun hroom hsum => ?_⟩
    rw [← toCache_resident]
    refine hwithin _ (hroom e' he) ?_
    rw [← hkeep]
    exact hsum
  | none =>
    cases e with
    | trim target =>
      cases hs
      have htrim := BuildCache.trim_dropped h.q4k.cache.nodup target
      have hcache : (s.q4k.q4k.trimToBytes target).toCache = s.q4k.q4k.toCache.trim target :=
        toCache_trim target
      refine ⟨⟨?_, fun j hj => ?_⟩, fun _ hsum => ?_⟩
      · show BuildCache.Sound cacheLimit (s.q4k.q4k.trimToBytes target).toCache
        rw [hcache]
        exact h.q4k.cache.dropped htrim
      · show j.2.Ok Key.packedBytes cacheLimit (s.q4k.q4k.trimToBytes target).toCache
        rw [hcache]
        exact (h.q4k.jobs j hj).mono (Nat.le_of_eq htrim.nextId.symm)
          fun e he => Or.inl (htrim.sub.subset he)
      have hless := htrim.resident_le
      refine Nat.le_trans (Nat.add_le_add_right ?_ _) hsum
      show (s.q4k.q4k.trimToBytes target).residentBytes ≤ _
      rw [← toCache_resident, hcache, ← toCache_resident]
      exact hless
    | _ => cases he

/-- **Every section of either cache keeps both within the limit**, and their sum where a
publication has room beside the other cache. -/
theorem BothInv.step (h : BothInv cacheLimit s) {e : EitherSection P}
    (hlimit : e.readsLimit cacheLimit = true) (hs : takeEither s e = some t) :
    BothInv cacheLimit t ∧
      (s.HasRoom e → s.residentBytes ≤ cacheLimit → t.residentBytes ≤ cacheLimit) := by
  cases e with
  | q4k e =>
    obtain ⟨u, hu, rfl⟩ := map_eq_some_iff.mp hs
    obtain ⟨hbounded, hwithin⟩ := h.q4k_step hlimit hu
    exact ⟨⟨hbounded, h.dense⟩, hwithin⟩
  | dense e =>
    obtain ⟨u, hu, rfl⟩ := map_eq_some_iff.mp hs
    have hunder : e.Under cacheLimit := by
      cases e with
      | lookup reader key limit now => exact Nat.le_of_eq (of_decide_eq_true hlimit)
      | _ => trivial
    obtain ⟨hbounded, hwithin⟩ := h.dense.step hunder hu
    refine ⟨⟨h.q4k, hbounded⟩, fun hroom hsum => ?_⟩
    have hsum : s.q4k.q4k.residentBytes + s.dense.cache.resident ≤ cacheLimit := hsum
    have hleft := hwithin _ hroom (by omega)
    show s.q4k.q4k.residentBytes + u.cache.resident ≤ cacheLimit
    omega

end Runs

/-! ### The result -/

/-- **Two caches within one budget.**  With a constant limit, each cache alone stays within
it in every run; and both together do in the runs whose publications have room beside the
other cache. -/
theorem repack_budget_kept (mem : Memory) (cacheLimit : Nat) :
    (∀ t, Runs takeEither (fun _ e => e.readsLimit cacheLimit) (Both.init mem : Both P) t →
      t.q4k.q4k.residentBytes ≤ cacheLimit ∧ t.dense.cache.resident ≤ cacheLimit) ∧
    ∀ t, Runs takeEither (fun s e => e.readsLimit cacheLimit ∧ s.HasRoom e)
        (Both.init mem : Both P) t →
      t.residentBytes ≤ cacheLimit := by
  constructor
  · intro t hrun
    refine (hrun.inv (I := BothInv cacheLimit) (bothInv_init cacheLimit mem) ?_).alone
    exact fun _ _ _ h hlimit hs => (h.step hlimit hs).1
  intro t hrun
  refine (hrun.inv (I := fun s => BothInv cacheLimit s ∧ s.residentBytes ≤ cacheLimit)
    ⟨bothInv_init cacheLimit mem, Nat.zero_le _⟩ ?_).2
  intro s e t ⟨h, hsum⟩ ⟨hlimit, hroom⟩ hs
  obtain ⟨hinv, hwithin⟩ := h.step hlimit hs
  exact ⟨hinv, hwithin hroom hsum⟩

/-- A publication fits without eviction. -/
def Both.fitsWhole (s : Both P) : EitherSection P → Bool
  | .q4k (.built thread _) =>
    match s.q4k.pendingOf thread with
    | some (.building key _ limit _) => key.packedBytes + s.residentBytes ≤ limit
    | _ => true
  | .dense (.built thread _) =>
    match s.dense.jobOf thread with
    | some (.building key _ limit _) => key.packedBytes + s.residentBytes ≤ limit
    | _ => true
  | _ => true

variable {s : Both P} {thread : Nat}

theorem hasRoom_q4k (result : Option P)
    (h : ∀ key id limit now, s.q4k.pendingOf thread = some (.building key id limit now) →
      key.packedBytes + s.residentBytes ≤ limit) :
    s.HasRoom (.q4k (.built thread result)) := by
  intro e' he
  cases he
  cases result with
  | none => trivial
  | some packed =>
    intro key id limit now hjob
    rw [toBuild_jobOf] at hjob
    obtain ⟨p, hp, hpending⟩ := map_eq_some_iff.mp hjob
    cases p with
    | waiting key id limit now => cases hpending
    | building key id limit now =>
      cases hpending
      have hsum : key.packedBytes +
          (s.q4k.q4k.residentBytes + s.dense.cache.resident) ≤ limit := h key id limit now hp
      refine BuildCache.hasRoom_of_le ?_
      show key.packedBytes + s.q4k.q4k.toCache.resident + s.dense.cache.resident ≤ limit
      rw [toCache_resident]
      omega

theorem hasRoom_dense (result : Option P)
    (h : ∀ key id limit now, s.dense.jobOf thread = some (.building key id limit now) →
      key.packedBytes + s.residentBytes ≤ limit) :
    s.HasRoom (.dense (.built thread result)) := by
  cases result with
  | none => trivial
  | some packed =>
    intro key id limit now hjob
    have hsum : key.packedBytes + (s.q4k.q4k.residentBytes + s.dense.cache.resident) ≤ limit :=
      h key id limit now hjob
    exact BuildCache.hasRoom_of_le (by omega)

theorem hasRoom_of_fitsWhole {e : EitherSection P} (h : s.fitsWhole e = true) : s.HasRoom e := by
  cases e with
  | q4k e =>
    cases e with
    | built thread result =>
      refine hasRoom_q4k result fun key id limit now hp => ?_
      simp only [Both.fitsWhole, hp] at h
      exact of_decide_eq_true h
    | trim target => exact fun e' he => nomatch he
    | _ => exact fun e' he => some.inj he ▸ trivial
  | dense e =>
    cases e with
    | built reader result =>
      refine hasRoom_dense result fun key id limit now hp => ?_
      simp only [Both.fitsWhole, hp] at h
      exact of_decide_eq_true h
    | _ => exact trivial

/-- One block in each cache. -/
theorem one_block_each : ∃ t : Both Nat,
    Runs takeEither (fun s e => e.readsLimit 4096 ∧ s.HasRoom e) (Both.init fun _ => 0) t ∧
      t.residentBytes = 1152 + 1408 ∧ t.residentBytes ≤ 4096 := by
  obtain ⟨t, ht, hbytes⟩ : ∃ t : Both Nat,
      runChecked takeEither (fun s e => e.readsLimit 4096 && s.fitsWhole e) (Both.init fun _ => 0)
        [.q4k (.lookup 0 oneBlock 4096 1), .q4k (.built 0 (some 7)),
          .dense (.lookup 0 ⟨⟨8192, 8, 256⟩, .q5k, 0⟩ 4096 1), .dense (.built 0 (some 8))] =
        some t ∧ t.residentBytes = 1152 + 1408 :=
    ⟨_, rfl, rfl⟩
  have hchecked : ∀ (s : Both Nat) (e : EitherSection Nat),
      (e.readsLimit 4096 && s.fitsWhole e) = true → e.readsLimit 4096 ∧ s.HasRoom e :=
    fun s e h => ((Bool.and_eq_true _ _).mp h).imp_right hasRoom_of_fitsWhole
  have hrun := Runs.of_checked hchecked _ Runs.refl ht
  exact ⟨t, hrun, hbytes, (repack_budget_kept (fun _ => 0) 4096).2 t hrun⟩

/-- Two weights of 16384 rows and columns, one in each cache, under a limit of 256 MiB: each
fits, and together they take 354 MiB. -/
theorem two_caches_exceed_limit : ∃ t : Both Nat,
    Runs takeEither (fun _ e => e.readsLimit 268435456) (Both.init fun _ => 0) t ∧
      t.q4k.pending = [] ∧ t.dense.jobs = [] ∧ 268435456 < t.residentBytes := by
  obtain ⟨t, ht, hpending, hjobs, hbytes⟩ : ∃ t : Both Nat,
      runChecked takeEither (fun _ e => e.readsLimit 268435456) (Both.init fun _ => 0)
        [.q4k (.lookup 0 ⟨⟨4096, 16384, 16384⟩, 0⟩ 268435456 1), .q4k (.built 0 (some 7)),
          .dense (.lookup 0 ⟨⟨268435456, 16384, 16384⟩, .q6k, 0⟩ 268435456 1),
          .dense (.built 0 (some 8))] = some t ∧
        t.q4k.pending = [] ∧ t.dense.jobs = [] ∧ t.residentBytes = 371195904 :=
    ⟨_, rfl, rfl, rfl, rfl⟩
  have hrun := Runs.of_checked (fun _ _ h => h) _ Runs.refl ht
  refine ⟨t, hrun, hpending, hjobs, ?_⟩
  omega

end DenseCore.Repack
