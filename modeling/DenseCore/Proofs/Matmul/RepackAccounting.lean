/-
The bytes that the Q4_K repack cache counts.

`cache_bytes` goes up when a builder publishes and down when an entry is evicted.  It is
the size of what the map holds as long as each published entry is in the map and stays
there until it is evicted.  Two things break that.  The waiters of a failed build all go
on to build, each putting its entry in the place of the one before.  And a call that an
exception leaves while it packs leaves its entry building for ever.

`CacheInv` of the weights says nothing of this; `AccountInv` below does.
-/
import Mathlib.Algebra.Order.Ring.Int
import Mathlib.Algebra.BigOperators.Group.List.Basic
import DenseCore.Lib.Parts
import DenseCore.Matmul.RepackSections
import DenseCore.Proofs.Matmul.RepackCache

namespace DenseCore.Repack

open List Q4kCache
open Function (update update_of_ne update_self)

open Lib

variable {P : Type}

/-! ### The property -/

namespace Q4kCache

variable (c : Q4kCache P)

/-- The bytes of an entry that holds a weight. -/
def bytesOf (e : Key × Nat) : Nat :=
  match (c.heap e.2).bind (·.weight) with
  | some w => w.bytes
  | none => 0

/-- The bytes of the entries in the map. -/
def residentBytes : Nat := (c.entries.map c.bytesOf).sum

/-- The entry is still being built. -/
def isBuilding (e : Key × Nat) : Bool := (c.heap e.2).any (·.building)

/-- The cache is within a publisher's limit, unless all other entries are building. -/
def WithinLimit (key : Key) (cacheLimit : Nat) : Prop :=
  c.cacheBytes ≤ cacheLimit ∨ ∀ e ∈ c.entries, e.1 ≠ key → c.isBuilding e = true

end Q4kCache

namespace State

/-- The counter is the sum over the entries. -/
def BytesAccounted (s : State P) : Prop := s.q4k.cacheBytes = s.q4k.residentBytes

/-- Whoever waits for an entry in the map waits for a thread that builds it. -/
def BuildersAttend (s : State P) : Prop :=
  ∀ e ∈ s.q4k.entries, s.q4k.isBuilding e = true →
    ∃ thread cacheLimit now, s.pendingOf thread = some (.building e.1 e.2 cacheLimit now)

/-- Whoever publishes a weight leaves the cache within its limit. -/
def PublishesWithinLimit (s : State P) : Prop :=
  ∀ thread key id cacheLimit now packed t,
    s.pendingOf thread = some (.building key id cacheLimit now) →
    takeSection s (.built thread (some packed)) = some t → t.q4k.WithinLimit key cacheLimit

/-- No exception leaves a call while it packs, and a waiter that goes on to build finds
no entry for its key. -/
def Orderly (s : State P) : Section P → Prop
  | .thrown _ => False
  | .wake thread => ∀ key id cacheLimit now entry,
      s.pendingOf thread = some (.waiting key id cacheLimit now) →
      s.q4k.heap id = some entry → entry.weight = none →
      ¬ (cacheLimit = 0 ∨ cacheLimit < key.region.q4kPackedBytes) →
      ∀ e ∈ s.q4k.entries, e.1 ≠ key
  | _ => True

end State

/-! ### Eviction

A round of the loop takes one entry that is not being built out of the map and its bytes off
the counter, so the two stay in step however the loop ends.
-/

section Eviction

variable {c : Q4kCache P} {ok : Key → Bool}

attribute [local simp] takeSection

variable {e : Key × Nat} {w : Weight P}

theorem evictable_some (h : c.evictable e = some w) :
    ∃ entry, c.heap e.2 = some entry ∧ entry.building = false ∧ entry.weight = some w := by
  unfold evictable at h
  split at h
  · rename_i entry hentry
    split at h
    · cases h
    rename_i hb
    exact ⟨entry, hentry, (Bool.not_eq_true _).mp hb, h⟩
  · cases h

theorem oldest_fold (entries : List (Key × Nat)) : ∀ best : Option ((Key × Nat) × Weight P),
      let r := entries.foldl (fun best e =>
          match c.evictable e with
          | some w =>
            if ok e.1 then
              match best with
              | some b => if w.lastUse < b.2.lastUse then some (e, w) else best
              | none => some (e, w)
            else best
          | none => best) best
      (∀ x, r = some x →
        best = some x ∨ x.1 ∈ entries ∧ c.evictable x.1 = some x.2 ∧ ok x.1.1 = true) ∧
      (r = none → best = none ∧ ∀ e ∈ entries, ok e.1 = true → c.evictable e = none) := by
  induction entries with
  | nil => exact fun best => ⟨fun x h => Or.inl h, fun h => ⟨h, fun _ he => (nomatch he)⟩⟩
  | cons e rest ih =>
    intro best
    rw [foldl_cons]
    cases he : c.evictable e with
    | none =>
      obtain ⟨hsome, hnone⟩ := ih best
      refine ⟨fun x h => (hsome x h).imp_right fun ⟨hin, hx⟩ => ⟨mem_cons_of_mem _ hin, hx⟩,
        fun h => ⟨(hnone h).1, fun e' he' hok => ?_⟩⟩
      rcases mem_cons.mp he' with rfl | hrest
      · exact he
      · exact (hnone h).2 e' hrest hok
    | some w =>
      dsimp only
      by_cases hok : ok e.1 = true
      · rw [if_pos hok]
        obtain ⟨next, hnext, hvalue⟩ : ∃ next : (Key × Nat) × Weight P,
            (next = (e, w) ∨ best = some next) ∧
            (match best with
              | some b => if w.lastUse < b.2.lastUse then some (e, w) else best
              | none => some (e, w)) = some next := by
          cases best with
          | none => exact ⟨(e, w), Or.inl rfl, rfl⟩
          | some b =>
            by_cases hlt : w.lastUse < b.2.lastUse
            · exact ⟨(e, w), Or.inl rfl, if_pos hlt⟩
            · exact ⟨b, Or.inr rfl, if_neg hlt⟩
        rw [hvalue]
        obtain ⟨hsome, hnone⟩ := ih (some next)
        refine ⟨fun x h => ?_, fun h => nomatch (hnone h).1⟩
        rcases hsome x h with heq | ⟨hin, hx⟩
        · cases heq
          rcases hnext with rfl | hbest
          · exact Or.inr ⟨mem_cons_self, he, hok⟩
          · exact Or.inl hbest
        · exact Or.inr ⟨mem_cons_of_mem _ hin, hx⟩
      · rw [if_neg hok]
        obtain ⟨hsome, hnone⟩ := ih best
        refine ⟨fun x h => (hsome x h).imp_right fun ⟨hin, hx⟩ =>
            ⟨mem_cons_of_mem _ hin, hx⟩,
          fun h => ⟨(hnone h).1, fun e' he' hok' => ?_⟩⟩
        rcases mem_cons.mp he' with rfl | hrest
        · exact absurd hok' hok
        · exact (hnone h).2 e' hrest hok'

theorem oldest_some (h : c.oldest ok = some (e, w)) :
    e ∈ c.entries ∧ c.evictable e = some w ∧ ok e.1 = true :=
  ((oldest_fold c.entries none).1 _ h).resolve_left nofun

theorem oldest_none (h : c.oldest ok = none) :
    ∀ e ∈ c.entries, ok e.1 = true → c.evictable e = none :=
  ((oldest_fold c.entries none).2 h).2

theorem bytesOf_evictable (h : c.evictable e = some w) : c.bytesOf e = w.bytes := by
  obtain ⟨entry, hentry, -, hw⟩ := evictable_some h
  unfold bytesOf
  rw [hentry, Option.bind_some, hw]

/-- What eviction leaves. -/
structure Evicted (ok : Key → Bool) (c c' : Q4kCache P) : Prop where
  sub : c'.entries.Sublist c.entries
  heap : c'.heap = c.heap
  nextId : c'.nextId = c.nextId
  kept : ∀ e ∈ c.entries, c.evictable e = none ∨ ok e.1 = false → e ∈ c'.entries
  covers : c.residentBytes ≤ c.cacheBytes → c'.residentBytes ≤ c'.cacheBytes
  balance : c.residentBytes ≤ c.cacheBytes →
    c'.cacheBytes + c.residentBytes = c.cacheBytes + c'.residentBytes

theorem Evicted.refl (ok : Key → Bool) (c : Q4kCache P) : Evicted ok c c :=
  ⟨Sublist.refl _, rfl, rfl, fun _ h _ => h, id, fun _ => rfl⟩

theorem Evicted.trans {c' c'' : Q4kCache P} (h : Evicted ok c c') (h' : Evicted ok c' c'') :
    Evicted ok c c'' where
  sub := h'.sub.trans h.sub
  heap := h'.heap.trans h.heap
  nextId := h'.nextId.trans h.nextId
  kept := by
    intro e he hkeep
    refine h'.kept e (h.kept e he hkeep) ?_
    unfold evictable at hkeep ⊢
    rwa [h.heap]
  covers := fun hcovers => h'.covers (h.covers hcovers)
  balance := by
    intro hover
    have hfirst := h.balance hover
    have hsecond := h'.balance (h.covers hover)
    omega

/-- **One round.** -/
theorem evicted_round (hnodup : c.entries.Nodup) (h : c.oldest ok = some (e, w)) : Evicted ok c
      { c with entries := c.entries.filter (· ≠ e), cacheBytes := c.cacheBytes - w.bytes } := by
  obtain ⟨hin, hevictable, hok⟩ := oldest_some h
  have hsum : c.residentBytes = w.bytes + ((c.entries.filter (· ≠ e)).map c.bytesOf).sum := by
    have hperm := ((nodup_split hnodup hin).map c.bytesOf).sum_eq
    rw [map_cons, sum_cons, bytesOf_evictable hevictable] at hperm
    exact hperm
  refine ⟨filter_sublist, rfl, rfl, fun e' he' hkeep => ?_, fun hover => ?_, fun hover => ?_⟩
  · refine mem_filter.mpr ⟨he', decide_eq_true ?_⟩
    rintro rfl
    rcases hkeep with hnone | hno
    · rw [hevictable] at hnone
      cases hnone
    rw [hok] at hno
    cases hno
  · show ((c.entries.filter (· ≠ e)).map c.bytesOf).sum ≤ c.cacheBytes - w.bytes
    omega
  show c.cacheBytes - w.bytes + c.residentBytes =
    c.cacheBytes + ((c.entries.filter (· ≠ e)).map c.bytesOf).sum
  omega

/-- **Eviction keeps the accounts, and stops only when nothing is left to do.** -/
theorem evicted_while (ok : Key → Bool) (more : Q4kCache P → Bool) (fuel : Nat) :
    ∀ c : Q4kCache P, c.entries.Nodup → Evicted ok c (evictWhile ok more fuel c) ∧
      (c.entries.length ≤ fuel → more (evictWhile ok more fuel c) = false ∨
          (evictWhile ok more fuel c).oldest ok = none) := by
  induction fuel with
  | zero =>
    intro c _
    refine ⟨Evicted.refl ok c, fun hlength => Or.inr ?_⟩
    have hnil : c.entries = [] := eq_nil_of_length_eq_zero (Nat.le_zero.mp hlength)
    show c.oldest ok = none
    unfold oldest
    rw [hnil]
    rfl
  | succ fuel ih =>
    intro c hnodup
    rw [evictWhile]
    split
    · split
      · rename_i e w holdest
        have hround := evicted_round hnodup holdest
        obtain ⟨hrest, hdone⟩ := ih
          { c with entries := c.entries.filter (· ≠ e), cacheBytes := c.cacheBytes - w.bytes }
          (hround.sub.nodup hnodup)
        refine ⟨hround.trans hrest, fun hlength => hdone ?_⟩
        have hperm := (nodup_split hnodup (oldest_some holdest).1).length_eq
        rw [length_cons] at hperm
        show (c.entries.filter (· ≠ e)).length ≤ fuel
        omega
      rename_i hnone
      exact ⟨Evicted.refl ok c, fun _ => Or.inr hnone⟩
    · rename_i hmore
      exact ⟨Evicted.refl ok c, fun _ => Or.inl ((Bool.not_eq_true _).mp hmore)⟩

end Eviction

/-! ### The map -/

/-- An entry is building, or holds a weight of the size of its key. -/
def Entry.Ok (entry : Entry P) (key : Key) : Prop :=
  entry.building = true ∧ entry.weight = none ∨
    entry.building = false ∧ ∃ w, entry.weight = some w ∧ w.bytes = key.region.q4kPackedBytes

/-- What holds of the map at any time. -/
structure MapOk (c : Q4kCache P) : Prop where
  keys : (c.entries.map (·.1)).Nodup
  ids : (c.entries.map (·.2)).Nodup
  alloc : ∀ id, c.nextId ≤ id → c.heap id = none
  live : ∀ e ∈ c.entries, ∃ entry, c.heap e.2 = some entry ∧ entry.Ok e.1
  sized : ∀ e ∈ c.entries, 0 < e.1.region.q4kPackedBytes
  accounted : c.cacheBytes = c.residentBytes

section Maps

variable {c : Q4kCache P}

theorem MapOk.nodup (h : MapOk c) : c.entries.Nodup := Nodup.of_map _ h.keys

variable {e : Key × Nat} {entry : Entry P} {id : Nat} {ok : Key → Bool} {c' : Q4kCache P}

theorem MapOk.id_unique (h : MapOk c) {e' : Key × Nat} (he : e ∈ c.entries)
    (he' : e' ∈ c.entries) (hid : e.2 = e'.2) : e = e' :=
  inj_on_of_nodup_map h.ids he he' hid

theorem MapOk.lt (h : MapOk c) (he : e ∈ c.entries) : e.2 < c.nextId := by
  by_contra hge
  obtain ⟨entry, hentry, -⟩ := h.live e he
  rw [h.alloc e.2 (Nat.le_of_not_lt hge)] at hentry
  cases hentry

theorem isBuilding_eq (h : c.heap e.2 = some entry) : c.isBuilding e = entry.building := by
  unfold isBuilding
  rw [h]
  rfl

theorem bytesOf_eq {e : Key × Nat} {entry : Entry P} (h : c.heap e.2 = some entry) :
    c.bytesOf e = match entry.weight with
      | some w => w.bytes
      | none => 0 := by
  unfold bytesOf
  rw [h]
  rfl

theorem bytesOf_congr (h : c'.heap e.2 = c.heap e.2) : c'.bytesOf e = c.bytesOf e := by
  unfold bytesOf
  rw [h]

theorem setEntry_other (hne : e.2 ≠ id) :
    update c.heap id (some entry) e.2 = c.heap e.2 := update_of_ne hne _ _

theorem MapOk.resident_update (h : MapOk c) {key : Key} (hin : (key, id) ∈ c.entries)
    (entry : Entry P) :
    ({ c with heap := update c.heap id (some entry) } : Q4kCache P).residentBytes +
        c.bytesOf (key, id) =
      c.residentBytes + (match entry.weight with
        | some w => w.bytes
        | none => 0) := by
  have hsplit := assoc_split h.keys hin
  have hbefore := (hsplit.map c.bytesOf).sum_eq
  have hafter := (hsplit.map ({ c with
    heap := update c.heap id (some entry) } : Q4kCache P).bytesOf).sum_eq
  rw [map_cons, sum_cons] at hbefore hafter
  have hself : ({ c with heap := update c.heap id (some entry) } : Q4kCache P).bytesOf
      (key, id) = match entry.weight with
        | some w => w.bytes
        | none => 0 := bytesOf_eq (update_self id _ _)
  have hrest : (c.entries.filter (·.1 ≠ key)).map ({ c with
        heap := update c.heap id (some entry) } : Q4kCache P).bytesOf =
      (c.entries.filter (·.1 ≠ key)).map c.bytesOf := by
    refine map_congr_left fun e he => ?_
    obtain ⟨hmem, hkey⟩ := mem_filter.mp he
    have hne : e.2 ≠ id := by
      intro hid
      have heq := h.id_unique hmem hin hid
      rw [heq] at hkey
      simp at hkey
    exact bytesOf_congr (setEntry_other hne)
  have hresident : c.residentBytes = (c.entries.map c.bytesOf).sum := rfl
  have hresident' : ({ c with heap := update c.heap id (some entry) } :
      Q4kCache P).residentBytes = (c.entries.map ({ c with
        heap := update c.heap id (some entry) } : Q4kCache P).bytesOf).sum := rfl
  rw [hresident, hresident', hbefore, hafter, hself, hrest]
  omega

theorem MapOk.evicted (h : MapOk c) (he : Evicted ok c c') : MapOk c' where
  keys := (he.sub.map _).nodup h.keys
  ids := (he.sub.map _).nodup h.ids
  alloc := by
    rw [he.heap, he.nextId]
    exact h.alloc
  live := by
    rw [he.heap]
    exact fun e hin => h.live e (he.sub.subset hin)
  sized := fun e hin => h.sized e (he.sub.subset hin)
  accounted := by
    have hbalance := he.balance (Nat.le_of_eq h.accounted.symm)
    have haccounted := h.accounted
    omega

theorem Evicted.building (he : Evicted ok c c') (hnodup : c.entries.Nodup) :
    (c'.entries.filter c'.isBuilding).Perm (c.entries.filter c.isBuilding) := by
  have hsame : ∀ e, c'.isBuilding e = c.isBuilding e := by
    intro e
    unfold isBuilding
    rw [he.heap]
  refine (perm_ext_iff_of_nodup ((he.sub.nodup hnodup).filter _) (hnodup.filter _)).mpr ?_
  intro e
  rw [mem_filter, mem_filter, hsame]
  refine and_congr_left fun hbuilding => ⟨fun hin => he.sub.subset hin, fun hin => ?_⟩
  refine he.kept e hin (Or.inl ?_)
  unfold evictable
  unfold isBuilding at hbuilding
  cases hentry : c.heap e.2 with
  | none => rfl
  | some entry =>
    rw [hentry] at hbuilding
    exact if_pos hbuilding

end Maps

/-! ### The threads -/

/-- The entry that a thread builds. -/
def Pending.job : Pending → Option (Key × Nat)
  | .waiting _ _ _ _ => none
  | .building key id _ _ => some (key, id)

/-- The entries that threads are building. -/
def jobsOf (pending : List (Nat × Pending)) : List (Key × Nat) :=
  pending.filterMap fun q => q.2.job

/-- The map is in order, and each entry that is building has one builder. -/
structure AccountInv (s : State P) : Prop where
  map : MapOk s.q4k
  threads : (s.pending.map (·.1)).Nodup
  sized : ∀ q ∈ s.pending, 0 < q.2.key.region.q4kPackedBytes
  jobs : (jobsOf s.pending).Perm (s.q4k.entries.filter s.q4k.isBuilding)

theorem accountInv_init (mem : Memory) : AccountInv (State.init mem : State P) where
  map := ⟨nodup_nil, nodup_nil, fun _ _ => rfl, fun _ h => (nomatch h), fun _ h => (nomatch h), rfl⟩
  threads := nodup_nil
  sized := fun _ h => nomatch h
  jobs := Perm.refl _

section Threads

variable {s t : State P}

variable {thread : Nat}

variable {p : Pending} {id cacheLimit now : Nat} {key : Key}

theorem pendingOf_of_mem (hthreads : (s.pending.map (·.1)).Nodup)
    (hin : (thread, p) ∈ s.pending) : s.pendingOf thread = some p := by
  unfold State.pendingOf
  cases hfind : s.pending.find? (·.1 = thread) with
  | none =>
    have hnot := find?_eq_none.mp hfind _ hin
    simp at hnot
  | some q =>
    have hthread : q.1 = thread := by simpa using find?_some hfind
    have heq := inj_on_of_nodup_map hthreads (mem_of_find?_eq_some hfind) hin hthread
    rw [heq]
    rfl

theorem others_of_none (h : s.pendingOf thread = none) : s.others thread = s.pending := by
  refine filter_eq_self.mpr fun q hq => ?_
  have hnot := find?_eq_none.mp (Option.map_eq_none_iff.mp h) q hq
  simpa using hnot

theorem not_mem_others (s : State P) (thread : Nat) : thread ∉ (s.others thread).map (·.1) := by
  intro hmem
  obtain ⟨q, hq, heq⟩ := mem_map.mp hmem
  exact of_decide_eq_true (mem_filter.mp hq).2 heq

theorem AccountInv.jobs_others (h : AccountInv s) (hp : s.pendingOf thread = some p) :
    (p.job.toList ++ jobsOf (s.others thread)).Perm (s.q4k.entries.filter s.q4k.isBuilding) := by
  have hsplit := assoc_split h.threads (mem_of_pendingOf hp)
  have hjobs := hsplit.filterMap fun q : Nat × Pending => q.2.job
  rw [filterMap_cons] at hjobs
  refine Perm.trans ?_ h.jobs
  refine Perm.trans (Perm.of_eq ?_) hjobs.symm
  cases hjob : p.job with
  | none => rfl
  | some job => rfl

theorem AccountInv.jobs_idle (h : AccountInv s)
    (hidle : ∀ p, s.pendingOf thread = some p → p.job = none) :
    (jobsOf (s.others thread)).Perm (s.q4k.entries.filter s.q4k.isBuilding) := by
  cases hp : s.pendingOf thread with
  | none =>
    rw [others_of_none hp]
    exact h.jobs
  | some p =>
    have hjobs := h.jobs_others hp
    rw [hidle p hp] at hjobs
    exact hjobs

theorem AccountInv.threads_others (h : AccountInv s) (thread : Nat) :
    ((s.others thread).map (·.1)).Nodup :=
  (filter_sublist.map _).nodup h.threads

theorem AccountInv.sized_others (h : AccountInv s) (thread : Nat) :
    ∀ q ∈ s.others thread, 0 < q.2.key.region.q4kPackedBytes :=
  fun q hq => h.sized q (others_subset s thread hq)

theorem AccountInv.builds (h : AccountInv s)
    (hp : s.pendingOf thread = some (.building key id cacheLimit now)) :
    (key, id) ∈ s.q4k.entries ∧ s.q4k.isBuilding (key, id) = true :=
  mem_filter.mp ((h.jobs_others hp).mem_iff.mp mem_cons_self)

theorem AccountInv.attend (h : AccountInv s) : s.BuildersAttend := by
  intro e he hbuilding
  obtain ⟨q, hq, hjob⟩ := mem_filterMap.mp
    (h.jobs.mem_iff.mpr (mem_filter.mpr ⟨he, hbuilding⟩))
  obtain ⟨thread, p⟩ := q
  cases p with
  | waiting key id cacheLimit now => cases hjob
  | building key id cacheLimit now =>
    rw [← Option.some.inj hjob]
    exact ⟨thread, cacheLimit, now, pendingOf_of_mem h.threads hq⟩

/-! ### The sections

Every section of a thread is one of a few moves, and what a move does to the map and to the
threads is all that the invariant needs.
-/

/-- A hit changes the time of use only. -/
theorem AccountInv.touch (h : AccountInv s) {entry : Entry P} {w : Weight P}
    (hentry : s.q4k.heap id = some entry) (hw : entry.weight = some w) (now : Nat)
    {pending : List (Nat × Pending)} (hthreads : (pending.map (·.1)).Nodup)
    (hsized : ∀ q ∈ pending, 0 < q.2.key.region.q4kPackedBytes)
    (hjobs : (jobsOf pending).Perm (s.q4k.entries.filter s.q4k.isBuilding)) :
    AccountInv (q4kHit { s with pending := pending } id entry w now).1 := by
  have hself : ∀ e : Key × Nat, e.2 = id →
      update s.q4k.heap id (some { entry with weight := some { w with lastUse := now } })
        e.2 = some { entry with weight := some { w with lastUse := now } } := by
    rintro e rfl
    exact update_self _ _ _
  have hmark : ∀ e, (q4kHit { s with pending := pending } id entry w now).1.q4k.isBuilding e =
      s.q4k.isBuilding e := by
    intro e
    by_cases he : e.2 = id
    · rw [isBuilding_eq (hself e he), isBuilding_eq (c := s.q4k) (he ▸ hentry)]
    show (update s.q4k.heap id _ e.2).any (·.building) = _
    rw [setEntry_other he]
    rfl
  have hbytes : ∀ e, (q4kHit { s with pending := pending } id entry w now).1.q4k.bytesOf e =
      s.q4k.bytesOf e := by
    intro e
    by_cases he : e.2 = id
    · rw [bytesOf_eq (hself e he), bytesOf_eq (c := s.q4k) (he ▸ hentry), hw]
    exact bytesOf_congr (setEntry_other he)
  refine ⟨⟨h.map.keys, h.map.ids, fun i hi => ?_, fun e he => ?_, h.map.sized, ?_⟩, hthreads,
    hsized, ?_⟩
  · have hne : i ≠ id := by
      rintro rfl
      rw [h.map.alloc i hi] at hentry
      cases hentry
    exact (update_of_ne hne _ _).trans (h.map.alloc i hi)
  · obtain ⟨old, hold, hok⟩ := h.map.live e he
    by_cases hid : e.2 = id
    · refine ⟨_, hself e hid, ?_⟩
      rw [hid, hentry] at hold
      cases hold
      rcases hok with ⟨-, hnone⟩ | ⟨hb, w', hw', hsize⟩
      · rw [hw] at hnone
        cases hnone
      obtain rfl := Option.some.inj (hw.symm.trans hw')
      exact Or.inr ⟨hb, _, rfl, hsize⟩
    · exact ⟨old, (setEntry_other hid).trans hold, hok⟩
  · show s.q4k.cacheBytes = (s.q4k.entries.map _).sum
    rw [map_congr_left fun e _ => hbytes e]
    exact h.map.accounted
  show (jobsOf pending).Perm (s.q4k.entries.filter _)
  rw [filter_congr fun e _ => hmark e]
  exact hjobs

/-- A thread begins to build a weight, in the map or beside it. -/
theorem AccountInv.build (h : AccountInv s)
    (hidle : ∀ p, s.pendingOf thread = some p → p.job = none)
    (hsize : 0 < key.region.q4kPackedBytes)
    (hfree : ¬ (cacheLimit = 0 ∨ cacheLimit < key.region.q4kPackedBytes) →
      ∀ e ∈ s.q4k.entries, e.1 ≠ key) :
    AccountInv (q4kBuild s thread key cacheLimit now).1 := by
  unfold q4kBuild
  by_cases hroom : cacheLimit = 0 ∨ cacheLimit < key.region.q4kPackedBytes
  · rw [if_pos hroom]
    exact ⟨h.map, h.threads_others thread, h.sized_others thread, h.jobs_idle hidle⟩
  rw [if_neg hroom]
  have hkey := hfree hroom
  have hentries : s.q4k.entries.filter (·.1 ≠ key) = s.q4k.entries :=
    filter_eq_self.mpr fun e he => decide_eq_true (hkey e he)
  have hne : ∀ e ∈ s.q4k.entries, e.2 ≠ s.q4k.nextId := fun e he => Nat.ne_of_lt (h.map.lt he)
  have hmark : ∀ e ∈ s.q4k.entries, (update s.q4k.heap s.q4k.nextId
      (some { key := key, weight := none, building := true }) e.2).any (·.building) =
        s.q4k.isBuilding e := by
    intro e he
    rw [setEntry_other (hne e he)]
    rfl
  have hself : update s.q4k.heap s.q4k.nextId
      (some { key := key, weight := none, building := true }) s.q4k.nextId =
        some { key := key, weight := none, building := true } := update_self _ _ _
  dsimp only [State.setEntry]
  rw [hentries]
  refine ⟨⟨?_, ?_, fun i hi => ?_, fun e he => ?_, fun e he => ?_, ?_⟩, ?_, fun q hq => ?_, ?_⟩
  · refine nodup_cons.mpr ⟨fun hmem => ?_, h.map.keys⟩
    obtain ⟨e, he, heq⟩ := mem_map.mp hmem
    exact hkey e he heq
  · refine nodup_cons.mpr ⟨fun hmem => ?_, h.map.ids⟩
    obtain ⟨e, he, heq⟩ := mem_map.mp hmem
    exact hne e he heq
  · have hi : s.q4k.nextId + 1 ≤ i := hi
    exact (update_of_ne (by omega) _ _).trans (h.map.alloc i (by omega))
  · rcases mem_cons.mp he with rfl | hold
    · exact ⟨_, hself, Or.inl ⟨rfl, rfl⟩⟩
    obtain ⟨entry, hentry, hok⟩ := h.map.live e hold
    exact ⟨entry, (setEntry_other (hne e hold)).trans hentry, hok⟩
  · rcases mem_cons.mp he with rfl | hold
    · exact hsize
    · exact h.map.sized e hold
  · have hold : s.q4k.entries.map (fun e => match (update s.q4k.heap s.q4k.nextId
        (some { key := key, weight := none, building := true }) e.2).bind (·.weight) with
          | some w => w.bytes
          | none => 0) = s.q4k.entries.map s.q4k.bytesOf := by
      refine map_congr_left fun e he => ?_
      rw [setEntry_other (hne e he)]
      rfl
    have hnew : (match (update s.q4k.heap s.q4k.nextId
        (some { key := key, weight := none, building := true }) s.q4k.nextId).bind (·.weight) with
          | some w => w.bytes
          | none => 0) = 0 := by
      rw [hself]
      rfl
    have hsum := congrArg List.sum hold
    refine h.map.accounted.trans ?_
    refine Eq.trans ?_ (congrArg₂ (· + ·) hnew.symm hsum.symm)
    exact (Nat.zero_add _).symm
  · exact nodup_cons.mpr ⟨not_mem_others s thread, h.threads_others thread⟩
  · rcases mem_cons.mp hq with rfl | hold
    · exact hsize
    · exact h.sized_others thread q hold
  · have hfilter : ((key, s.q4k.nextId) :: s.q4k.entries).filter (fun e =>
        (update s.q4k.heap s.q4k.nextId
          (some { key := key, weight := none, building := true }) e.2).any (·.building)) =
        (key, s.q4k.nextId) :: s.q4k.entries.filter s.q4k.isBuilding := by
      rw [filter_cons_of_pos (by rw [hself]; rfl), filter_congr hmark]
    show (jobsOf ((thread, .building key s.q4k.nextId cacheLimit now) :: s.others thread)).Perm
      (((key, s.q4k.nextId) :: s.q4k.entries).filter _)
    refine Perm.trans ?_ (Perm.of_eq hfilter.symm)
    exact (h.jobs_idle hidle).cons _

theorem AccountInv.trim (h : AccountInv s) (target : Nat) :
    AccountInv { s with q4k := s.q4k.trimToBytes target } := by
  have hevicted := (evicted_while (fun _ => true) (fun c => target < c.cacheBytes)
    s.q4k.entries.length s.q4k h.map.nodup).1
  exact ⟨h.map.evicted hevicted, h.threads, h.sized,
    h.jobs.trans (hevicted.building h.map.nodup).symm⟩

end Threads

/-! ### Publication -/

/-- The cache with a packed weight in an entry, before the eviction. -/
def weighed (c : Q4kCache P) (id : Nat) (entry : Entry P) (w : Weight P) : Q4kCache P :=
  { c with
    heap := update c.heap id (some { entry with weight := some w })
    cacheBytes := c.cacheBytes + w.bytes }

/-- The cache after the publication. -/
def published (c : Q4kCache P) (key : Key) (id cacheLimit : Nat) (entry : Entry P)
    (w : Weight P) : Q4kCache P :=
  { (weighed c id entry w).evictIfNeeded key cacheLimit with
    heap := update ((weighed c id entry w).evictIfNeeded key cacheLimit).heap id
      (some { entry with weight := some w, building := false }) }

theorem q4kBuilt_some (packed : P) (s : State P) (thread : Nat) (key : Key)
    (id cacheLimit now : Nat) (entry : Entry P) :
    (q4kBuilt (packing (some packed)) s thread key id cacheLimit now entry).1 = { s with
        pending := s.others thread
        q4k := published s.q4k key id cacheLimit entry
          ⟨packed, key.region.q4kPackedBytes, now⟩ } := rfl

section Publication

variable {c : Q4kCache P} {key : Key} {id cacheLimit : Nat} {entry : Entry P} {w : Weight P}

theorem weighed_evicted (hnodup : c.entries.Nodup) (key : Key) (id cacheLimit : Nat)
    (entry : Entry P) (w : Weight P) :
    Evicted (· ≠ key) (weighed c id entry w) ((weighed c id entry w).evictIfNeeded key cacheLimit) ∧
      (((weighed c id entry w).evictIfNeeded key cacheLimit).cacheBytes ≤ cacheLimit ∨
        ((weighed c id entry w).evictIfNeeded key cacheLimit).entries.length ≤ 1 ∨
        ((weighed c id entry w).evictIfNeeded key cacheLimit).oldest (· ≠ key) = none) := by
  obtain ⟨hevicted, hdone⟩ := evicted_while (· ≠ key)
    (fun c => cacheLimit < c.cacheBytes && 1 < c.entries.length) c.entries.length
    (weighed c id entry w) hnodup
  refine ⟨hevicted, ?_⟩
  rcases hdone (Nat.le_refl _) with hmore | hnone
  · rw [Bool.and_eq_false_iff, decide_eq_false_iff_not, decide_eq_false_iff_not] at hmore
    rcases hmore with hlimit | hone
    · exact Or.inl (Nat.le_of_not_lt hlimit)
    · exact Or.inr (Or.inl (Nat.le_of_not_lt hone))
  · exact Or.inr (Or.inr hnone)

theorem published_heap (hnodup : c.entries.Nodup) : (published c key id cacheLimit entry w).heap =
      update c.heap id (some { entry with weight := some w, building := false }) := by
  show update ((weighed c id entry w).evictIfNeeded key cacheLimit).heap id _ = _
  rw [(weighed_evicted hnodup _ _ _ _ _).1.heap]
  exact Function.update_idem _ _ _

theorem published_bytesOf (hnodup : c.entries.Nodup) (e : Key × Nat) :
    (published c key id cacheLimit entry w).bytesOf e = (weighed c id entry w).bytesOf e := by
  have hheap : (published c key id cacheLimit entry w).heap e.2 = _ :=
    congrFun (published_heap hnodup) e.2
  by_cases he : e.2 = id
  · subst he
    have hself : (weighed c e.2 entry w).heap e.2 = _ := update_self _ _ _
    rw [bytesOf_eq (hheap.trans (update_self _ _ _)), bytesOf_eq hself]
  · exact bytesOf_congr (hheap.trans ((setEntry_other he).trans (setEntry_other he).symm))

theorem published_resident (hnodup : c.entries.Nodup) :
    (published c key id cacheLimit entry w).residentBytes =
      ((weighed c id entry w).evictIfNeeded key cacheLimit).residentBytes := by
  show (List.map _ _).sum = (List.map _ _).sum
  refine congrArg List.sum (map_congr_left fun e _ => ?_)
  rw [published_bytesOf hnodup]
  unfold bytesOf
  rw [(weighed_evicted hnodup _ _ _ _ _).1.heap]

theorem weighed_resident_in (h : MapOk c) (hin : (key, id) ∈ c.entries)
    (hentry : c.heap id = some entry) (hnone : entry.weight = none) :
    (weighed c id entry w).residentBytes = (weighed c id entry w).cacheBytes := by
  have hupdate := h.resident_update hin { entry with weight := some w }
  rw [bytesOf_eq (c := c) (e := (key, id)) hentry, hnone] at hupdate
  have haccounted := h.accounted
  have hsame : (weighed c id entry w).residentBytes = ({ c with
    heap := update c.heap id (some { entry with weight := some w }) } :
      Q4kCache P).residentBytes := rfl
  rw [hsame]
  show _ = c.cacheBytes + w.bytes
  dsimp only at hupdate
  omega

/-- **A publication of an entry in the map keeps the map in order.** -/
theorem MapOk.publish (h : MapOk c) (hin : (key, id) ∈ c.entries) (hentry : c.heap id = some entry)
    (hnone : entry.weight = none) (hsize : w.bytes = key.region.q4kPackedBytes) :
    MapOk (published c key id cacheLimit entry w) := by
  obtain ⟨hevicted, -⟩ := weighed_evicted h.nodup key id cacheLimit entry w
  have hsub : (published c key id cacheLimit entry w).entries.Sublist c.entries := hevicted.sub
  have hresident := weighed_resident_in (w := w) h hin hentry hnone
  refine ⟨(hsub.map _).nodup h.keys, (hsub.map _).nodup h.ids, fun i hi => ?_, fun e he => ?_,
    fun e he => h.sized e (hsub.subset he), ?_⟩
  · have hlt := h.lt hin
    have hi : c.nextId ≤ i := by
      have hnext : ((weighed c id entry w).evictIfNeeded key cacheLimit).nextId = c.nextId :=
        hevicted.nextId
      exact hnext ▸ hi
    rw [published_heap h.nodup, update_of_ne (by omega)]
    exact h.alloc i hi
  · rw [published_heap h.nodup]
    by_cases hid : e.2 = id
    · obtain rfl := h.id_unique (hsub.subset he) hin hid
      exact ⟨_, update_self _ _ _, Or.inr ⟨rfl, w, rfl, hsize⟩⟩
    obtain ⟨old, hold, hok⟩ := h.live e (hsub.subset he)
    exact ⟨old, (setEntry_other hid).trans hold, hok⟩
  rw [published_resident h.nodup]
  have hbalance := hevicted.balance (Nat.le_of_eq hresident)
  show ((weighed c id entry w).evictIfNeeded key cacheLimit).cacheBytes = _
  omega

theorem evictable_building {old : Entry P} {e : Key × Nat} (hentry : c.heap e.2 = some old)
    (hb : old.building = true) : c.evictable e = none := by
  unfold evictable
  rw [hentry]
  exact if_pos hb

theorem MapOk.publish_building (h : MapOk c) (hin : (key, id) ∈ c.entries)
    (hentry : c.heap id = some entry) (hb : entry.building = true) :
    (c.entries.filter c.isBuilding).Perm
      ((key, id) :: (published c key id cacheLimit entry w).entries.filter
        (published c key id cacheLimit entry w).isBuilding) := by
  obtain ⟨hevicted, -⟩ := weighed_evicted h.nodup key id cacheLimit entry w
  have hsub : (published c key id cacheLimit entry w).entries.Sublist c.entries := hevicted.sub
  have hself : (published c key id cacheLimit entry w).isBuilding (key, id) = false := by
    unfold isBuilding
    rw [published_heap h.nodup, update_self]
    rfl
  have hother : ∀ e ∈ c.entries, e ≠ (key, id) →
      (published c key id cacheLimit entry w).isBuilding e = c.isBuilding e := by
    intro e he hne
    unfold isBuilding
    rw [published_heap h.nodup, setEntry_other fun hid => hne (h.id_unique he hin hid)]
  have hkept : ∀ e ∈ c.entries, c.isBuilding e = true →
      e ∈ (published c key id cacheLimit entry w).entries := by
    intro e he hbuilding
    refine hevicted.kept e he (Or.inl ?_)
    by_cases hid : e.2 = id
    · have hnew : update c.heap id (some { entry with weight := some w }) e.2 =
          some { entry with weight := some w } := by rw [hid, update_self]
      exact evictable_building hnew hb
    unfold isBuilding at hbuilding
    cases hold : c.heap e.2 with
    | none => rw [hold] at hbuilding; cases hbuilding
    | some old =>
      rw [hold] at hbuilding
      exact evictable_building ((setEntry_other hid).trans hold) hbuilding
  refine (perm_ext_iff_of_nodup (h.nodup.filter _) (nodup_cons.mpr
    ⟨fun hmem => ?_, (hsub.nodup h.nodup).filter _⟩)).mpr fun e => ?_
  · rw [mem_filter, hself] at hmem
    cases hmem.2
  rw [mem_cons, mem_filter, mem_filter]
  constructor
  · rintro ⟨he, hbuilding⟩
    by_cases heq : e = (key, id)
    · exact Or.inl heq
    · exact Or.inr ⟨hkept e he hbuilding, (hother e he heq).trans hbuilding⟩
  rintro (rfl | ⟨he, hbuilding⟩)
  · exact ⟨hin, (isBuilding_eq (c := c) (e := (key, id)) hentry).trans hb⟩
  have hne : e ≠ (key, id) := by
    rintro rfl
    rw [hself] at hbuilding
    cases hbuilding
  exact ⟨hsub.subset he, (hother e (hsub.subset he) hne).symm.trans hbuilding⟩

/-- **Right after a publication the cache is within the limit, or all else builds.** -/
theorem MapOk.publish_within (h : MapOk c) (hin : (key, id) ∈ c.entries) :
    (published c key id cacheLimit entry w).WithinLimit key cacheLimit := by
  obtain ⟨hevicted, hstop⟩ := weighed_evicted h.nodup key id cacheLimit entry w
  rcases hstop with hlimit | hone | hnone
  · exact Or.inl hlimit
  · refine Or.inr fun e he hne => absurd ?_ hne
    have hself : (key, id) ∈ ((weighed c id entry w).evictIfNeeded key cacheLimit).entries :=
      hevicted.kept _ hin (Or.inr (by simp))
    have heq : e = (key, id) := by
      match hlist : ((weighed c id entry w).evictIfNeeded key cacheLimit).entries, hone with
      | [], _ =>
        rw [hlist] at hself
        cases hself
      | [only], _ =>
        have he : e ∈ ((weighed c id entry w).evictIfNeeded key cacheLimit).entries := he
        rw [hlist] at he hself
        rw [mem_singleton.mp he, mem_singleton.mp hself]
    rw [heq]
  · refine Or.inr fun e he hne => ?_
    have hstuck := oldest_none hnone e he (decide_eq_true hne)
    have hmem := hevicted.sub.subset he
    have hid : e.2 ≠ id := fun hid => hne (by rw [h.id_unique hmem hin hid])
    obtain ⟨old, hold, hok⟩ := h.live e hmem
    unfold evictable at hstuck
    rw [hevicted.heap] at hstuck
    have hsame : (weighed c id entry w).heap e.2 = some old := (setEntry_other hid).trans hold
    rw [hsame] at hstuck
    have hmark : (published c key id cacheLimit entry w).isBuilding e = old.building := by
      refine isBuilding_eq ?_
      rw [published_heap h.nodup, setEntry_other hid]
      exact hold
    rw [hmark]
    rcases hok with ⟨hb, -⟩ | ⟨hb, w', hw', -⟩
    · exact hb
    have hstuck : (if old.building = true then none else old.weight) = none := hstuck
    rw [hb, hw'] at hstuck
    cases hstuck

/-! ### A failed build -/

/-- The cache after a build that failed. -/
def withdrawn (c : Q4kCache P) (key : Key) (id : Nat) (entry : Entry P) : Q4kCache P :=
  { c with
    entries := c.entries.filter (·.1 ≠ key)
    heap := update c.heap id (some { entry with building := false }) }

theorem q4kBuilt_none {s : State P} {thread cacheLimit now : Nat} (hnone : entry.weight = none) :
    (q4kBuilt (packing none) s thread key id cacheLimit now entry).1 =
      { s with pending := s.others thread, q4k := withdrawn s.q4k key id entry } := by
  obtain ⟨entryKey, weight, building⟩ := entry
  obtain rfl : weight = none := hnone
  rfl

theorem MapOk.other_id (h : MapOk c) (hin : (key, id) ∈ c.entries) {e : Key × Nat}
    (he : e ∈ c.entries.filter (·.1 ≠ key)) : e ∈ c.entries ∧ e.2 ≠ id := by
  obtain ⟨hmem, hkey⟩ := mem_filter.mp he
  refine ⟨hmem, fun hid => ?_⟩
  rw [h.id_unique hmem hin hid] at hkey
  simp at hkey

theorem MapOk.withdraw (h : MapOk c) (hin : (key, id) ∈ c.entries)
    (hentry : c.heap id = some entry) (hnone : entry.weight = none) :
    MapOk (withdrawn c key id entry) := by
  have hsub : (withdrawn c key id entry).entries.Sublist c.entries := filter_sublist
  refine ⟨(hsub.map _).nodup h.keys, (hsub.map _).nodup h.ids, fun i hi => ?_, fun e he => ?_,
    fun e he => h.sized e (hsub.subset he), ?_⟩
  · have hlt := h.lt hin
    have hi : c.nextId ≤ i := hi
    exact (update_of_ne (by omega) _ _).trans (h.alloc i hi)
  · obtain ⟨hmem, hid⟩ := h.other_id hin he
    obtain ⟨old, hold, hok⟩ := h.live e hmem
    exact ⟨old, (setEntry_other hid).trans hold, hok⟩
  have hsum := ((assoc_split h.keys hin).map c.bytesOf).sum_eq
  rw [map_cons, sum_cons, bytesOf_eq (c := c) (e := (key, id)) hentry, hnone] at hsum
  have hrest : (c.entries.filter (·.1 ≠ key)).map (withdrawn c key id entry).bytesOf =
      (c.entries.filter (·.1 ≠ key)).map c.bytesOf := by
    refine map_congr_left fun e he => ?_
    obtain ⟨-, hid⟩ := h.other_id hin he
    exact bytesOf_congr (setEntry_other hid)
  have haccounted := h.accounted
  have hresident : c.residentBytes = (c.entries.map c.bytesOf).sum := rfl
  show c.cacheBytes = ((c.entries.filter (·.1 ≠ key)).map (withdrawn c key id entry).bytesOf).sum
  rw [hrest]
  dsimp only at hsum
  omega

theorem MapOk.withdraw_building (h : MapOk c) (hin : (key, id) ∈ c.entries)
    (hbuilding : c.isBuilding (key, id) = true) :
    (c.entries.filter c.isBuilding).Perm ((key, id) :: (withdrawn c key id entry).entries.filter
        (withdrawn c key id entry).isBuilding) := by
  have hsplit := (assoc_split h.keys hin).filter c.isBuilding
  rw [filter_cons_of_pos hbuilding] at hsplit
  refine hsplit.trans (Perm.of_eq (congrArg _ (filter_congr fun e he => ?_)))
  obtain ⟨-, hid⟩ := h.other_id hin he
  show _ = (update c.heap id _ e.2).any (·.building)
  rw [setEntry_other hid]
  rfl

end Publication

/-! ### All sections -/

section Sections

variable {s t : State P}

variable {thread id cacheLimit now : Nat} {key : Key} {entry : Entry P}

theorem AccountInv.built_entry (h : AccountInv s)
    (hp : s.pendingOf thread = some (.building key id cacheLimit now))
    (hentry : s.q4k.heap id = some entry) :
    (key, id) ∈ s.q4k.entries ∧ entry.building = true ∧ entry.weight = none := by
  obtain ⟨hin, hbuilding⟩ := h.builds hp
  obtain ⟨old, hold, hok⟩ := h.map.live _ hin
  obtain rfl := Option.some.inj (hentry.symm.trans hold)
  rw [isBuilding_eq (c := s.q4k) (e := (key, id)) hentry] at hbuilding
  rcases hok with ⟨hb, hnone⟩ | ⟨hb, -⟩
  · exact ⟨hin, hb, hnone⟩
  rw [hb] at hbuilding
  cases hbuilding

theorem AccountInv.built (h : AccountInv s)
    (hp : s.pendingOf thread = some (.building key id cacheLimit now))
    (hentry : s.q4k.heap id = some entry) (result : Option P) :
    AccountInv (q4kBuilt (packing result) s thread key id cacheLimit now entry).1 := by
  obtain ⟨hin, hb, hnone⟩ := h.built_entry hp hentry
  have hjobs := h.jobs_others hp
  cases result with
  | none =>
    rw [q4kBuilt_none hnone]
    exact ⟨h.map.withdraw hin hentry hnone, h.threads_others thread, h.sized_others thread,
      (perm_cons _).mp (hjobs.trans (h.map.withdraw_building hin (h.builds hp).2))⟩
  | some packed =>
    rw [q4kBuilt_some]
    exact ⟨h.map.publish hin hentry hnone rfl, h.threads_others thread, h.sized_others thread,
      (perm_cons _).mp (hjobs.trans (h.map.publish_building hin hentry hb))⟩

theorem AccountInv.find (h : AccountInv s)
    (hnone : s.pendingOf thread = none) (hsize : 0 < key.region.q4kPackedBytes) :
    AccountInv (findSection s thread key cacheLimit now).1 := by
  have hidle : ∀ p, s.pendingOf thread = some p → p.job = none := by
    intro p hp
    rw [hnone] at hp
    cases hp
  unfold findSection
  cases hfind : s.q4k.entries.find? (·.1 = key) with
  | none =>
    refine h.build hidle hsize fun _ e he hkey => ?_
    have hnot := find?_eq_none.mp hfind e he
    simp [hkey] at hnot
  | some e =>
    have hin := mem_of_find?_eq_some hfind
    obtain ⟨entry, hentry, hok⟩ := h.map.live e hin
    dsimp only
    rw [hentry]
    dsimp only
    rcases hok with ⟨hb, hweight⟩ | ⟨hb, w, hweight, -⟩
    · rw [hweight]
      dsimp only
      rw [if_pos hb]
      refine ⟨h.map, nodup_cons.mpr ⟨not_mem_others s thread, h.threads_others thread⟩,
        fun q hq => ?_, h.jobs_idle hidle⟩
      rcases mem_cons.mp hq with rfl | hold
      · exact hsize
      · exact h.sized_others thread q hold
    rw [hweight]
    exact h.touch hentry hweight now h.threads h.sized h.jobs

theorem AccountInv.wake (h : AccountInv s)
    (hp : s.pendingOf thread = some (.waiting key id cacheLimit now))
    (hentry : s.q4k.heap id = some entry) (hfree : entry.weight = none →
      ¬ (cacheLimit = 0 ∨ cacheLimit < key.region.q4kPackedBytes) →
      ∀ e ∈ s.q4k.entries, e.1 ≠ key) :
    AccountInv (q4kWake s thread key id cacheLimit now entry).1 := by
  have hidle : ∀ p, s.pendingOf thread = some p → p.job = none := by
    intro p hp'
    rw [← Option.some.inj (hp.symm.trans hp')]
    rfl
  unfold q4kWake
  cases hweight : entry.weight with
  | some w =>
    exact h.touch hentry hweight now (h.threads_others thread) (h.sized_others thread)
      (h.jobs_idle hidle)
  | none =>
    have hsize := h.sized (thread, .waiting key id cacheLimit now) (mem_of_pendingOf hp)
    dsimp only [Pending.key] at hsize
    exact h.build hidle hsize (hfree hweight)

/-- **Every section keeps the invariant**, in an orderly run. -/
theorem AccountInv.step (h : AccountInv s) {e : Section P} (hok : s.Orderly e)
    (hs : takeSection s e = some t) : AccountInv t := by
  cases e with
  | lookup thread key cacheLimit now =>
    obtain ⟨⟨hnone, hsize⟩, rfl⟩ := when_eq_some hs
    exact h.find hnone hsize
  | wake thread =>
    simp only [takeSection] at hs
    split at hs
    · rename_i key id cacheLimit now hp
      split at hs
      · rename_i entry hentry
        obtain ⟨-, rfl⟩ := when_eq_some hs
        exact h.wake hp hentry (hok key id cacheLimit now entry hp hentry)
      · cases hs
    · cases hs
  | built thread result =>
    simp only [takeSection] at hs
    split at hs
    · rename_i key id cacheLimit now hp
      split at hs
      · rename_i entry hentry
        cases hs
        exact h.built hp hentry result
      · cases hs
    · cases hs
  | thrown thread => exact absurd hok id
  | trim target =>
    cases hs
    exact h.trim target

theorem AccountInv.publishes (h : AccountInv s) : s.PublishesWithinLimit := by
  intro thread key id cacheLimit now packed t hp hs
  simp only [takeSection, hp] at hs
  split at hs
  · rename_i entry hentry
    rw [q4kBuilt_some] at hs
    cases hs
    exact h.map.publish_within (h.built_entry hp hentry).1
  · cases hs

/-! ### Sections that are not orderly

An exception that leaves a call while it packs, or a waiter that goes on to build beside an
entry of its key, puts the counter out of step with the map for good.
-/

/-- The cache with a new entry that is building. -/
def started (c : Q4kCache P) (key : Key) : Q4kCache P :=
  { c with
    heap := update c.heap c.nextId (some { key := key, weight := none, building := true })
    entries := (key, c.nextId) :: c.entries.filter (·.1 ≠ key)
    nextId := c.nextId + 1 }

theorem q4kBuild_room (hroom : ¬ (cacheLimit = 0 ∨ cacheLimit < key.region.q4kPackedBytes)) :
    (q4kBuild s thread key cacheLimit now).1 = { s with
        q4k := started s.q4k key
        pending := (thread, .building key s.q4k.nextId cacheLimit now) :: s.others thread } := by
  unfold q4kBuild
  rw [if_neg hroom]
  rfl

theorem takeSection_built (hp : s.pendingOf thread = some (.building key id cacheLimit now))
    (hentry : s.q4k.heap id = some entry) (result : Option P) :
    takeSection s (.built thread result) =
      some (q4kBuilt (packing result) s thread key id cacheLimit now entry).1 := by
  simp only [takeSection, hp, hentry]

theorem MapOk.started_resident {c : Q4kCache P} (h : MapOk c) (hin : (key, id) ∈ c.entries) :
    (started c key).residentBytes + c.bytesOf (key, id) = c.residentBytes := by
  have hsum := ((assoc_split h.keys hin).map c.bytesOf).sum_eq
  rw [map_cons, sum_cons] at hsum
  have hnew : (started c key).bytesOf (key, c.nextId) = 0 := by
    rw [bytesOf_eq (c := started c key) (e := (key, c.nextId)) (update_self _ _ _)]
  have hrest : (c.entries.filter (·.1 ≠ key)).map (started c key).bytesOf =
      (c.entries.filter (·.1 ≠ key)).map c.bytesOf := by
    refine map_congr_left fun e he => ?_
    have hid : e.2 ≠ c.nextId := Nat.ne_of_lt (h.lt (mem_filter.mp he).1)
    exact bytesOf_congr (setEntry_other hid)
  have hresident : c.residentBytes = (c.entries.map c.bytesOf).sum := rfl
  have hstarted : (started c key).residentBytes = (started c key).bytesOf (key, c.nextId) +
      ((c.entries.filter (·.1 ≠ key)).map (started c key).bytesOf).sum := rfl
  rw [hstarted, hnew, hrest, hresident]
  omega

theorem published_orphan {c : Q4kCache P} (hnodup : c.entries.Nodup) {w : Weight P}
    (hout : ∀ e ∈ c.entries, e.2 ≠ id)
    (haccounted : c.cacheBytes = c.residentBytes) (hsize : 0 < w.bytes) :
    (published c key id cacheLimit entry w).cacheBytes ≠
      (published c key id cacheLimit entry w).residentBytes := by
  obtain ⟨hevicted, -⟩ := weighed_evicted hnodup key id cacheLimit entry w
  have hsame : (weighed c id entry w).residentBytes = c.residentBytes := by
    refine congrArg List.sum (map_congr_left fun e he => ?_)
    exact bytesOf_congr (setEntry_other (hout e he))
  have hbytes : (weighed c id entry w).cacheBytes = c.cacheBytes + w.bytes := rfl
  have hbalance := hevicted.balance (by omega)
  rw [published_resident hnodup]
  show ((weighed c id entry w).evictIfNeeded key cacheLimit).cacheBytes ≠ _
  omega

theorem AccountInv.abandoned (h : AccountInv s)
    (hs : takeSection s (.thrown thread) = some t) : ¬ t.BuildersAttend := by
  simp only [takeSection] at hs
  split at hs
  · rename_i key id cacheLimit now hp
    cases hs
    intro hattend
    obtain ⟨hin, hbuilding⟩ := h.builds hp
    obtain ⟨thread', limit', now', hp'⟩ := hattend (key, id) hin hbuilding
    have hnodup := (h.jobs_others hp).nodup_iff.mpr (h.map.nodup.filter _)
    refine (nodup_cons.mp hnodup).1 (mem_filterMap.mpr ?_)
    exact ⟨_, mem_of_pendingOf hp', rfl⟩
  · cases hs

/-- A waiter that builds over an entry of its key puts the counter out of step in some run. -/
theorem AccountInv.displaced [Inhabited P] (h : AccountInv s)
    (hp : s.pendingOf thread = some (.waiting key id cacheLimit now))
    (hroom : ¬ (cacheLimit = 0 ∨ cacheLimit < key.region.q4kPackedBytes))
    {e : Key × Nat} (he : e ∈ s.q4k.entries) (hkey : e.1 = key) :
    ∃ u, Runs takeSection (fun _ _ => True) (q4kBuild s thread key cacheLimit now).1 u ∧
      ¬ u.BytesAccounted := by
  obtain ⟨key', id'⟩ := e
  obtain rfl : key' = key := hkey
  have hsize := h.map.sized _ he
  have hresident := h.map.started_resident he
  have haccounted := h.map.accounted
  rw [q4kBuild_room hroom]
  obtain ⟨entry, hentry, ⟨hb, hweight⟩ | ⟨-, w, hweight, hbytes⟩⟩ := h.map.live _ he
  · -- it is still being built, by a thread that will publish
    rw [bytesOf_eq (c := s.q4k) (e := (key', id')) hentry, hweight] at hresident
    obtain ⟨builder, limit', now', hbuilder⟩ := h.attend (key', id') he
      ((isBuilding_eq (c := s.q4k) (e := (key', id')) hentry).trans hb)
    have hother : builder ≠ thread := by
      rintro rfl
      cases hp.symm.trans hbuilder
    have hpending : ({ s with
        q4k := started s.q4k key'
        pending := (thread, .building key' s.q4k.nextId cacheLimit now) :: s.others thread } :
          State P).pendingOf builder = some (.building key' id' limit' now') := by
      have hthreads : (((thread, Pending.building key' s.q4k.nextId cacheLimit now) ::
          s.others thread).map (·.1)).Nodup :=
        nodup_cons.mpr ⟨not_mem_others s thread, h.threads_others thread⟩
      have hin : (builder, Pending.building key' id' limit' now') ∈ s.others thread :=
        mem_filter.mpr ⟨mem_of_pendingOf hbuilder, decide_eq_true hother⟩
      exact pendingOf_of_mem hthreads (mem_cons_of_mem _ hin)
    have hheap : (started s.q4k key').heap id' = some entry :=
      (update_of_ne (Nat.ne_of_lt (h.map.lt he)) _ _).trans hentry
    have hnodup : (started s.q4k key').entries.Nodup := by
      refine nodup_cons.mpr ⟨fun hmem => ?_, h.map.nodup.filter _⟩
      exact absurd (h.map.lt (mem_filter.mp hmem).1) (Nat.lt_irrefl _)
    have hbuilt := takeSection_built hpending hheap (some default)
    rw [q4kBuilt_some] at hbuilt
    refine ⟨_, Runs.refl.tail trivial hbuilt, ?_⟩
    show ¬ (published (started s.q4k key') key' id' limit' entry
        ⟨default, key'.region.q4kPackedBytes, now'⟩).cacheBytes =
      (published (started s.q4k key') key' id' limit' entry
        ⟨default, key'.region.q4kPackedBytes, now'⟩).residentBytes
    · refine published_orphan hnodup (fun e' he' => ?_) ?_ hsize
      · rcases mem_cons.mp he' with rfl | hrest
        · exact Ne.symm (Nat.ne_of_lt (h.map.lt he))
        · exact (h.map.other_id he hrest).2
      show s.q4k.cacheBytes = (started s.q4k key').residentBytes
      dsimp only at hresident
      omega
  · -- it holds a weight
    rw [bytesOf_eq (c := s.q4k) (e := (key', id')) hentry, hweight] at hresident
    refine ⟨_, Runs.refl, fun hcount => ?_⟩
    have hcount : s.q4k.cacheBytes = (started s.q4k key').residentBytes := hcount
    dsimp only at hresident
    omega

/-- **A section that is not orderly is followed by a state that is wrong.** -/
theorem AccountInv.disorder [Inhabited P] (h : AccountInv s) {e : Section P}
    (hnot : ¬ s.Orderly e) (hs : takeSection s e = some t) :
    ∃ u, Runs takeSection (fun _ _ => True) t u ∧ ¬ (u.BytesAccounted ∧ u.BuildersAttend) := by
  cases e with
  | thrown thread =>
    exact ⟨t, Runs.refl, fun hboth => h.abandoned hs hboth.2⟩
  | wake thread =>
    unfold State.Orderly at hnot
    push Not at hnot
    obtain ⟨key, id, cacheLimit, now, entry, hp, hentry, hweight, hroom, e, he, hkey⟩ := hnot
    simp only [takeSection, hp, hentry] at hs
    obtain ⟨-, rfl⟩ := when_eq_some hs
    have hbuild : (q4kWake s thread key id cacheLimit now entry).1 =
        (q4kBuild s thread key cacheLimit now).1 := by
      unfold q4kWake
      rw [hweight]
    rw [hbuild]
    have hroom : ¬ (cacheLimit = 0 ∨ cacheLimit < key.region.q4kPackedBytes) := by
      rintro (hzero | hlarge)
      · exact hroom.1 hzero
      · omega
    obtain ⟨u, hrun, hwrong⟩ := h.displaced hp hroom he hkey
    exact ⟨u, hrun, fun hboth => hwrong hboth.1⟩
  | _ => exact absurd trivial hnot

end Sections

/-! ### The result -/

/-- **The accounts are right in orderly runs, and only there.**  In each state of an
orderly run the counted bytes are those in the map, whoever waits has a builder, and a
publication leaves the cache within its limit.  After a section that is not orderly, some
run gets to a state where the bytes or the builders are wrong. -/
theorem repack_cache_orderly [Inhabited P] (mem : Memory) :
    (∀ t, Runs takeSection State.Orderly (State.init mem : State P) t →
      t.BytesAccounted ∧ t.BuildersAttend ∧ t.PublishesWithinLimit) ∧
    ∀ s e t, Runs takeSection State.Orderly (State.init mem : State P) s → ¬ s.Orderly e →
      takeSection s e = some t →
      ∃ u, Runs takeSection (fun _ _ => True) t u ∧ ¬ (u.BytesAccounted ∧ u.BuildersAttend) := by
  have hinv : ∀ t, Runs takeSection State.Orderly (State.init mem : State P) t → AccountInv t :=
    fun t hrun => hrun.inv (accountInv_init mem) fun _ _ _ h hok hs => h.step hok hs
  refine ⟨fun t hrun => ?_, fun s e t hrun hnot hs => (hinv s hrun).disorder hnot hs⟩
  have h := hinv t hrun
  exact ⟨h.map.accounted, h.attend, h.publishes⟩

/-- A matrix of one packed block. -/
def oneBlock : Key := ⟨⟨4096, 8, 256⟩, 0⟩

/-- Another one. -/
def otherBlock : Key := ⟨⟨8192, 8, 256⟩, 0⟩

/-- Sections that are orderly in every state. -/
def plain : Section P → Bool
  | .wake _ => false
  | .thrown _ => false
  | _ => true

theorem orderly_of_plain (s : State P) (e : Section P) (h : plain e) : s.Orderly e := by
  cases e with
  | wake thread => cases h
  | thrown thread => cases h
  | _ => trivial

/-- Two threads build a block each at the same time, and there is room for one: the second
to publish evicts the first. -/
theorem two_builds_accounted : ∃ t : State Nat,
    Runs takeSection State.Orderly (State.init fun _ => 0) t ∧ t.q4k.entries = [(otherBlock, 1)] ∧
      t.q4k.cacheBytes = 1152 ∧ t.BytesAccounted ∧ t.BuildersAttend ∧ t.PublishesWithinLimit := by
  obtain ⟨t, ht, hentries, hbytes⟩ : ∃ t : State Nat,
      runChecked takeSection (fun _ => plain) (State.init fun _ => 0)
        [.lookup 0 oneBlock 2000 1, .lookup 1 otherBlock 2000 2, .built 0 (some 7),
          .built 1 (some 8)] = some t ∧
        t.q4k.entries = [(otherBlock, 1)] ∧ t.q4k.cacheBytes = 1152 :=
    ⟨_, rfl, rfl, rfl⟩
  have hrun := Runs.of_checked orderly_of_plain _ Runs.refl ht
  exact ⟨t, hrun, hentries, hbytes, (repack_cache_orderly fun _ => 0).1 t hrun⟩

/-- Three calls for one block, of which the first fails to pack it: the other two both go on
to build, and both count.  And one call that an exception leaves. -/
theorem failed_build_counts_twice :
    (∃ t : State Nat, Runs takeSection (fun _ _ => True) (State.init fun _ => 0) t ∧
      t.q4k.cacheBytes = 2304 ∧ t.q4k.residentBytes = 1152 ∧ ¬ t.BytesAccounted) ∧
    ∃ t : State Nat, Runs takeSection (fun _ _ => True) (State.init fun _ => 0) t ∧
      ¬ t.BuildersAttend := by
  constructor
  · have hcounts : (runList takeSection (State.init fun _ => 0 : State Nat)
        [.lookup 0 oneBlock 4096 1, .lookup 1 oneBlock 4096 2, .lookup 2 oneBlock 4096 3,
          .built 0 none, .wake 1, .wake 2, .built 1 (some 7), .built 2 (some 7)]).map
        (fun t => (t.q4k.cacheBytes, t.q4k.residentBytes)) = some (2304, 1152) := by
      decide +kernel
    obtain ⟨t, ht, hpair⟩ := Option.map_eq_some_iff.mp hcounts
    obtain ⟨hbytes, hresident⟩ := Prod.mk.inj hpair
    refine ⟨t, Runs.of_list ht, hbytes, hresident, fun hsame => ?_⟩
    unfold State.BytesAccounted at hsame
    omega
  obtain ⟨t, ht, hentries, hbuilding, hpending⟩ : ∃ t : State Nat,
      runList takeSection (State.init fun _ => 0) [.lookup 0 oneBlock 4096 1, .thrown 0] = some t ∧
        t.q4k.entries = [(oneBlock, 0)] ∧ t.q4k.isBuilding (oneBlock, 0) = true ∧
        t.pending = [] :=
    ⟨_, rfl, rfl, rfl, rfl⟩
  refine ⟨t, Runs.of_list ht, fun hattend => ?_⟩
  have hin : (oneBlock, 0) ∈ t.q4k.entries := by
    rw [hentries]
    exact mem_cons_self
  obtain ⟨thread, cacheLimit, now, hp⟩ := hattend (oneBlock, 0) hin hbuilding
  unfold State.pendingOf at hp
  rw [hpending] at hp
  cases hp

end DenseCore.Repack
