/-
The bytes of a cache of built values.

A publication adds the bytes of one value and drops others until what is counted is
within the limit.  What it leaves is therefore known from the state before it: the value
itself, and of the others those used last, as many as the count has room for.  In every
run, whoever builds, waits or fails, the values in the map come to no more than the
largest limit that a reader had.
-/
import DenseCore.Lib.BuildCache

namespace DenseCore.Lib.BuildCache

open List

variable {κ P : Type}

/-! ### The invariant -/

/-- An entry of the builder's id has the builder's key. -/
def Cache.Owned (c : Cache κ P) (key : κ) (id : Nat) : Prop := ∀ e ∈ c.entries, e.2 = id → e.1 = key

/-- A cache within `bound`, whatever the count says. -/
structure Sound (bound : Nat) (c : Cache κ P) : Prop where
  keys : (c.entries.map (·.1)).Nodup
  lt : ∀ e ∈ c.entries, e.2 < c.nextId
  idle : ∀ id entry, c.heap id = some entry → entry.building = true → entry.value = none
  covers : c.resident ≤ c.counted
  within : c.resident ≤ bound

/-- A reader's limit is within `bound`, and what it builds is within its limit. -/
def Job.Ok (size : κ → Nat) (bound : Nat) (c : Cache κ P) : Job κ → Prop
  | .waiting _ _ limit _ => limit ≤ bound
  | .building key id limit _ =>
    size key ≤ limit ∧ limit ≤ bound ∧ id < c.nextId ∧ c.Owned key id

/-- The cache is within a bound, counting what is being built. -/
structure Bounded (size : κ → Nat) (bound : Nat) (s : State κ P) : Prop where
  cache : Sound bound s.cache
  jobs : ∀ j ∈ s.jobs, j.2.Ok size bound s.cache

theorem bounded_init (size : κ → Nat) (bound : Nat) :
    Bounded size bound (State.init : State κ P) where
  cache := ⟨nodup_nil, fun _ h => (nomatch h), fun _ _ h => (nomatch h), Nat.le_refl _,
    Nat.zero_le _⟩
  jobs := fun _ h => nomatch h

section Sound

variable {bound : Nat} {c c' : Cache κ P} {key : κ} {id : Nat}

theorem Sound.nodup (h : Sound bound c) : c.entries.Nodup := Nodup.of_map _ h.keys

theorem Job.Ok.mono {size : κ → Nat} {job : Job κ} (h : job.Ok size bound c)
    (hnext : c.nextId ≤ c'.nextId)
    (hentries : ∀ e ∈ c'.entries, e ∈ c.entries ∨ c.nextId ≤ e.2) : job.Ok size bound c' := by
  cases job with
  | waiting key id limit now => exact h
  | building key id limit now =>
    obtain ⟨hsize, hlimit, hlt, howned⟩ := h
    refine ⟨hsize, hlimit, Nat.lt_of_lt_of_le hlt hnext, fun e he hid => ?_⟩
    rcases hentries e he with hold | hnew
    · exact howned e hold hid
    · omega

/-- Fewer entries, and the objects they had. -/
theorem Sound.dropped {ok : κ → Bool} (h : Sound bound c) (hd : Dropped ok c c') :
    Sound bound c' where
  keys := (hd.sub.map _).nodup h.keys
  lt := by
    rw [hd.nextId]
    exact fun e he => h.lt e (hd.sub.subset he)
  idle := by
    rw [hd.heap]
    exact h.idle
  covers := hd.covers h.covers
  within := Nat.le_trans hd.resident_le h.within

variable {entry : Entry P}

/-- Another object, of the same size. -/
theorem setEntry_resident
    (hbytes : ∀ e ∈ c.entries, e.2 = id → (c.setEntry id entry).bytesOf e = c.bytesOf e) :
    (c.setEntry id entry).resident = c.resident := by
  refine bytesIn_congr fun e he => ?_
  by_cases hid : e.2 = id
  · exact hbytes e he hid
  · exact setEntry_bytesOf_ne hid

theorem same_bytes (entry' : Entry P) (hentry : c.heap id = some entry)
    (hvalue : entry'.value.map (·.bytes) = entry.value.map (·.bytes)) :
    ∀ e ∈ c.entries, e.2 = id → (c.setEntry id entry').bytesOf e = c.bytesOf e := by
  intro e _ hid
  subst hid
  rw [setEntry_bytesOf_self rfl, bytesOf_eq hentry]
  revert hvalue
  rcases entry'.value with _ | v' <;> rcases entry.value with _ | v <;> intro hvalue
  · rfl
  · cases hvalue
  · cases hvalue
  · injection hvalue

theorem Sound.setEntry (h : Sound bound c) (hidle : entry.building = true → entry.value = none)
    (hbytes : ∀ e ∈ c.entries, e.2 = id → (c.setEntry id entry).bytesOf e = c.bytesOf e) :
    Sound bound (c.setEntry id entry) := by
  have hresident := setEntry_resident hbytes
  refine ⟨h.keys, h.lt, fun id' entry' hentry' hb => ?_, ?_, ?_⟩
  · by_cases hid : id' = id
    · subst hid
      obtain rfl : entry = entry' :=
        Option.some.inj ((setEntry_heap_self c id' entry).symm.trans hentry')
      exact hidle hb
    · exact h.idle id' entry' ((setEntry_heap_ne c entry hid).symm.trans hentry') hb
  · rw [hresident]
    exact h.covers
  rw [hresident]
  exact h.within

variable {size : κ → Nat} {s : State κ P}

theorem Bounded.job (h : Bounded size bound s) {reader : Nat} {job : Job κ}
    (hjob : s.jobOf reader = some job) : job.Ok size bound s.cache := by
  obtain ⟨j, hj, rfl⟩ := Option.map_eq_some_iff.mp hjob
  exact h.jobs j (mem_of_find?_eq_some hj)

theorem Bounded.leave (h : Bounded size bound s) (reader : Nat) :
    Bounded size bound { s with jobs := s.others reader } :=
  ⟨h.cache, fun j hj => h.jobs j (mem_of_mem_filter hj)⟩

theorem Bounded.hit (h : Bounded size bound s) {id : Nat} {v : Value P}
    (hentry : s.cache.heap id = some entry) (hv : entry.value = some v) (now : Nat) :
    Bounded size bound (hit s id entry v now).1 ∧
      (hit s id entry v now).1.cache.resident ≤ s.cache.resident := by
  have hbytes := same_bytes { entry with value := some { v with lastUse := now } } hentry
    (congrArg (·.map (·.bytes)) hv).symm
  refine ⟨⟨h.cache.setEntry (fun hb => ?_) hbytes, fun j hj => ?_⟩,
    Nat.le_of_eq (setEntry_resident hbytes)⟩
  · have hnone := h.cache.idle id entry hentry hb
    rw [hv] at hnone
    cases hnone
  · exact (h.jobs j hj).mono (Nat.le_refl _) fun _ he => Or.inl he

end Sound

variable [DecidableEq κ]

/-! ### Room for a publication -/

namespace Cache

variable (c : Cache κ P)

/-- The entries under other keys. -/
def others (key : κ) : List (κ × Nat) := c.entries.filter (·.1 ≠ key)

/-- Of the other entries, those used last are kept. -/
def Latest (key : κ) (kept : κ × Nat → Bool) : Prop :=
  ∀ e ∈ c.others key, kept e = false → ∃ v, c.droppable e = some v ∧
      ∀ e' ∈ c.others key, kept e' = true → ∀ v', c.droppable e' = some v' → v.lastUse ≤ v'.lastUse

/-- Nothing more has to go for `size` new bytes, or nothing more can. -/
def Enough (key : κ) (size limit : Nat) (kept : κ × Nat → Bool) : Prop :=
  c.counted + size ≤ limit + c.bytesIn ((c.others key).filter (!kept ·)) ∨
    ∀ e ∈ c.others key, kept e = true → c.bytesOf e = 0

/-- Whatever a publication of `size` bytes leaves in the cache, there is room for it beside
`elsewhere` bytes.  The publication of an entry that is not in the map adds nothing. -/
def HasRoom (key : κ) (id size limit elsewhere : Nat) : Prop :=
  (key, id) ∈ c.entries → ∀ kept, c.Latest key kept → c.Enough key size limit kept →
    size + c.bytesIn ((c.others key).filter kept) + elsewhere ≤ limit

end Cache

/-! ### What a publication leaves -/

section Publication

variable {c : Cache κ P} {key : κ} {id : Nat}

theorem publish_resident_fit (limit : Nat) (entry : Entry P) (v : Value P)
    (hnodup : c.entries.Nodup) :
    (c.publish key id limit entry v).resident = ((c.weigh id entry v).fit key limit).resident := by
  have hheap := (fit_dropped (c := c.weigh id entry v) hnodup key limit).1
  refine bytesIn_congr fun e _ => ?_
  by_cases heq : e.2 = id
  · rw [hheap.bytesOf, weigh_bytesOf_self heq]
    exact setEntry_bytesOf_self heq
  · exact setEntry_bytesOf_ne heq

theorem Cache.Owned.others_ne (h : c.Owned key id) {e : κ × Nat} (he : e ∈ c.others key) :
    e.2 ≠ id := by
  obtain ⟨hin, hkey⟩ := mem_filter.mp he
  exact fun hid => of_decide_eq_true hkey (h e hin hid)

section

variable (hkeys : (c.entries.map (·.1)).Nodup)

include hkeys

theorem weigh_resident (howned : c.Owned key id)
    (entry : Entry P) (v : Value P) :
    ((key, id) ∈ c.entries ∧ (c.weigh id entry v).resident = v.bytes + c.bytesIn (c.others key)) ∨
      (key, id) ∉ c.entries ∧ (c.weigh id entry v).resident = c.resident := by
  by_cases hin : (key, id) ∈ c.entries
  · refine Or.inl ⟨hin, ?_⟩
    have hsplit := bytesIn_perm (c := c.weigh id entry v) (assoc_split hkeys hin)
    rw [bytesIn_cons, weigh_bytesOf_self (e := (key, id)) rfl] at hsplit
    refine hsplit.trans (congrArg (v.bytes + ·) ?_)
    exact bytesIn_congr fun e he => weigh_bytesOf_ne (howned.others_ne he)
  refine Or.inr ⟨hin, bytesIn_congr fun e he => weigh_bytesOf_ne fun hid => hin ?_⟩
  rw [← howned e he hid, ← hid]
  exact he

theorem weigh_covers (howned : c.Owned key id)
    (hcovers : c.resident ≤ c.counted) (entry : Entry P) (v : Value P) :
    (c.weigh id entry v).resident ≤ (c.weigh id entry v).counted := by
  have hcounted : (c.weigh id entry v).counted = c.counted + v.bytes := rfl
  rcases weigh_resident hkeys howned entry v with ⟨-, hresident⟩ | ⟨-, hresident⟩
  · have hothers : c.bytesIn (c.others key) ≤ c.resident := bytesIn_sublist filter_sublist
    omega
  · omega

/-- **What a publication leaves.**  The value published and some of the others, those used
last, as many as the count has room for; or no more than there was, if the entry is not
in the map. -/
theorem publish_leaves (howned : c.Owned key id)
    (hcovers : c.resident ≤ c.counted)
    (hidle : ∀ id entry, c.heap id = some entry → entry.building = true → entry.value = none)
    (limit : Nat) (entry : Entry P) (v : Value P) :
    (∃ kept, (key, id) ∈ c.entries ∧ c.Latest key kept ∧ c.Enough key v.bytes limit kept ∧
      (c.publish key id limit entry v).resident =
        v.bytes + c.bytesIn ((c.others key).filter kept)) ∨
    (c.publish key id limit entry v).resident ≤ c.resident := by
  have hnodup : c.entries.Nodup := Nodup.of_map _ hkeys
  rw [publish_resident_fit limit entry v hnodup]
  obtain ⟨hdropped, hdone⟩ := fit_dropped (c := c.weigh id entry v) hnodup key limit
  generalize (c.weigh id entry v).fit key limit = f at hdropped hdone
  rcases weigh_resident hkeys howned entry v with ⟨hin, hresident⟩ | ⟨-, hresident⟩
  · left
    have hown : (key, id) ∈ f.entries := by
      by_contra hnot
      exact absurd rfl (of_decide_eq_true (hdropped.latest _ hin hnot).1)
    have hsame : ∀ e ∈ c.others key, (c.weigh id entry v).droppable e = c.droppable e :=
      fun e he => weigh_droppable_ne (howned.others_ne he)
    obtain ⟨kept, hkept⟩ : ∃ kept : κ × Nat → Bool, ∀ e, kept e = true ↔ e ∈ f.entries :=
      ⟨fun e => decide (e ∈ f.entries), fun _ => decide_eq_true_iff⟩
    have hperm : ((c.others key).filter kept).Perm (f.others key) := by
      refine (perm_ext_iff_of_nodup ((hnodup.filter _).filter _)
        ((hdropped.sub.nodup hnodup).filter _)).mpr fun e => ?_
      rw [mem_filter, mem_filter, mem_filter, hkept]
      exact ⟨fun ⟨⟨_, hkey⟩, hf⟩ => ⟨hf, hkey⟩,
        fun ⟨hf, hkey⟩ => ⟨⟨hdropped.sub.subset hf, hkey⟩, hf⟩⟩
    have hfit : f.resident = v.bytes + c.bytesIn ((c.others key).filter kept) := by
      have hsplit := bytesIn_perm (c := f)
        (assoc_split ((hdropped.sub.map _).nodup hkeys) hown)
      rw [bytesIn_cons, hdropped.bytesOf, weigh_bytesOf_self (e := (key, id)) rfl] at hsplit
      refine hsplit.trans (congrArg (v.bytes + ·) ?_)
      rw [bytesIn_perm hperm]
      refine bytesIn_congr fun e he => ?_
      rw [hdropped.bytesOf]
      exact weigh_bytesOf_ne (howned.others_ne (mem_of_mem_filter (hperm.mem_iff.mpr he)))
    refine ⟨kept, hin, fun e he hnot => ?_, ?_, hfit⟩
    · have hgone : e ∉ f.entries := fun hf => by
        rw [(hkept e).mpr hf] at hnot
        cases hnot
      obtain ⟨-, v', hv', hleast⟩ := hdropped.latest e (mem_of_mem_filter he) hgone
      refine ⟨v', (hsame e he).symm.trans hv', fun e' he' hkept' v'' hv'' => ?_⟩
      exact hleast e' ((hkept e').mp hkept') (mem_filter.mp he').2 v''
        ((hsame e' he').trans hv'')
    rcases hdone with hfits | hone | hnone
    · -- the count is within the limit
      have hbalance := hdropped.balance (weigh_covers hkeys howned hcovers entry v)
      have hcounted : (c.weigh id entry v).counted = c.counted + v.bytes := rfl
      have hsplit := bytesIn_split (c := c) (c.others key) kept
      refine Or.inl ?_
      omega
    · -- only the new value is left
      refine Or.inr fun e he hkept' => ?_
      obtain ⟨x, hx⟩ := length_eq_one_iff.mp
        (Nat.le_antisymm hone (length_pos_of_mem hown))
      have hleft := (hkept e).mp hkept'
      rw [hx, mem_singleton] at hleft hown
      rw [hleft, ← hown] at he
      exact absurd rfl (of_decide_eq_true (mem_filter.mp he).2)
    -- none of the others may be dropped
    refine Or.inr fun e he hkept' => bytesOf_undroppable hidle ?_
    rw [← hsame e he, ← hdropped.droppable]
    exact oldest_none hnone ((hkept e).mp hkept') (mem_filter.mp he).2
  · right
    rw [← hresident]
    exact hdropped.resident_le

theorem publish_covers (howned : c.Owned key id)
    (hcovers : c.resident ≤ c.counted) (limit : Nat) (entry : Entry P) (v : Value P) :
    (c.publish key id limit entry v).resident ≤ (c.publish key id limit entry v).counted := by
  have hnodup : c.entries.Nodup := Nodup.of_map _ hkeys
  rw [publish_resident_fit limit entry v hnodup]
  exact (fit_dropped (c := c.weigh id entry v) hnodup key limit).1.covers
    (weigh_covers hkeys howned hcovers entry v)

end

theorem hasRoom_alone (hcovers : c.resident ≤ c.counted) {size limit : Nat} (hsize : size ≤ limit) :
    c.HasRoom key id size limit 0 := by
  intro _ kept _ henough
  rcases henough with hfits | hnothing
  · have hsplit := bytesIn_split (c := c) (c.others key) kept
    have hothers : c.bytesIn (c.others key) ≤ c.resident := bytesIn_sublist filter_sublist
    omega
  have hzero : c.bytesIn ((c.others key).filter kept) = 0 := by
    refine bytesIn_zero fun e he => ?_
    obtain ⟨hother, hkept⟩ := mem_filter.mp he
    exact hnothing e hother hkept
  omega

/-- Where everything fits, nothing has to go. -/
theorem hasRoom_of_le {size limit elsewhere : Nat} (h : size + c.resident + elsewhere ≤ limit) :
    c.HasRoom key id size limit elsewhere := by
  intro _ kept _ _
  have hkept : c.bytesIn ((c.others key).filter kept) ≤ c.resident :=
    bytesIn_sublist (filter_sublist.trans filter_sublist)
  omega

end Publication

/-! ### The sections keep the invariant -/

section Changes

variable {bound : Nat} {c : Cache κ P} {key : κ} {id : Nat}

theorem insert_resident (h : Sound bound c) (key : κ) : (c.insert key).resident ≤ c.resident := by
  have hnew : (c.insert key).bytesOf (key, c.nextId) = 0 :=
    setEntry_bytesOf_self (c := c) rfl
  have hold : (c.insert key).bytesIn (c.others key) = c.bytesIn (c.others key) := by
    refine bytesIn_congr fun e he => ?_
    exact setEntry_bytesOf_ne (c := c) (Nat.ne_of_lt (h.lt e (mem_of_mem_filter he)))
  show (c.insert key).bytesOf (key, c.nextId) + (c.insert key).bytesIn (c.others key) ≤ c.resident
  rw [hnew, hold, Nat.zero_add]
  exact bytesIn_sublist filter_sublist

theorem Sound.insert (h : Sound bound c) (key : κ) : Sound bound (c.insert key) where
  keys := by
    refine nodup_cons.mpr ⟨fun hmem => ?_, (filter_sublist.map _).nodup h.keys⟩
    obtain ⟨e, he, hkey⟩ := mem_map.mp hmem
    exact of_decide_eq_true (mem_filter.mp he).2 hkey
  lt := by
    intro e he
    rcases mem_cons.mp he with rfl | hrest
    · exact Nat.lt_succ_self _
    · exact Nat.lt_succ_of_lt (h.lt e (mem_of_mem_filter hrest))
  idle := by
    intro id entry hentry hb
    by_cases hid : id = c.nextId
    · subst hid
      rw [← Option.some.inj ((setEntry_heap_self c _ _).symm.trans hentry)]
    · exact h.idle id entry ((setEntry_heap_ne c _ hid).symm.trans hentry) hb
  covers := Nat.le_trans (insert_resident h key) h.covers
  within := Nat.le_trans (insert_resident h key) h.within

theorem Sound.remove (h : Sound bound c) (key : κ) :
    Sound bound { c with entries := c.entries.filter (·.1 ≠ key) } where
  keys := (filter_sublist.map _).nodup h.keys
  lt := fun e he => h.lt e (mem_of_mem_filter he)
  idle := h.idle
  covers := Nat.le_trans (bytesIn_sublist filter_sublist) h.covers
  within := Nat.le_trans (bytesIn_sublist filter_sublist) h.within

theorem publish_within (h : Sound bound c) (howned : c.Owned key id) {limit elsewhere : Nat}
    (hlimit : limit ≤ bound) (helsewhere : c.resident + elsewhere ≤ bound) (entry : Entry P)
    (v : Value P) (hroom : c.HasRoom key id v.bytes limit elsewhere) :
    (c.publish key id limit entry v).resident + elsewhere ≤ bound := by
  rcases publish_leaves h.keys howned h.covers h.idle limit entry v with
    ⟨kept, hin, hlatest, henough, hresident⟩ | hless
  · have hleft := hroom hin kept hlatest henough
    omega
  · omega

theorem Sound.publish (h : Sound bound c) (howned : c.Owned key id) {limit : Nat}
    (hlimit : limit ≤ bound) (entry : Entry P) {v : Value P} (hsize : v.bytes ≤ limit) :
    Sound bound (c.publish key id limit entry v) where
  keys := ((fit_dropped (c := c.weigh id entry v) h.nodup key limit).1.sub.map _).nodup h.keys
  lt := by
    have hdropped := (fit_dropped (c := c.weigh id entry v) h.nodup key limit).1
    intro e he
    show e.2 < ((c.weigh id entry v).fit key limit).nextId
    rw [hdropped.nextId]
    exact h.lt e (hdropped.sub.subset he)
  idle := by
    intro id' entry' hentry' hb
    have hdropped := (fit_dropped (c := c.weigh id entry v) h.nodup key limit).1
    by_cases hid : id' = id
    · subst hid
      rw [← Option.some.inj ((setEntry_heap_self _ id' _).symm.trans hentry')] at hb
      cases hb
    have hheap := (setEntry_heap_ne _ _ hid).symm.trans hentry'
    rw [hdropped.heap] at hheap
    exact h.idle id' entry' ((setEntry_heap_ne c _ hid).symm.trans hheap) hb
  covers := publish_covers h.keys howned h.covers limit entry v
  within := publish_within h howned hlimit h.within entry v (hasRoom_alone h.covers hsize)

end Changes

/-! ### Runs -/

/-- A lookup under a limit within `bound`. -/
def Section.Under (bound : Nat) : Section κ P → Prop
  | .lookup _ _ limit _ => limit ≤ bound
  | _ => True

/-- A publication finds room beside `elsewhere` bytes. -/
def State.HasRoom (size : κ → Nat) (elsewhere : Nat) (s : State κ P) : Section κ P → Prop
  | .built reader (some _) => ∀ key id limit now,
      s.jobOf reader = some (.building key id limit now) →
      s.cache.HasRoom key id (size key) limit elsewhere
  | _ => True

section Runs

variable {size : κ → Nat} {bound : Nat} {s t : State κ P}

variable {limit reader id now : Nat} {entry : Entry P}

section

variable (h : Bounded size bound s)

include h

theorem Bounded.start (hlimit : limit ≤ bound)
    (reader : Nat) (key : κ) (now : Nat) :
    Bounded size bound (start size s reader key limit now).1 ∧
      (start size s reader key limit now).1.cache.resident ≤ s.cache.resident := by
  unfold BuildCache.start
  split
  · exact ⟨h.leave reader, Nat.le_refl _⟩
  rename_i hroom
  refine ⟨⟨h.cache.insert key, fun j hj => ?_⟩, insert_resident h.cache key⟩
  rcases mem_cons.mp hj with rfl | hrest
  · refine ⟨?_, hlimit, Nat.lt_succ_self _, fun e he hid => ?_⟩
    · exact Nat.le_of_not_lt fun hlt => hroom (Or.inr hlt)
    rcases mem_cons.mp he with rfl | hold
    · rfl
    · exact absurd hid (Nat.ne_of_lt (h.cache.lt e (mem_of_mem_filter hold)))
  refine (h.jobs j (mem_of_mem_filter hrest)).mono (Nat.le_succ _) fun e he => ?_
  rcases mem_cons.mp he with rfl | hold
  · exact Or.inr (Nat.le_refl _)
  · exact Or.inl (mem_of_mem_filter hold)

theorem Bounded.find (hlimit : limit ≤ bound)
    (reader : Nat) (key : κ) (now : Nat) :
    Bounded size bound (find size s reader key limit now).1 ∧
      (find size s reader key limit now).1.cache.resident ≤ s.cache.resident := by
  unfold BuildCache.find
  split
  · exact h.start hlimit reader key now
  split
  · exact h.start hlimit reader key now
  rename_i entry hentry
  split
  · rename_i v hv
    exact h.hit hentry hv now
  split
  · refine ⟨⟨h.cache, fun j hj => ?_⟩, Nat.le_refl _⟩
    rcases mem_cons.mp hj with rfl | hrest
    · exact hlimit
    · exact h.jobs j (mem_of_mem_filter hrest)
  · exact h.start hlimit reader key now

theorem Bounded.resume {key : κ}
    (hjob : s.jobOf reader = some (.waiting key id limit now))
    (hentry : s.cache.heap id = some entry) :
    Bounded size bound (resume size s reader key id limit now entry).1 ∧
      (resume size s reader key id limit now entry).1.cache.resident ≤ s.cache.resident := by
  unfold BuildCache.resume
  split
  · rename_i v hv
    exact (h.leave reader).hit hentry hv now
  · exact h.start (h.job hjob) reader key now

theorem Bounded.fail
    (hentry : s.cache.heap id = some entry) (reader : Nat) (key : κ) (limit now : Nat) :
    Bounded size bound (finish size s reader key id limit now entry none).1 ∧
      (finish size s reader key id limit now entry none).1.cache.resident ≤ s.cache.resident := by
  have hset : ∀ c : Cache κ P, Sound bound c → c.heap = s.cache.heap →
      Sound bound (c.setEntry id { entry with building := false }) ∧
        (c.setEntry id { entry with building := false }).resident = c.resident := by
    intro c hc hheap
    have hbytes := same_bytes (c := c) { entry with building := false }
      ((congrFun hheap id).trans hentry) rfl
    exact ⟨hc.setEntry (fun hb => nomatch hb) hbytes, setEntry_resident hbytes⟩
  simp only [finish]
  split
  · obtain ⟨hsound, hresident⟩ := hset _ (h.cache.remove key) rfl
    refine ⟨⟨hsound, fun j hj => ?_⟩, ?_⟩
    · exact (h.jobs j (mem_of_mem_filter hj)).mono (Nat.le_refl _) fun e he =>
        Or.inl (mem_of_mem_filter he)
    rw [hresident]
    exact bytesIn_sublist filter_sublist
  obtain ⟨hsound, hresident⟩ := hset _ h.cache rfl
  refine ⟨⟨hsound, fun j hj => ?_⟩, Nat.le_of_eq hresident⟩
  exact (h.jobs j (mem_of_mem_filter hj)).mono (Nat.le_refl _) fun e he => Or.inl he

theorem Bounded.publish {key : κ}
    (hjob : s.jobOf reader = some (.building key id limit now)) (entry : Entry P) (payload : P) :
    Bounded size bound (finish size s reader key id limit now entry (some payload)).1 := by
  obtain ⟨hsize, hlimit, -, howned⟩ := h.job hjob
  have hdropped := (fit_dropped (c := s.cache.weigh id entry ⟨payload, size key, now⟩)
    h.cache.nodup key limit).1
  refine ⟨h.cache.publish howned hlimit entry hsize, fun j hj => ?_⟩
  exact (h.jobs j (mem_of_mem_filter hj)).mono (Nat.le_of_eq hdropped.nextId.symm)
    fun e he => Or.inl (hdropped.sub.subset he)

/-- **Every section keeps the invariant**, and what is in the map within its bound beside
`elsewhere` bytes, where a publication finds room. -/
theorem Bounded.step {e : Section κ P} (hunder : e.Under bound)
    (hs : step size s e = some t) :
    Bounded size bound t ∧
      ∀ elsewhere, s.HasRoom size elsewhere e → s.cache.resident + elsewhere ≤ bound →
        t.cache.resident + elsewhere ≤ bound := by
  have hless : ∀ {t : State κ P}, Bounded size bound t ∧ t.cache.resident ≤ s.cache.resident →
      Bounded size bound t ∧
        ∀ elsewhere, s.HasRoom size elsewhere e → s.cache.resident + elsewhere ≤ bound →
          t.cache.resident + elsewhere ≤ bound :=
    fun ⟨ht, hle⟩ => ⟨ht, fun _ _ hwithin => Nat.le_trans (Nat.add_le_add_right hle _) hwithin⟩
  cases e with
  | lookup reader key limit now =>
    obtain ⟨-, rfl⟩ := when_eq_some hs
    exact hless (h.find hunder reader key now)
  | wake reader =>
    simp only [BuildCache.step] at hs
    split at hs
    · rename_i key id limit now hjob
      split at hs
      · rename_i entry hentry
        obtain ⟨-, rfl⟩ := when_eq_some hs
        exact hless (h.resume hjob hentry)
      · cases hs
    · cases hs
  | built reader result =>
    simp only [BuildCache.step] at hs
    split at hs
    · rename_i key id limit now hjob
      split at hs
      · rename_i entry hentry
        cases hs
        cases result with
        | none => exact hless (h.fail hentry reader key limit now)
        | some payload =>
          refine ⟨h.publish hjob entry payload, fun elsewhere hroom hwithin => ?_⟩
          obtain ⟨-, hlimit, -, howned⟩ := h.job hjob
          exact publish_within h.cache howned hlimit hwithin entry _
            (hroom key id limit now hjob)
      · cases hs
    · cases hs
  | thrown reader =>
    simp only [BuildCache.step] at hs
    split at hs
    · cases hs
      exact hless ⟨h.leave reader, Nat.le_refl _⟩
    · cases hs

end

end Runs

end DenseCore.Lib.BuildCache
