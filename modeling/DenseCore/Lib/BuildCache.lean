/-
A cache whose readers build what it lacks.

A reader that finds no entry under its key puts one in that is being built, makes the
value outside the lock, and publishes it or takes the entry out again.  Others that find
the entry meanwhile wait for it.  After a publication the values used longest ago are
dropped, as long as more bytes are counted than the reader's limit allows.

Entries have an identity, for a reader may hold one that is no longer in the map.  The
count is kept beside the map, and is no more than an upper bound of what the map holds:
the waiters of a failed build all go on to build, each putting its entry in the place of
the one before.
-/
import Mathlib.Algebra.Order.BigOperators.Group.List
import Mathlib.Algebra.Order.Ring.Nat
import Mathlib.Data.List.MinMax
import DenseCore.Lib.Parts
import DenseCore.Lib.Trace

namespace DenseCore.Lib.BuildCache

open List

variable {κ P : Type}

/-! ### Values and entries -/

/-- A value with its size and its last use. -/
structure Value (P : Type) where
  payload : P
  bytes : Nat
  lastUse : Nat

/-- An entry, which has a value once it is built. -/
structure Entry (P : Type) where
  value : Option (Value P)
  building : Bool

/-- The map of a cache, its entries, and its count of bytes. -/
structure Cache (κ P : Type) where
  entries : List (κ × Nat)
  heap : Nat → Option (Entry P)
  nextId : Nat
  counted : Nat

/-- What a reader between two sections is doing, under which limit and since when. -/
inductive Job (κ : Type) where
  | waiting (key : κ) (id limit now : Nat)
  | building (key : κ) (id limit now : Nat)

/-- A cache with the jobs that are under way. -/
structure State (κ P : Type) where
  cache : Cache κ P
  jobs : List (Nat × Job κ)

/-- An empty cache. -/
def State.init : State κ P where
  cache := { entries := [], heap := fun _ => none, nextId := 0, counted := 0 }
  jobs := []

/-! ### The bytes of a cache -/

namespace Cache

variable (c : Cache κ P)

/-- The cache with one entry replaced. -/
def setEntry (id : Nat) (entry : Entry P) : Cache κ P :=
  { c with heap := Function.update c.heap id (some entry) }

/-- The value of an entry, counted. -/
def weigh (id : Nat) (entry : Entry P) (v : Value P) : Cache κ P :=
  { c.setEntry id { entry with value := some v } with counted := c.counted + v.bytes }

/-- The size of an entry, zero while it is built. -/
def bytesOf (e : κ × Nat) : Nat :=
  match (c.heap e.2).bind (·.value) with
  | some v => v.bytes
  | none => 0

/-- The size of some entries together. -/
def bytesIn (es : List (κ × Nat)) : Nat := (es.map c.bytesOf).sum

/-- The bytes of the values in the map. -/
def resident : Nat := c.bytesIn c.entries

end Cache

section Bytes

variable {c : Cache κ P}

theorem bytesOf_eq {e : κ × Nat} {entry : Entry P} (h : c.heap e.2 = some entry) :
    c.bytesOf e = match entry.value with
      | some v => v.bytes
      | none => 0 := by
  unfold Cache.bytesOf
  rw [h]
  rfl

theorem bytesIn_cons (e : κ × Nat) (es : List (κ × Nat)) :
    c.bytesIn (e :: es) = c.bytesOf e + c.bytesIn es :=
  rfl

theorem bytesIn_perm {es es' : List (κ × Nat)} (h : es.Perm es') : c.bytesIn es = c.bytesIn es' :=
  (h.map c.bytesOf).sum_eq

theorem bytesIn_sublist {es es' : List (κ × Nat)} (h : es.Sublist es') :
    c.bytesIn es ≤ c.bytesIn es' :=
  (h.map c.bytesOf).sum_le_sum fun _ _ => Nat.zero_le _

theorem bytesIn_congr {c c' : Cache κ P} {es : List (κ × Nat)}
    (h : ∀ e ∈ es, c'.bytesOf e = c.bytesOf e) : c'.bytesIn es = c.bytesIn es :=
  congrArg List.sum (map_congr_left h)

/-- The entries that pass a test, and those that do not. -/
theorem bytesIn_split (es : List (κ × Nat)) (p : κ × Nat → Bool) :
    c.bytesIn (es.filter p) + c.bytesIn (es.filter (!p ·)) = c.bytesIn es := by
  induction es with
  | nil => rfl
  | cons e rest ih =>
    cases hp : p e with
    | true =>
      rw [filter_cons_of_pos hp, filter_cons_of_neg (by simp [hp]), bytesIn_cons, bytesIn_cons]
      omega
    | false =>
      rw [filter_cons_of_neg (by simp [hp]), filter_cons_of_pos (by simp [hp]),
        bytesIn_cons, bytesIn_cons]
      omega

theorem bytesIn_zero {es : List (κ × Nat)} (h : ∀ e ∈ es, c.bytesOf e = 0) : c.bytesIn es = 0 := by
  refine sum_eq_zero fun n hn => ?_
  obtain ⟨e, he, rfl⟩ := mem_map.mp hn
  exact h e he

theorem setEntry_heap_self (c : Cache κ P) (id : Nat) (entry : Entry P) :
    (c.setEntry id entry).heap id = some entry := by
  simp [Cache.setEntry]

variable {id : Nat} {entry : Entry P} {v : Value P}

theorem setEntry_heap_ne (c : Cache κ P) {id' : Nat} (entry : Entry P) (hne : id' ≠ id) :
    (c.setEntry id entry).heap id' = c.heap id' := by
  simp [Cache.setEntry, hne]

theorem setEntry_bytesOf_ne {e : κ × Nat} (hne : e.2 ≠ id) :
    (c.setEntry id entry).bytesOf e = c.bytesOf e := by
  unfold Cache.bytesOf
  rw [setEntry_heap_ne c entry hne]

theorem setEntry_bytesOf_self {id : Nat} {entry : Entry P} {e : κ × Nat} (heq : e.2 = id) :
    (c.setEntry id entry).bytesOf e = match entry.value with
      | some v => v.bytes
      | none => 0 := by
  subst heq
  exact bytesOf_eq (setEntry_heap_self c e.2 entry)

theorem weigh_bytesOf_ne {e : κ × Nat} (hne : e.2 ≠ id) :
    (c.weigh id entry v).bytesOf e = c.bytesOf e :=
  setEntry_bytesOf_ne (c := c) hne

theorem weigh_bytesOf_self {e : κ × Nat}
    (heq : e.2 = id) : (c.weigh id entry v).bytesOf e = v.bytes :=
  setEntry_bytesOf_self (c := c) heq

end Bytes

/-! ### The value used longest ago -/

namespace Cache

/-- The value of an entry that may be dropped. -/
def droppable (c : Cache κ P) (e : κ × Nat) : Option (Value P) :=
  match c.heap e.2 with
  | some entry => if entry.building then none else entry.value
  | none => none

/-- The entries that may be dropped, among those a test admits. -/
def candidates (c : Cache κ P) (ok : κ → Bool) : List ((κ × Nat) × Value P) :=
  c.entries.filterMap fun e => if ok e.1 then (c.droppable e).map fun v => (e, v) else none

/-- The one used longest ago. -/
def oldest (c : Cache κ P) (ok : κ → Bool) : Option ((κ × Nat) × Value P) :=
  (c.candidates ok).argmin (·.2.lastUse)

end Cache

section Oldest

variable {c : Cache κ P} {ok : κ → Bool}

variable {v : Value P}

theorem droppable_some {e : κ × Nat} (h : c.droppable e = some v) :
    ∃ entry, c.heap e.2 = some entry ∧ entry.building = false ∧ entry.value = some v := by
  unfold Cache.droppable at h
  split at h
  · rename_i entry hentry
    split at h
    · cases h
    rename_i hb
    exact ⟨entry, hentry, (Bool.not_eq_true _).mp hb, h⟩
  · cases h

theorem bytesOf_droppable {e : κ × Nat} (h : c.droppable e = some v) : c.bytesOf e = v.bytes := by
  obtain ⟨entry, hentry, -, hv⟩ := droppable_some h
  rw [bytesOf_eq hentry, hv]

theorem mem_candidates {x : (κ × Nat) × Value P} :
    x ∈ c.candidates ok ↔ x.1 ∈ c.entries ∧ ok x.1.1 = true ∧ c.droppable x.1 = some x.2 := by
  unfold Cache.candidates
  rw [mem_filterMap]
  constructor
  · rintro ⟨e, he, hx⟩
    split at hx
    · rename_i hok
      obtain ⟨v, hv, rfl⟩ := Option.map_eq_some_iff.mp hx
      exact ⟨he, hok, hv⟩
    · cases hx
  rintro ⟨he, hok, hv⟩
  refine ⟨x.1, he, ?_⟩
  rw [if_pos hok, hv]
  rfl

theorem oldest_some {e : κ × Nat} (h : c.oldest ok = some (e, v)) :
    (e ∈ c.entries ∧ ok e.1 = true ∧ c.droppable e = some v) ∧
      ∀ e' ∈ c.entries, ok e'.1 = true → ∀ v', c.droppable e' = some v' → v.lastUse ≤ v'.lastUse :=
  ⟨mem_candidates.mp (argmin_mem h), fun e' he' hok' v' hv' =>
    le_of_mem_argmin (f := fun x : (κ × Nat) × Value P => x.2.lastUse)
      (mem_candidates (x := (e', v')).mpr ⟨he', hok', hv'⟩) h⟩

theorem oldest_none (h : c.oldest ok = none) {e : κ × Nat} (he : e ∈ c.entries)
    (hok : ok e.1 = true) : c.droppable e = none := by
  have hnil : c.candidates ok = [] := argmin_eq_none.mp h
  cases hv : c.droppable e with
  | none => rfl
  | some v =>
    have hmem : (e, v) ∈ c.candidates ok := mem_candidates.mpr ⟨he, hok, hv⟩
    rw [hnil] at hmem
    cases hmem

theorem weigh_droppable_ne {id : Nat} {entry : Entry P} {e : κ × Nat}
    (hne : e.2 ≠ id) : (c.weigh id entry v).droppable e = c.droppable e := by
  have hheap : (c.weigh id entry v).heap e.2 = c.heap e.2 := setEntry_heap_ne c _ hne
  unfold Cache.droppable
  rw [hheap]

theorem bytesOf_undroppable
    (hidle : ∀ id entry, c.heap id = some entry → entry.building = true → entry.value = none)
    {e : κ × Nat} (h : c.droppable e = none) : c.bytesOf e = 0 := by
  unfold Cache.bytesOf
  cases hentry : c.heap e.2 with
  | none => rfl
  | some entry =>
    have hnone : entry.value = none := by
      unfold Cache.droppable at h
      rw [hentry] at h
      cases hb : entry.building with
      | true => exact hidle _ _ hentry hb
      | false => simpa [hb] using h
    rw [Option.bind_some, hnone]

/-- What is left when values have been dropped. -/
structure Dropped (ok : κ → Bool) (c c' : Cache κ P) : Prop where
  sub : c'.entries.Sublist c.entries
  heap : c'.heap = c.heap
  nextId : c'.nextId = c.nextId
  balance : c.resident ≤ c.counted → c'.counted + c.resident = c.counted + c'.resident
  latest : ∀ e ∈ c.entries, e ∉ c'.entries → ok e.1 = true ∧ ∃ v, c.droppable e = some v ∧
      ∀ e' ∈ c'.entries, ok e'.1 = true → ∀ v', c.droppable e' = some v' → v.lastUse ≤ v'.lastUse

theorem Dropped.refl (ok : κ → Bool) (c : Cache κ P) : Dropped ok c c :=
  ⟨Sublist.refl _, rfl, rfl, fun _ => rfl, fun _ he hnot => absurd he hnot⟩

theorem Dropped.bytesOf {c' : Cache κ P} (h : Dropped ok c c') (e : κ × Nat) :
    c'.bytesOf e = c.bytesOf e := by
  unfold Cache.bytesOf
  rw [h.heap]

theorem Dropped.droppable {c' : Cache κ P} (h : Dropped ok c c') (e : κ × Nat) :
    c'.droppable e = c.droppable e := by
  unfold Cache.droppable
  rw [h.heap]

theorem Dropped.resident_le {c' : Cache κ P} (h : Dropped ok c c') : c'.resident ≤ c.resident := by
  unfold Cache.resident
  rw [bytesIn_congr fun e _ => h.bytesOf e]
  exact bytesIn_sublist h.sub

theorem Dropped.covers {c' : Cache κ P} (h : Dropped ok c c') (hcovers : c.resident ≤ c.counted) :
    c'.resident ≤ c'.counted := by
  have hbalance := h.balance hcovers
  omega

theorem Dropped.trans {c' c'' : Cache κ P} (h : Dropped ok c c') (h' : Dropped ok c' c'') :
    Dropped ok c c'' where
  sub := h'.sub.trans h.sub
  heap := h'.heap.trans h.heap
  nextId := h'.nextId.trans h.nextId
  balance := by
    intro hcovers
    have hfirst := h.balance hcovers
    have hsecond := h'.balance (h.covers hcovers)
    omega
  latest := by
    intro e he hnot
    by_cases hmid : e ∈ c'.entries
    · obtain ⟨hok, v, hv, hleast⟩ := h'.latest e hmid hnot
      refine ⟨hok, v, (h.droppable e).symm.trans hv, fun e' he' hok' v' hv' => ?_⟩
      exact hleast e' he' hok' v' ((h.droppable e').trans hv')
    obtain ⟨hok, v, hv, hleast⟩ := h.latest e he hmid
    exact ⟨hok, v, hv, fun e' he' => hleast e' (h'.sub.subset he')⟩

end Oldest

/-! ### Dropping values -/

variable [DecidableEq κ]

namespace Cache

/-- An entry is evicted. -/
def drop (c : Cache κ P) (e : κ × Nat) (v : Value P) : Cache κ P :=
  { c with entries := c.entries.filter (· ≠ e), counted := c.counted - v.bytes }

/-- Entries are evicted, the longest unused first, as long as more must go. -/
def dropWhile (ok : κ → Bool) (more : Cache κ P → Bool) : Nat → Cache κ P → Cache κ P
  | 0, c => c
  | fuel + 1, c =>
    if more c then
      match c.oldest ok with
      | some (e, v) => dropWhile ok more fuel (c.drop e v)
      | none => c
    else c

/-- Drop values until the count is within a limit, but never one's own entry.  Each round
drops one, so their number bounds the rounds. -/
def fit (c : Cache κ P) (own : κ) (limit : Nat) : Cache κ P :=
  dropWhile (· ≠ own) (fun c => limit < c.counted && 1 < c.entries.length) c.entries.length c

/-- Entries are evicted until the cache is no larger than a target. -/
def trim (c : Cache κ P) (target : Nat) : Cache κ P :=
  dropWhile (fun _ => true) (fun c => target < c.counted) c.entries.length c

end Cache

section Dropping

variable {c : Cache κ P} {ok : κ → Bool}

/-- **One round.** -/
theorem dropped_one (hnodup : c.entries.Nodup) {e : κ × Nat} {v : Value P}
    (h : c.oldest ok = some (e, v)) : Dropped ok c (c.drop e v) := by
  obtain ⟨⟨hin, hok, hv⟩, hleast⟩ := oldest_some h
  have hsum : c.resident = v.bytes + (c.drop e v).resident := by
    have hperm := bytesIn_perm (c := c) (nodup_split hnodup hin)
    rw [bytesIn_cons, bytesOf_droppable hv] at hperm
    exact hperm
  refine ⟨filter_sublist, rfl, rfl, fun hcovers => ?_, fun e' he' hnot => ?_⟩
  · show c.counted - v.bytes + c.resident = c.counted + (c.drop e v).resident
    omega
  obtain rfl : e' = e := by
    by_contra hne
    exact hnot (mem_filter.mpr ⟨he', decide_eq_true hne⟩)
  exact ⟨hok, v, hv, fun e'' he'' => hleast e'' (mem_of_mem_filter he'')⟩

/-- **Values are dropped in the order of their last use, until there are enough of them or
none is left.** -/
theorem dropped_while (ok : κ → Bool) (more : Cache κ P → Bool) (fuel : Nat) :
    ∀ c : Cache κ P, c.entries.Nodup → Dropped ok c (Cache.dropWhile ok more fuel c) ∧
      (c.entries.length ≤ fuel → more (Cache.dropWhile ok more fuel c) = false ∨
          (Cache.dropWhile ok more fuel c).oldest ok = none) := by
  induction fuel with
  | zero =>
    intro c _
    refine ⟨Dropped.refl ok c, fun hlength => Or.inr ?_⟩
    have hnil : c.entries = [] := eq_nil_of_length_eq_zero (Nat.le_zero.mp hlength)
    show c.oldest ok = none
    unfold Cache.oldest Cache.candidates
    rw [hnil]
    rfl
  | succ fuel ih =>
    intro c hnodup
    rw [Cache.dropWhile]
    split
    · split
      · rename_i e v holdest
        have hround := dropped_one hnodup holdest
        obtain ⟨hrest, hdone⟩ := ih (c.drop e v) (hround.sub.nodup hnodup)
        refine ⟨hround.trans hrest, fun hlength => hdone ?_⟩
        have hperm := (nodup_split hnodup (oldest_some holdest).1.1).length_eq
        rw [length_cons] at hperm
        show (c.entries.filter (· ≠ e)).length ≤ fuel
        omega
      rename_i hnone
      exact ⟨Dropped.refl ok c, fun _ => Or.inr hnone⟩
    rename_i hmore
    exact ⟨Dropped.refl ok c, fun _ => Or.inl ((Bool.not_eq_true _).mp hmore)⟩

theorem fit_dropped (hnodup : c.entries.Nodup) (own : κ) (limit : Nat) :
    Dropped (· ≠ own) c (c.fit own limit) ∧
      ((c.fit own limit).counted ≤ limit ∨ (c.fit own limit).entries.length ≤ 1 ∨
        (c.fit own limit).oldest (· ≠ own) = none) := by
  obtain ⟨hdropped, hdone⟩ := dropped_while (· ≠ own)
    (fun c : Cache κ P => limit < c.counted && 1 < c.entries.length) c.entries.length c hnodup
  refine ⟨hdropped, ?_⟩
  rcases hdone (Nat.le_refl _) with hmore | hnone
  · rw [Bool.and_eq_false_iff] at hmore
    rcases hmore with hfits | hone
    · exact Or.inl (Nat.le_of_not_lt (of_decide_eq_false hfits))
    · exact Or.inr (Or.inl (Nat.le_of_not_lt (of_decide_eq_false hone)))
  · exact Or.inr (Or.inr hnone)

theorem trim_dropped (hnodup : c.entries.Nodup) (target : Nat) :
    Dropped (fun _ => true) c (c.trim target) :=
  (dropped_while _ _ _ c hnodup).1

end Dropping

/-! ### The sections of a reader -/

/-- A new entry, in the place of the one that its key may have. -/
def Cache.insert (c : Cache κ P) (key : κ) : Cache κ P :=
  { c.setEntry c.nextId { value := none, building := true } with
    entries := (key, c.nextId) :: c.entries.filter (·.1 ≠ key)
    nextId := c.nextId + 1 }

/-- What a reader is building. -/
def State.jobOf (s : State κ P) (reader : Nat) : Option (Job κ) :=
  (s.jobs.find? (·.1 = reader)).map (·.2)

/-- What all others are building. -/
def State.others (s : State κ P) (reader : Nat) : List (Nat × Job κ) :=
  s.jobs.filter (·.1 ≠ reader)

/-- The value is there; it is marked as used. -/
def hit (s : State κ P) (id : Nat) (entry : Entry P) (v : Value P) (now : Nat) :
    State κ P × Option P :=
  ({ s with cache := s.cache.setEntry id { entry with value := some { v with lastUse := now } } },
    some v.payload)

/-- A section of a reader under the lock of the cache. -/
inductive Section (κ P : Type) where
  | lookup (reader : Nat) (key : κ) (limit now : Nat)
  | wake (reader : Nat)
  | built (reader : Nat) (result : Option P)
  /-- an exception leaves the reader while it builds -/
  | thrown (reader : Nat)

section Sections

variable (size : κ → Nat)

variable (s : State κ P)

/-- There is no value: build one, if the cache may hold it. -/
def start (reader : Nat) (key : κ) (limit now : Nat) : State κ P × Option P :=
  if limit = 0 ∨ limit < size key then ({ s with jobs := s.others reader }, none)
  else
    ({ s with cache := s.cache.insert key
              jobs := (reader, .building key s.cache.nextId limit now) :: s.others reader },
      none)

/-- A reader asks for a key. -/
def find (s : State κ P) (reader : Nat) (key : κ) (limit now : Nat) : State κ P × Option P :=
  match s.cache.entries.find? (·.1 = key) with
  | none => start size s reader key limit now
  | some (_, id) =>
    match s.cache.heap id with
    | none => start size s reader key limit now
    | some entry =>
      match entry.value with
      | some v => hit s id entry v now
      | none =>
        if entry.building then
          ({ s with jobs := (reader, .waiting key id limit now) :: s.others reader }, none)
        else start size s reader key limit now

/-- A waiter goes on. -/
def resume (reader : Nat) (key : κ) (id limit now : Nat) (entry : Entry P) : State κ P × Option P :=
  match entry.value with
  | some v => hit { s with jobs := s.others reader } id entry v now
  | none => start size s reader key limit now

/-- The value of an entry, with what has to go for it. -/
def Cache.publish (c : Cache κ P) (key : κ) (id limit : Nat) (entry : Entry P) (v : Value P) :
    Cache κ P :=
  ((c.weigh id entry v).fit key limit).setEntry id { entry with value := some v, building := false }

/-- The builder publishes, or takes its entry out again. -/
def finish (reader : Nat) (key : κ) (id limit now : Nat) (entry : Entry P)
    (result : Option P) : State κ P × Option P :=
  match result with
  | some payload =>
    ({ cache := s.cache.publish key id limit entry ⟨payload, size key, now⟩
       jobs := s.others reader }, some payload)
  | none =>
    let c := if entry.value.isNone then
        { s.cache with entries := s.cache.entries.filter (·.1 ≠ key) }
      else s.cache
    ({ cache := c.setEntry id { entry with building := false }, jobs := s.others reader }, none)

/-- One section; `none` where it cannot be taken. -/
def step : Section κ P → Option (State κ P)
  | .lookup reader key limit now =>
    when (s.jobOf reader = none ∧ 0 < size key) (find size s reader key limit now).1
  | .wake reader =>
    match s.jobOf reader with
    | some (.waiting key id limit now) =>
      match s.cache.heap id with
      | some entry =>
        when (entry.building = false) (resume size s reader key id limit now entry).1
      | none => none
    | _ => none
  | .built reader result =>
    match s.jobOf reader with
    | some (.building key id limit now) =>
      match s.cache.heap id with
      | some entry => some (finish size s reader key id limit now entry result).1
      | none => none
    | _ => none
  | .thrown reader =>
    match s.jobOf reader with
    | some (.building _ _ _ _) => some { s with jobs := s.others reader }
    | _ => none

end Sections

end DenseCore.Lib.BuildCache
