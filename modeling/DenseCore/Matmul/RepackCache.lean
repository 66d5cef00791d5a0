/-
The caches of repacked weights.

`GetOrCreateQ8RepackedGemvWeight` (`llm/matmul/quant_cache.cpp`) keeps one packed copy
per address and shape, with a copy of the last one in each thread.
`GetOrCreateQ4KRepackedGemvWeight` (`kernels/q4k_repacked_gemv.cpp`) adds a fingerprint
of the weight to the key, which hashes the size and at most the first and last 4 KiB.
It packs outside its lock: the thread that finds no entry puts one in that is still
building, others that find it wait, and entries are evicted by last use.

A history is a list of events: writes to memory, whether by loading a model or by
`DenseCoreSetWeight`, and the steps of lookups.  A lookup that packs or waits takes
several, and histories in which a weight is written while a lookup on it is under way
are left out, being data races.  The repacking itself is ggml's and a parameter.
-/
import Mathlib.Data.List.Basic

namespace DenseCore.Repack

/-! ### Memory and fingerprints -/

abbrev Memory := Nat → UInt8

/-- The bytes from an address on. -/
def readBytes (mem : Memory) (ptr n : Nat) : List UInt8 :=
  (List.range n).map fun i => mem (ptr + i)

/-- The memory after a write. -/
def writeBytes (mem : Memory) (addr : Nat) (data : List UInt8) : Memory :=
  fun a => if addr ≤ a ∧ a < addr + data.length then data.getD (a - addr) 0 else mem a

/-- One FNV-1a round. -/
def fnvRound (h : UInt64) (byte : UInt8) : UInt64 := (h ^^^ byte.toUInt64) * 1099511628211

/-- `mix_scalar`. -/
def mixScalar (h : UInt64) (bytes : List UInt8) : UInt64 := bytes.foldl fnvRound h

/-- The bytes of a 64-bit value, lowest first. -/
def leBytes (x : UInt64) : List UInt8 :=
  (List.range 8).map fun i => (x >>> (UInt64.ofNat (8 * i))).toUInt8

/-- The four hash streams. -/
structure Lanes where
  l0 : UInt64
  l1 : UInt64
  l2 : UInt64
  l3 : UInt64

/-- Byte `i` of a run goes to stream `i % 4`. -/
def Lanes.round (l : Lanes) (i : Nat) (byte : UInt8) : Lanes :=
  match i % 4 with
  | 0 => { l with l0 := fnvRound l.l0 byte }
  | 1 => { l with l1 := fnvRound l.l1 byte }
  | 2 => { l with l2 := fnvRound l.l2 byte }
  | _ => { l with l3 := fnvRound l.l3 byte }

/-- `mix`. -/
def Lanes.mix (l : Lanes) (bytes : List UInt8) : Lanes :=
  bytes.zipIdx.foldl (fun l (p : UInt8 × Nat) => l.round p.2 p.1) l

/-- `kWindow`. -/
def window : Nat := 4096

/-- `FingerprintQ4KRepackedGemvWeight`. -/
def fingerprint (raw : List UInt8) : UInt64 :=
  let n := raw.length
  if n = 0 then 0
  else
    let h := mixScalar 1469598103934665603 (leBytes (UInt64.ofNat n))
    let start : Lanes := ⟨h, h, h, h⟩
    let l := if n ≤ window * 2 then start.mix raw
      else (start.mix (raw.take window)).mix (raw.drop (n - window))
    mixScalar h (leBytes l.l0 ++ leBytes l.l1 ++ leBytes l.l2 ++ leBytes l.l3)

/-! ### Keys and entries -/

/-- A weight matrix: its address and shape. -/
structure Region where
  ptr : Nat
  rows : Nat
  cols : Nat
deriving DecidableEq

/-- Bytes of a Q8_0 matrix: blocks of 32 in 34 bytes. -/
def Region.q8Bytes (r : Region) : Nat := r.rows * (r.cols / 32 * 34)

/-- Bytes of a Q4_K matrix: superblocks of 256 in 144 bytes. -/
def Region.q4kBytes (r : Region) : Nat := r.rows * (r.cols / 256 * 144)

/-- `packed_bytes`: eight rows of a superblock in 1152 bytes. -/
def Region.q4kPackedBytes (r : Region) : Nat := r.rows / 8 * (r.cols / 256) * 1152

/-- `Q4KRepackedGemvKey`. -/
structure Key where
  region : Region
  fingerprint : UInt64
deriving DecidableEq

/-- `Q4KRepackedGemvWeight`. -/
structure Weight (P : Type) where
  packed : P
  bytes : Nat
  lastUse : Nat

/-- `Q4KRepackedGemvCacheEntry`.  Threads hold on to entries that have left the
cache, so entries have an identity; the key one was made for is kept beside it. -/
structure Entry (P : Type) where
  key : Key
  weight : Option (Weight P)
  building : Bool

/-- The map of packed weights, its entries, and its count of bytes. -/
structure Q4kCache (P : Type) where
  entries : List (Key × Nat)
  heap : Nat → Option (Entry P)
  nextId : Nat
  cacheBytes : Nat
  useClock : Nat

/-- What a thread inside a lookup is doing. -/
inductive Pending where
  | waiting (key : Key) (id : Nat) (cacheLimit now : Nat)
  | building (key : Key) (id : Nat) (cacheLimit now : Nat)

/-- The key that is looked for. -/
def Pending.key : Pending → Key
  | .waiting key _ _ _ => key
  | .building key _ _ _ => key

/-- The entry that is built or waited for. -/
def Pending.id : Pending → Nat
  | .waiting _ id _ _ => id
  | .building _ id _ _ => id

/-! ### Eviction -/

variable {P : Type}

/-- The weight of an entry that may be evicted. -/
def Q4kCache.evictable (c : Q4kCache P) (e : Key × Nat) : Option (Weight P) :=
  match c.heap e.2 with
  | some entry => if entry.building then none else entry.weight
  | none => none

/-- The entry used longest ago among those a test admits. -/
def Q4kCache.oldest (c : Q4kCache P) (ok : Key → Bool) : Option ((Key × Nat) × Weight P) :=
  c.entries.foldl
    (fun best e =>
      match c.evictable e with
      | some w =>
        if ok e.1 then
          match best with
          | some b => if w.lastUse < b.2.lastUse then some (e, w) else best
          | none => some (e, w)
        else best
      | none => best) none

/-- Drop entries while the cache is over a bound and `more` allows it. -/
def Q4kCache.evictWhile (ok : Key → Bool) (more : Q4kCache P → Bool) : Nat → Q4kCache P → Q4kCache P
  | 0, c => c
  | fuel + 1, c =>
    if more c then
      match c.oldest ok with
      | some (e, w) =>
        evictWhile ok more fuel
          { c with entries := c.entries.filter (· ≠ e), cacheBytes := c.cacheBytes - w.bytes }
      | none => c
    else c

/-- `EvictIfNeededLocked`.  Each round removes an entry, so their number bounds the
rounds. -/
def Q4kCache.evictIfNeeded (c : Q4kCache P) (protectedKey : Key) (cacheLimit : Nat) : Q4kCache P :=
  evictWhile (· ≠ protectedKey)
    (fun c => cacheLimit < c.cacheBytes && 1 < c.entries.length) c.entries.length c

/-- `Q4KRepackedGemvTrimCacheToBytes`. -/
def Q4kCache.trimToBytes (c : Q4kCache P) (target : Nat) : Q4kCache P :=
  evictWhile (fun _ => true) (fun c => target < c.cacheBytes) c.entries.length c

/-! ### Histories -/

/-- What the caches rest on: ggml's repackings and the machine's capabilities. -/
structure Config (P : Type) where
  repackQ8 : List UInt8 → Region → Option P
  repackQ4k : List UInt8 → Region → Option P
  q8Enabled : Bool
  q4kAvailable : Bool

/-- Which cache a lookup goes to. -/
inductive Which where
  | q8
  | q4k
deriving DecidableEq

/-- A lookup and the bytes it found. -/
structure Found where
  cache : Which
  region : Region
  raw : List UInt8

/-- Memory, caches, and what the threads are doing. -/
structure State (P : Type) where
  mem : Memory
  q8 : List (Region × P)
  tls : Nat → Option (Region × P)
  q4k : Q4kCache P
  pending : List (Nat × Pending)
  found : List Found  -- history variable: the lookups so far

/-- Nothing is cached yet. -/
def State.init (mem : Memory) : State P where
  mem := mem
  q8 := []
  tls := fun _ => none
  q4k := { entries := [], heap := fun _ => none, nextId := 0, cacheBytes := 0, useClock := 0 }
  pending := []
  found := []

/-- A write to memory, a step of a lookup, or a trim. -/
inductive Event where
  | write (addr : Nat) (data : List UInt8)
  | q8Lookup (thread : Nat) (r : Region) (force : Bool)
  | q4kLookup (thread : Nat) (r : Region) (cacheLimit : Nat)
  | q4kWake (thread : Nat)
  | q4kBuilt (thread : Nat)
  | trim (target : Nat)

/-- A lookup's result: the packed weight and the bytes at the address now. -/
structure Returned (P : Type) where
  cache : Which
  region : Region
  raw : List UInt8
  packed : P

/-- The bytes of a Q4_K weight, as they are now. -/
def State.q4kRaw (s : State P) (r : Region) : List UInt8 := readBytes s.mem r.ptr r.q4kBytes

/-- The bytes of a Q8 weight, as they are now. -/
def State.q8Raw (s : State P) (r : Region) : List UInt8 := readBytes s.mem r.ptr r.q8Bytes

def State.setEntry (s : State P) (id : Nat) (entry : Entry P) : State P :=
  { s with q4k := { s.q4k with heap := Function.update s.q4k.heap id (some entry) } }

/-- What a thread is doing, if it is inside a lookup. -/
def State.pendingOf (s : State P) (thread : Nat) : Option Pending :=
  (s.pending.find? (·.1 = thread)).map (·.2)

/-- The lookups of the other threads. -/
def State.others (s : State P) (thread : Nat) : List (Nat × Pending) :=
  s.pending.filter (·.1 ≠ thread)

/-- Whether a byte range meets the weight of a lookup under way. -/
def Pending.touches (p : Pending) (addr n : Nat) : Bool :=
  addr < p.key.region.ptr + p.key.region.q4kBytes && p.key.region.ptr < addr + n

/-- `GetOrCreateQ8RepackedGemvWeight`. -/
def q8Lookup (cfg : Config P) (s : State P) (thread : Nat) (r : Region) (force : Bool) :
    State P × Option P :=
  if r.ptr = 0 ∨ r.rows = 0 ∨ r.cols = 0 ∨ r.rows % 4 ≠ 0 ∨ r.cols % 32 ≠ 0 ∨
      (!force && !cfg.q8Enabled) = true then (s, none)
  else
    let s := { s with found := ⟨.q8, r, s.q8Raw r⟩ :: s.found }
    let cached := match s.tls thread with
      | some (key, packed) => if key = r then some packed else none
      | none => none
    match cached with
    | some packed => (s, some packed)
    | none =>
      match s.q8.find? (·.1 = r) with
      | some (_, packed) =>
        ({ s with tls := Function.update s.tls thread (some (r, packed)) }, some packed)
      | none =>
        match cfg.repackQ8 (s.q8Raw r) r with
        | none => (s, none)
        | some packed =>
          ({ s with q8 := (r, packed) :: s.q8
                    tls := Function.update s.tls thread (some (r, packed)) }, some packed)

/-- A hit: the entry's weight, marked as used. -/
def q4kHit (s : State P) (id : Nat) (entry : Entry P) (w : Weight P) (now : Nat) :
    State P × Option P :=
  (s.setEntry id { entry with weight := some { w with lastUse := now } }, some w.packed)

/-- No entry to use: start building one, if the cache may hold it. -/
def q4kBuild (s : State P) (thread : Nat) (key : Key) (cacheLimit now : Nat) : State P × Option P :=
  if cacheLimit = 0 ∨ cacheLimit < key.region.q4kPackedBytes then
    ({ s with pending := s.others thread }, none)
  else
    let id := s.q4k.nextId
    let s := s.setEntry id { key := key, weight := none, building := true }
    ({ s with
        q4k := { s.q4k with entries := (key, id) :: s.q4k.entries.filter (·.1 ≠ key)
                            nextId := id + 1 }
        pending := (thread, .building key id cacheLimit now) :: s.others thread },
      none)

/-- `GetOrCreateQ4KRepackedGemvWeight`, up to the first place where it waits or packs. -/
def q4kLookup (cfg : Config P) (s : State P) (thread : Nat) (r : Region) (cacheLimit : Nat) :
    State P × Option P :=
  if r.ptr = 0 ∨ r.rows = 0 ∨ r.cols = 0 ∨ r.rows % 8 ≠ 0 ∨ r.cols % 256 ≠ 0 ∨
      cfg.q4kAvailable = false ∨ r.q4kPackedBytes = 0 then (s, none)
  else
    let key : Key := ⟨r, fingerprint (s.q4kRaw r)⟩
    let now := s.q4k.useClock + 1
    let s := { s with found := ⟨.q4k, r, s.q4kRaw r⟩ :: s.found
                      q4k := { s.q4k with useClock := now } }
    match s.q4k.entries.find? (·.1 = key) with
    | none => q4kBuild s thread key cacheLimit now
    | some (_, id) =>
      match s.q4k.heap id with
      | none => q4kBuild s thread key cacheLimit now
      | some entry =>
        match entry.weight with
        | some w => q4kHit s id entry w now
        | none =>
          if entry.building then
            ({ s with
                pending := (thread, .waiting key id cacheLimit now) :: s.others thread },
              none)
          else q4kBuild s thread key cacheLimit now

/-- A waiter goes on once its entry is no longer building. -/
def q4kWake (s : State P) (thread : Nat) (key : Key) (id cacheLimit now : Nat) (entry : Entry P) :
    State P × Option P :=
  match entry.weight with
  | some w => q4kHit { s with pending := s.others thread } id entry w now
  | none => q4kBuild s thread key cacheLimit now

/-- The builder packs and publishes, or takes its entry out again. -/
def q4kBuilt (cfg : Config P) (s : State P) (thread : Nat) (key : Key) (id cacheLimit now : Nat)
    (entry : Entry P) : State P × Option P :=
  let s := { s with pending := s.others thread }
  match cfg.repackQ4k (s.q4kRaw key.region) key.region with
  | some packed =>
    let w : Weight P := ⟨packed, key.region.q4kPackedBytes, now⟩
    let s := s.setEntry id { entry with weight := some w }
    let c := { s.q4k with cacheBytes := s.q4k.cacheBytes + w.bytes }
    let s := { s with q4k := c.evictIfNeeded key cacheLimit }
    (s.setEntry id { entry with weight := some w, building := false }, some packed)
  | none =>
    let s :=
      if entry.weight.isNone then
        { s with q4k := { s.q4k with entries := s.q4k.entries.filter (·.1 ≠ key) } }
      else s
    (s.setEntry id { entry with building := false }, none)

/-- The bytes of a matrix, as a cache reads it. -/
def State.rawFor (s : State P) (r : Region) : Which → List UInt8
  | .q8 => s.q8Raw r
  | .q4k => s.q4kRaw r

/-- The result of a lookup, with the bytes that are at the address now. -/
def answer (s : State P) (cache : Which) (r : Region) (res : State P × Option P) :
    State P × Option (Returned P) :=
  (res.1, res.2.map fun packed => ⟨cache, r, s.rawFor r cache, packed⟩)

/-- One event; `none` where it cannot happen, because the thread is busy or a weight
would be written under a lookup. -/
def step (cfg : Config P) (s : State P) : Event → Option (State P × Option (Returned P))
  | .write addr data =>
    if s.pending.any fun q => q.2.touches addr data.length then none
    else some ({ s with mem := writeBytes s.mem addr data }, none)
  | .q8Lookup thread r force =>
    if (s.pendingOf thread).isSome then none
    else some (answer s .q8 r (q8Lookup cfg s thread r force))
  | .q4kLookup thread r cacheLimit =>
    if (s.pendingOf thread).isSome then none
    else some (answer s .q4k r (q4kLookup cfg s thread r cacheLimit))
  | .q4kWake thread =>
    match s.pendingOf thread with
    | some (.waiting key id cacheLimit now) =>
      match s.q4k.heap id with
      | some entry =>
        if entry.building then none
        else some (answer s .q4k key.region (q4kWake s thread key id cacheLimit now entry))
      | none => none
    | _ => none
  | .q4kBuilt thread =>
    match s.pendingOf thread with
    | some (.building key id cacheLimit now) =>
      match s.q4k.heap id with
      | some entry =>
        some (answer s .q4k key.region (q4kBuilt cfg s thread key id cacheLimit now entry))
      | none => none
    | _ => none
  | .trim target => some ({ s with q4k := s.q4k.trimToBytes target }, none)

/-- The state a history leads to. -/
def run (cfg : Config P) (s : State P) : List Event → Option (State P)
  | [] => some s
  | e :: rest => do
      let r ← step cfg s e
      run cfg r.1 rest

end DenseCore.Repack
