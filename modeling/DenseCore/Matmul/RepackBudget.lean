/-
The two caches of repacked weights that take their limit from one budget.

Beside the Q4_K cache, `GetOrCreateRepackedDenseGemmWeight` keeps the interleaved copies of
Q5_K and Q6_K weights.  It is the same code over a key with a type in it, and it reads the
same limit; but it has its own map, its own mutex, its own count of bytes and its own clock.
A run here takes the sections of both in any order, for any number of threads.
-/
import DenseCore.Lib.BuildBudget
import DenseCore.Matmul.RepackSections

namespace DenseCore.Repack

open Lib

variable {P : Type}

/-! ### The dense cache -/

/-- The types that `RepackedDenseGemmTypeSupported` may admit. -/
inductive DenseType where
  | q5k
  | q6k
deriving DecidableEq

/-- `DenseGemmBlockBytes`: eight superblocks of 256, with their scales. -/
def DenseType.blockBytes : DenseType → Nat
  | .q5k => 16 * 2 + 8 * 12 + 256 * 5
  | .q6k => 8 * 2 + 256 / 16 * 8 + 3 * 256 / 4 * 8

/-- `RepackedDenseGemmKey`. -/
structure DenseKey where
  region : Region
  type : DenseType
  fingerprint : UInt64
deriving DecidableEq

/-- `packed_bytes`. -/
def DenseKey.packedBytes (key : DenseKey) : Nat :=
  key.region.rows / 8 * (key.region.cols / 256) * key.type.blockBytes

/-- `GetOrCreateRepackedDenseGemmWeight`, one section.  `EvictDenseGemmLocked` is `Cache.fit`. -/
def takeDenseSection (s : BuildCache.State DenseKey P) (e : BuildCache.Section DenseKey P) :
    Option (BuildCache.State DenseKey P) :=
  BuildCache.step DenseKey.packedBytes s e

/-! ### Both caches -/

/-- The two caches that share a budget. -/
structure Both (P : Type) where
  q4k : State P
  dense : BuildCache.State DenseKey P

/-- Both caches are empty. -/
def Both.init (mem : Memory) : Both P := ⟨State.init mem, BuildCache.State.init⟩

/-- A section of one cache or the other. -/
inductive EitherSection (P : Type) where
  | q4k (e : Section P)
  | dense (e : BuildCache.Section DenseKey P)

/-- What a section of either cache does. -/
def takeEither (s : Both P) : EitherSection P → Option (Both P)
  | .q4k e => (takeSection s.q4k e).map fun t => { s with q4k := t }
  | .dense e => (takeDenseSection s.dense e).map fun t => { s with dense := t }

/-- `Q4KRepackedGemvCacheLimitBytes` is `cacheLimit`. -/
def EitherSection.readsLimit (cacheLimit : Nat) : EitherSection P → Bool
  | .q4k (.lookup _ _ limit _) => limit = cacheLimit
  | .dense (.lookup _ _ limit _) => limit = cacheLimit
  | _ => true

/-! ### The Q4_K cache as a cache of built values -/

/-- A weight as a value of the general cache. -/
def Weight.toValue (w : Weight P) : BuildCache.Value P := ⟨w.packed, w.bytes, w.lastUse⟩

/-- An entry as one of the general cache. -/
def Entry.toEntry (entry : Entry P) : BuildCache.Entry P :=
  ⟨entry.weight.map Weight.toValue, entry.building⟩

/-- The Q4_K cache as a general cache. -/
def Q4kCache.toCache (c : Q4kCache P) : BuildCache.Cache Key P where
  entries := c.entries
  heap := Option.map Entry.toEntry ∘ c.heap
  nextId := c.nextId
  counted := c.cacheBytes

/-- What a thread is doing, as a job of the general cache. -/
def Pending.toJob : Pending → BuildCache.Job Key
  | .waiting key id cacheLimit now => .waiting key id cacheLimit now
  | .building key id cacheLimit now => .building key id cacheLimit now

/-- The state, as one of the general cache. -/
def State.toBuild (s : State P) : BuildCache.State Key P where
  cache := s.q4k.toCache
  jobs := s.pending.map fun q => (q.1, q.2.toJob)

def Key.packedBytes (key : Key) : Nat := key.region.q4kPackedBytes

/-- A section of a call; a trim is none. -/
def Section.toSection? : Section P → Option (BuildCache.Section Key P)
  | .lookup thread key cacheLimit now => some (.lookup thread key cacheLimit now)
  | .wake thread => some (.wake thread)
  | .built thread result => some (.built thread result)
  | .thrown thread => some (.thrown thread)
  | .trim _ => none

end DenseCore.Repack
