/-
The sections of the Q4_K repack cache.

A call of `GetOrCreateQ4KRepackedGemvWeight` takes the cache's mutex up to three times:
to look its key up, after a wait for another builder, and to publish what it has packed
or to take its entry out again.  Between the last two it allocates and packs, and that
may succeed, fail, or throw.  Here each of these is an event of its own, in any order for
any number of threads, with the limit and the clock that the call has read before.
-/
import DenseCore.Lib.Trace
import DenseCore.Matmul.RepackCache

namespace DenseCore.Repack

open Lib

variable {P : Type}

/-- A section of a thread under the lock. -/
inductive Section (P : Type) where
  | lookup (thread : Nat) (key : Key) (cacheLimit now : Nat)
  | wake (thread : Nat)
  /-- the builder is back from `ggml_repack_q4_K_8x8` -/
  | built (thread : Nat) (result : Option P)
  /-- an exception leaves the call between its sections -/
  | thrown (thread : Nat)
  | trim (target : Nat)

/-- The first section of a call. -/
def findSection (s : State P) (thread : Nat) (key : Key) (cacheLimit now : Nat) :
    State P × Option P :=
  match s.q4k.entries.find? (·.1 = key) with
  | none => q4kBuild s thread key cacheLimit now
  | some (_, id) =>
    match s.q4k.heap id with
    | none => q4kBuild s thread key cacheLimit now
    | some entry =>
      match entry.weight with
      | some w => q4kHit s id entry w now
      | none =>
        if entry.building then
          ({ s with pending := (thread, .waiting key id cacheLimit now) :: s.others thread }, none)
        else q4kBuild s thread key cacheLimit now

/-- A repacking with a given result. -/
def packing (result : Option P) : Config P where
  repackQ8 := fun _ _ => none
  repackQ4k := fun _ _ => result
  q8Enabled := false
  q4kAvailable := true

/-- One section.  Calls for matrices that pack to nothing have returned before the
first. -/
def takeSection (s : State P) : Section P → Option (State P)
  | .lookup thread key cacheLimit now =>
    when (s.pendingOf thread = none ∧ 0 < key.region.q4kPackedBytes)
      (findSection s thread key cacheLimit now).1
  | .wake thread =>
    match s.pendingOf thread with
    | some (.waiting key id cacheLimit now) =>
      match s.q4k.heap id with
      | some entry =>
        when (entry.building = false) (q4kWake s thread key id cacheLimit now entry).1
      | none => none
    | _ => none
  | .built thread result =>
    match s.pendingOf thread with
    | some (.building key id cacheLimit now) =>
      match s.q4k.heap id with
      | some entry =>
        some (q4kBuilt (packing result) s thread key id cacheLimit now entry).1
      | none => none
    | _ => none
  | .thrown thread =>
    match s.pendingOf thread with
    | some (.building _ _ _ _) => some { s with pending := s.others thread }
    | _ => none
  | .trim target => some { s with q4k := s.q4k.trimToBytes target }

end DenseCore.Repack
