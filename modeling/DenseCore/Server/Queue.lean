/-
The request queue.

`RequestQueue` holds the waiting requests in a heap behind a mutex; the consumers
sleep on a channel with room for one signal.  Every function below is one critical
section of the queue, or one operation on its channel, and so one atomic step of
the goroutine that executes it.  `QueueClients` puts the steps together to the
calls.

The heap order looks at the priority and the enqueue time, `MoEAwareDequeue` at the
expert cluster; the rest of a queued request is the payload, its identity
included, and no function of the queue reads it.
-/
import DenseCore.Lib.SliceHeap
import Mathlib.Data.Finset.Card

namespace DenseCore.Server

/-- A queued request.  `payload` stands for the fields the queue does not read. -/
structure QueuedRequest (ρ : Type) where
  priority : Int
  enqueueTime : Int
  expertCluster : List Int
  payload : ρ
deriving DecidableEq, Repr

/-- A channel of capacity one that carries no data. -/
structure Signal where
  pending : Bool
  closed : Bool
deriving DecidableEq, Repr

/-- `RequestQueue`: a heap under a mutex, and a channel of one signal. -/
structure RequestQueue (ρ : Type) where
  heap : Array (QueuedRequest ρ)
  maxSize : Int
  closed : Bool
  signal : Signal
  totalEnqueued : Nat
  totalDequeued : Nat
  totalDropped : Nat
deriving DecidableEq

variable {ρ : Type}

/-- `requestHeap.Less`: higher priority first, first in first out within one. -/
def requestLess (a b : QueuedRequest ρ) : Bool :=
  if a.priority ≠ b.priority then decide (b.priority < a.priority)
  else decide (a.enqueueTime < b.enqueueTime)

/-- What a consumer finds at the top of its loop. -/
inductive Head (ρ : Type) where
  | closed
  | empty
  | item (req : QueuedRequest ρ)
deriving DecidableEq, Repr

namespace RequestQueue

/-- `NewRequestQueue` -/
def newRequestQueue (ρ : Type) (maxSize : Int) : RequestQueue ρ :=
  { heap := #[], maxSize := maxSize, closed := false
    signal := { pending := false, closed := false }
    totalEnqueued := 0, totalDequeued := 0, totalDropped := 0 }

/-! ### Enqueue -/

variable (q : RequestQueue ρ) (currentExperts : Finset Int)

/-- The critical section of `Enqueue`; `some` for a request that was pushed and
whose signal is still to be sent. -/
def enqueueSection (req : QueuedRequest ρ) (now : Int) :
    Option (QueuedRequest ρ) × RequestQueue ρ :=
  if q.closed = true then (none, q)
  else if q.maxSize ≤ q.heap.size then (none, { q with totalDropped := q.totalDropped + 1 })
  else
    let pushed := { req with enqueueTime := now }
    (some pushed, { q with
      heap := Lib.SliceHeap.push requestLess q.heap pushed
      totalEnqueued := q.totalEnqueued + 1 })

/-- The non-blocking send behind it.  `none` is the panic of a send on a closed
channel, which a `default` branch does not prevent. -/
def sendSignal : Option (RequestQueue ρ) :=
  if q.signal.closed = true then none
  else some { q with signal := { q.signal with pending := true } }

/-! ### Dequeue -/

/-- `heap.Pop` and the count of it. -/
def popHead : Head ρ × RequestQueue ρ :=
  match Lib.SliceHeap.pop requestLess q.heap with
  | (some req, heap) => (.item req, { q with heap := heap, totalDequeued := q.totalDequeued + 1 })
  | (none, _) => (.empty, q)

/-- The critical section of `Dequeue`. -/
def dequeueSection : Head ρ × RequestQueue ρ :=
  if q.closed = true then (.closed, q)
  else if 0 < q.heap.size then q.popHead
  else (.empty, q)

/-- `TryDequeue` is one critical section. -/
def tryDequeue : Option (QueuedRequest ρ) × RequestQueue ρ :=
  if q.closed = true ∨ q.heap.size = 0 then (none, q)
  else
    match q.popHead with
    | (.item req, q₁) => (some req, q₁)
    | (_, q₁) => (none, q₁)

/-- How many experts of the cluster are active, and how many are not. -/
def overlapOf (cluster : List Int) : Nat × Nat :=
  (cluster.countP (· ∈ currentExperts), cluster.countP (· ∉ currentExperts))

/-- One round of the loop that looks for the best request: index and score. -/
def scoreStep (maxExperts : Int)
    (best : Option Nat × Int) (item : QueuedRequest ρ × Nat) : Option Nat × Int :=
  if item.1.expertCluster = [] then
    if best.1 = none then (some item.2, 0) else best
  else
    let overlap := overlapOf currentExperts item.1.expertCluster
    if maxExperts < (currentExperts.card + overlap.2 : Nat) ∧ best.1 ≠ none then best
    else
      let score : Int := overlap.1 * 10 - overlap.2
      if best.2 < score then (some item.2, score) else best

/-- The index `MoEAwareDequeue` settles on, `none` for `-1`. -/
def bestIndex (maxExperts : Int) (heap : Array (QueuedRequest ρ)) : Option Nat :=
  (heap.toList.zipIdx.foldl (scoreStep currentExperts maxExperts) (none, -1)).1

/-- The critical section of `MoEAwareDequeue`. -/
def moeDequeueSection (currentExperts : Finset Int) (maxExperts : Int) : Head ρ × RequestQueue ρ :=
  if q.closed = true then (.closed, q)
  else if q.heap.size = 0 then (.empty, q)
  else
    match bestIndex currentExperts maxExperts q.heap with
    | none => q.popHead
    | some bestIdx =>
      match q.heap[bestIdx]? with
      | none => (.empty, q)
      | some req =>
        (.item req, { q with
          heap := (Lib.SliceHeap.remove requestLess q.heap bestIdx).2
          totalDequeued := q.totalDequeued + 1 })

/-! ### Waiting -/

/-- A receive can proceed: a signal is buffered, or the channel is closed. -/
def CanReceive : Prop :=
  q.signal.pending = true ∨ q.signal.closed = true

instance (q : RequestQueue ρ) : Decidable q.CanReceive :=
  inferInstanceAs (Decidable (_ ∨ _))

/-- The receive takes the buffered signal, if there is one. -/
def receiveSignal : RequestQueue ρ :=
  { q with signal := { q.signal with pending := false } }

/-! ### Close and Drain -/

/-- `Close` -/
def close : RequestQueue ρ :=
  if q.closed = true then q
  else { q with closed := true, signal := { q.signal with closed := true } }

/-- The loop of `Drain`, one pop for every element. -/
def drainLoop : Nat → Array (QueuedRequest ρ) → List (QueuedRequest ρ) × Array (QueuedRequest ρ)
  | 0, heap => ([], heap)
  | fuel + 1, heap =>
    match Lib.SliceHeap.pop requestLess heap with
    | (none, _) => ([], heap)
    | (some req, rest) => ((drainLoop fuel rest).1.cons req, (drainLoop fuel rest).2)

/-- `Drain` empties the heap in its order; the statistics stay as they are. -/
def drain : List (QueuedRequest ρ) × RequestQueue ρ :=
  let r := drainLoop q.heap.size q.heap
  (r.1, { q with heap := r.2 })

end RequestQueue

end DenseCore.Server
