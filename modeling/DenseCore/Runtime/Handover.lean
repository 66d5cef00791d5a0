/-
A request on its way through the engine.

A request goes from `TryAdmitPendingRequest` through the pending queue to the worker,
from the worker either straight back to the pool or into `active_requests`, and from
there to the pool.  `CancelRequest` looks for it in the active list and then among the
pending ids, and leaves a note in `pending_cancellations` for the worker.  `Shutdown`
stops the worker and finalises what is left.

One event is one critical section, or the work of the worker between two of them.
What the worker does with its batches is reduced to which active requests it finalises
and where it throws.  A request's id is its place in the list of all requests, so ids
do not wrap.  `queued`, `acknowledged`, `terminals` and `released` record what has
happened and decide nothing, but for the one-time flags that go with `terminals`.
-/
import DenseCore.Lib.Trace

namespace DenseCore.Handover

open Lib

/-! ### The pending queue -/

/-- The tiers of the pending queue. -/
inductive Tier where
  | premium
  | standard
  | batch
deriving DecidableEq, Repr

/-- `ShardedPriorityQueue`. -/
structure PendingQueue where
  premium : List Nat
  standard : List Nat
  batch : List Nat
deriving DecidableEq, Repr

namespace PendingQueue

def empty : PendingQueue := { premium := [], standard := [], batch := [] }

variable (q : PendingQueue)

/-- The items in the order in which they are taken. -/
def items : List Nat := q.premium ++ q.standard ++ q.batch

/-- A request joins the list of its tier. -/
def push (item : Nat) : Tier → PendingQueue
  | .premium => { q with premium := q.premium ++ [item] }
  | .standard => { q with standard := q.standard ++ [item] }
  | .batch => { q with batch := q.batch ++ [item] }

/-- The first request of the best tier. -/
def pop : Option Nat × PendingQueue :=
  match q.premium, q.standard, q.batch with
  | item :: rest, _, _ => (some item, { q with premium := rest })
  | [], item :: rest, _ => (some item, { q with standard := rest })
  | [], [], item :: rest => (some item, { q with batch := rest })
  | [], [], [] => (none, q)

/-- The first match in one queue. -/
def select (p : Nat → Bool) (queue : List Nat) : Option (Nat × List Nat) :=
  (queue.find? p).map fun item => (item, queue.erase item)

/-- The first request with a property. -/
def popMatching (p : Nat → Bool) : Option Nat × PendingQueue :=
  match select p q.premium with
  | some (item, rest) => (some item, { q with premium := rest })
  | none =>
    match select p q.standard with
    | some (item, rest) => (some item, { q with standard := rest })
    | none =>
      match select p q.batch with
      | some (item, rest) => (some item, { q with batch := rest })
      | none => (none, q)

end PendingQueue

/-! ### Requests -/

/-- The kinds of requests. -/
inductive Kind where
  | generation
  | embedding
  | graph
deriving DecidableEq, Repr

def statusOk : Int := 0

def engineStopped : Int := -4

def internalError : Int := -5

/-- A terminal callback. -/
inductive Terminal where
  | generation (text : String) (error : Bool)
  | embedding (status : Int)
  | graph (numOutputs : Int)
deriving DecidableEq, Repr

/-- The fields of a request that the handover reads and writes. -/
structure Request where
  kind : Kind
  tier : Tier
  hasTokens : Bool
  cancelled : Bool
  finished : Bool
  generationTerminalDispatched : Bool
  embeddingTerminalDispatched : Bool
  graphCallbackCompleted : Bool
  /-- whether it has been put into the pending queue -/
  queued : Bool
  /-- whether `CancelRequest` has returned 0 for it before its terminal callback -/
  acknowledged : Bool
  terminals : List Terminal
  /-- how often it was given back to the pool -/
  released : Nat
deriving DecidableEq, Repr

namespace Request

/-- A request as the submission makes it. -/
def new (kind : Kind) (tier : Tier) (hasTokens : Bool) : Request :=
  { kind := kind, tier := tier, hasTokens := hasTokens, cancelled := false, finished := false
    generationTerminalDispatched := false, embeddingTerminalDispatched := false
    graphCallbackCompleted := false, queued := false, acknowledged := false, terminals := []
    released := 0 }

/-- `CompleteGraphRequest` -/
def completeGraphRequest (numOutputs : Int) (r : Request) : Request :=
  if r.kind ≠ .graph ∨ r.graphCallbackCompleted = true then r
  else { r with graphCallbackCompleted := true, terminals := r.terminals ++ [.graph numOutputs] }

/-- `FinalizeGenerationRequestOnce` -/
def finalizeGenerationRequestOnce (text : String) (error : Bool) (r : Request) : Request :=
  if r.kind ≠ .generation ∨ r.generationTerminalDispatched = true then r
  else { r with
    generationTerminalDispatched := true, finished := true
    terminals := r.terminals ++ [.generation text error] }

/-- `FinalizeEmbeddingRequestOnce` -/
def finalizeEmbeddingRequestOnce (status : Int) (r : Request) : Request :=
  if r.kind ≠ .embedding ∨ r.embeddingTerminalDispatched = true then r
  else { r with
    embeddingTerminalDispatched := true, finished := true
    terminals := r.terminals ++ [.embedding status] }

/-- `finalize_generation_error`. -/
def finalizeGenerationError (canceled : Bool) (text : String) (r : Request) : Request :=
  match r.kind with
  | .graph => r
  | .embedding =>
    r.finalizeEmbeddingRequestOnce (if canceled = true then engineStopped else internalError)
  | .generation => r.finalizeGenerationRequestOnce text true

variable (r : Request)

/-- A popped request when the engine is not running any more. -/
def stopPending : Request :=
  let r := { r with cancelled := true }
  if r.kind = .graph then r.completeGraphRequest engineStopped
  else r.finalizeGenerationError true "Error: Engine shutdown"

/-- An active request that `Shutdown` finds after the worker has exited. -/
def stopActive : Request :=
  let r := { r with cancelled := true }
  if r.kind = .embedding then r.finalizeEmbeddingRequestOnce engineStopped
  else r.finalizeGenerationRequestOnce "Error: Engine shutdown" true

/-- A cancelled request before it has started. -/
def skipCancelled : Request :=
  if r.kind = .graph then { r with finished := true }.completeGraphRequest engineStopped
  else r.finalizeGenerationError true "Error: request canceled"

/-- `request_pool.Release`. -/
def release : Request := { r with released := r.released + 1 }

def cancel : Request := { r with cancelled := true }

def markFinished : Request := { r with finished := true }

def enqueue : Request := { r with queued := true }

/-- `CancelRequest` returns 0. -/
def acknowledge : Request :=
  { r with acknowledged := r.acknowledged || r.terminals.isEmpty }

end Request

/-- How the worker finalises an active request. -/
inductive Outcome where
  | error (text : String)
  | success
deriving DecidableEq, Repr

/-- The callback that an outcome makes. -/
def Outcome.finalize : Outcome → Request → Request
  | .error text, r => r.finalizeGenerationError false text
  | .success, r =>
    if r.kind = .embedding then r.finalizeEmbeddingRequestOnce statusOk
    else r.finalizeGenerationRequestOnce "" false

/-! ### The threads -/

/-- The status of the engine. -/
inductive EngineStatus where
  | running
  | draining
  | stopped
deriving DecidableEq, Repr

/-- Where the worker stands. -/
inductive Worker where
  /-- in its loop, with no request in its hands -/
  | idle
  /-- it has seen the status `RUNNING` and is about to pop -/
  | looking
  | taken (id : Nat)
  /-- the id is no longer pending -/
  | removed (id : Nat)
  /-- about to call `ConsumePendingCancellation` -/
  | consuming (id : Nat)
  | checked (id : Nat)
  | inGraph (id : Nat)
  | preparing (id : Nat)
  /-- the scheduler has accepted it -/
  | admitted (id : Nat)
  /-- finalised, about to go back to the pool -/
  | releasing (id : Nat)
  /-- an active request is marked as finished, its callback is still to come -/
  | finishing (id : Nat)
  | reaping (ids : List Nat)
  | exited
deriving DecidableEq, Repr

/-- Where a call of `CancelRequest` stands. -/
inductive CancelCall where
  /-- not active; about to look among the pending ids -/
  | lookingUp (id : Nat)
  /-- it was pending; about to call `RecordPendingCancellation` -/
  | recording (id : Nat)
  | returned (code : Int)
deriving DecidableEq, Repr

/-- Where `Shutdown` stands. -/
inductive ShutdownCall where
  | notCalled
  /-- waiting for the active requests -/
  | draining
  | stopping
  | joining
  | finalizing (ids : List Nat)
  | popping
  | dropping (id : Nat)
  | clearing
  | returned
deriving DecidableEq, Repr

/-- The lists of the engine, and where each of its threads is. -/
structure EngineState where
  exclusiveExecution : Bool
  status : EngineStatus
  /-- every request there ever was -/
  requests : List Request
  /-- the request whose admission holds `admission_mu` -/
  submitting : Option Nat
  pendingRequestIds : List Nat
  pendingRequests : PendingQueue
  pendingCancellations : List Nat
  activeRequests : List Nat
  worker : Worker
  cancels : List CancelCall
  shutdown : ShutdownCall
deriving DecidableEq, Repr

/-- What can happen next. -/
inductive Event where
  /-- `TryAdmitPendingRequest` up to `RecordPendingRequest` -/
  | submit (kind : Kind) (tier : Tier) (hasTokens : Bool)
  | push (id : Nat)
  | pushFails (id : Nat)
  /-- a call of `CancelRequest` looks at the active list -/
  | cancel (id : Nat)
  | lookUp (c id : Nat)
  | record (c id : Nat)
  | look
  | pop (id : Nat)
  | popMatching (id : Nat)
  | popNothing
  | removePending (id : Nat)
  | checkStatus (id : Nat)
  | consume (id : Nat)
  | dispatch (id : Nat)
  | graphDone (id : Nat) (numOutputs : Int)
  | schedule (id : Nat) (accepted : Bool)
  | activate (id : Nat)
  | release (id : Nat)
  | finish (id : Nat) (outcome : Outcome)
  | markFinished (id : Nat)
  | finalize (id : Nat) (outcome : Outcome)
  /-- cancelled active requests are finalised -/
  | sweep
  /-- `reap_finished_requests` takes the finished requests off the active list -/
  | reap
  | reapRelease (id : Nat)
  | reaped
  /-- an exception ends the worker loop -/
  | throw
  | exitLoop
  | shutdown
  | drained
  | timeout
  | stop
  | join
  /-- the next step of `Shutdown` after the worker has exited -/
  | recover
deriving DecidableEq, Repr

namespace EngineState

/-- An engine that has just started. -/
def init (exclusiveExecution : Bool) : EngineState :=
  { exclusiveExecution := exclusiveExecution, status := .running, requests := []
    submitting := none, pendingRequestIds := [], pendingRequests := .empty
    pendingCancellations := [], activeRequests := [], worker := .idle, cancels := []
    shutdown := .notCalled }

variable (s : EngineState)

/-- Change the requests; `f` gets the id. -/
def mapRequests (f : Nat → Request → Request) : EngineState :=
  { s with requests := s.requests.mapIdx f }

/-- The state with one request changed. -/
def modifyRequest (id : Nat) (f : Request → Request) : EngineState :=
  s.mapRequests fun i r => if i = id then f r else r

/-- Whether the request is cancelled, or a note says so. -/
def canceling (id : Nat) : Bool :=
  (s.requests[id]?).any (·.cancelled) || s.pendingCancellations.contains id

/-- `PopReadyPendingRequest` may only take cancelled requests. -/
def Blocked : Prop := s.exclusiveExecution = true ∧ s.activeRequests ≠ []

instance (s : EngineState) : Decidable s.Blocked := inferInstanceAs (Decidable (_ ∧ _))

/-- The note about a request is taken out. -/
def consumeNote (id : Nat) : EngineState :=
  { s with pendingCancellations := s.pendingCancellations.filter (· ≠ id) }

/-- `ConsumePendingCancellation`, and the flag that goes with it. -/
def consumePendingCancellation (id : Nat) : EngineState :=
  if id ∈ s.pendingCancellations then (s.consumeNote id).modifyRequest id Request.cancel else s

/-- What `popMatching` does to the request that it finds. -/
def takeCancelled (id : Nat) : EngineState :=
  if (s.requests[id]?).any (·.cancelled) then s else s.consumePendingCancellation id

/-- `CancelRequest` looks at the active list. -/
def cancelActive (id : Nat) : EngineState :=
  if id ∈ s.activeRequests then
    { s.modifyRequest id fun r => r.cancel.acknowledge with cancels := s.cancels ++ [.returned 0] }
  else { s with cancels := s.cancels ++ [.lookingUp id] }

/-- What the worker does with a request that it has taken and that is not cancelled. -/
def start (id : Nat) (r : Request) : EngineState :=
  if r.kind = .graph then { s with worker := .inGraph id }
  else if r.hasTokens = false then
    { s.modifyRequest id (Request.finalizeGenerationError false "Error: Missing tokens") with
      worker := .releasing id }
  else { s with worker := .preparing id }

/-- The worker looks at a request that it has taken. -/
def dispatch (id : Nat) : Option EngineState :=
  (s.requests[id]?).map fun r =>
    if r.cancelled = true then
      { s.modifyRequest id Request.skipCancelled with worker := .releasing id }
    else s.start id r

/-- The steps of `Shutdown` after the worker has exited. -/
def recover : Option EngineState :=
  match s.shutdown with
  | .finalizing (id :: rest) =>
    some { s.modifyRequest id fun r => r.stopActive.release with shutdown := .finalizing rest }
  | .finalizing [] => some { s with shutdown := .popping }
  | .popping =>
    match s.pendingRequests.pop with
    | (some id, q) => some { s with pendingRequests := q, shutdown := .dropping id }
    | (none, _) => some { s with shutdown := .clearing }
  | .dropping id =>
    some
    { s.modifyRequest id fun r => r.stopPending.release with
      pendingRequestIds := s.pendingRequestIds.filter (· ≠ id), shutdown := .popping }
  | .clearing => some { s with pendingCancellations := [], shutdown := .returned }
  | _ => none

/-- Where the worker can throw: while it prepares and schedules a request, and while it
works on its batches. -/
def CanThrow : Prop :=
  match s.worker with
  | .idle | .preparing _ | .finishing _ => True
  | _ => False

instance (s : EngineState) : Decidable s.CanThrow := by
  unfold CanThrow
  split <;> infer_instance

/-- Whether the loop ends by itself. -/
def LoopEnds : Prop :=
  s.worker = .idle ∧ (s.status = .stopped ∨ s.status = .draining ∧ s.activeRequests = [])

instance (s : EngineState) : Decidable s.LoopEnds := inferInstanceAs (Decidable (_ ∧ _))

/-- One atomic step. -/
def step : Event → Option EngineState
  | .submit kind tier hasTokens =>
    when (s.status = .running ∧ s.submitting = none)
      { s with
        requests := s.requests ++ [.new kind tier hasTokens]
        submitting := some s.requests.length
        pendingRequestIds := s.requests.length :: s.pendingRequestIds }
  | .push id =>
    match s.requests[id]? with
    | none => none
    | some r =>
      when (s.submitting = some id)
        { s.modifyRequest id Request.enqueue with
          pendingRequests := s.pendingRequests.push id r.tier, submitting := none }
  | .pushFails id =>
    when (s.submitting = some id)
      { s with
        pendingRequestIds := s.pendingRequestIds.filter (· ≠ id), submitting := none }
  | .cancel id => some (s.cancelActive id)
  | .lookUp c id =>
    when (s.cancels[c]? = some (.lookingUp id))
      { s with
        cancels := s.cancels.set c
          (if id ∈ s.pendingRequestIds then .recording id else .returned (-1)) }
  | .record c id =>
    when (s.cancels[c]? = some (.recording id))
      { s.modifyRequest id Request.acknowledge with
        pendingCancellations := id :: s.pendingCancellations
        cancels := s.cancels.set c (.returned 0) }
  | .look => when (s.worker = .idle ∧ s.status = .running) { s with worker := .looking }
  | .pop id =>
    when (s.worker = .looking ∧ ¬ s.Blocked ∧ s.pendingRequests.pop.1 = some id)
      { s with pendingRequests := s.pendingRequests.pop.2, worker := .taken id }
  | .popMatching id =>
    when (s.worker = .looking ∧ s.Blocked ∧ (s.pendingRequests.popMatching s.canceling).1 = some id)
      { s.takeCancelled id with
        pendingRequests := (s.pendingRequests.popMatching s.canceling).2, worker := .taken id }
  | .popNothing =>
    when (s.worker = .looking ∧
        (if s.Blocked then (s.pendingRequests.popMatching s.canceling).1 = none
        else s.pendingRequests.pop.1 = none))
      { s with worker := .idle }
  | .removePending id =>
    when (s.worker = .taken id)
      { s with
        pendingRequestIds := s.pendingRequestIds.filter (· ≠ id), worker := .removed id }
  | .checkStatus id =>
    when (s.worker = .removed id)
      (if s.status = .running then { s with worker := .consuming id }
      else { s.modifyRequest id Request.stopPending with worker := .releasing id })
  | .consume id =>
    when (s.worker = .consuming id)
      { s.consumePendingCancellation id with worker := .checked id }
  | .dispatch id =>
    match s.dispatch id with
    | none => none
    | some t => when (s.worker = .checked id) t
  | .graphDone id numOutputs =>
    when (s.worker = .inGraph id)
      { s.modifyRequest id fun r => (r.completeGraphRequest numOutputs).markFinished with
        worker := .releasing id }
  | .schedule id accepted =>
    when (s.worker = .preparing id)
      (if accepted = true then { s with worker := .admitted id }
      else
        { s.modifyRequest id (Request.finalizeGenerationError false
            "Error: Request cannot be scheduled (queue full or prefill budget exceeded)") with
          worker := .releasing id })
  | .activate id =>
    when (s.worker = .admitted id)
      { s with activeRequests := s.activeRequests ++ [id], worker := .idle }
  | .release id =>
    when (s.worker = .releasing id)
      { s.modifyRequest id Request.release with worker := .idle }
  | .finish id outcome =>
    when (s.worker = .idle ∧ id ∈ s.activeRequests) (s.modifyRequest id outcome.finalize)
  | .markFinished id =>
    when (s.worker = .idle ∧ id ∈ s.activeRequests)
      { s.modifyRequest id Request.markFinished with worker := .finishing id }
  | .finalize id outcome =>
    when (s.worker = .finishing id)
      { s.modifyRequest id outcome.finalize with worker := .idle }
  | .sweep =>
    when (s.worker = .idle)
      (s.mapRequests fun id r =>
        if id ∈ s.activeRequests ∧ r.cancelled = true ∧ r.finished = false then
          r.finalizeGenerationError true "Error: request canceled"
        else r)
  | .reap =>
    when (s.worker = .idle)
      { s with
        activeRequests := s.activeRequests.filter fun id =>
          !(s.requests[id]?).any (·.finished)
        worker := .reaping (s.activeRequests.filter fun id =>
          (s.requests[id]?).any (·.finished)) }
  | .reapRelease id =>
    match s.worker with
    | .reaping (first :: rest) =>
      when (first = id) { s.modifyRequest id Request.release with worker := .reaping rest }
    | _ => none
  | .reaped => when (s.worker = .reaping []) { s with worker := .idle }
  | .throw => when s.CanThrow { s with worker := .exited }
  | .exitLoop => when s.LoopEnds { s with worker := .exited }
  | .shutdown =>
    when (s.shutdown = .notCalled ∧ s.submitting = none)
      { s with status := .draining, shutdown := .draining }
  | .drained =>
    when (s.shutdown = .draining ∧ s.activeRequests = []) { s with shutdown := .stopping }
  | .timeout =>
    when (s.shutdown = .draining)
      { s.mapRequests fun id r => if id ∈ s.activeRequests then r.cancel else r with
        shutdown := .stopping }
  | .stop => when (s.shutdown = .stopping) { s with status := .stopped, shutdown := .joining }
  | .join =>
    when (s.shutdown = .joining ∧ s.worker = .exited)
      { s with activeRequests := [], shutdown := .finalizing s.activeRequests }
  | .recover => s.recover

end EngineState

end DenseCore.Handover
