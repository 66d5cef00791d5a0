/-
How results reach their callbacks.

In asynchronous mode the worker pushes result events and the callback thread takes them
out and runs the callbacks.  At the critical watermark a push waits until the callback
thread has drained the queue.  In direct mode the worker runs the callbacks itself.  A
callback may call `CancelRequest`, which takes `active_mu`; other threads call it too.

The worker finalises cancelled active requests while it holds `active_mu`, and what it
delivers there it delivers in the same way as everywhere else.

One event is one critical section of `result_mu` or `active_mu`, or the wait for one.  A
request's id is its place in the list of requests.  `active_requests` is reduced to the
requests on it, and the text of an event is left out.
-/
import DenseCore.Lib.Trace

namespace DenseCore.Delivery

open Lib

def RESULT_QUEUE_LOW_WATERMARK : Nat := 64

def RESULT_QUEUE_CRITICAL_WATERMARK : Nat := 256

/-- Who runs the callbacks: the worker, or a thread of their own. -/
inductive CallbackMode where
  | async
  | direct
deriving DecidableEq, Repr

/-- The fields of a request that the delivery reads. -/
structure Request where
  hasCallback : Bool
  cancelled : Bool
  finished : Bool
  terminalDispatched : Bool
deriving DecidableEq, Repr

/-- A result on its way to a callback. -/
structure ResultEvent where
  requestId : Nat
  finished : Bool
  error : Bool
deriving DecidableEq, Repr

/-- Where a call of `CancelRequest` stands. -/
inductive CancelCall where
  /-- it waits for `active_mu` -/
  | wants (id : Nat)
  /-- it holds `active_mu` -/
  | holds (id : Nat)
deriving DecidableEq, Repr

/-- Where the worker stands with a result. -/
inductive Emit where
  | none
  /-- about to call back or to push -/
  | delivering (event : ResultEvent)
  /-- blocked on `result_drain_cv` -/
  | waiting (event : ResultEvent)
  /-- woken up, about to look at the queue again -/
  | waking (event : ResultEvent)
  /-- in a callback of direct mode -/
  | callback (event : ResultEvent)
  /-- in a `CancelRequest` that this callback has called -/
  | cancelling (event : ResultEvent) (call : CancelCall)
deriving DecidableEq, Repr

/-- Where `CallbackLoop` stands. -/
inductive CallbackLoop where
  | idle
  | running (event : ResultEvent)
  /-- in a `CancelRequest` that the callback has called -/
  | cancelling (event : ResultEvent) (call : CancelCall)
deriving DecidableEq, Repr

/-- Who holds `active_mu`. -/
inductive Owner where
  | worker
  | callbackThread
  | canceller (i : Nat)
deriving DecidableEq, Repr

/-- The state of the engine and of every thread in it. -/
structure EngineState where
  callbackMode : CallbackMode
  /-- whether the status is `STOPPED` -/
  stopped : Bool
  requests : List Request
  activeRequests : List Nat
  activeMu : Option Owner
  resultQueue : List ResultEvent
  /-- what is left of the pass over the active requests that holds `active_mu` -/
  sweep : Option (List Nat)
  emit : Emit
  callbackLoop : CallbackLoop
  /-- the calls of `CancelRequest` by other threads; `none` has returned -/
  cancels : List (Option CancelCall)
deriving DecidableEq, Repr

/-- What can happen next. -/
inductive Event where
  /-- the worker puts a new request on the active list -/
  | activate (hasCallback : Bool)
  | reap
  /-- the worker has a token of an active request -/
  | token (id : Nat)
  | finish (id : Nat) (error : Bool)
  | beginSweep
  | sweepNext
  | endSweep
  | deliver
  /-- the worker wakes up without a notification -/
  | spurious
  | recheck
  /-- the callback that the worker runs calls `CancelRequest` -/
  | inlineCancel (id : Nat)
  | inlineLock
  | inlineUnlock
  | inlineReturn
  /-- `CallbackLoop` takes an event out of the queue -/
  | take
  /-- the callback that `CallbackLoop` runs calls `CancelRequest` -/
  | loopCancel (id : Nat)
  | loopLock
  | loopUnlock
  | loopReturn
  /-- another thread calls `CancelRequest` -/
  | cancel (id : Nat)
  | lock (i : Nat)
  | unlock (i : Nat)
  | stop
deriving DecidableEq, Repr

namespace EngineState

/-- An engine that has just started. -/
def init (callbackMode : CallbackMode) : EngineState :=
  { callbackMode := callbackMode, stopped := false, requests := [], activeRequests := []
    activeMu := none, resultQueue := [], sweep := none, emit := .none, callbackLoop := .idle
    cancels := [] }

variable (s : EngineState)

/-- The worker is between two steps of its loop. -/
def Free : Prop := s.sweep = none ∧ s.emit = .none

instance (s : EngineState) : Decidable s.Free := inferInstanceAs (Decidable (_ ∧ _))

/-- The state with one request changed. -/
def modifyRequest (id : Nat) (f : Request → Request) : EngineState :=
  { s with requests := s.requests.modify id f }

/-- `EmitRequestResult`, up to the delivery. -/
def emitRequestResult (r : Request) (event : ResultEvent) : EngineState :=
  if r.hasCallback = true then { s with emit := .delivering event } else s

/-- `FinalizeGenerationRequestOnce` and `FinalizeEmbeddingRequestOnce`, up to the
delivery. -/
def finalizeRequestOnce (id : Nat) (r : Request) (error : Bool) : EngineState :=
  if r.terminalDispatched = true then s
  else
    (s.modifyRequest id fun r => { r with terminalDispatched := true, finished := true })
      |>.emitRequestResult r { requestId := id, finished := true, error := error }

/-- What `CancelRequest` does while it holds `active_mu`. -/
def markCancelled (id : Nat) : EngineState :=
  if id ∈ s.activeRequests then s.modifyRequest id fun r => { r with cancelled := true } else s

/-- What ends the wait for the queue to drain. -/
def Drained : Prop :=
  s.resultQueue.length ≤ RESULT_QUEUE_LOW_WATERMARK ∨ s.stopped = true

instance (s : EngineState) : Decidable s.Drained := inferInstanceAs (Decidable (_ ∨ _))

/-- `ApplyResultQueueBackpressure` blocks. -/
def MustWait : Prop :=
  RESULT_QUEUE_CRITICAL_WATERMARK ≤ s.resultQueue.length ∧ ¬ s.Drained

instance (s : EngineState) : Decidable s.MustWait := inferInstanceAs (Decidable (_ ∧ _))

/-- The result joins the queue. -/
def pushEvent (event : ResultEvent) : EngineState :=
  { s with resultQueue := s.resultQueue ++ [event], emit := .none }

/-- `PushResultEvent` and `PushEmbeddingResultEvent`. -/
def pushResultEvent (event : ResultEvent) : EngineState :=
  if s.MustWait then { s with emit := .waiting event } else s.pushEvent event

/-- `result_drain_cv.notify_all`. -/
def notifyDrain : Emit → Emit
  | .waiting event => .waking event
  | emit => emit

/-- `CallbackLoop` has taken the first event out. -/
def taken (event : ResultEvent) (rest : List ResultEvent) : EngineState :=
  { s with
    resultQueue := rest
    emit := if rest.length ≤ RESULT_QUEUE_LOW_WATERMARK then notifyDrain s.emit else s.emit
    callbackLoop := .running event }

/-- One atomic step. -/
def step : Event → Option EngineState
  | .activate hasCallback =>
    when (s.Free ∧ s.activeMu = none)
      { s with
        requests := s.requests ++
          [{ hasCallback := hasCallback, cancelled := false, finished := false
             terminalDispatched := false }]
        activeRequests := s.activeRequests ++ [s.requests.length] }
  | .reap =>
    when (s.Free ∧ s.activeMu = none)
      { s with
        activeRequests := s.activeRequests.filter fun id =>
          !(s.requests[id]?).any (·.finished) }
  | .token id =>
    match s.requests[id]? with
    | none => none
    | some r =>
      when (s.Free ∧ id ∈ s.activeRequests)
        (s.emitRequestResult r { requestId := id, finished := false, error := false })
  | .finish id error =>
    match s.requests[id]? with
    | none => none
    | some r =>
      when (s.Free ∧ id ∈ s.activeRequests) (s.finalizeRequestOnce id r error)
  | .beginSweep =>
    when (s.Free ∧ s.activeMu = none)
      { s with activeMu := some .worker, sweep := some s.activeRequests }
  | .sweepNext =>
    match s.sweep with
    | some (id :: rest) =>
      match s.requests[id]? with
      | none => none
      | some r =>
        when (s.emit = .none)
          (if r.cancelled = true ∧ r.finished = false then
            { s with sweep := some rest }.finalizeRequestOnce id r true
          else { s with sweep := some rest })
    | _ => none
  | .endSweep =>
    when (s.sweep = some [] ∧ s.emit = .none) { s with activeMu := none, sweep := none }
  | .deliver =>
    match s.emit with
    | .delivering event =>
      match s.callbackMode with
      | .direct => some { s with emit := .callback event }
      | .async => some (s.pushResultEvent event)
    | _ => none
  | .spurious =>
    match s.emit with
    | .waiting event => some { s with emit := .waking event }
    | _ => none
  | .recheck =>
    match s.emit with
    | .waking event =>
      some (if s.Drained then s.pushEvent event else { s with emit := .waiting event })
    | _ => none
  | .inlineCancel id =>
    match s.emit with
    | .callback event => some { s with emit := .cancelling event (.wants id) }
    | _ => none
  | .inlineLock =>
    match s.emit with
    | .cancelling event (.wants id) =>
      when (s.activeMu = none)
        { s with activeMu := some .worker, emit := .cancelling event (.holds id) }
    | _ => none
  | .inlineUnlock =>
    match s.emit with
    | .cancelling event (.holds id) =>
      some { s.markCancelled id with activeMu := none, emit := .callback event }
    | _ => none
  | .inlineReturn =>
    match s.emit with
    | .callback _ => some { s with emit := .none }
    | _ => none
  | .take =>
    match s.resultQueue with
    | event :: rest => when (s.callbackLoop = .idle) (s.taken event rest)
    | [] => none
  | .loopCancel id =>
    match s.callbackLoop with
    | .running event => some { s with callbackLoop := .cancelling event (.wants id) }
    | _ => none
  | .loopLock =>
    match s.callbackLoop with
    | .cancelling event (.wants id) =>
      when (s.activeMu = none)
        { s with
          activeMu := some .callbackThread
          callbackLoop := .cancelling event (.holds id) }
    | _ => none
  | .loopUnlock =>
    match s.callbackLoop with
    | .cancelling event (.holds id) =>
      some { s.markCancelled id with activeMu := none, callbackLoop := .running event }
    | _ => none
  | .loopReturn =>
    match s.callbackLoop with
    | .running _ => some { s with callbackLoop := .idle }
    | _ => none
  | .cancel id => some { s with cancels := s.cancels ++ [some (.wants id)] }
  | .lock i =>
    match s.cancels[i]? with
    | some (some (.wants id)) =>
      when (s.activeMu = none)
        { s with
          activeMu := some (.canceller i)
          cancels := s.cancels.set i (some (.holds id)) }
    | _ => none
  | .unlock i =>
    match s.cancels[i]? with
    | some (some (.holds id)) =>
      some { s.markCancelled id with activeMu := none, cancels := s.cancels.set i none }
    | _ => none
  | .stop => some { s with stopped := true }

end EngineState

end DenseCore.Delivery
