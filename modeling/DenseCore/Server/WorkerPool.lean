/-
The worker pool.

A worker takes a request from the queue, looks at the pool's state and at the
request's context, and submits the request to its engine; a tracker then waits for
the generation and releases the engine lease.  Every branch that does not submit
rejects the request instead: it releases the lease and posts the error.
`StopAndWait` closes the queue, rejects what is left in it, and waits for the
workers and the trackers.

One event is one atomic step of one goroutine.  The engine and the callers are the
environment: an event says whether a submission succeeds, when a generation is
done, when a request's context ends, and whether a posted result finds room in the
result channel.  The stop context only reaches the engine, whose answer is free
anyway.  A send on the closed signal channel is not an event here.

The lists of the last part of the state record what was done so far; no step reads
them.
-/
import DenseCore.Server.Queue
import DenseCore.Lib.Trace

namespace DenseCore.Server

/-- A request, as far as the pool reads it: its identity, whether an engine is
bound to it and whether it has a release function. -/
structure Job where
  ticket : Nat
  engineBound : Bool
  leased : Bool
deriving DecidableEq, Repr

/-- The engine lease behind a release function: `Close` runs once. -/
structure EngineLease where
  closed : Bool
  /-- how often the lease was given back to the model service -/
  returned : Nat
deriving DecidableEq, Repr

/-- A lease that nobody has closed. -/
def EngineLease.fresh : EngineLease := { closed := false, returned := 0 }

/-- `Close` gives the engine back once. -/
def EngineLease.close (l : EngineLease) : EngineLease :=
  if l.closed = true then l else { closed := true, returned := l.returned + 1 }

/-- Why a request was not generated. -/
inductive RejectError where
  | stopping
  | contextDone
  | noEngine
  | submitFailed
deriving DecidableEq, Repr

/-- `GenerationResult`: a generation or an error. -/
inductive GenerationResult where
  | generation
  | err (error : RejectError)
deriving DecidableEq, Repr

/-- The states of the processor. -/
inductive ProcessorState where
  | running
  | stopping
  | stopped
deriving DecidableEq, Repr

/-- Where a worker stands in its loop. -/
inductive Worker where
  /-- at the top of the loop, with the experts of the last request -/
  | idle (activeExperts : Finset Int)
  /-- in the select of its dequeue -/
  | waiting (activeExperts : Finset Int)
  /-- woken, about to look at the heap again -/
  | testing (activeExperts : Finset Int)
  /-- has a request, about to take the read lock -/
  | picked (req : QueuedRequest Job)
  /-- holds the read lock, about to load the state -/
  | checking (req : QueuedRequest Job)
  /-- found the pool running, about to look at the context and the engine -/
  | cleared (req : QueuedRequest Job)
  | submitting (req : QueuedRequest Job)
  /-- the engine took the request, no tracker yet -/
  | submitted (req : QueuedRequest Job)
  /-- the tracker runs, the result is still to be posted -/
  | tracked (req : QueuedRequest Job)
  /-- about to release the lease of a request that is not generated -/
  | rejecting (req : QueuedRequest Job) (error : RejectError)
  /-- about to post its error -/
  | answering (req : QueuedRequest Job) (error : RejectError)
  | exited
deriving DecidableEq

/-- The goroutine that waits for a generation. -/
inductive Tracker where
  | waiting (job : Job)
  /-- the generation is done, the lease is about to be released -/
  | finished (job : Job)
  | exited
deriving DecidableEq, Repr

/-- Where the function under `stopOnce` stands. -/
inductive StopBody where
  | notStarted
  /-- about to set the state -/
  | storing
  /-- about to take the write lock -/
  | locking
  | closing
  | draining
  /-- about to release the lease of the first request -/
  | rejecting (reqs : List (QueuedRequest Job))
  /-- about to post the error of the first request -/
  | answering (reqs : List (QueuedRequest Job))
  | finished
deriving DecidableEq

/-- A call of `StopAndWait`. -/
inductive StopCall where
  /-- in `stopOnce`, running the function or waiting for it -/
  | entered
  | waitingWorkers
  | waitingTrackers
  /-- both waits are over, about to set the state -/
  | settled
  | returned (ok : Bool)
deriving DecidableEq, Repr

/-- Who took a request from the queue. -/
inductive Taker where
  | worker (w : Nat)
  | drain
deriving DecidableEq, Repr

/-- The pool with everything its goroutines hold, and a log of what became of each request. -/
structure Pool where
  queue : RequestQueue Job
  /-- `Enqueue` calls between their push and their send -/
  sending : Nat
  state : ProcessorState
  workers : List Worker
  trackers : List Tracker
  body : StopBody
  stops : List StopCall
  /-- requests whose context is done -/
  cancelled : List Job
  /-- requests whose generation is done -/
  done : List Job
  nextTicket : Nat
  accepted : List Job
  taken : List (Job × Taker)
  submitted : List Job
  released : List Job
  /-- the results posted, and whether the channel took them -/
  answered : List (Job × GenerationResult × Bool)
deriving DecidableEq

/-- What a step needs to know from outside. -/
inductive PoolEvent where
  | enqueue (priority now : Int) (expertCluster : List Int) (engineBound leased : Bool)
  | send
  | dequeue (w : Nat)
  | receive (w : Nat)
  | readLock (w : Nat)
  | checkState (w : Nat)
  | checkContext (w : Nat)
  | submit (w : Nat) (accepted : Bool)
  | track (w : Nat)
  | deliver (w : Nat) (delivered : Bool)
  | release (w : Nat)
  | answer (w : Nat) (delivered : Bool)
  | generationDone (job : Job)
  | contextDone (job : Job)
  | trackerWakes (k : Nat)
  | trackerReleases (k : Nat)
  | stop
  | stopBody (delivered : Bool)
  | stopWait (k : Nat)
  | stopGiveUp (k : Nat)
deriving DecidableEq

/-- The limit on experts that the workers pass to the queue. -/
def maxExperts : Int := 8

namespace Pool

/-- `n` workers on a fresh queue. -/
def start (n : Nat) (maxSize : Int) : Pool :=
  { queue := RequestQueue.newRequestQueue Job maxSize, sending := 0, state := .running
    workers := List.replicate n (.idle ∅), trackers := [], body := .notStarted, stops := []
    cancelled := [], done := [], nextTicket := 0
    accepted := [], taken := [], submitted := [], released := [], answered := [] }

variable (s : Pool)

/-- What the release calls made so far did to the lease of a request. -/
def lease (job : Job) : EngineLease :=
  (s.released.filter (· = job)).foldl (fun l _ => l.close) EngineLease.fresh

/-- The dequeue a worker calls: by experts, when it has some. -/
def workerTest (q : RequestQueue Job) (activeExperts : Finset Int) : Head Job × RequestQueue Job :=
  if 0 < activeExperts.card then q.moeDequeueSection activeExperts maxExperts
  else q.dequeueSection

/-- The pool with one worker in a new state. -/
def setWorker (w : Nat) (c : Worker) : Pool :=
  { s with workers := s.workers.set w c }

/-- A worker looks at the heap. -/
def look (w : Nat) (activeExperts : Finset Int) : Pool :=
  let r := workerTest s.queue activeExperts
  match r.1 with
  | .closed => { s with queue := r.2, workers := s.workers.set w .exited }
  | .empty => { s with queue := r.2, workers := s.workers.set w (.waiting activeExperts) }
  | .item req => { s with
      queue := r.2
      workers := s.workers.set w (.picked req)
      taken := s.taken ++ [(req.payload, .worker w)] }

/-- The write lock of `lifecycleMu` is held. -/
def WriteLocked : Prop :=
  match s.body with
  | .closing | .draining | .rejecting _ | .answering _ => True
  | _ => False

instance (s : Pool) : Decidable s.WriteLocked := by
  unfold WriteLocked
  split <;> infer_instance

/-- Some worker holds the read lock. -/
def ReadLocked : Prop := ∃ c ∈ s.workers, ∃ req, c = Worker.checking req

/-- The worker has a request and has not submitted it. -/
def Worker.isChecking : Worker → Bool
  | .checking _ => true
  | _ => false

instance (s : Pool) : Decidable s.ReadLocked :=
  decidable_of_iff (∃ c ∈ s.workers, Worker.isChecking c = true) <| by
    refine exists_congr fun c => and_congr_right fun _ => ?_
    cases c <;> simp [Worker.isChecking]

/-- The next step of the function under `stopOnce`. -/
def stopBodyStep (delivered : Bool) : Option Pool :=
  match s.body with
  | .notStarted => none
  | .storing => some { s with state := .stopping, body := .locking }
  | .locking => if s.ReadLocked then none else some { s with body := .closing }
  | .closing => some { s with queue := s.queue.close, body := .draining }
  | .draining =>
    let r := s.queue.drain
    some { s with
      queue := r.2, body := .rejecting r.1
      taken := s.taken ++ r.1.map fun req => (req.payload, .drain) }
  | .rejecting [] => some { s with body := .finished }
  | .rejecting (req :: rest) =>
    some { s with body := .answering (req :: rest), released := s.released ++ [req.payload] }
  | .answering [] => none
  | .answering (req :: rest) =>
    some { s with
      body := .rejecting rest
      answered := s.answered ++ [(req.payload, .err .stopping, delivered)] }
  | .finished => none

/-- The next step of a `StopAndWait` call. -/
def stopWaitStep (k : Nat) : Option Pool :=
  match s.stops[k]? with
  | some .entered =>
    if s.body = .finished then some { s with stops := s.stops.set k .waitingWorkers } else none
  | some .waitingWorkers =>
    if ∀ c ∈ s.workers, c = .exited then
      some { s with stops := s.stops.set k .waitingTrackers }
    else none
  | some .waitingTrackers =>
    if ∀ c ∈ s.trackers, c = .exited then some { s with stops := s.stops.set k .settled }
    else none
  | some .settled =>
    some { s with state := .stopped, stops := s.stops.set k (.returned true) }
  | _ => none

/-- One atomic step. -/
def step : PoolEvent → Option Pool
  | .enqueue priority now expertCluster engineBound leased =>
    let job : Job := { ticket := s.nextTicket, engineBound := engineBound, leased := leased }
    let req : QueuedRequest Job :=
      { priority := priority, enqueueTime := now, expertCluster := expertCluster, payload := job }
    let r := s.queue.enqueueSection req now
    match r.1 with
    | none => some { s with queue := r.2, nextTicket := s.nextTicket + 1 }
    | some pushed => some { s with
        queue := r.2, sending := s.sending + 1, nextTicket := s.nextTicket + 1
        accepted := s.accepted ++ [pushed.payload] }
  | .send =>
    if s.sending = 0 then none
    else s.queue.sendSignal.map fun q => { s with queue := q, sending := s.sending - 1 }
  | .dequeue w =>
    match s.workers[w]? with
    | some (.idle activeExperts) => some (s.look w activeExperts)
    | some (.testing activeExperts) => some (s.look w activeExperts)
    | _ => none
  | .receive w =>
    match s.workers[w]? with
    | some (.waiting activeExperts) =>
      if s.queue.CanReceive then
        some { s.setWorker w (.testing activeExperts) with queue := s.queue.receiveSignal }
      else none
    | _ => none
  | .readLock w =>
    match s.workers[w]? with
    | some (.picked req) =>
      if s.WriteLocked then none else some (s.setWorker w (.checking req))
    | _ => none
  | .checkState w =>
    match s.workers[w]? with
    | some (.checking req) =>
      if s.state = .running then some (s.setWorker w (.cleared req))
      else some (s.setWorker w (.rejecting req .stopping))
    | _ => none
  | .checkContext w =>
    match s.workers[w]? with
    | some (.cleared req) =>
      if req.payload ∈ s.cancelled then some (s.setWorker w (.rejecting req .contextDone))
      else if req.payload.engineBound = false then
        some (s.setWorker w (.rejecting req .noEngine))
      else some (s.setWorker w (.submitting req))
    | _ => none
  | .submit w accepted =>
    match s.workers[w]? with
    | some (.submitting req) =>
      if accepted = true then
        some { s.setWorker w (.submitted req) with submitted := s.submitted ++ [req.payload] }
      else some (s.setWorker w (.rejecting req .submitFailed))
    | _ => none
  | .track w =>
    match s.workers[w]? with
    | some (.submitted req) =>
      some { s.setWorker w (.tracked req) with
        trackers := s.trackers ++ [.waiting req.payload] }
    | _ => none
  | .deliver w delivered =>
    match s.workers[w]? with
    | some (.tracked req) =>
      some { s.setWorker w (.idle req.expertCluster.toFinset) with
        answered := s.answered ++ [(req.payload, .generation, delivered)] }
    | _ => none
  | .release w =>
    match s.workers[w]? with
    | some (.rejecting req error) =>
      some { s.setWorker w (.answering req error) with
        released := s.released ++ [req.payload] }
    | _ => none
  | .answer w delivered =>
    match s.workers[w]? with
    | some (.answering req error) =>
      some { s.setWorker w (.idle req.expertCluster.toFinset) with
        answered := s.answered ++ [(req.payload, .err error, delivered)] }
    | _ => none
  | .generationDone job =>
    if job ∈ s.submitted then some { s with done := job :: s.done } else none
  | .contextDone job => some { s with cancelled := job :: s.cancelled }
  | .trackerWakes k =>
    match s.trackers[k]? with
    | some (.waiting job) =>
      if job ∈ s.done then some { s with trackers := s.trackers.set k (.finished job) }
      else none
    | _ => none
  | .trackerReleases k =>
    match s.trackers[k]? with
    | some (.finished job) =>
      some { s with trackers := s.trackers.set k .exited, released := s.released ++ [job] }
    | _ => none
  | .stop =>
    some { s with
      stops := s.stops ++ [.entered]
      body := if s.body = .notStarted then .storing else s.body }
  | .stopBody delivered => s.stopBodyStep delivered
  | .stopWait k => s.stopWaitStep k
  | .stopGiveUp k =>
    match s.stops[k]? with
    | some .waitingWorkers => some { s with stops := s.stops.set k (.returned false) }
    | some .waitingTrackers => some { s with stops := s.stops.set k (.returned false) }
    | _ => none

/-- The states that some interleaving reaches. -/
def Reachable (n : Nat) (maxSize : Int) (s : Pool) : Prop :=
  Lib.Runs step (fun _ _ => True) (start n maxSize) s

end Pool

end DenseCore.Server
