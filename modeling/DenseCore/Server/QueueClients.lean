/-
The callers of the request queue.

Any number of goroutines call the queue at the same time.  A call starts with its
first critical section; from there on `Call` says where it stands, and an event
lets one of the calls take its next atomic step.  Between the critical section of
`Enqueue` and its send, and between the receive of a consumer and its next look at
the heap, every other call may run.
-/
import DenseCore.Server.Queue
import DenseCore.Lib.Trace

namespace DenseCore.Server

variable {ρ : Type}

/-- The two consumers that wait. -/
inductive Consumer where
  | dequeue
  | moeAwareDequeue (currentExperts : Finset Int) (maxExperts : Int)
deriving DecidableEq

/-- The critical section at the top of the consumer's loop. -/
def Consumer.test (q : RequestQueue ρ) : Consumer → Head ρ × RequestQueue ρ
  | .dequeue => q.dequeueSection
  | .moeAwareDequeue currentExperts maxExperts => q.moeDequeueSection currentExperts maxExperts

/-- Where a call stands.  `cancelled` says whether the consumer's context is done. -/
inductive Call (ρ : Type) where
  /-- `Enqueue` has pushed the request and is about to send the signal -/
  | signalling (req : QueuedRequest ρ)
  /-- `Enqueue` returned true -/
  | enqueued (req : QueuedRequest ρ)
  /-- `Enqueue` returned false -/
  | refused
  /-- the send of `Enqueue` found the channel closed -/
  | panicked (req : QueuedRequest ρ)
  /-- a consumer in its select -/
  | waiting (consumer : Consumer) (cancelled : Bool)
  /-- a consumer that received a signal and is about to look at the heap again -/
  | testing (consumer : Consumer) (cancelled : Bool)
  /-- a consumer, or `TryDequeue`, that returned a request -/
  | took (req : QueuedRequest ρ)
  /-- a consumer, or `TryDequeue`, that returned nothing -/
  | cameBack
  | drained (reqs : List (QueuedRequest ρ))
  | closed
deriving DecidableEq

/-- The queue and all the calls made so far. -/
structure Clients (ρ : Type) where
  queue : RequestQueue ρ
  calls : List (Call ρ)
deriving DecidableEq

/-- The steps.  The first five start a call, the others continue call `i`. -/
inductive QueueEvent (ρ : Type) where
  | enqueue (req : QueuedRequest ρ) (now : Int)
  | dequeue (consumer : Consumer) (cancelled : Bool)
  | tryDequeue
  | drain
  | close
  | send (i : Nat)
  | receive (i : Nat)
  | retest (i : Nat)
  | cancel (i : Nat)
  | giveUp (i : Nat)

/-- Where a consumer goes from its critical section. -/
def Head.next (consumer : Consumer) (cancelled : Bool) : Head ρ → Call ρ
  | .closed => .cameBack
  | .empty => .waiting consumer cancelled
  | .item req => .took req

/-- Where `Enqueue` goes from its critical section. -/
def afterPush : Option (QueuedRequest ρ) → Call ρ
  | none => .refused
  | some req => .signalling req

/-- Where `TryDequeue` ends. -/
def afterTry : Option (QueuedRequest ρ) → Call ρ
  | none => .cameBack
  | some req => .took req

namespace Clients

/-- Nobody has called the new queue. -/
def newClients (ρ : Type) (maxSize : Int) : Clients ρ :=
  { queue := RequestQueue.newRequestQueue ρ maxSize, calls := [] }

/-- A new call, after its first critical section. -/
def arrive (s : Clients ρ) (queue : RequestQueue ρ) (call : Call ρ) : Clients ρ :=
  { queue := queue, calls := s.calls ++ [call] }

/-- Call `i` moves on. -/
def move (s : Clients ρ) (i : Nat) (queue : RequestQueue ρ) (call : Call ρ) : Clients ρ :=
  { queue := queue, calls := s.calls.set i call }

/-- One atomic step. -/
def step (s : Clients ρ) : QueueEvent ρ → Option (Clients ρ)
  | .enqueue req now =>
    let r := s.queue.enqueueSection req now
    some (s.arrive r.2 (afterPush r.1))
  | .dequeue consumer cancelled =>
    let r := consumer.test s.queue
    some (s.arrive r.2 (r.1.next consumer cancelled))
  | .tryDequeue =>
    let r := s.queue.tryDequeue
    some (s.arrive r.2 (afterTry r.1))
  | .drain => some (s.arrive s.queue.drain.2 (.drained s.queue.drain.1))
  | .close => some (s.arrive s.queue.close .closed)
  | .send i =>
    match s.calls[i]? with
    | some (.signalling req) =>
      match s.queue.sendSignal with
      | none => some (s.move i s.queue (.panicked req))
      | some q => some (s.move i q (.enqueued req))
    | _ => none
  | .receive i =>
    match s.calls[i]? with
    | some (.waiting consumer cancelled) =>
      if s.queue.CanReceive then
        some (s.move i s.queue.receiveSignal (.testing consumer cancelled))
      else none
    | _ => none
  | .retest i =>
    match s.calls[i]? with
    | some (.testing consumer cancelled) =>
      let r := consumer.test s.queue
      some (s.move i r.2 (r.1.next consumer cancelled))
    | _ => none
  | .cancel i =>
    match s.calls[i]? with
    | some (.waiting consumer _) => some (s.move i s.queue (.waiting consumer true))
    | some (.testing consumer _) => some (s.move i s.queue (.testing consumer true))
    | _ => none
  | .giveUp i =>
    match s.calls[i]? with
    | some (.waiting _ true) => some (s.move i s.queue .cameBack)
    | _ => none

/-- The states that some interleaving reaches. -/
def Reachable (maxSize : Int) (s : Clients ρ) : Prop :=
  Lib.Runs step (fun _ _ => True) (newClients ρ maxSize) s

end Clients

end DenseCore.Server
