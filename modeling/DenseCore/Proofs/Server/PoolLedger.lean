/-
The books of the worker pool.

Three things are owed to an accepted request: that somebody takes it from the
queue, that its lease is released, and that its result is posted.  Each of them is
a duty that somebody holds, the heap, a worker, a tracker or the shutdown, until it
is done.  The book of a duty counts a request wherever it is owed and wherever it
has been discharged; it balances when that is as often as the request was accepted.
A step moves a request from one page to another, so every book balances in every
reachable state.
-/
import DenseCore.Server.WorkerPool
import DenseCore.Proofs.Server.Queue
import DenseCore.Lib.Parts

namespace DenseCore.Server

open Option hiding map_map

open List RequestQueue

/-! ### Who owes what -/

/-- The request whose lease a worker still has to see to. -/
def Worker.owesRelease : Worker → List Job
  | .picked req => [req.payload]
  | .checking req => [req.payload]
  | .cleared req => [req.payload]
  | .submitting req => [req.payload]
  | .submitted req => [req.payload]
  | .rejecting req _ => [req.payload]
  | _ => []

/-- The request a worker still has to answer. -/
def Worker.owesAnswer : Worker → List Job
  | .tracked req => [req.payload]
  | .answering req _ => [req.payload]
  | c => c.owesRelease

/-- The request a tracker still has to release. -/
def Tracker.owesRelease : Tracker → List Job
  | .waiting job => [job]
  | .finished job => [job]
  | .exited => []

/-- The requests whose leases the shutdown still has to release. -/
def StopBody.owesRelease : StopBody → List Job
  | .rejecting reqs => reqs.map QueuedRequest.payload
  | .answering reqs => reqs.tail.map QueuedRequest.payload
  | _ => []

/-- The requests that the shutdown still has to answer. -/
def StopBody.owesAnswer : StopBody → List Job
  | .rejecting reqs => reqs.map QueuedRequest.payload
  | .answering reqs => reqs.map QueuedRequest.payload
  | _ => []

/-- A duty: who holds it, and where its discharge is recorded. -/
structure Duty where
  worker : Worker → List Job
  tracker : Tracker → List Job
  body : StopBody → List Job
  log : Pool → List Job

/-- To be taken from the queue; nobody but the heap holds it. -/
def takeDuty : Duty :=
  { worker := fun _ => [], tracker := fun _ => [], body := fun _ => []
    log := fun s => s.taken.map Prod.fst }

/-- To be released. -/
def releaseDuty : Duty :=
  { worker := Worker.owesRelease, tracker := Tracker.owesRelease, body := StopBody.owesRelease
    log := Pool.released }

/-- To be answered; a tracker answers nobody. -/
def answerDuty : Duty :=
  { worker := Worker.owesAnswer, tracker := fun _ => [], body := StopBody.owesAnswer
    log := fun s => s.answered.map Prod.fst }

/-- The three duties. -/
def Duty.IsOwed (d : Duty) : Prop := d = takeDuty ∨ d = releaseDuty ∨ d = answerDuty

/-- The requests in the heap. -/
def RequestQueue.jobs (q : RequestQueue Job) : List Job := q.heap.toList.map QueuedRequest.payload

namespace RequestQueue

variable {q q' : RequestQueue Job}

theorem Takes.count_jobs {out : List (QueuedRequest Job)} (h : Takes q q' out) (j : Job) :
    q.jobs.count j = (out.map QueuedRequest.payload).count j + q'.jobs.count j := by
  have hperm := (h.heap.map QueuedRequest.payload).count_eq j
  rwa [map_append, count_append] at hperm

end RequestQueue

namespace Pool

variable {s s' : Pool} {d : Duty}

/-- How often the book of a duty mentions a request. -/
def book (d : Duty) (s : Pool) (j : Job) : Nat :=
  s.queue.jobs.count j + (s.workers.flatMap d.worker).count j +
    (s.trackers.flatMap d.tracker).count j + (d.body s.body).count j + (d.log s).count j

/-- The book mentions each request as often as it was accepted. -/
def Balanced (d : Duty) (s : Pool) : Prop := ∀ j, s.accepted.count j = s.book d j

/-! ### Moving one entry -/

theorem Balanced.worker (h : s.Balanced d) {w : Nat} {c c' : Worker} (hw : s.workers[w]? = some c)
    (haccepted : s'.accepted = s.accepted) (hworkers : s'.workers = s.workers.set w c')
    (htrackers : s'.trackers = s.trackers) (hbody : s'.body = s.body)
    (hmove : ∀ j, s'.queue.jobs.count j + (d.worker c').count j + (d.log s').count j =
      s.queue.jobs.count j + (d.worker c).count j + (d.log s).count j) : s'.Balanced d := by
  intro j
  have hbefore := h j
  have hold := (Lib.flatMap_perm_of_getElem d.worker hw).count_eq j
  have hnew := (Lib.flatMap_set_perm d.worker hw c').count_eq j
  have hexchange := hmove j
  rw [count_append] at hold hnew
  unfold book at hbefore ⊢
  rw [haccepted, hworkers, htrackers, hbody]
  omega

theorem Balanced.tracker (h : s.Balanced d) {k : Nat} {t t' : Tracker}
    (hk : s.trackers[k]? = some t)
    (haccepted : s'.accepted = s.accepted) (hqueue : s'.queue = s.queue)
    (hworkers : s'.workers = s.workers) (htrackers : s'.trackers = s.trackers.set k t')
    (hbody : s'.body = s.body)
    (hmove : ∀ j, (d.tracker t').count j + (d.log s').count j =
      (d.tracker t).count j + (d.log s).count j) : s'.Balanced d := by
  intro j
  have hbefore := h j
  have hold := (Lib.flatMap_perm_of_getElem d.tracker hk).count_eq j
  have hnew := (Lib.flatMap_set_perm d.tracker hk t').count_eq j
  have hexchange := hmove j
  rw [count_append] at hold hnew
  unfold book at hbefore ⊢
  rw [haccepted, hqueue, hworkers, htrackers, hbody]
  omega

/-- The shutdown moves on. -/
theorem Balanced.body (h : s.Balanced d) (haccepted : s'.accepted = s.accepted)
    (hworkers : s'.workers = s.workers) (htrackers : s'.trackers = s.trackers)
    (hmove : ∀ j, s'.queue.jobs.count j + (d.body s'.body).count j + (d.log s').count j =
      s.queue.jobs.count j + (d.body s.body).count j + (d.log s).count j) : s'.Balanced d := by
  intro j
  have hbefore := h j
  have hexchange := hmove j
  unfold book at hbefore ⊢
  rw [haccepted, hworkers, htrackers]
  omega

theorem Balanced.still (h : s.Balanced d) (haccepted : s'.accepted = s.accepted)
    (hworkers : s'.workers = s.workers) (htrackers : s'.trackers = s.trackers)
    (hjobs : s'.queue.jobs = s.queue.jobs) (hbody : d.body s'.body = d.body s.body)
    (hlog : d.log s' = d.log s) : s'.Balanced d :=
  h.body haccepted hworkers htrackers fun j => by rw [hjobs, hbody, hlog]

/-! ### What a step can do -/

variable {q : RequestQueue Job}

theorem workerTest_closed (experts : Finset Int) (hc : q.closed = true) :
    workerTest q experts = (.closed, q) := by
  unfold workerTest
  split
  · exact moeDequeueSection_closed hc
  · exact dequeueSection_closed hc

theorem workerTest_empty (experts : Finset Int) (hc : q.closed = false)
    (he : q.heap = #[]) : workerTest q experts = (.empty, q) := by
  unfold workerTest
  split
  · exact moeDequeueSection_empty hc he
  · exact dequeueSection_empty hc he

theorem workerTest_item (experts : Finset Int) (hc : q.closed = false) (hne : q.heap ≠ #[]) :
    ∃ req, (workerTest q experts).1 = .item req ∧ q.Takes (workerTest q experts).2 [req] := by
  unfold workerTest
  split
  · exact moeDequeueSection_item hc hne
  · exact dequeueSection_item hc hne

end Pool

/-- A worker that took a request into its hands, up to the point where it leaves
them: its stage changes, what it owes does not. -/
structure Worker.Passes (c c' : Worker) : Prop where
  release : c'.owesRelease = c.owesRelease
  answer : c'.owesAnswer = c.owesAnswer
  active : c ≠ .exited
  before : ∀ req, c ≠ .submitted req
  after : ∀ req, c' ≠ .submitted req

/-- Where a `StopAndWait` call goes next, and what it has seen by then. -/
inductive StopCall.Advances (s : Pool) : StopCall → StopCall → Prop
  | entered (finished : s.body = .finished) : Advances s .entered .waitingWorkers
  | workers (gone : ∀ c ∈ s.workers, c = .exited) : Advances s .waitingWorkers .waitingTrackers
  | trackers (gone : ∀ c ∈ s.trackers, c = .exited) : Advances s .waitingTrackers .settled
  | settled : Advances s .settled (.returned true)
  | gaveUp (c : StopCall) : Advances s c (.returned false)

namespace Pool

/-- The steps of the pool, sorted by what they do to the requests. -/
inductive Moved (s : Pool) : Pool → Prop
  /-- an `Enqueue` refuses -/
  | refused (q : RequestQueue Job) (heap : q.heap = s.queue.heap)
      (closed : q.closed = s.queue.closed) (consistent : s.queue.Consistent → q.Consistent) :
      Moved s { s with queue := q, nextTicket := s.nextTicket + 1 }
  | accepted (q : RequestQueue Job) (job : Job) (ticket : job.ticket = s.nextTicket)
      (isOpen : s.queue.closed = false) (closed : q.closed = false)
      (consistent : s.queue.Consistent → q.Consistent)
      (jobs : ∀ j, q.jobs.count j = [job].count j + s.queue.jobs.count j) :
      Moved s { s with
        queue := q, sending := s.sending + 1, nextTicket := s.nextTicket + 1
        accepted := s.accepted ++ [job] }
  | signalled (q : RequestQueue Job) (n : Nat) (heap : q.heap = s.queue.heap)
      (closed : q.closed = s.queue.closed) (consistent : s.queue.Consistent → q.Consistent) :
      Moved s { s with queue := q, sending := n }
  /-- a worker takes a step that discharges nothing -/
  | passed (w : Nat) (c c' : Worker) (q : RequestQueue Job) (found : s.workers[w]? = some c)
      (passes : c.Passes c') (heap : q.heap = s.queue.heap) (closed : q.closed = s.queue.closed)
      (consistent : s.queue.Consistent → q.Consistent) :
      Moved s { s.setWorker w c' with queue := q }
  | took (w : Nat) (c : Worker) (req : QueuedRequest Job) (q : RequestQueue Job)
      (found : s.workers[w]? = some c) (active : c ≠ .exited) (free : c.owesAnswer = [])
      (isOpen : s.queue.closed = false) (takes : s.queue.Takes q [req]) :
      Moved s { s with
        queue := q, workers := s.workers.set w (.picked req)
        taken := s.taken ++ [(req.payload, .worker w)] }
  | submitted (w : Nat) (req : QueuedRequest Job) (found : s.workers[w]? = some (.submitting req)) :
      Moved s { s.setWorker w (.submitted req) with submitted := s.submitted ++ [req.payload] }
  | tracked (w : Nat) (req : QueuedRequest Job) (found : s.workers[w]? = some (.submitted req)) :
      Moved s { s.setWorker w (.tracked req) with
        trackers := s.trackers ++ [.waiting req.payload] }
  | delivered (w : Nat) (req : QueuedRequest Job) (ok : Bool)
      (found : s.workers[w]? = some (.tracked req)) :
      Moved s { s.setWorker w (.idle req.expertCluster.toFinset) with
        answered := s.answered ++ [(req.payload, .generation, ok)] }
  | released (w : Nat) (req : QueuedRequest Job) (error : RejectError)
      (found : s.workers[w]? = some (.rejecting req error)) :
      Moved s { s.setWorker w (.answering req error) with released := s.released ++ [req.payload] }
  | answered (w : Nat) (req : QueuedRequest Job) (error : RejectError) (ok : Bool)
      (found : s.workers[w]? = some (.answering req error)) :
      Moved s { s.setWorker w (.idle req.expertCluster.toFinset) with
        answered := s.answered ++ [(req.payload, .err error, ok)] }
  | generated (job : Job) (known : job ∈ s.submitted) : Moved s { s with done := job :: s.done }
  | cancelled (job : Job) : Moved s { s with cancelled := job :: s.cancelled }
  | woke (k : Nat) (job : Job) (found : s.trackers[k]? = some (.waiting job))
      (done : job ∈ s.done) : Moved s { s with trackers := s.trackers.set k (.finished job) }
  | retired (k : Nat) (job : Job) (found : s.trackers[k]? = some (.finished job)) :
      Moved s { s with trackers := s.trackers.set k .exited, released := s.released ++ [job] }
  | stopping : Moved s { s with
      stops := s.stops ++ [.entered]
      body := if s.body = .notStarted then .storing else s.body }
  | stored (found : s.body = .storing) : Moved s { s with state := .stopping, body := .locking }
  | locked (found : s.body = .locking) : Moved s { s with body := .closing }
  | closed (found : s.body = .closing) :
      Moved s { s with queue := s.queue.close, body := .draining }
  | drained (found : s.body = .draining) (q : RequestQueue Job) (reqs : List (QueuedRequest Job))
      (takes : s.queue.Takes q reqs) (empty : q.heap = #[]) :
      Moved s { s with
        queue := q, body := .rejecting reqs
        taken := s.taken ++ reqs.map fun req => (req.payload, .drain) }
  | rejected (req : QueuedRequest Job) (rest : List (QueuedRequest Job))
      (found : s.body = .rejecting (req :: rest)) :
      Moved s { s with body := .answering (req :: rest), released := s.released ++ [req.payload] }
  | refusal (req : QueuedRequest Job) (rest : List (QueuedRequest Job)) (ok : Bool)
      (found : s.body = .answering (req :: rest)) :
      Moved s { s with
        body := .rejecting rest
        answered := s.answered ++ [(req.payload, .err .stopping, ok)] }
  | unlocked (found : s.body = .rejecting []) : Moved s { s with body := .finished }
  | waited (k : Nat) (state : ProcessorState) (c c' : StopCall) (found : s.stops[k]? = some c)
      (advance : StopCall.Advances s c c') :
      Moved s { s with state := state, stops := s.stops.set k c' }

end Pool

namespace Pool

variable {s s' : Pool} {d : Duty}

theorem moved_setWorker {w : Nat} {c c' : Worker} (hw : s.workers[w]? = some c)
    (h : c.Passes c') : s.Moved (s.setWorker w c') :=
  Moved.passed w c c' s.queue hw h rfl rfl id

theorem moved_look {w : Nat} {c : Worker} {experts : Finset Int} (hw : s.workers[w]? = some c)
    (hc : c = .idle experts ∨ c = .testing experts) : s.Moved (s.look w experts) := by
  have hpasses : ∀ c', c' = .exited ∨ c' = .waiting experts → c.Passes c' := by
    rintro c' (rfl | rfl) <;> rcases hc with rfl | rfl <;>
      exact ⟨rfl, rfl, by simp, by simp, by simp⟩
  have hactive : c ≠ .exited := by rcases hc with rfl | rfl <;> simp
  have hfree : c.owesAnswer = [] := by rcases hc with rfl | rfl <;> rfl
  by_cases hclosed : s.queue.closed = true
  · simp only [look, workerTest_closed experts hclosed]
    exact moved_setWorker hw (hpasses _ (Or.inl rfl))
  have hopen : s.queue.closed = false := by simpa using hclosed
  by_cases he : s.queue.heap = #[]
  · simp only [look, workerTest_empty experts hopen he]
    exact moved_setWorker hw (hpasses _ (Or.inr rfl))
  obtain ⟨req, hreq, htakes⟩ := workerTest_item experts hopen he
  simp only [look, hreq]
  exact Moved.took w c req _ hw hactive hfree hopen htakes

theorem moved_enqueue {priority now : Int} {cluster : List Int} {engineBound leased : Bool}
    (hstep : s.step (.enqueue priority now cluster engineBound leased) = some s') :
    s.Moved s' := by
  simp only [Pool.step] at hstep
  obtain ⟨⟨hclosed, -⟩, ⟨hnone, hheap⟩ | ⟨hsome, hopen, hperm⟩⟩ := s.queue.enqueueSection_spec
    { priority := priority, enqueueTime := now, expertCluster := cluster
      payload := { ticket := s.nextTicket, engineBound := engineBound, leased := leased } } now
  · rw [hnone] at hstep
    cases hstep
    exact Moved.refused _ hheap hclosed fun hq => hq.enqueueSection _ _
  rw [hsome] at hstep
  cases hstep
  refine Moved.accepted _ _ rfl hopen (hclosed.trans hopen) (fun hq => hq.enqueueSection _ _)
    fun j => ?_
  have hcount := (hperm.map QueuedRequest.payload).count_eq j
  simpa [jobs, count_cons, Nat.add_comm] using hcount

theorem moved_stopBody {delivered : Bool} (hstep : s.stopBodyStep delivered = some s') :
    s.Moved s' := by
  unfold stopBodyStep at hstep
  split at hstep
  · cases hstep
  · rename_i hbody
    cases hstep
    exact Moved.stored hbody
  · rename_i hbody
    split at hstep
    · cases hstep
    cases hstep
    exact Moved.locked hbody
  · rename_i hbody
    cases hstep
    exact Moved.closed hbody
  · rename_i hbody
    cases hstep
    exact Moved.drained hbody _ _ s.queue.drain_spec.1 s.queue.drain_spec.2
  · rename_i hbody
    cases hstep
    exact Moved.unlocked hbody
  · rename_i req rest hbody
    cases hstep
    exact Moved.rejected req rest hbody
  · cases hstep
  · rename_i req rest hbody
    cases hstep
    exact Moved.refusal req rest delivered hbody
  · cases hstep

theorem moved_stopWait {k : Nat} (hstep : s.stopWaitStep k = some s') : s.Moved s' := by
  unfold stopWaitStep at hstep
  split at hstep
  · rename_i hk
    split at hstep
    · rename_i hfinished
      cases hstep
      exact Moved.waited k s.state _ _ hk (.entered hfinished)
    · cases hstep
  · rename_i hk
    split at hstep
    · rename_i hgone
      cases hstep
      exact Moved.waited k s.state _ _ hk (.workers hgone)
    · cases hstep
  · rename_i hk
    split at hstep
    · rename_i hgone
      cases hstep
      exact Moved.waited k s.state _ _ hk (.trackers hgone)
    · cases hstep
  · rename_i hk
    cases hstep
    exact Moved.waited k .stopped _ _ hk .settled
  · cases hstep

/-- A signal is sent into the channel, or finds one there. -/
theorem moved_send (hstep : s.step .send = some s') : s.Moved s' := by
  simp only [Pool.step, sendSignal] at hstep
  split at hstep
  · cases hstep
  split at hstep
  · cases hstep
  cases hstep
  exact Moved.signalled _ _ rfl rfl id

theorem moved_dequeue {w : Nat} (hstep : s.step (.dequeue w) = some s') : s.Moved s' := by
  simp only [Pool.step] at hstep
  split at hstep
  · rename_i experts hw
    cases hstep
    exact moved_look hw (Or.inl rfl)
  · rename_i experts hw
    cases hstep
    exact moved_look hw (Or.inr rfl)
  · cases hstep

theorem moved_receive {w : Nat} (hstep : s.step (.receive w) = some s') : s.Moved s' := by
  simp only [Pool.step] at hstep
  split at hstep
  · rename_i experts hw
    split at hstep
    · cases hstep
      exact Moved.passed w _ _ _ hw ⟨rfl, rfl, by simp, by simp, by simp⟩ rfl rfl id
    · cases hstep
  · cases hstep

theorem moved_readLock {w : Nat} (hstep : s.step (.readLock w) = some s') : s.Moved s' := by
  simp only [Pool.step] at hstep
  split at hstep
  · rename_i req hw
    split at hstep
    · cases hstep
    cases hstep
    exact moved_setWorker hw ⟨rfl, rfl, by simp, by simp, by simp⟩
  · cases hstep

/-- A worker that finds the pool stopping turns the request down. -/
theorem moved_checkState {w : Nat} (hstep : s.step (.checkState w) = some s') : s.Moved s' := by
  simp only [Pool.step] at hstep
  split at hstep
  · rename_i req hw
    split at hstep
    · cases hstep
      exact moved_setWorker hw ⟨rfl, rfl, by simp, by simp, by simp⟩
    cases hstep
    exact moved_setWorker hw ⟨rfl, rfl, by simp, by simp, by simp⟩
  · cases hstep

/-- A worker that finds the context done turns the request down. -/
theorem moved_checkContext {w : Nat} (hstep : s.step (.checkContext w) = some s') : s.Moved s' := by
  simp only [Pool.step] at hstep
  split at hstep
  · rename_i req hw
    split at hstep
    · cases hstep
      exact moved_setWorker hw ⟨rfl, rfl, by simp, by simp, by simp⟩
    split at hstep
    · cases hstep
      exact moved_setWorker hw ⟨rfl, rfl, by simp, by simp, by simp⟩
    cases hstep
    exact moved_setWorker hw ⟨rfl, rfl, by simp, by simp, by simp⟩
  · cases hstep

/-- The engine takes the request, or the worker turns it down. -/
theorem moved_submit {w : Nat} {accepted : Bool}
    (hstep : s.step (.submit w accepted) = some s') : s.Moved s' := by
  simp only [Pool.step] at hstep
  split at hstep
  · rename_i req hw
    split at hstep
    · cases hstep
      exact Moved.submitted w req hw
    cases hstep
    exact moved_setWorker hw ⟨rfl, rfl, by simp, by simp, by simp⟩
  · cases hstep

theorem moved_track {w : Nat} (hstep : s.step (.track w) = some s') : s.Moved s' := by
  simp only [Pool.step] at hstep
  split at hstep
  · rename_i req hw
    cases hstep
    exact Moved.tracked w req hw
  · cases hstep

theorem moved_deliver {w : Nat} {delivered : Bool}
    (hstep : s.step (.deliver w delivered) = some s') : s.Moved s' := by
  simp only [Pool.step] at hstep
  split at hstep
  · rename_i req hw
    cases hstep
    exact Moved.delivered w req delivered hw
  · cases hstep

theorem moved_release {w : Nat} (hstep : s.step (.release w) = some s') : s.Moved s' := by
  simp only [Pool.step] at hstep
  split at hstep
  · rename_i req error hw
    cases hstep
    exact Moved.released w req error hw
  · cases hstep

theorem moved_answer {w : Nat} {delivered : Bool}
    (hstep : s.step (.answer w delivered) = some s') : s.Moved s' := by
  simp only [Pool.step] at hstep
  split at hstep
  · rename_i req error hw
    cases hstep
    exact Moved.answered w req error delivered hw
  · cases hstep

theorem moved_generationDone {job : Job}
    (hstep : s.step (.generationDone job) = some s') : s.Moved s' := by
  simp only [Pool.step] at hstep
  split at hstep
  · rename_i hknown
    cases hstep
    exact Moved.generated job hknown
  · cases hstep

theorem moved_trackerWakes {k : Nat} (hstep : s.step (.trackerWakes k) = some s') : s.Moved s' := by
  simp only [Pool.step] at hstep
  split at hstep
  · rename_i job hk
    split at hstep
    · rename_i hdone
      cases hstep
      exact Moved.woke k job hk hdone
    · cases hstep
  · cases hstep

theorem moved_trackerReleases {k : Nat}
    (hstep : s.step (.trackerReleases k) = some s') : s.Moved s' := by
  simp only [Pool.step] at hstep
  split at hstep
  · rename_i job hk
    cases hstep
    exact Moved.retired k job hk
  · cases hstep

theorem moved_stopGiveUp {k : Nat} (hstep : s.step (.stopGiveUp k) = some s') : s.Moved s' := by
  simp only [Pool.step] at hstep
  split at hstep
  · rename_i hk
    cases hstep
    exact Moved.waited k s.state _ _ hk (.gaveUp _)
  · rename_i hk
    cases hstep
    exact Moved.waited k s.state _ _ hk (.gaveUp _)
  · cases hstep

/-- **Every step is one of these moves.** -/
theorem moved_of_step {e : PoolEvent} (hstep : s.step e = some s') : s.Moved s' := by
  cases e with
  | enqueue priority now cluster engineBound leased => exact moved_enqueue hstep
  | send => exact moved_send hstep
  | dequeue w => exact moved_dequeue hstep
  | receive w => exact moved_receive hstep
  | readLock w => exact moved_readLock hstep
  | checkState w => exact moved_checkState hstep
  | checkContext w => exact moved_checkContext hstep
  | submit w accepted => exact moved_submit hstep
  | track w => exact moved_track hstep
  | deliver w delivered => exact moved_deliver hstep
  | release w => exact moved_release hstep
  | answer w delivered => exact moved_answer hstep
  | generationDone job => exact moved_generationDone hstep
  | contextDone job =>
    cases hstep
    exact Moved.cancelled job
  | trackerWakes k => exact moved_trackerWakes hstep
  | trackerReleases k => exact moved_trackerReleases hstep
  | stop =>
    cases hstep
    exact Moved.stopping
  | stopBody delivered => exact moved_stopBody hstep
  | stopWait k => exact moved_stopWait hstep
  | stopGiveUp k => exact moved_stopGiveUp hstep

/-! ### Every book balances

A duty is owed by whoever holds the request, and is recorded when it is done. A move shifts
it from one side to the other, so no request is done twice or forgotten.
-/

/-- A new request is accepted and waits in the queue. -/
theorem Balanced.accepted (hd : d.IsOwed) (h : s.Balanced d) {q : RequestQueue Job} {job : Job}
    (hjobs : ∀ j, q.jobs.count j = [job].count j + s.queue.jobs.count j) :
    Balanced d { s with
      queue := q, sending := s.sending + 1, nextTicket := s.nextTicket + 1
      accepted := s.accepted ++ [job] } := by
  intro j
  have hbefore := h j
  have hcount := hjobs j
  have hlog : ∀ a b c, d.log { s with accepted := a, nextTicket := b, sending := c, queue := q } =
      d.log s := by
    intro a b c
    rcases hd with rfl | rfl | rfl <;> rfl
  unfold book at hbefore ⊢
  rw [hlog]
  simp only [count_append] at *
  omega

theorem Balanced.passed (hd : d.IsOwed) (h : s.Balanced d) {w : Nat} {c c' : Worker} {q : RequestQueue Job}
    (hw : s.workers[w]? = some c) (hpasses : c.Passes c') (hheap : q.heap = s.queue.heap) :
    Balanced d { s.setWorker w c' with queue := q } := by
  refine h.worker hw rfl rfl rfl rfl fun j => ?_
  have hjobs : q.jobs = s.queue.jobs := by simp only [jobs, hheap]
  show q.jobs.count j + _ + _ = _
  rw [hjobs]
  rcases hd with rfl | rfl | rfl
  · rfl
  · simp only [releaseDuty, hpasses.release]
    rfl
  simp only [answerDuty, hpasses.answer]
  rfl

/-- A request leaves the queue, and the worker that takes it owes its release and its answer. -/
theorem Balanced.took (hd : d.IsOwed) (h : s.Balanced d) {w : Nat} {c : Worker} {req : QueuedRequest Job}
    {q : RequestQueue Job} (hw : s.workers[w]? = some c) (hfree : c.owesAnswer = [])
    (htakes : s.queue.Takes q [req]) :
    Balanced d { s with
      queue := q, workers := s.workers.set w (.picked req)
      taken := s.taken ++ [(req.payload, .worker w)] } := by
  refine h.worker hw rfl rfl rfl rfl fun j => ?_
  have hcount := htakes.count_jobs j
  simp only [map_cons, map_nil] at hcount
  rcases hd with rfl | rfl | rfl
  · simp only [takeDuty, map_append, map_cons, map_nil, count_append, count_nil]
    omega
  · have hnone : c.owesRelease = [] := by
      cases c <;> first | rfl | exact hfree
    show q.jobs.count j + [req.payload].count j + s.released.count j =
      s.queue.jobs.count j + c.owesRelease.count j + s.released.count j
    rw [hnone, count_nil]
    omega
  show q.jobs.count j + [req.payload].count j + (s.answered.map Prod.fst).count j =
    s.queue.jobs.count j + c.owesAnswer.count j + (s.answered.map Prod.fst).count j
  rw [hfree, count_nil]
  omega

/-- The release passes from the worker to a tracker. -/
theorem Balanced.tracked (hd : d.IsOwed) (h : s.Balanced d) {w : Nat} {req : QueuedRequest Job}
    (hw : s.workers[w]? = some (.submitted req)) :
    Balanced d { s.setWorker w (.tracked req) with
      trackers := s.trackers ++ [.waiting req.payload] } := by
  intro j
  have hbefore := h j
  have hold := (Lib.flatMap_perm_of_getElem d.worker hw).count_eq j
  have hnew := (Lib.flatMap_set_perm d.worker hw (.tracked req)).count_eq j
  have hlog : ∀ ws ts, d.log { s with workers := ws, trackers := ts } = d.log s := by
    intro ws ts
    rcases hd with rfl | rfl | rfl <;> rfl
  have hpass : (d.worker (.tracked req)).count j + (d.tracker (.waiting req.payload)).count j =
      (d.worker (.submitted req)).count j := by
    rcases hd with rfl | rfl | rfl
    · rfl
    · simp only [releaseDuty, Worker.owesRelease, Tracker.owesRelease, count_nil]
      omega
    · rfl
  unfold book at hbefore ⊢
  simp only [setWorker]
  rw [hlog]
  simp only [count_append, Lib.flatMap_append_singleton] at *
  omega

/-- A worker releases a request that it turns down. -/
theorem Balanced.released (hd : d.IsOwed) (h : s.Balanced d) {w : Nat} {req : QueuedRequest Job} {error : RejectError}
    (hw : s.workers[w]? = some (.rejecting req error)) :
    Balanced d { s.setWorker w (.answering req error) with
      released := s.released ++ [req.payload] } := by
  refine h.worker hw rfl rfl rfl rfl fun j => ?_
  rcases hd with rfl | rfl | rfl
  · rfl
  · simp only [releaseDuty, Worker.owesRelease, setWorker, count_append, count_nil]
    omega
  · rfl

/-- A tracker releases the request it has waited for. -/
theorem Balanced.retired (hd : d.IsOwed) (h : s.Balanced d) {k : Nat} {job : Job}
    (hk : s.trackers[k]? = some (.finished job)) :
    Balanced d { s with
      trackers := s.trackers.set k .exited, released := s.released ++ [job] } := by
  refine h.tracker hk rfl rfl rfl rfl rfl fun j => ?_
  rcases hd with rfl | rfl | rfl
  · rfl
  · simp only [releaseDuty, Tracker.owesRelease, count_append, count_nil]
    omega
  · rfl

/-- The stop takes everything out of the queue, and owes it release and answer. -/
theorem Balanced.drained (hd : d.IsOwed) (h : s.Balanced d) (hbody : s.body = .draining) {q : RequestQueue Job}
    {reqs : List (QueuedRequest Job)} (htakes : s.queue.Takes q reqs) :
    Balanced d { s with
      queue := q, body := .rejecting reqs
      taken := s.taken ++ reqs.map fun req => (req.payload, .drain) } := by
  refine h.body rfl rfl rfl fun j => ?_
  have hcount := htakes.count_jobs j
  rw [hbody]
  rcases hd with rfl | rfl | rfl
  · have hfst : (reqs.map fun req => (req.payload, Taker.drain)).map Prod.fst =
        reqs.map QueuedRequest.payload := by
      rw [map_map]
      rfl
    simp only [takeDuty, map_append, hfst, count_append, count_nil]
    omega
  · simp only [releaseDuty, StopBody.owesRelease, count_nil]
    omega
  simp only [answerDuty, StopBody.owesAnswer, count_nil]
  omega

theorem Balanced.rejected (hd : d.IsOwed) (h : s.Balanced d) {req : QueuedRequest Job} {rest : List (QueuedRequest Job)}
    (hbody : s.body = .rejecting (req :: rest)) :
    Balanced d { s with
      body := .answering (req :: rest), released := s.released ++ [req.payload] } := by
  refine h.body rfl rfl rfl fun j => ?_
  rw [hbody]
  rcases hd with rfl | rfl | rfl
  · rfl
  · simp only [releaseDuty, StopBody.owesRelease, tail_cons, map_cons,
      count_cons, count_append, count_nil]
    omega
  · rfl

theorem Balanced.refused (hd : d.IsOwed) (h : s.Balanced d) {req : QueuedRequest Job} {rest : List (QueuedRequest Job)}
    {ok : Bool} (hbody : s.body = .answering (req :: rest)) :
    Balanced d { s with
      body := .rejecting rest
      answered := s.answered ++ [(req.payload, .err .stopping, ok)] } := by
  refine h.body rfl rfl rfl fun j => ?_
  rw [hbody]
  rcases hd with rfl | rfl | rfl
  · rfl
  · rfl
  simp only [answerDuty, StopBody.owesAnswer, map_cons, map_append, map_nil,
    count_cons, count_append, count_nil]
  omega

/-- **A move leaves every book balanced.** -/
theorem Balanced.moved (hd : d.IsOwed) (h : s.Balanced d) (hmoved : s.Moved s') :
    s'.Balanced d := by
  cases hmoved with
  | refused q hheap hclosed hcons | signalled q n hheap hclosed hcons =>
    refine h.still rfl rfl rfl ?_ rfl ?_
    · simp only [jobs, hheap]
    · rcases hd with rfl | rfl | rfl <;> rfl
  | accepted q job hticket hopen hclosed hcons hjobs => exact h.accepted hd hjobs
  | passed w c c' q hw hpasses hheap hclosed hcons => exact h.passed hd hw hpasses hheap
  | took w c req q hw hactive hfree hopen htakes => exact h.took hd hw hfree htakes
  | submitted w req hw =>
    refine h.worker hw rfl rfl rfl rfl fun j => ?_
    rcases hd with rfl | rfl | rfl <;> rfl
  | tracked w req hw => exact h.tracked hd hw
  | delivered w req ok hw | answered w req error ok hw =>
    refine h.worker hw rfl rfl rfl rfl fun j => ?_
    rcases hd with rfl | rfl | rfl
    · rfl
    · rfl
    simp only [answerDuty, Worker.owesAnswer, Worker.owesRelease, setWorker, map_append,
      map_cons, map_nil, count_append, count_nil]
    omega
  | released w req error hw => exact h.released hd hw
  | generated job hknown | cancelled job | waited k state c c' hk hadvance =>
    refine h.still rfl rfl rfl rfl rfl ?_
    rcases hd with rfl | rfl | rfl <;> rfl
  | woke k job hk hdone =>
    refine h.tracker hk rfl rfl rfl rfl rfl fun j => ?_
    rcases hd with rfl | rfl | rfl <;> rfl
  | retired k job hk => exact h.retired hd hk
  | stopping =>
    refine h.still rfl rfl rfl rfl ?_ ?_
    · dsimp only
      split
      · rename_i hbody
        rw [hbody]
        rcases hd with rfl | rfl | rfl <;> rfl
      · rfl
    · rcases hd with rfl | rfl | rfl <;> rfl
  | stored hbody | locked hbody | unlocked hbody =>
    refine h.still rfl rfl rfl rfl ?_ ?_
    · rw [hbody]
      rcases hd with rfl | rfl | rfl <;> rfl
    · rcases hd with rfl | rfl | rfl <;> rfl
  | closed hbody =>
    refine h.still rfl rfl rfl ?_ ?_ ?_
    · simp only [jobs, close_heap]
    · rw [hbody]
      rcases hd with rfl | rfl | rfl <;> rfl
    · rcases hd with rfl | rfl | rfl <;> rfl
  | drained hbody q reqs htakes hempty => exact h.drained hd hbody htakes
  | rejected req rest hbody => exact h.rejected hd hbody
  | refusal req rest ok hbody => exact h.refused hd hbody

/-- **In every reachable state every book balances.** -/
theorem Reachable.balanced {n : Nat} {maxSize : Int} (h : s.Reachable n maxSize)
    (hd : d.IsOwed) : s.Balanced d := by
  refine Lib.Runs.inv h ?_ fun _ _ _ hbal _ hstep => hbal.moved hd (moved_of_step hstep)
  intro j
  have hworkers : (List.replicate n (Worker.idle ∅)).flatMap d.worker = [] := by
    rw [flatMap_eq_nil_iff]
    intro c hc
    rw [eq_of_mem_replicate hc]
    rcases hd with rfl | rfl | rfl <;> rfl
  simp only [start, book, hworkers]
  rcases hd with rfl | rfl | rfl <;> rfl

end Pool

end DenseCore.Server
