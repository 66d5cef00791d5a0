/-
Every accepted request is retired exactly once.

The books give the counting: a request is accepted once, so each duty towards it is
held by one party or discharged once.  Two more invariants say when.  `Tended`: a
submitted generation is done, or its request still waits with the worker that
submitted it or with its tracker, so a lease that has been released belongs to a
generation that is done.  `Closing`: what the shutdown has seen stays so, the queue
closed and empty, then no worker left, then no tracker, and when `StopAndWait`
returns nil nobody is left to owe anything.
-/
import DenseCore.Proofs.Server.PoolLedger

namespace DenseCore

namespace Server

namespace Pool

open List

variable {s s' : Pool}

/-! ### Every request is accepted once -/

/-- Tickets are handed out in order, so no request is accepted twice. -/
structure Fresh (s : Pool) : Prop where
  bound : ∀ j ∈ s.accepted, j.ticket < s.nextTicket
  nodup : s.accepted.Nodup

theorem Fresh.keep (h : s.Fresh) (haccepted : s'.accepted = s.accepted)
    (hnext : s.nextTicket ≤ s'.nextTicket) : s'.Fresh := by
  refine ⟨fun j hj => ?_, haccepted ▸ h.nodup⟩
  exact Nat.lt_of_lt_of_le (h.bound j (haccepted ▸ hj)) hnext

theorem Fresh.moved (h : s.Fresh) (hmoved : s.Moved s') : s'.Fresh := by
  cases hmoved with
  | accepted q job hticket =>
    refine ⟨fun j hj => ?_, ?_⟩
    · show j.ticket < s.nextTicket + 1
      rcases mem_append.mp hj with hold | hnew
      · have := h.bound j hold
        omega
      rw [mem_singleton.mp hnew]
      omega
    refine nodup_append.mpr ⟨h.nodup, nodup_singleton job, ?_⟩
    rintro j hj _ hjob rfl
    have := h.bound j hj
    rw [mem_singleton.mp hjob] at this
    omega
  | refused q => exact h.keep rfl (Nat.le_succ _)
  | _ => exact h.keep rfl (Nat.le_refl _)

/-! ### A released lease belongs to a finished generation -/

/-- A submitted generation is done, or its request is with the worker that
submitted it or with the tracker; nobody waits for a generation that was not
submitted. -/
structure Tended (s : Pool) : Prop where
  held : ∀ j ∈ s.submitted, j ∈ s.done ∨
    (∃ req, Worker.submitted req ∈ s.workers ∧ req.payload = j) ∨ Tracker.waiting j ∈ s.trackers
  workers : ∀ req, Worker.submitted req ∈ s.workers → req.payload ∈ s.submitted
  trackers : ∀ j, Tracker.waiting j ∈ s.trackers → j ∈ s.submitted

theorem Tended.keep (h : s.Tended) (hsubmitted : s'.submitted = s.submitted)
    (hdone : ∀ j ∈ s.done, j ∈ s'.done)
    (hworkers : ∀ req, Worker.submitted req ∈ s'.workers ↔ Worker.submitted req ∈ s.workers)
    (htrackers : s'.trackers = s.trackers) : s'.Tended := by
  refine ⟨fun j hj => ?_, fun req hreq => ?_, fun j hj => ?_⟩
  · rw [htrackers]
    rcases h.held j (hsubmitted ▸ hj) with hd | ⟨req, hreq, hpayload⟩ | ht
    · exact Or.inl (hdone j hd)
    · exact Or.inr (Or.inl ⟨req, (hworkers req).mpr hreq, hpayload⟩)
    · exact Or.inr (Or.inr ht)
  · rw [hsubmitted]
    exact h.workers req ((hworkers req).mp hreq)
  rw [hsubmitted]
  exact h.trackers j (htrackers ▸ hj)

theorem submitted_mem_set {w : Nat} {c c' : Worker} (hw : s.workers[w]? = some c)
    (hbefore : ∀ req, c ≠ .submitted req) (hafter : ∀ req, c' ≠ .submitted req)
    (req : QueuedRequest Job) :
    Worker.submitted req ∈ s.workers.set w c' ↔ Worker.submitted req ∈ s.workers := by
  constructor
  · intro hmem
    rcases mem_or_eq_of_mem_set hmem with hold | heq
    · exact hold
    · exact absurd heq.symm (hafter req)
  intro hmem
  exact Lib.mem_set_of_ne hw hmem (Ne.symm (hbefore req))

/-- No move leaves a request without someone who tends to it. -/
theorem Tended.moved (h : s.Tended) (hmoved : s.Moved s') : s'.Tended := by
  have hsame : ∀ req, Worker.submitted req ∈ s.workers ↔ Worker.submitted req ∈ s.workers :=
    fun _ => Iff.rfl
  cases hmoved with
  | passed w c c' q hw hpasses =>
    exact h.keep rfl (fun _ hj => hj) (submitted_mem_set hw hpasses.before hpasses.after) rfl
  | took w c req q hw hactive hfree =>
    refine h.keep rfl (fun _ hj => hj) (submitted_mem_set hw ?_ (by simp)) rfl
    rintro r rfl
    simp [Worker.owesAnswer, Worker.owesRelease] at hfree
  | submitted w req hw =>
    have hself : Worker.submitted req ∈ s.workers.set w (.submitted req) :=
      Lib.mem_set_self hw _
    refine ⟨fun j hj => ?_, fun r hr => ?_, fun j hj => ?_⟩
    · rcases mem_append.mp hj with hold | hnew
      · rcases h.held j hold with hd | ⟨r, hr, hpayload⟩ | ht
        · exact Or.inl hd
        · exact Or.inr (Or.inl ⟨r, Lib.mem_set_of_ne hw hr (by simp), hpayload⟩)
        · exact Or.inr (Or.inr ht)
      · exact Or.inr (Or.inl ⟨req, hself, (mem_singleton.mp hnew).symm⟩)
    · rcases mem_or_eq_of_mem_set hr with hold | heq
      · exact mem_append_left _ (h.workers r hold)
      injection heq with heq
      rw [heq]
      exact mem_append_right _ (mem_singleton_self _)
    · exact mem_append_left _ (h.trackers j hj)
  | tracked w req hw =>
    have hreq : req.payload ∈ s.submitted := h.workers req (mem_of_getElem? hw)
    refine ⟨fun j hj => ?_, fun r hr => ?_, fun j hj => ?_⟩
    · rcases h.held j hj with hd | ⟨r, hr, hpayload⟩ | ht
      · exact Or.inl hd
      · by_cases hrr : r = req
        · subst hrr
          rw [← hpayload]
          exact Or.inr (Or.inr (mem_append_right _ (mem_singleton_self _)))
        · exact Or.inr (Or.inl ⟨r, Lib.mem_set_of_ne hw hr (by simpa using hrr), hpayload⟩)
      · exact Or.inr (Or.inr (mem_append_left _ ht))
    · rcases mem_or_eq_of_mem_set hr with hold | heq
      · exact h.workers r hold
      · cases heq
    rcases mem_append.mp hj with hold | hnew
    · exact h.trackers j hold
    have heq := mem_singleton.mp hnew
    injection heq with heq
    rwa [heq]
  | delivered w req ok hw | released w req error hw | answered w req error ok hw =>
    exact h.keep rfl (fun _ hj => hj) (submitted_mem_set hw (by simp) (by simp)) rfl
  | generated job hknown =>
    exact h.keep rfl (fun _ hj => mem_cons_of_mem _ hj) hsame rfl
  | woke k job hk hdone =>
    refine ⟨fun j hj => ?_, h.workers, fun j hj => ?_⟩
    · rcases h.held j hj with hd | hreq | ht
      · exact Or.inl hd
      · exact Or.inr (Or.inl hreq)
      by_cases hjj : j = job
      · subst hjj
        exact Or.inl hdone
      · exact Or.inr (Or.inr (Lib.mem_set_of_ne hk ht (by simpa using hjj)))
    rcases mem_or_eq_of_mem_set hj with hold | heq
    · exact h.trackers j hold
    · cases heq
  | retired k job hk =>
    refine ⟨fun j hj => ?_, h.workers, fun j hj => ?_⟩
    · rcases h.held j hj with hd | hreq | ht
      · exact Or.inl hd
      · exact Or.inr (Or.inl hreq)
      · exact Or.inr (Or.inr (Lib.mem_set_of_ne hk ht (by simp)))
    rcases mem_or_eq_of_mem_set hj with hold | heq
    · exact h.trackers j hold
    · cases heq
  | _ => exact h.keep rfl (fun _ hj => hj) hsame rfl

theorem released_of_count (hbal : s.Balanced releaseDuty) (hnodup : s.accepted.Nodup) {j : Job}
    (hj : j ∈ s.released) :
    j ∉ s.workers.flatMap Worker.owesRelease ∧ j ∉ s.trackers.flatMap Tracker.owesRelease := by
  have hbook := hbal j
  have honce : s.accepted.count j ≤ 1 := nodup_iff_count_le_one.mp hnodup j
  have hpos : 0 < s.released.count j := count_pos_iff.mpr hj
  simp only [book, releaseDuty] at hbook
  constructor
  · intro hmem
    have := count_pos_iff.mpr hmem
    omega
  intro hmem
  have := count_pos_iff.mpr hmem
  omega

theorem Tended.not_early (h : s.Tended) (hbal : s.Balanced releaseDuty)
    (hnodup : s.accepted.Nodup) {j : Job} (hreleased : j ∈ s.released) (hj : j ∈ s.submitted) :
    j ∈ s.done := by
  obtain ⟨hworkers, htrackers⟩ := released_of_count hbal hnodup hreleased
  rcases h.held j hj with hd | ⟨req, hreq, hpayload⟩ | ht
  · exact hd
  · refine absurd (mem_flatMap.mpr ⟨_, hreq, ?_⟩) hworkers
    simp [Worker.owesRelease, hpayload]
  refine absurd (mem_flatMap.mpr ⟨_, ht, ?_⟩) htrackers
  simp [Tracker.owesRelease]

end Pool

/-! ### What the shutdown has seen

The shutdown closes the queue, drains it and waits. What it has seen at each point stays
true, as workers and trackers only leave.
-/

/-- How far the function under `stopOnce` is. -/
def StopBody.rank : StopBody → Nat
  | .notStarted => 0
  | .storing => 1
  | .locking => 2
  | .closing => 3
  | .draining => 4
  | .rejecting _ => 5
  | .answering _ => 5
  | .finished => 6

/-- No worker is left. -/
def Pool.WorkersGone (s : Pool) : Prop := ∀ c ∈ s.workers, c = Worker.exited

/-- No tracker is left. -/
def Pool.TrackersGone (s : Pool) : Prop := ∀ t ∈ s.trackers, t = Tracker.exited

/-- What a call of `StopAndWait` has seen when it stands where it stands. -/
def StopCall.Saw (s : Pool) : StopCall → Prop
  | .entered => True
  | .waitingWorkers => s.body = .finished
  | .waitingTrackers => s.body = .finished ∧ s.WorkersGone
  | .settled => s.body = .finished ∧ s.WorkersGone ∧ s.TrackersGone
  | .returned true => s.body = .finished ∧ s.WorkersGone ∧ s.TrackersGone
  | .returned false => True

namespace Pool

variable {s s' : Pool}

/-- The queue at each point of the shutdown, and what the stop calls have seen of it. -/
structure Closing (s : Pool) : Prop where
  consistent : s.queue.Consistent
  closed : 4 ≤ s.body.rank → s.queue.closed = true
  empty : 5 ≤ s.body.rank → s.queue.heap = #[]
  answering : s.body ≠ .answering []
  calls : ∀ c ∈ s.stops, c.Saw s

theorem WorkersGone.absurd_of (h : s.WorkersGone) {w : Nat} {c : Worker}
    (hw : s.workers[w]? = some c) (hc : c ≠ .exited) : False :=
  hc (h c (List.mem_of_getElem? hw))

theorem WorkersGone.moved (h : s.WorkersGone) (hmoved : s.Moved s') : s'.WorkersGone := by
  cases hmoved with
  | passed w c c' q hw hpasses => exact (h.absurd_of hw hpasses.active).elim
  | took w c req q hw hactive => exact (h.absurd_of hw hactive).elim
  | submitted w req hw | tracked w req hw | delivered w req ok hw | released w req error hw
  | answered w req error ok hw => exact (h.absurd_of hw (by simp)).elim
  | _ => exact h

theorem TrackersGone.moved (h : s.TrackersGone) (hworkers : s.WorkersGone)
    (hmoved : s.Moved s') : s'.TrackersGone := by
  cases hmoved with
  | tracked w req hw => exact (hworkers.absurd_of hw (by simp)).elim
  | woke k job hk | retired k job hk => cases h _ (List.mem_of_getElem? hk)
  | _ => exact h

theorem body_finished_moved (h : s.body = .finished) (hmoved : s.Moved s') :
    s'.body = .finished := by
  cases hmoved with
  | stopping =>
    show (if s.body = .notStarted then StopBody.storing else s.body) = .finished
    rw [h]
    rfl
  | stored hbody | locked hbody | closed hbody | drained hbody | rejected req rest hbody
  | refusal req rest ok hbody => rw [h] at hbody; cases hbody
  | unlocked hbody => rfl
  | _ => exact h

theorem saw_moved {c : StopCall} (h : c.Saw s) (hmoved : s.Moved s') : c.Saw s' := by
  cases c with
  | entered => trivial
  | waitingWorkers => exact body_finished_moved h hmoved
  | waitingTrackers => exact ⟨body_finished_moved h.1 hmoved, h.2.moved hmoved⟩
  | settled =>
    exact ⟨body_finished_moved h.1 hmoved, h.2.1.moved hmoved, h.2.2.moved h.2.1 hmoved⟩
  | returned ok =>
    cases ok with
    | false => trivial
    | true =>
      exact ⟨body_finished_moved h.1 hmoved, h.2.1.moved hmoved, h.2.2.moved h.2.1 hmoved⟩

theorem saw_advances {c c' : StopCall} (h : c.Saw s) (hadvance : StopCall.Advances s c c') :
    c'.Saw s := by
  cases hadvance with
  | entered hfinished => exact hfinished
  | workers hgone => exact ⟨h, hgone⟩
  | trackers hgone => exact ⟨h.1, h.2, hgone⟩
  | settled => exact h
  | gaveUp => trivial

theorem Closing.keep (h : s.Closing) (hmoved : s.Moved s') (hbody : s'.body = s.body)
    (hstops : s'.stops = s.stops) (hcons : s'.queue.Consistent)
    (hclosed : s'.queue.closed = s.queue.closed)
    (hempty : s.queue.closed = true → s.queue.heap = #[] → s'.queue.heap = #[]) :
    s'.Closing := by
  refine ⟨hcons, fun hrank => ?_, fun hrank => ?_, hbody ▸ h.answering, fun c hc => ?_⟩
  · rw [hclosed]
    exact h.closed (hbody ▸ hrank)
  · rw [hbody] at hrank
    exact hempty (h.closed (by omega)) (h.empty hrank)
  · exact saw_moved (h.calls c (hstops ▸ hc)) hmoved

/-- The same for the steps of the shutdown itself. -/
theorem Closing.advance (h : s.Closing) (hmoved : s.Moved s') (hstops : s'.stops = s.stops)
    (hcons : s'.queue.Consistent) (hclosed : 4 ≤ s'.body.rank → s'.queue.closed = true)
    (hempty : 5 ≤ s'.body.rank → s'.queue.heap = #[]) (hanswering : s'.body ≠ .answering []) :
    s'.Closing :=
  ⟨hcons, hclosed, hempty, hanswering, fun c hc => saw_moved (h.calls c (hstops ▸ hc)) hmoved⟩

/-- What the shutdown has seen stays true. -/
theorem Closing.moved (h : s.Closing) (hmoved : s.Moved s') : s'.Closing := by
  have hmoved' := hmoved
  cases hmoved with
  | refused q hheap hclosed hcons | signalled q n hheap hclosed hcons
  | passed w c c' q hw hpasses hheap hclosed hcons =>
    exact h.keep hmoved' rfl rfl (hcons h.consistent) hclosed fun _ he => hheap.trans he
  | accepted q job hticket hopen hclosed hcons hjobs =>
    refine h.keep hmoved' rfl rfl (hcons h.consistent) (hclosed.trans hopen.symm) fun hc => ?_
    rw [hopen] at hc
    cases hc
  | took w c req q hw hactive hfree hopen htakes =>
    refine h.keep hmoved' rfl rfl (htakes.consistent h.consistent) htakes.closed fun hc => ?_
    rw [hopen] at hc
    cases hc
  | stopping =>
    refine ⟨h.consistent, ?_, ?_, ?_, fun c hc => ?_⟩
    · intro hrank
      refine h.closed ?_
      dsimp only at hrank
      split at hrank
      · simp [StopBody.rank] at hrank
      · exact hrank
    · intro hrank
      refine h.empty ?_
      dsimp only at hrank
      split at hrank
      · simp [StopBody.rank] at hrank
      · exact hrank
    · dsimp only
      split
      · simp
      · exact h.answering
    rcases List.mem_append.mp hc with hold | hnew
    · exact saw_moved (h.calls c hold) hmoved'
    rw [List.mem_singleton.mp hnew]
    trivial
  | stored hbody | locked hbody =>
    exact h.advance hmoved' rfl h.consistent (by simp [StopBody.rank]) (by simp [StopBody.rank])
      (by simp)
  | closed hbody =>
    exact h.advance hmoved' rfl h.consistent.close (fun _ => s.queue.close_closed)
      (by simp [StopBody.rank]) (by simp)
  | drained hbody q reqs htakes hempty =>
    refine h.advance hmoved' rfl (htakes.consistent h.consistent) (fun _ => ?_)
      (fun _ => hempty) (by simp)
    exact htakes.closed.trans (h.closed (by simp [hbody, StopBody.rank]))
  | rejected req rest hbody | refusal req rest ok hbody | unlocked hbody =>
    exact h.advance hmoved' rfl h.consistent
      (fun _ => h.closed (by simp [hbody, StopBody.rank]))
      (fun _ => h.empty (by simp [hbody, StopBody.rank])) (by simp)
  | waited k state c c' hk hadvance =>
    refine ⟨h.consistent, h.closed, h.empty, h.answering, fun d hd => ?_⟩
    have hsaw : d.Saw s := by
      rcases List.mem_or_eq_of_mem_set hd with hold | rfl
      · exact h.calls d hold
      · exact saw_advances (h.calls c (List.mem_of_getElem? hk)) hadvance
    exact saw_moved hsaw hmoved'
  | _ => exact h.keep hmoved' rfl rfl h.consistent rfl fun _ he => he

/-! ### When nobody is left -/

theorem flatMap_workers_gone (h : s.WorkersGone) {f : Worker → List Job}
    (hf : f .exited = []) : s.workers.flatMap f = [] :=
  List.flatMap_eq_nil_iff.mpr fun c hc => by rw [h c hc, hf]

theorem flatMap_trackers_gone (h : s.TrackersGone) {f : Tracker → List Job}
    (hf : f .exited = []) : s.trackers.flatMap f = [] :=
  List.flatMap_eq_nil_iff.mpr fun t ht => by rw [h t ht, hf]

/-- The shutdown is over and nobody is left. -/
structure Over (s : Pool) : Prop where
  finished : s.body = .finished
  workers : s.WorkersGone
  trackers : s.TrackersGone

theorem Over.discharged (h : s.Over) (hclosing : s.Closing) {d : Duty} (hd : d.IsOwed)
    (hbal : s.Balanced d) (hnodup : s.accepted.Nodup) {j : Job} (hj : j ∈ s.accepted) :
    (d.log s).count j = 1 := by
  have hheap : s.queue.jobs = [] := by
    have := hclosing.empty (by rw [h.finished]; decide)
    simp [RequestQueue.jobs, this]
  have hworkers : s.workers.flatMap d.worker = [] :=
    flatMap_workers_gone h.workers (by rcases hd with rfl | rfl | rfl <;> rfl)
  have htrackers : s.trackers.flatMap d.tracker = [] :=
    flatMap_trackers_gone h.trackers (by rcases hd with rfl | rfl | rfl <;> rfl)
  have hbody : d.body s.body = [] := by
    rw [h.finished]
    rcases hd with rfl | rfl | rfl <;> rfl
  have hbook := hbal j
  rw [List.count_eq_one_of_mem hnodup hj] at hbook
  simp only [book, hheap, hworkers, htrackers, hbody, List.count_nil] at hbook
  omega

/-! ### Leases -/

theorem lease_returned {j : Job} (hnodup : s.released.count j ≤ 1) :
    (s.lease j).returned = s.released.count j := by
  have hfilter : s.released.filter (· = j) = List.replicate (s.released.count j) j := by
    rw [← List.filter_beq]
    exact List.filter_congr fun x _ => rfl
  rw [lease, hfilter]
  rcases Nat.le_one_iff_eq_zero_or_eq_one.mp hnodup with hzero | hone
  · rw [hzero]
    rfl
  rw [hone]
  rfl

end Pool

/-! ### When nothing moves any more -/

/-- The steps of the workers, the trackers and the shutdown. -/
def PoolEvent.Internal : PoolEvent → Prop
  | .enqueue .. => False
  | .send => False
  | .generationDone _ => False
  | .contextDone _ => False
  | .stop => False
  | .stopWait _ => False
  | .stopGiveUp _ => False
  | _ => True

namespace Pool

variable {s : Pool}

/-- The shutdown was started, every generation is done, and no worker, tracker or
shutdown step is left to take. -/
structure Quiet (s : Pool) : Prop where
  started : s.body ≠ .notStarted
  done : ∀ j ∈ s.submitted, j ∈ s.done
  still : ∀ e : PoolEvent, e.Internal → s.step e = none

theorem Quiet.finished (h : s.Quiet) (hclosing : s.Closing) : s.body = .finished := by
  have hbody := h.still (.stopBody true) trivial
  simp only [Pool.step, stopBodyStep] at hbody
  split at hbody
  · exact absurd (by assumption) h.started
  · cases hbody
  · split at hbody
    · rename_i hread
      obtain ⟨c, hc, req, rfl⟩ := hread
      obtain ⟨w, hw⟩ := List.mem_iff_getElem?.mp hc
      have hcheck := h.still (.checkState w) trivial
      simp only [Pool.step, hw] at hcheck
      split at hcheck <;> cases hcheck
    · cases hbody
  · cases hbody
  · cases hbody
  · cases hbody
  · cases hbody
  · exact absurd (by assumption) hclosing.answering
  · cases hbody
  · assumption

theorem Quiet.workersGone (h : s.Quiet) (hclosing : s.Closing) : s.WorkersGone := by
  have hfinished := h.finished hclosing
  have hunlocked : ¬ s.WriteLocked := by simp [WriteLocked, hfinished]
  have hready : s.queue.CanReceive := by
    right
    exact hclosing.consistent.trans (hclosing.closed (by rw [hfinished]; decide))
  intro c hc
  obtain ⟨w, hw⟩ := List.mem_iff_getElem?.mp hc
  cases c with
  | idle experts | testing experts => simpa [Pool.step, hw] using h.still (.dequeue w) trivial
  | waiting experts => simpa [Pool.step, hw, hready] using h.still (.receive w) trivial
  | picked req => simpa [Pool.step, hw, hunlocked] using h.still (.readLock w) trivial
  | checking req =>
    have hstep := h.still (.checkState w) trivial
    simp only [Pool.step, hw] at hstep
    split at hstep <;> cases hstep
  | cleared req =>
    have hstep := h.still (.checkContext w) trivial
    simp only [Pool.step, hw] at hstep
    split at hstep
    · cases hstep
    · split at hstep <;> cases hstep
  | submitting req => simpa [Pool.step, hw] using h.still (.submit w true) trivial
  | submitted req => simpa [Pool.step, hw] using h.still (.track w) trivial
  | tracked req => simpa [Pool.step, hw] using h.still (.deliver w true) trivial
  | rejecting req error => simpa [Pool.step, hw] using h.still (.release w) trivial
  | answering req error => simpa [Pool.step, hw] using h.still (.answer w true) trivial
  | exited => rfl

theorem Quiet.trackersGone (h : s.Quiet) (htended : s.Tended) : s.TrackersGone := by
  intro t ht
  obtain ⟨k, hk⟩ := List.mem_iff_getElem?.mp ht
  cases t with
  | waiting job =>
    have hdone : job ∈ s.done := h.done job (htended.trackers job ht)
    simpa [Pool.step, hk, hdone] using h.still (.trackerWakes k) trivial
  | finished job => simpa [Pool.step, hk] using h.still (.trackerReleases k) trivial
  | exited => rfl

/-! ### The result -/

/-- What becomes of the requests that were accepted. -/
structure RetiredOnce (s : Pool) : Prop where
  /-- no request is accepted twice -/
  distinct : s.accepted.Nodup
  /-- a request is in the heap, or was taken by one worker or by the drain -/
  taken : ∀ j ∈ s.accepted, s.queue.jobs.count j + (s.taken.map Prod.fst).count j = 1
  /-- its lease is still to be released by exactly one party, or was released once -/
  releasedOnce : ∀ j ∈ s.accepted, s.book releaseDuty j = 1
  /-- only leases of accepted requests are released, each at most once, and the
  lease is given back as often -/
  leases : ∀ j, s.released.count j ≤ 1 ∧ (j ∈ s.released → j ∈ s.accepted) ∧
    (s.lease j).returned = s.released.count j
  /-- no lease is released while its generation runs -/
  notEarly : ∀ j ∈ s.released, j ∈ s.submitted → j ∈ s.done
  /-- at most one result is posted -/
  results : ∀ j, (s.answered.map Prod.fst).count j ≤ 1
  /-- when `StopAndWait` has returned nil, and whenever the shutdown has nothing
  left to do, every accepted request was taken once, released once and answered
  once -/
  retired : .returned true ∈ s.stops ∨ s.Quiet → ∀ j ∈ s.accepted,
    (s.taken.map Prod.fst).count j = 1 ∧ s.released.count j = 1 ∧
      (s.answered.map Prod.fst).count j = 1

theorem count_le_one_of_balanced {d : Duty} (hbal : s.Balanced d) (hnodup : s.accepted.Nodup)
    (j : Job) : (d.log s).count j ≤ 1 := by
  have hbook := hbal j
  have honce : s.accepted.count j ≤ 1 := List.nodup_iff_count_le_one.mp hnodup j
  unfold book at hbook
  omega

/-- **Every accepted request is retired exactly once**, for any number of workers
and any interleaving. -/
theorem retired_once {n : Nat} {maxSize : Int} (h : s.Reachable n maxSize) : s.RetiredOnce := by
  have hfresh : s.Fresh :=
    h.inv ⟨by simp [start], List.nodup_nil⟩ fun _ _ _ hinv _ hstep =>
      hinv.moved (moved_of_step hstep)
  have htended : s.Tended :=
    h.inv ⟨by simp [start], by simp [start], by simp [start]⟩ fun _ _ _ hinv _ hstep =>
      hinv.moved (moved_of_step hstep)
  have hclosing : s.Closing :=
    h.inv ⟨rfl, by simp [start, StopBody.rank], by simp [start, StopBody.rank], by simp [start],
      by simp [start]⟩ fun _ _ _ hinv _ hstep => hinv.moved (moved_of_step hstep)
  have htake := h.balanced (d := takeDuty) (Or.inl rfl)
  have hrelease := h.balanced (d := releaseDuty) (Or.inr (Or.inl rfl))
  have hanswer := h.balanced (d := answerDuty) (Or.inr (Or.inr rfl))
  have hnodup := hfresh.nodup
  refine ⟨hnodup, fun j hj => ?_, fun j hj => ?_, fun j => ⟨?_, ?_, ?_⟩, ?_, fun j => ?_, ?_⟩
  · have hbook := htake j
    have hworkers : s.workers.flatMap takeDuty.worker = [] :=
      List.flatMap_eq_nil_iff.mpr fun _ _ => rfl
    have htrackers : s.trackers.flatMap takeDuty.tracker = [] :=
      List.flatMap_eq_nil_iff.mpr fun _ _ => rfl
    rw [List.count_eq_one_of_mem hnodup hj] at hbook
    simp only [book, hworkers, htrackers, List.count_nil] at hbook
    simpa [takeDuty] using hbook.symm
  · rw [← hrelease j]
    exact List.count_eq_one_of_mem hnodup hj
  · exact count_le_one_of_balanced hrelease hnodup j
  · intro hj
    have hpos : 0 < s.released.count j := List.count_pos_iff.mpr hj
    have hbook := hrelease j
    simp only [book, releaseDuty] at hbook
    exact List.count_pos_iff.mp (by omega)
  · exact lease_returned (count_le_one_of_balanced hrelease hnodup j)
  · exact fun j hj hsubmitted => htended.not_early hrelease hnodup hj hsubmitted
  · exact count_le_one_of_balanced hanswer hnodup j
  intro hend j hj
  have hover : s.Over := by
    rcases hend with hnil | hquiet
    · obtain ⟨hbody, hworkers, htrackers⟩ := hclosing.calls _ hnil
      exact ⟨hbody, hworkers, htrackers⟩
    exact ⟨hquiet.finished hclosing, hquiet.workersGone hclosing, hquiet.trackersGone htended⟩
  exact ⟨hover.discharged hclosing (Or.inl rfl) htake hnodup hj,
    hover.discharged hclosing (Or.inr (Or.inl rfl)) hrelease hnodup hj,
    hover.discharged hclosing (Or.inr (Or.inr rfl)) hanswer hnodup hj⟩

/-- One worker and two requests: it submits the first, the drain rejects the
second, and `StopAndWait` returns nil after the generation is done. -/
theorem oneWorker_retires_two :
    ∃ s : Pool, s.accepted.length = 2 ∧ .returned true ∈ s.stops ∧ s.RetiredOnce := by
  let job : Job := { ticket := 0, engineBound := true, leased := true }
  have hrun : ∃ s, Lib.runList step (start 1 2)
      [.enqueue 0 0 [] true true, .dequeue 0, .enqueue 0 0 [3] true true, .readLock 0,
        .checkState 0, .stop, .checkContext 0, .stopBody true, .submit 0 true, .stopBody true,
        .stopBody true, .track 0, .stopBody true, .stopBody true, .stopBody false,
        .stopBody true, .stopWait 0, .deliver 0 true, .dequeue 0, .stopWait 0,
        .generationDone job, .trackerWakes 0, .trackerReleases 0, .stopWait 0, .stopWait 0] =
        some s ∧ s.accepted.length = 2 ∧ .returned true ∈ s.stops := by
    decide +kernel
  obtain ⟨s, hlist, haccepted, hreturned⟩ := hrun
  exact ⟨s, haccepted, hreturned, retired_once (Lib.Runs.of_list hlist)⟩

end Pool

end Server

end DenseCore
