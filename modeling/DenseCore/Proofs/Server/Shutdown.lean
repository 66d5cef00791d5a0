/-
Shutting the queue down.

Two things should hold whatever the interleaving.  The requests are conserved:
every one that was pushed is in the heap or with exactly one consumer, and this is
so in every reachable state, because each critical section moves requests between
the heap and one call.  And nobody sends on the closed channel.  That does not
hold: `Enqueue` tests `closed` inside the mutex and sends outside it, and a `Close`
in between turns the send into a panic.  It holds in the runs in which no `Close`
happens while an `Enqueue` is on its way to the send.
-/
import DenseCore.Server.QueueClients
import DenseCore.Proofs.Server.Queue
import DenseCore.Lib.Parts

namespace DenseCore.Server

open List Option

variable {ρ : Type}

/-! ### Who holds what -/

/-- The request an `Enqueue` has pushed. -/
def Call.pushed : Call ρ → List (QueuedRequest ρ)
  | .signalling req => [req]
  | .enqueued req => [req]
  | .panicked req => [req]
  | _ => []

/-- The requests a call returned to its caller. -/
def Call.handed : Call ρ → List (QueuedRequest ρ)
  | .took req => [req]
  | .drained reqs => reqs
  | _ => []

/-- An `Enqueue` between its critical section and its send. -/
def Call.IsSignalling (c : Call ρ) : Prop := ∃ req, c = .signalling req

/-- An `Enqueue` that sent on the closed channel. -/
def Call.IsPanicked (c : Call ρ) : Prop := ∃ req, c = .panicked req

variable (o : Option (QueuedRequest ρ)) (consumer : Consumer)

@[simp] theorem pushed_next (cancelled : Bool) (head : Head ρ) :
    (head.next consumer cancelled).pushed = [] := by
  cases head <;> rfl

@[simp] theorem handed_next (cancelled : Bool) (head : Head ρ) :
    (head.next consumer cancelled).handed = head.taken := by
  cases head <;> rfl

@[simp] theorem handed_afterPush : (afterPush o).handed = [] := by
  cases o <;> rfl

@[simp] theorem pushed_afterPush : (afterPush o).pushed = o.toList := by
  cases o <;> rfl

@[simp] theorem pushed_afterTry : (afterTry o).pushed = [] := by
  cases o <;> rfl

@[simp] theorem handed_afterTry : (afterTry o).handed = o.toList := by
  cases o <;> rfl

/-! ### What a consumer finds -/

namespace Consumer

variable {q : RequestQueue ρ}

variable (consumer : Consumer)

theorem test_closed (hc : q.closed = true) : consumer.test q = (.closed, q) := by
  cases consumer with
  | dequeue => exact RequestQueue.dequeueSection_closed hc
  | moeAwareDequeue currentExperts maxExperts => exact RequestQueue.moeDequeueSection_closed hc

theorem test_empty (hc : q.closed = false) (he : q.heap = #[]) : consumer.test q = (.empty, q) := by
  cases consumer with
  | dequeue => exact RequestQueue.dequeueSection_empty hc he
  | moeAwareDequeue currentExperts maxExperts => exact RequestQueue.moeDequeueSection_empty hc he

theorem test_item (hc : q.closed = false) (hne : q.heap ≠ #[]) :
    ∃ req, (consumer.test q).1 = .item req ∧ q.Takes (consumer.test q).2 [req] := by
  cases consumer with
  | dequeue => exact RequestQueue.dequeueSection_item hc hne
  | moeAwareDequeue currentExperts maxExperts => exact RequestQueue.moeDequeueSection_item hc hne

theorem test_takes (q : RequestQueue ρ) :
    q.Takes (consumer.test q).2 (consumer.test q).1.taken := by
  by_cases hc : q.closed = true
  · rw [consumer.test_closed hc]
    exact RequestQueue.Takes.refl q
  have hopen : q.closed = false := by simpa using hc
  by_cases he : q.heap = #[]
  · rw [consumer.test_empty hopen he]
    exact RequestQueue.Takes.refl q
  obtain ⟨req, hreq, htakes⟩ := consumer.test_item hopen he
  rw [hreq]
  exact htakes

theorem heap_of_empty {consumer : Consumer} (h : (consumer.test q).1 = .empty) :
    (consumer.test q).2.heap = #[] := by
  by_cases hc : q.closed = true
  · rw [consumer.test_closed hc] at h
    cases h
  have hopen : q.closed = false := by simpa using hc
  by_cases he : q.heap = #[]
  · rw [consumer.test_empty hopen he]
    exact he
  obtain ⟨req, hreq, -⟩ := consumer.test_item hopen he
  rw [hreq] at h
  cases h

end Consumer

namespace Clients

variable {s s' : Clients ρ}

/-- The requests some `Enqueue` pushed. -/
def pushed (s : Clients ρ) : List (QueuedRequest ρ) := s.calls.flatMap Call.pushed

/-- The requests some consumer or drain returned. -/
def handed (s : Clients ρ) : List (QueuedRequest ρ) := s.calls.flatMap Call.handed

/-- Every pushed request is in the heap or was handed out, as often as it was
pushed. -/
def Conserved (s : Clients ρ) : Prop :=
  s.pushed.Perm (s.queue.heap.toList ++ s.handed)

/-- The requests at a place: the heap, or what call `j` returned. -/
def held (s : Clients ρ) : Option Nat → List (QueuedRequest ρ)
  | none => s.queue.heap.toList
  | some j => (s.calls[j]?.map Call.handed).getD []

/-- What shutdown should leave true: no send on the closed channel, requests are
conserved, and a request that was enqueued once is at exactly one place. -/
structure Safe (s : Clients ρ) : Prop where
  noPanic : ∀ c ∈ s.calls, ¬ c.IsPanicked
  conserved : s.Conserved
  onePlace : s.pushed.Nodup →
    ∀ (i : Nat) (req : QueuedRequest ρ), s.calls[i]? = some (.enqueued req) →
      ∃! place, req ∈ s.held place

/-! ### Conservation -/

theorem Conserved.arrive (h : s.Conserved) {q : RequestQueue ρ} {c : Call ρ}
    (hmove : (c.pushed ++ s.queue.heap.toList).Perm (q.heap.toList ++ c.handed)) :
    (s.arrive q c).Conserved := by
  show ((s.calls ++ [c]).flatMap Call.pushed).Perm
    (q.heap.toList ++ (s.calls ++ [c]).flatMap Call.handed)
  rw [Lib.flatMap_append_singleton, Lib.flatMap_append_singleton]
  calc s.pushed ++ c.pushed
    Perm _ ((s.queue.heap.toList ++ s.handed) ++ c.pushed) := h.append_right _
    Perm _ (c.pushed ++ (s.queue.heap.toList ++ s.handed)) := perm_append_comm
    _ = (c.pushed ++ s.queue.heap.toList) ++ s.handed := (append_assoc _ _ _).symm
    Perm _ ((q.heap.toList ++ c.handed) ++ s.handed) := hmove.append_right _
    _ = q.heap.toList ++ (c.handed ++ s.handed) := append_assoc _ _ _
    Perm _ (q.heap.toList ++ (s.handed ++ c.handed)) := perm_append_comm.append_left _

variable {i : Nat}

theorem Conserved.move (h : s.Conserved) {q : RequestQueue ρ} {c c' : Call ρ}
    (hc : s.calls[i]? = some c) (hpushed : c'.pushed = c.pushed) (hidle : c.handed = [])
    (hmove : s.queue.heap.toList.Perm (q.heap.toList ++ c'.handed)) :
    (s.move i q c').Conserved := by
  show ((s.calls.set i c').flatMap Call.pushed).Perm
    (q.heap.toList ++ (s.calls.set i c').flatMap Call.handed)
  have hhanded : s.handed.Perm ((s.calls.eraseIdx i).flatMap Call.handed) := by
    have hshare := Lib.flatMap_perm_of_getElem Call.handed hc
    rwa [hidle] at hshare
  calc (s.calls.set i c').flatMap Call.pushed
    Perm _ (c'.pushed ++ (s.calls.eraseIdx i).flatMap Call.pushed) :=
      Lib.flatMap_set_perm Call.pushed hc c'
    _ = c.pushed ++ (s.calls.eraseIdx i).flatMap Call.pushed := by rw [hpushed]
    Perm _ s.pushed := (Lib.flatMap_perm_of_getElem Call.pushed hc).symm
    Perm _ (s.queue.heap.toList ++ s.handed) := h
    Perm _ ((q.heap.toList ++ c'.handed) ++ s.handed) := hmove.append_right _
    _ = q.heap.toList ++ (c'.handed ++ s.handed) := append_assoc _ _ _
    Perm _ (q.heap.toList ++ (c'.handed ++ (s.calls.eraseIdx i).flatMap Call.handed)) :=
      (hhanded.append_left _).append_left _
    Perm _ (q.heap.toList ++ (s.calls.set i c').flatMap Call.handed) :=
      (Lib.flatMap_set_perm Call.handed hc c').symm.append_left _

theorem Conserved.arrive_takes (h : s.Conserved) {q : RequestQueue ρ} {c : Call ρ}
    (htakes : s.queue.Takes q c.handed) (hpushed : c.pushed = []) :
    (s.arrive q c).Conserved := by
  refine h.arrive ?_
  rw [hpushed]
  exact htakes.heap.trans perm_append_comm

/-! ### The steps of a call in progress -/

attribute [local simp] step

theorem step_send (h : s.step (.send i) = some s') : ∃ req, s.calls[i]? = some (.signalling req) ∧
      ((s.queue.signal.closed = true ∧ s' = s.move i s.queue (.panicked req)) ∨
        (s.queue.signal.closed = false ∧ s' = s.move i
          { s.queue with signal := { s.queue.signal with pending := true } } (.enqueued req))) := by
  cases hc : s.calls[i]? with
  | none => simp [step, hc] at h
  | some c =>
    cases c with
    | signalling req =>
      refine ⟨req, rfl, ?_⟩
      by_cases hclosed : s.queue.signal.closed = true
      · refine Or.inl ⟨hclosed, ?_⟩
        simpa [step, hc, RequestQueue.sendSignal, hclosed] using h.symm
      refine Or.inr ⟨by simpa using hclosed, ?_⟩
      simpa [step, hc, RequestQueue.sendSignal, hclosed] using h.symm
    | _ => simp [step, hc] at h

theorem step_receive (h : s.step (.receive i) = some s') :
    ∃ consumer cancelled, s.calls[i]? = some (.waiting consumer cancelled) ∧
      s' = s.move i s.queue.receiveSignal (.testing consumer cancelled) := by
  cases hc : s.calls[i]? with
  | none => simp [step, hc] at h
  | some c =>
    cases c with
    | waiting consumer cancelled =>
      refine ⟨consumer, cancelled, rfl, ?_⟩
      by_cases hready : s.queue.CanReceive
      · simpa [step, hc, hready] using h.symm
      · simp [step, hc, hready] at h
    | _ => simp [step, hc] at h

theorem step_retest (h : s.step (.retest i) = some s') :
    ∃ consumer cancelled, s.calls[i]? = some (.testing consumer cancelled) ∧
      s' = s.move i (consumer.test s.queue).2 ((consumer.test s.queue).1.next consumer cancelled) := by
  cases hc : s.calls[i]? with
  | none => simp [step, hc] at h
  | some c =>
    cases c with
    | testing consumer cancelled =>
      exact ⟨consumer, cancelled, rfl, by simpa [step, hc] using h.symm⟩
    | _ => simp [step, hc] at h

theorem step_cancel (h : s.step (.cancel i) = some s') : ∃ consumer cancelled,
      (s.calls[i]? = some (.waiting consumer cancelled) ∧
        s' = s.move i s.queue (.waiting consumer true)) ∨
      (s.calls[i]? = some (.testing consumer cancelled) ∧
        s' = s.move i s.queue (.testing consumer true)) := by
  cases hc : s.calls[i]? with
  | none => simp [step, hc] at h
  | some c =>
    cases c with
    | waiting consumer cancelled =>
      exact ⟨consumer, cancelled, Or.inl ⟨rfl, by simpa [step, hc] using h.symm⟩⟩
    | testing consumer cancelled =>
      exact ⟨consumer, cancelled, Or.inr ⟨rfl, by simpa [step, hc] using h.symm⟩⟩
    | _ => simp [step, hc] at h

theorem step_giveUp (h : s.step (.giveUp i) = some s') :
    ∃ consumer, s.calls[i]? = some (.waiting consumer true) ∧ s' = s.move i s.queue .cameBack := by
  cases hc : s.calls[i]? with
  | none => simp [step, hc] at h
  | some c =>
    cases c with
    | waiting consumer cancelled =>
      cases cancelled with
      | false => simp [step, hc] at h
      | true => exact ⟨consumer, rfl, by simpa [step, hc] using h.symm⟩
    | _ => simp [step, hc] at h

/-! ### Every step conserves the requests -/

/-- A step moves a request from one place to another or leaves it. -/
theorem Conserved.step (h : s.Conserved) {e : QueueEvent ρ} (hstep : s.step e = some s') :
    s'.Conserved := by
  cases e with
  | enqueue req now =>
    cases hstep
    refine h.arrive ?_
    obtain ⟨-, ⟨hnone, hheap⟩ | ⟨hsome, -, hperm⟩⟩ := s.queue.enqueueSection_spec req now
    · rw [hnone, hheap]
      simp [afterPush, Call.pushed, Call.handed]
    rw [hsome]
    simpa [afterPush, Call.pushed, Call.handed] using hperm.symm
  | dequeue consumer cancelled =>
    cases hstep
    exact h.arrive_takes (by simpa using consumer.test_takes s.queue) (by simp)
  | tryDequeue =>
    cases hstep
    exact h.arrive_takes (by simpa using s.queue.tryDequeue_takes) (by simp)
  | drain =>
    cases hstep
    exact h.arrive_takes s.queue.drain_spec.1 rfl
  | close =>
    cases hstep
    refine h.arrive ?_
    simp [Call.pushed, Call.handed]
  | send i =>
    obtain ⟨req, hc, ⟨-, rfl⟩ | ⟨-, rfl⟩⟩ := step_send hstep
    · exact h.move hc rfl rfl (by simp [Call.handed])
    · exact h.move hc rfl rfl (by simp [Call.handed])
  | receive i =>
    obtain ⟨consumer, cancelled, hc, rfl⟩ := step_receive hstep
    exact h.move hc rfl rfl (by simp [Call.handed, RequestQueue.receiveSignal])
  | retest i =>
    obtain ⟨consumer, cancelled, hc, rfl⟩ := step_retest hstep
    refine h.move hc (pushed_next consumer cancelled _) rfl ?_
    rw [handed_next]
    exact (consumer.test_takes s.queue).heap.trans perm_append_comm
  | cancel i =>
    obtain ⟨consumer, cancelled, ⟨hc, rfl⟩ | ⟨hc, rfl⟩⟩ := step_cancel hstep
    · exact h.move hc rfl rfl (by simp [Call.handed])
    · exact h.move hc rfl rfl (by simp [Call.handed])
  | giveUp i =>
    obtain ⟨consumer, hc, rfl⟩ := step_giveUp hstep
    exact h.move hc rfl rfl (by simp [Call.handed])

/-- **Requests are conserved in every reachable state**, whatever the
interleaving. -/
theorem Reachable.conserved {maxSize : Int} (h : s.Reachable maxSize) : s.Conserved := by
  refine Lib.Runs.inv h ?_ fun _ _ _ hcons _ hstep => hcons.step hstep
  exact Perm.refl _

/-! ### One place for each request -/

theorem held_call {c : Call ρ} (hc : s.calls[i]? = some c) : s.held (some i) = c.handed := by
  simp [held, hc]

/-- A request that was enqueued is in just one place. -/
theorem Conserved.onePlace (h : s.Conserved) (hnodup : s.pushed.Nodup)
    {req : QueuedRequest ρ} (hreq : s.calls[i]? = some (.enqueued req)) :
    ∃! place, req ∈ s.held place := by
  have hall : (s.queue.heap.toList ++ s.handed).Nodup := h.nodup_iff.mp hnodup
  obtain ⟨-, hnodup', hdisjoint⟩ := nodup_append.mp hall
  have hpushed : req ∈ s.pushed :=
    mem_flatMap.mpr ⟨_, mem_of_getElem? hreq, by simp [Call.pushed]⟩
  have hmem : ∀ j, req ∈ s.held (some j) → req ∈ s.handed := by
    intro j hj
    cases hc : s.calls[j]? with
    | none => simp [held, hc] at hj
    | some c =>
      rw [held_call hc] at hj
      exact mem_flatMap.mpr ⟨c, mem_of_getElem? hc, hj⟩
  have hsame : ∀ j k, req ∈ s.held (some j) → req ∈ s.held (some k) → j = k := by
    intro j k hj hk
    by_contra hne
    cases hcj : s.calls[j]? with
    | none => simp [held, hcj] at hj
    | some c =>
      cases hck : s.calls[k]? with
      | none => simp [held, hck] at hk
      | some d =>
        rw [held_call hcj] at hj
        rw [held_call hck] at hk
        have hrest : req ∈ (s.calls.eraseIdx j).flatMap Call.handed :=
          mem_flatMap.mpr ⟨d, Lib.mem_eraseIdx_of_getElem? hck (Ne.symm hne), hk⟩
        have hshare := (Lib.flatMap_perm_of_getElem Call.handed hcj).nodup_iff.mp hnodup'
        exact (nodup_append.mp hshare).2.2 req hj req hrest rfl
  rcases mem_append.mp (h.mem_iff.mp hpushed) with hheap | hhanded
  · refine ⟨none, hheap, ?_⟩
    intro place hplace
    cases place with
    | none => rfl
    | some j => exact absurd rfl (hdisjoint req hheap req (hmem j hplace))
  obtain ⟨c, hc, hmemc⟩ := mem_flatMap.mp hhanded
  obtain ⟨j, hj⟩ := mem_iff_getElem?.mp hc
  have hheld : req ∈ s.held (some j) := by rwa [held_call hj]
  refine ⟨some j, hheld, ?_⟩
  intro place hplace
  cases place with
  | none => exact absurd rfl (hdisjoint req hplace req hhanded)
  | some k => rw [hsame k j hplace hheld]

/-! ### The send on the closed channel -/

/-- The condition on an event: a `Close` that closes the channel finds no `Enqueue`
between its critical section and its send. -/
def CloseWaits (s : Clients ρ) (e : QueueEvent ρ) : Prop :=
  e = .close → s.queue.closed = false → ∀ c ∈ s.calls, ¬ c.IsSignalling

/-- While the queue is open nobody has panicked, and once it is closed nobody is
left that would. -/
structure Calm (s : Clients ρ) : Prop where
  consistent : s.queue.Consistent
  noPanic : ∀ c ∈ s.calls, ¬ c.IsPanicked
  noSend : s.queue.closed = true → ∀ c ∈ s.calls, ¬ c.IsSignalling

theorem Calm.arrive (h : s.Calm) {q : RequestQueue ρ} {c : Call ρ} (hq : q.Consistent)
    (hpanic : ¬ c.IsPanicked)
    (hsend : q.closed = true → ¬ c.IsSignalling ∧ ∀ c' ∈ s.calls, ¬ c'.IsSignalling) :
    (s.arrive q c).Calm := by
  refine ⟨hq, ?_, ?_⟩
  · intro c' hc'
    rcases mem_append.mp hc' with hold | hnew
    · exact h.noPanic c' hold
    · rwa [mem_singleton.mp hnew]
  intro hclosed c' hc'
  obtain ⟨hc, hcalls⟩ := hsend hclosed
  rcases mem_append.mp hc' with hold | hnew
  · exact hcalls c' hold
  · rwa [mem_singleton.mp hnew]

theorem Calm.move (h : s.Calm) {q : RequestQueue ρ} {c : Call ρ}
    (hclosed : q.closed = s.queue.closed) (hsignal : q.signal.closed = s.queue.signal.closed)
    (hpanic : ¬ c.IsPanicked) (hsend : ¬ c.IsSignalling) : (s.move i q c).Calm := by
  refine ⟨?_, ?_, ?_⟩
  · show q.signal.closed = q.closed
    rw [hclosed, hsignal]
    exact h.consistent
  · intro c' hc'
    rcases mem_or_eq_of_mem_set hc' with hold | rfl
    · exact h.noPanic c' hold
    · exact hpanic
  intro hq c' hc'
  rcases mem_or_eq_of_mem_set hc' with hold | rfl
  · exact h.noSend (hclosed ▸ hq) c' hold
  · exact hsend

end Clients

theorem next_quiet (cancelled : Bool) (head : Head ρ) :
    ¬ (head.next consumer cancelled).IsPanicked ∧ ¬ (head.next consumer cancelled).IsSignalling := by
  cases head <;> simp [Head.next, Call.IsPanicked, Call.IsSignalling]

namespace Clients

variable {s s' : Clients ρ}

/-- No step panics while the close waits for the senders. -/
theorem Calm.step (h : s.Calm) {e : QueueEvent ρ} (hok : s.CloseWaits e)
    (hstep : s.step e = some s') : s'.Calm := by
  cases e with
  | enqueue req now =>
    cases hstep
    obtain ⟨⟨hclosed, -⟩, hcase⟩ := s.queue.enqueueSection_spec req now
    refine h.arrive (h.consistent.enqueueSection req now) ?_ ?_
    · rcases hcase with ⟨hnone, -⟩ | ⟨hsome, -⟩
      · simp [hnone, afterPush, Call.IsPanicked]
      · simp [hsome, afterPush, Call.IsPanicked]
    intro hq
    rw [hclosed] at hq
    refine ⟨?_, h.noSend hq⟩
    rcases hcase with ⟨hnone, -⟩ | ⟨-, hopen, -⟩
    · simp [hnone, afterPush, Call.IsSignalling]
    rw [hq] at hopen
    contradiction
  | dequeue consumer cancelled =>
    cases hstep
    have htakes := consumer.test_takes s.queue
    have hquiet := next_quiet consumer cancelled (consumer.test s.queue).1
    exact h.arrive (htakes.consistent h.consistent) hquiet.1
      fun hq => ⟨hquiet.2, h.noSend (htakes.closed ▸ hq)⟩
  | tryDequeue =>
    cases hstep
    have htakes := s.queue.tryDequeue_takes
    refine h.arrive (htakes.consistent h.consistent) ?_
      fun hq => ⟨?_, h.noSend (htakes.closed ▸ hq)⟩
    · cases s.queue.tryDequeue.1 <;> simp [afterTry, Call.IsPanicked]
    · cases s.queue.tryDequeue.1 <;> simp [afterTry, Call.IsSignalling]
  | drain =>
    cases hstep
    have htakes := s.queue.drain_spec.1
    exact h.arrive (htakes.consistent h.consistent) (by simp [Call.IsPanicked])
      fun hq => ⟨by simp [Call.IsSignalling], h.noSend (htakes.closed ▸ hq)⟩
  | close =>
    cases hstep
    refine h.arrive h.consistent.close (by simp [Call.IsPanicked])
      fun _ => ⟨by simp [Call.IsSignalling], ?_⟩
    by_cases hclosed : s.queue.closed = true
    · exact h.noSend hclosed
    · exact hok rfl (by simpa using hclosed)
  | send i =>
    obtain ⟨req, hc, ⟨hsignal, -⟩ | ⟨-, rfl⟩⟩ := step_send hstep
    · have hclosed : s.queue.closed = true := h.consistent ▸ hsignal
      exact absurd ⟨req, rfl⟩ (h.noSend hclosed _ (mem_of_getElem? hc))
    · exact h.move rfl rfl (by simp [Call.IsPanicked]) (by simp [Call.IsSignalling])
  | receive i =>
    obtain ⟨consumer, cancelled, -, rfl⟩ := step_receive hstep
    exact h.move rfl rfl (by simp [Call.IsPanicked]) (by simp [Call.IsSignalling])
  | retest i =>
    obtain ⟨consumer, cancelled, -, rfl⟩ := step_retest hstep
    have htakes := consumer.test_takes s.queue
    have hquiet := next_quiet consumer cancelled (consumer.test s.queue).1
    exact h.move htakes.closed (by rw [htakes.signal]) hquiet.1 hquiet.2
  | cancel i =>
    obtain ⟨consumer, cancelled, ⟨-, rfl⟩ | ⟨-, rfl⟩⟩ := step_cancel hstep
    · exact h.move rfl rfl (by simp [Call.IsPanicked]) (by simp [Call.IsSignalling])
    · exact h.move rfl rfl (by simp [Call.IsPanicked]) (by simp [Call.IsSignalling])
  | giveUp i =>
    obtain ⟨consumer, -, rfl⟩ := step_giveUp hstep
    exact h.move rfl rfl (by simp [Call.IsPanicked]) (by simp [Call.IsSignalling])

theorem calm_newClients (maxSize : Int) : (newClients ρ maxSize).Calm :=
  ⟨rfl, fun _ hc => absurd hc (by simp [newClients]), fun hclosed => by simp [newClients,
    RequestQueue.newRequestQueue] at hclosed⟩

/-- **Shutdown is safe in every run in which `Close` waits for the sends.** -/
theorem safe_of_close_waits {maxSize : Int}
    (hrun : Lib.Runs step CloseWaits (newClients ρ maxSize) s) : s.Safe := by
  have hcalm : s.Calm :=
    hrun.inv (calm_newClients maxSize) fun _ _ _ hinv hok hstep => hinv.step hok hstep
  have hreach : s.Reachable maxSize := hrun.mono fun _ _ _ => trivial
  have hcons : s.Conserved := hreach.conserved
  exact ⟨hcalm.noPanic, hcons, fun hnodup _ _ hreq => hcons.onePlace hnodup hreq⟩

/-- A producer that sends before the `Close`. -/
theorem sendBeforeClose_safe :
    ∃ s : Clients Unit, s.queue.closed = true ∧ s.queue.heap.size = 1 ∧ s.Safe := by
  let req : QueuedRequest Unit :=
    { priority := 0, enqueueTime := 0, expertCluster := [], payload := () }
  let pushed := (newClients Unit 1).queue.enqueueSection req 0
  let s₁ : Clients Unit := { queue := pushed.2, calls := [.signalling req] }
  let s₂ : Clients Unit :=
    { queue := { pushed.2 with signal := { pending := true, closed := false } }
      calls := [.enqueued req] }
  let s₃ : Clients Unit := { queue := s₂.queue.close, calls := [.enqueued req, .closed] }
  have h₁ : (newClients Unit 1).step (.enqueue req 0) = some s₁ := by decide +kernel
  have h₂ : s₁.step (.send 0) = some s₂ := by decide +kernel
  have h₃ : s₂.step .close = some s₃ := by decide +kernel
  have hwaits : s₂.CloseWaits .close := by
    intro _ _ c hc
    rw [mem_singleton.mp hc]
    simp [Call.IsSignalling]
  have hrun : Lib.Runs step CloseWaits (newClients Unit 1) s₃ :=
    ((Lib.Runs.refl.tail (by simp [CloseWaits]) h₁).tail (by simp [CloseWaits]) h₂).tail hwaits h₃
  exact ⟨s₃, by decide +kernel, by decide +kernel, safe_of_close_waits hrun⟩

/-- One producer and one `Close` between its push and its send. -/
theorem closeDuringEnqueue_panics : ¬ ∀ s : Clients Unit, s.Reachable 1 → s.Safe := by
  intro hsafe
  let req : QueuedRequest Unit :=
    { priority := 0, enqueueTime := 0, expertCluster := [], payload := () }
  have hlist : Lib.runList step (newClients Unit 1) [.enqueue req 0, .close, .send 0] =
      some { queue := ((newClients Unit 1).queue.enqueueSection req 0).2.close
             calls := [.panicked req, .closed] } := by
    decide +kernel
  have hpanic := (hsafe _ (Lib.Runs.of_list hlist)).noPanic (.panicked req) (by simp)
  exact hpanic ⟨req, rfl⟩

end Clients

end DenseCore.Server
