/-
Wake-ups of the queue's consumers.

A consumer sleeps on a channel with room for one signal, and an `Enqueue` that
finds a signal there drops its own.  So one signal can stand for several requests,
and the consumer that receives it takes one of them and returns without passing
the signal on: the others stay in the heap, and so does whoever sleeps beside it.

`Awake` is what keeps the sleepers safe: while there is a request and a sleeper, a
signal is buffered, or about to be sent, or a woken consumer is about to look.
Every step keeps it but one, the step of a woken consumer that takes a request when
it was the last hope of another (`LastSignal`).
-/
import DenseCore.Proofs.Server.Shutdown

namespace DenseCore.Server

variable {ρ : Type}

/-- A consumer in its select whose context is not done. -/
def Call.IsSleeping (c : Call ρ) : Prop := ∃ consumer, c = .waiting consumer false

/-- A consumer that received a signal and has not looked at the heap since. -/
def Call.IsTesting (c : Call ρ) : Prop := ∃ consumer cancelled, c = .testing consumer cancelled

/-- The steps of the calls in progress, the contexts' own excluded. -/
def QueueEvent.Continues : QueueEvent ρ → Prop
  | .send _ => True
  | .receive _ => True
  | .retest _ => True
  | .giveUp _ => True
  | _ => False

namespace Clients

variable {s s' : Clients ρ}

/-- No call in progress can take a step. -/
def Quiescent (s : Clients ρ) : Prop := ∀ e : QueueEvent ρ, e.Continues → s.step e = none

/-- No lost wake-up: when only new arrivals can happen, a waiting consumer means
that there is nothing to wait for, or that the queue is closed. -/
def NoLostWakeup (s : Clients ρ) : Prop :=
  s.Quiescent → (∃ consumer cancelled, Call.waiting consumer cancelled ∈ s.calls) →
    s.queue.heap = #[] ∨ s.queue.closed = true

/-- Something will look at the heap. -/
def Stirring (s : Clients ρ) : Prop :=
  s.queue.signal.pending = true ∨ ∃ c ∈ s.calls, c.IsSignalling ∨ c.IsTesting

/-- While the queue is open, a request in the heap and a sleeper do not go together
without something that will look. -/
structure Awake (s : Clients ρ) : Prop where
  consistent : s.queue.Consistent
  stirring : s.queue.closed = false → s.queue.heap ≠ #[] → (∃ c ∈ s.calls, c.IsSleeping) →
    s.Stirring

/-- The event that strands a sleeper: a woken consumer takes one of several
requests while another consumer sleeps, no signal is buffered or on its way and no
other consumer is about to look. -/
def LastSignal (s : Clients ρ) (e : QueueEvent ρ) : Prop :=
  ∃ i, e = .retest i ∧ (∃ c, s.calls[i]? = some c ∧ c.IsTesting) ∧
    s.queue.closed = false ∧ 2 ≤ s.queue.heap.size ∧ s.queue.signal.pending = false ∧
    (∀ (j : Nat) (c : Call ρ), s.calls[j]? = some c → j ≠ i → ¬ c.IsSignalling ∧ ¬ c.IsTesting) ∧
    ∃ c ∈ s.calls, c.IsSleeping

/-! ### Quiet states -/

/-- An invariant state without steps has no stranded sleeper. -/
theorem Awake.noLostWakeup (h : s.Awake) : s.NoLostWakeup := by
  rintro hquiet ⟨consumer, cancelled, hmem⟩
  obtain ⟨i, hi⟩ := List.mem_iff_getElem?.mp hmem
  by_contra hcon
  rw [not_or] at hcon
  obtain ⟨hne, hopen⟩ := hcon
  have hlive : cancelled = false := by
    cases cancelled with
    | false => rfl
    | true => simpa [step, hi] using hquiet (.giveUp i) trivial
  subst hlive
  rcases h.stirring (by simpa using hopen) hne ⟨_, hmem, consumer, rfl⟩ with
    hpending | ⟨c, hc, ⟨req, rfl⟩ | ⟨consumer', cancelled', rfl⟩⟩
  · simpa [step, hi, RequestQueue.CanReceive, hpending] using hquiet (.receive i) trivial
  · obtain ⟨j, hj⟩ := List.mem_iff_getElem?.mp hc
    have hnone := hquiet (.send j) trivial
    cases hsend : s.queue.sendSignal <;> simp [step, hj, hsend] at hnone
  obtain ⟨j, hj⟩ := List.mem_iff_getElem?.mp hc
  simpa [step, hj] using hquiet (.retest j) trivial

/-! ### How steps change what stirs -/

theorem stirring_arrive (h : s.Stirring) {q : RequestQueue ρ} (hsignal : q.signal = s.queue.signal)
    (c : Call ρ) : (s.arrive q c).Stirring := by
  rcases h with hpending | ⟨c', hc', hstir⟩
  · left
    show q.signal.pending = true
    rw [hsignal, hpending]
  · exact Or.inr ⟨c', List.mem_append_left _ hc', hstir⟩

theorem sleeping_of_arrive {q : RequestQueue ρ} {c : Call ρ} (hc : ¬ c.IsSleeping)
    (h : ∃ c' ∈ (s.arrive q c).calls, c'.IsSleeping) : ∃ c' ∈ s.calls, c'.IsSleeping := by
  obtain ⟨c', hc', hsleep⟩ := h
  rcases List.mem_append.mp hc' with hold | hnew
  · exact ⟨c', hold, hsleep⟩
  rw [List.mem_singleton.mp hnew] at hsleep
  exact absurd hsleep hc

variable {i : Nat} {consumer : Consumer} {cancelled : Bool}

theorem sleeping_of_move {q : RequestQueue ρ} {c : Call ρ} (hc : ¬ c.IsSleeping)
    (h : ∃ c' ∈ (s.move i q c).calls, c'.IsSleeping) : ∃ c' ∈ s.calls, c'.IsSleeping := by
  obtain ⟨c', hc', hsleep⟩ := h
  rcases List.mem_or_eq_of_mem_set hc' with hold | rfl
  · exact ⟨c', hold, hsleep⟩
  · exact absurd hsleep hc

theorem stirring_move (h : s.Stirring) {q : RequestQueue ρ} {c : Call ρ} (c' : Call ρ)
    (hi : s.calls[i]? = some c) (hstill : ¬ c.IsSignalling ∧ ¬ c.IsTesting)
    (hsignal : q.signal = s.queue.signal) : (s.move i q c').Stirring := by
  rcases h with hpending | ⟨d, hd, hstir⟩
  · left
    show q.signal.pending = true
    rw [hsignal, hpending]
  refine Or.inr ⟨d, Lib.mem_set_of_ne hi hd ?_, hstir⟩
  rintro rfl
  exact hstir.elim hstill.1 hstill.2

theorem next_not_sleeping {head : Head ρ}
    (h : head ≠ .empty) : ¬ (head.next consumer cancelled).IsSleeping := by
  cases head with
  | empty => exact absurd rfl h
  | closed | item req => simp [Head.next, Call.IsSleeping]

/-! ### Every step but one keeps the sleepers safe -/

theorem Awake.arrive_takes (h : s.Awake) {q : RequestQueue ρ} {c : Call ρ}
    {out : List (QueuedRequest ρ)} (htakes : s.queue.Takes q out)
    (hsleep : c.IsSleeping → q.heap = #[]) : (s.arrive q c).Awake := by
  refine ⟨htakes.consistent h.consistent, fun hopen hne hsleeper => ?_⟩
  have hopen' : s.queue.closed = false := htakes.closed ▸ hopen
  have hsleeper' := sleeping_of_arrive (fun hc => hne (hsleep hc)) hsleeper
  exact stirring_arrive (h.stirring hopen' (htakes.ne_empty hne) hsleeper') htakes.signal c

theorem Awake.move_waiting (h : s.Awake)
    {c : Call ρ} (hi : s.calls[i]? = some (.waiting consumer cancelled))
    (hc : ¬ c.IsSleeping) : (s.move i s.queue c).Awake := by
  refine ⟨h.consistent, fun hopen hne hsleeper => ?_⟩
  have hstir := h.stirring hopen hne (sleeping_of_move hc hsleeper)
  exact stirring_move hstir c hi (by simp [Call.IsSignalling, Call.IsTesting]) rfl

theorem Awake.enqueue (h : s.Awake) (req : QueuedRequest ρ) (now : Int) :
    (s.arrive (s.queue.enqueueSection req now).2
      (afterPush (s.queue.enqueueSection req now).1)).Awake := by
  obtain ⟨⟨hclosed, hsignal⟩, hcase⟩ := s.queue.enqueueSection_spec req now
  refine ⟨h.consistent.enqueueSection req now, fun hopen hne hsleeper => ?_⟩
  rcases hcase with ⟨hnone, hheap⟩ | ⟨hsome, -, -⟩
  · rw [hnone] at hsleeper ⊢
    have hsleeper' := sleeping_of_arrive (by simp [afterPush, Call.IsSleeping]) hsleeper
    have hne' : s.queue.heap ≠ #[] := hheap ▸ hne
    exact stirring_arrive (h.stirring (hclosed ▸ hopen) hne' hsleeper') hsignal _
  rw [hsome]
  exact Or.inr ⟨_, List.mem_append_right _ (List.mem_singleton_self _), Or.inl ⟨_, rfl⟩⟩

theorem Awake.retest (h : s.Awake)
    (hok : ¬ s.LastSignal (.retest i)) (hi : s.calls[i]? = some (.testing consumer cancelled)) :
    (s.move i (consumer.test s.queue).2
      ((consumer.test s.queue).1.next consumer cancelled)).Awake := by
  have htakes := consumer.test_takes s.queue
  refine ⟨htakes.consistent h.consistent, fun hopen hne hsleeper => ?_⟩
  have hopen' : s.queue.closed = false := htakes.closed ▸ hopen
  have hhead : (consumer.test s.queue).1 ≠ .empty := fun he => hne (Consumer.heap_of_empty he)
  have hsleeper' := sleeping_of_move (next_not_sleeping hhead) hsleeper
  by_cases hpending : s.queue.signal.pending = true
  · left
    show (consumer.test s.queue).2.signal.pending = true
    rw [htakes.signal, hpending]
  obtain ⟨req, -, hone⟩ := consumer.test_item hopen' (htakes.ne_empty hne)
  have htwo : 2 ≤ s.queue.heap.size := by
    have hsize : s.queue.heap.size = 1 + (consumer.test s.queue).2.heap.size := hone.size
    have hpos : 0 < (consumer.test s.queue).2.heap.size := Array.size_pos_iff.mpr hne
    omega
  by_contra hstill
  refine hok ⟨i, rfl, ⟨_, hi, consumer, cancelled, rfl⟩, hopen', htwo, by simpa using hpending,
    ?_, hsleeper'⟩
  intro j c hj hji
  rw [← not_or]
  intro hstir
  refine hstill (Or.inr ⟨c, ?_, hstir⟩)
  refine List.mem_iff_getElem?.mpr ⟨j, ?_⟩
  show (s.calls.set i _)[j]? = _
  rw [List.getElem?_set_ne (Ne.symm hji), hj]

/-- A step that is not a last signal leaves nobody asleep on a request. -/
theorem Awake.step (h : s.Awake) {e : QueueEvent ρ} (hok : ¬ s.LastSignal e)
    (hstep : s.step e = some s') : s'.Awake := by
  cases e with
  | enqueue req now =>
    cases hstep
    exact h.enqueue req now
  | dequeue consumer cancelled =>
    cases hstep
    refine h.arrive_takes (consumer.test_takes s.queue) fun hsleep => ?_
    by_contra hne
    exact next_not_sleeping (fun he => hne (Consumer.heap_of_empty he)) hsleep
  | tryDequeue =>
    cases hstep
    refine h.arrive_takes s.queue.tryDequeue_takes fun hsleep => ?_
    cases hout : s.queue.tryDequeue.1 <;> simp [hout, afterTry, Call.IsSleeping] at hsleep
  | drain =>
    cases hstep
    exact h.arrive_takes s.queue.drain_spec.1 fun _ => s.queue.drain_spec.2
  | close =>
    cases hstep
    refine ⟨h.consistent.close, fun hopen => ?_⟩
    have hclosed : s.queue.close.closed = true := s.queue.close_closed
    rw [show (s.arrive s.queue.close .closed).queue = s.queue.close from rfl, hclosed] at hopen
    contradiction
  | send i =>
    obtain ⟨req, hi, ⟨hclosed, rfl⟩ | ⟨-, rfl⟩⟩ := step_send hstep
    · refine ⟨h.consistent, fun hopen => ?_⟩
      have hshut : s.queue.closed = true := h.consistent ▸ hclosed
      exact absurd (hshut.symm.trans hopen) (by simp)
    · exact ⟨h.consistent, fun _ _ _ => Or.inl rfl⟩
  | receive i =>
    obtain ⟨consumer, cancelled, hi, rfl⟩ := step_receive hstep
    refine ⟨h.consistent, fun _ _ _ => Or.inr ?_⟩
    exact ⟨_, Lib.mem_set_self hi _, Or.inr ⟨consumer, cancelled, rfl⟩⟩
  | retest i =>
    obtain ⟨consumer, cancelled, hi, rfl⟩ := step_retest hstep
    exact h.retest hok hi
  | cancel i =>
    obtain ⟨consumer, cancelled, ⟨hi, rfl⟩ | ⟨hi, rfl⟩⟩ := step_cancel hstep
    · exact h.move_waiting hi (by simp [Call.IsSleeping])
    exact ⟨h.consistent, fun _ _ _ => Or.inr
      ⟨_, Lib.mem_set_self hi _, Or.inr ⟨consumer, true, rfl⟩⟩⟩
  | giveUp i =>
    obtain ⟨consumer, hi, rfl⟩ := step_giveUp hstep
    exact h.move_waiting hi (by simp [Call.IsSleeping])

theorem awake_newClients (maxSize : Int) : (newClients ρ maxSize).Awake :=
  ⟨rfl, fun _ hne => absurd rfl hne⟩

/-- **No wake-up is lost in a run in which no woken consumer takes the last signal
away from a sleeper.** -/
theorem no_lost_wakeup_of_not_last {maxSize : Int}
    (hrun : Lib.Runs step (fun a e => ¬ a.LastSignal e) (newClients ρ maxSize) s) :
    s.NoLostWakeup := by
  have hawake : s.Awake :=
    hrun.inv (awake_newClients maxSize) fun _ _ _ hinv hok hstep => hinv.step hok hstep
  exact hawake.noLostWakeup

/-- One sleeper and one request: the woken consumer takes it. -/
theorem oneSleeper_wakes :
    ∃ s : Clients Unit, s.queue.heap.size = 0 ∧ s.queue.totalDequeued = 1 ∧ s.NoLostWakeup := by
  let req : QueuedRequest Unit :=
    { priority := 0, enqueueTime := 0, expertCluster := [], payload := () }
  let s₁ : Clients Unit :=
    { queue := (newClients Unit 1).queue, calls := [.waiting .dequeue false] }
  let s₂ : Clients Unit :=
    { queue := (s₁.queue.enqueueSection req 0).2
      calls := [.waiting .dequeue false, .signalling req] }
  let s₃ : Clients Unit :=
    { queue := { s₂.queue with signal := { pending := true, closed := false } }
      calls := [.waiting .dequeue false, .enqueued req] }
  let s₄ : Clients Unit :=
    { queue := s₃.queue.receiveSignal, calls := [.testing .dequeue false, .enqueued req] }
  let s₅ : Clients Unit :=
    { queue := s₄.queue.dequeueSection.2, calls := [.took req, .enqueued req] }
  have h₁ : (newClients Unit 1).step (.dequeue .dequeue false) = some s₁ := by decide +kernel
  have h₂ : s₁.step (.enqueue req 0) = some s₂ := by decide +kernel
  have h₃ : s₂.step (.send 1) = some s₃ := by decide +kernel
  have h₄ : s₃.step (.receive 0) = some s₄ := by decide +kernel
  have h₅ : s₄.step (.retest 0) = some s₅ := by decide +kernel
  have hfew : ¬ s₄.LastSignal (.retest 0) := by
    rintro ⟨-, -, -, -, htwo, -⟩
    exact absurd htwo (by decide +kernel)
  have hrun : Lib.Runs step (fun a e => ¬ a.LastSignal e) (newClients Unit 1) s₅ :=
    ((((Lib.Runs.refl.tail (by simp [LastSignal]) h₁).tail (by simp [LastSignal]) h₂).tail
      (by simp [LastSignal]) h₃).tail (by simp [LastSignal]) h₄).tail hfew h₅
  exact ⟨s₅, by decide +kernel, by decide +kernel, no_lost_wakeup_of_not_last hrun⟩

/-! ### The lost wake-up -/

/-- Two consumers sleep, two requests arrive before either consumer runs: the
second signal is dropped, and the consumer that receives the first one takes one
request and returns. -/
theorem twoSleepers_lose_wakeup : ¬ ∀ s : Clients Unit, s.Reachable 2 → s.NoLostWakeup := by
  intro hall
  let req : QueuedRequest Unit :=
    { priority := 0, enqueueTime := 0, expertCluster := [], payload := () }
  let lost : Clients Unit :=
    { queue := { heap := #[req], maxSize := 2, closed := false
                 signal := { pending := false, closed := false }
                 totalEnqueued := 2, totalDequeued := 1, totalDropped := 0 }
      calls := [.took req, .waiting .dequeue false, .enqueued req, .enqueued req] }
  have hlist : Lib.runList step (newClients Unit 2)
      [.dequeue .dequeue false, .dequeue .dequeue false, .enqueue req 0, .send 2,
        .enqueue req 0, .send 3, .receive 0, .retest 0] = some lost := by
    decide +kernel
  have hquiet : lost.Quiescent := by
    have hsmall : ∀ i, lost.calls[i]? = some (Call.took req) ∨
        lost.calls[i]? = some (Call.waiting .dequeue false) ∨
        lost.calls[i]? = some (Call.enqueued req) ∨ lost.calls[i]? = none
      | 0 => Or.inl rfl
      | 1 => Or.inr (Or.inl rfl)
      | 2 => Or.inr (Or.inr (Or.inl rfl))
      | 3 => Or.inr (Or.inr (Or.inl rfl))
      | _ + 4 => Or.inr (Or.inr (Or.inr rfl))
    have hreceive : ¬ lost.queue.CanReceive := by decide
    intro e hcont
    cases e with
    | send i | retest i | giveUp i => rcases hsmall i with h | h | h | h <;> simp only [step, h]
    | receive i => rcases hsmall i with h | h | h | h <;> simp [step, h, hreceive]
    | _ => exact absurd hcont (by simp [QueueEvent.Continues])
  rcases hall lost (Lib.Runs.of_list hlist) hquiet ⟨.dequeue, false, by simp [lost]⟩ with
    hempty | hclosed
  · simp [lost] at hempty
  · simp [lost] at hclosed

/-- The condition is needed: at a last signal some consumer can take its request so that another one
sleeps on a queue that is not empty. -/
theorem lost_of_last_signal (hcons : s.queue.Consistent) {e : QueueEvent ρ} (h : s.LastSignal e)
    (hlive : ∀ consumer, Call.waiting consumer true ∉ s.calls) :
    ∃ i req s', e = .retest i ∧ s.step e = some s' ∧ s'.calls[i]? = some (.took req) ∧
      ¬ s'.NoLostWakeup := by
  obtain ⟨i, rfl, ⟨_, hi, consumer, cancelled, rfl⟩, hopen, htwo, hpending, hothers, c, hc,
    sleeper, rfl⟩ := h
  have hne : s.queue.heap ≠ #[] := Array.size_pos_iff.mp (by omega)
  obtain ⟨req, hitem, htakes⟩ := consumer.test_item hopen hne
  refine ⟨i, req, s.move i (consumer.test s.queue).2 (.took req), rfl,
    by simp [step, hi, hitem, Head.next],
    List.getElem?_set_self (List.getElem?_eq_some_iff.mp hi).1, ?_⟩
  have hdeaf : ¬ (consumer.test s.queue).2.CanReceive := by
    have hclosed : s.queue.signal.closed = false := hcons.trans hopen
    simp [RequestQueue.CanReceive, htakes.signal, hpending, hclosed]
  -- No call that is left can go on by itself.
  have hrest : ∀ {j : Nat} {d}, (s.calls.set i (.took req))[j]? = some d →
      ¬ d.IsSignalling ∧ ¬ d.IsTesting ∧ ∀ k, d ≠ Call.waiting k true := by
    intro j d hj
    by_cases hji : j = i
    · subst hji
      rw [List.getElem?_set_self (List.getElem?_eq_some_iff.mp hi).1] at hj
      rw [← Option.some.inj hj]
      simp [Call.IsSignalling, Call.IsTesting]
    rw [List.getElem?_set_ne (Ne.symm hji)] at hj
    obtain ⟨hsignal, htest⟩ := hothers j d hj hji
    exact ⟨hsignal, htest, fun k hd => hlive k (hd ▸ List.mem_of_getElem? hj)⟩
  have hquiet : (s.move i (consumer.test s.queue).2 (.took req)).Quiescent := by
    intro e hcont
    cases e with
    | send j | receive j | retest j | giveUp j =>
      cases hj : (s.calls.set i (.took req))[j]? with
      | none => simp only [step, move, hj]
      | some d =>
        obtain ⟨hsignal, htest, hwait⟩ := hrest hj
        cases d <;> simp [step, move, hj, hdeaf] <;> simp_all [Call.IsSignalling, Call.IsTesting]
    | _ => exact absurd hcont (by simp [QueueEvent.Continues])
  intro hno
  rcases hno hquiet ⟨sleeper, false, Lib.mem_set_of_ne hi hc (by simp)⟩ with hempty | hclosed
  · have hsize : s.queue.heap.size = 1 + (consumer.test s.queue).2.heap.size := htakes.size
    have hzero : (consumer.test s.queue).2.heap.size = 0 := Array.size_eq_zero_iff.mpr hempty
    omega
  have hopen' : (consumer.test s.queue).2.closed = false := htakes.closed.trans hopen
  exact absurd (hclosed.symm.trans hopen') (by simp)

theorem twoSleepers_last_signal : ∃ (s s' : Clients Unit) (req : QueuedRequest Unit),
    s.step (.retest 0) = some s' ∧ s'.calls[0]? = some (.took req) ∧ ¬ s'.NoLostWakeup := by
  let req : QueuedRequest Unit :=
    { priority := 0, enqueueTime := 0, expertCluster := [], payload := () }
  let s : Clients Unit :=
    { queue := { newClients Unit 2 |>.queue with heap := #[req, req] }
      calls := [.testing .dequeue false, .waiting .dequeue false] }
  have hothers : ∀ (j : Nat) (c : Call Unit), s.calls[j]? = some c → j ≠ 0 →
      ¬ c.IsSignalling ∧ ¬ c.IsTesting := by
    rintro (_ | _ | _) c hc hj
    · exact absurd rfl hj
    · rw [← Option.some.inj hc]
      exact ⟨nofun, nofun⟩
    · cases hc
  have hlast : s.LastSignal (.retest 0) :=
    ⟨0, rfl, ⟨_, rfl, .dequeue, false, rfl⟩, rfl, Nat.le_refl 2, rfl, hothers, _,
      List.mem_cons_of_mem _ List.mem_cons_self, .dequeue, rfl⟩
  have hcons : s.queue.Consistent := rfl
  obtain ⟨_, req, s', ⟨⟩, hstep, htook, hlost⟩ := lost_of_last_signal hcons hlast (by simp [s])
  exact ⟨s, s', req, hstep, htook, hlost⟩

end Clients

end DenseCore.Server
