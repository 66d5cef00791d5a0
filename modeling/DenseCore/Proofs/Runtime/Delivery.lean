/-
When the delivery of results can deadlock.

The worker holds `active_mu` while it finalises cancelled requests, and it delivers
their terminal events there.  In direct mode that runs a callback, and if the callback
calls `CancelRequest` it waits for a mutex that its own thread holds.  In asynchronous
mode it pushes an event, and if the queue is at the critical watermark it waits for the
callback thread, which may be waiting for `active_mu` in a callback.

These are the only ways.  `DeliveryInv` says who holds `active_mu`, and that the worker
gets through the section without a wait.
-/
import DenseCore.Lib.Parts
import DenseCore.Runtime.Delivery

namespace DenseCore.Delivery

open Lib List Option

/-! ### The property -/

variable (s : EngineState)

/-- A callback waits for `active_mu`. -/
def CallbackWaits : Prop :=
  (∃ event id, s.callbackLoop = .cancelling event (.wants id)) ∨
    ∃ event id, s.emit = .cancelling event (.wants id)

/-- The worker waits for the queue to drain, or runs a callback. -/
def WorkerBlocks : Prop :=
  (∃ event, s.emit = .waiting event) ∨ (∃ event, s.emit = .callback event) ∨
    ∃ event call, s.emit = .cancelling event call

/-- **A deadlock**: the worker holds `active_mu` while it waits for the queue or runs a
callback, and a callback waits for `active_mu`. -/
def Deadlock : Prop :=
  s.activeMu = some .worker ∧ WorkerBlocks s ∧ CallbackWaits s

/-- Inside the section that holds `active_mu` no push finds the queue at the critical
watermark, and no callback that the worker runs there cancels. -/
def EngineState.SectionClear : Event → Prop
  | .deliver => s.sweep ≠ none → s.callbackMode = .async → ¬ s.MustWait
  | .inlineCancel _ => s.sweep = none
  | _ => True

/-! ### The invariant -/

/-- The call is in the section of `active_mu`. -/
def CancelCall.holding : CancelCall → Bool
  | .wants _ => false
  | .holds _ => true

/-- The worker is in the section of a cancel call of its callback. -/
def Emit.holding : Emit → Bool
  | .cancelling _ call => call.holding
  | _ => false

/-- The callback thread is in the section of a cancel call. -/
def CallbackLoop.holding : CallbackLoop → Bool
  | .cancelling _ call => call.holding
  | _ => false

/-- Who is in a section of `active_mu`. -/
def EngineState.Holds : Owner → Prop
  | .worker => s.sweep.isSome = true ∨ s.emit.holding = true
  | .callbackThread => s.callbackLoop.holding = true
  | .canceller i => ∃ call, s.cancels[i]? = some (some call) ∧ call.holding = true

/-- The worker is not in a wait. -/
def Emit.Quick : Emit → Prop
  | .none | .delivering _ | .callback _ => True
  | .waiting _ | .waking _ | .cancelling _ _ => False

/-- What the worker does with results in each mode. -/
def Emit.Fits : CallbackMode → Emit → Prop
  | _, .none | _, .delivering _ => True
  | .async, .waiting _ | .async, .waking _ => True
  | .direct, .callback _ | .direct, .cancelling _ _ => True
  | _, _ => False

/-- Who holds the mutex, and what the worker may do while it sweeps. -/
structure DeliveryInv (s : EngineState) : Prop where
  mutex : ∀ o, s.activeMu = some o ↔ s.Holds o
  quick : s.sweep ≠ none → s.emit.Quick
  fits : s.emit.Fits s.callbackMode
  direct : s.callbackMode = .direct → s.resultQueue = [] ∧ s.callbackLoop = .idle

attribute [local simp] EngineState.step

theorem deliveryInv_init (mode : CallbackMode) : DeliveryInv (.init mode) where
  mutex := by
    intro o
    refine ⟨nofun, fun h => ?_⟩
    cases o with
    | worker => rcases h with h | h <;> cases h
    | callbackThread => cases h
    | canceller i =>
      obtain ⟨call, hcall, -⟩ := h
      cases hcall
  quick := fun h => absurd rfl h
  fits := by cases mode <;> trivial
  direct := fun _ => ⟨rfl, rfl⟩

theorem DeliveryInv.noDeadlock {s : EngineState} (h : DeliveryInv s) : ¬ Deadlock s := by
  rintro ⟨hmu, hblocks, hwaits⟩
  have hinline : ∀ {event call}, s.emit = .cancelling event call → call.holding = true := by
    intro event call heq
    rcases (h.mutex .worker).mp hmu with hsweep | hholding
    · have hquick := h.quick (isSome_iff_ne_none.mp hsweep)
      rw [heq] at hquick
      exact False.elim hquick
    · rwa [heq] at hholding
  have hemit : ∀ {event id}, s.emit ≠ .cancelling event (.wants id) := by
    intro event id heq
    cases hinline heq
  have hdirect : s.callbackMode = .direct → False := by
    intro hmode
    rcases hwaits with ⟨event, id, heq⟩ | ⟨event, id, heq⟩
    · rw [(h.direct hmode).2] at heq
      cases heq
    · exact hemit heq
  have hfits := h.fits
  rcases hblocks with ⟨event, heq⟩ | ⟨event, heq⟩ | ⟨event, call, heq⟩
  · -- a wait inside the section
    rcases (h.mutex .worker).mp hmu with hsweep | hholding
    · have hquick := h.quick (isSome_iff_ne_none.mp hsweep)
      rw [heq] at hquick
      exact hquick
    rw [heq] at hholding
    cases hholding
  · rw [heq] at hfits
    cases hmode : s.callbackMode with
    | async =>
      rw [hmode] at hfits
      exact hfits
    | direct => exact hdirect hmode
  rw [heq] at hfits
  cases hmode : s.callbackMode with
  | async =>
    rw [hmode] at hfits
    exact hfits
  | direct => exact hdirect hmode

section Steps

variable {s t : EngineState}

/-! ### Taking and leaving `active_mu` -/

/-- A step that takes and leaves nothing. -/
theorem DeliveryInv.keep (h : DeliveryInv s) (hmu : t.activeMu = s.activeMu)
    (hsweep : t.sweep.isSome = s.sweep.isSome) (hemit : t.emit.holding = s.emit.holding)
    (hloop : t.callbackLoop.holding = s.callbackLoop.holding)
    (hcancels : ∀ (i : Nat) (call : CancelCall), call.holding = true →
      (t.cancels[i]? = some (some call) ↔ s.cancels[i]? = some (some call)))
    (hquick : t.sweep ≠ none → t.emit.Quick) (hfits : t.emit.Fits t.callbackMode)
    (hdirect : t.callbackMode = .direct → t.resultQueue = [] ∧ t.callbackLoop = .idle) :
    DeliveryInv t where
  mutex := by
    intro o
    rw [hmu, h.mutex o]
    cases o with
    | worker =>
      unfold EngineState.Holds
      rw [hsweep, hemit]
    | callbackThread =>
      unfold EngineState.Holds
      rw [hloop]
    | canceller i =>
      exact exists_congr fun call => and_congr_left fun hcall => (hcancels i call hcall).symm
  quick := hquick
  fits := hfits
  direct := hdirect

variable {o : Owner} {e : Emit} {i : Nat}

theorem DeliveryInv.lock (h : DeliveryInv s) (hfree : s.activeMu = none)
    (hmu : t.activeMu = some o) (hholds : t.Holds o)
    (hother : ∀ o', o' ≠ o → t.Holds o' → s.Holds o')
    (hquick : t.sweep ≠ none → t.emit.Quick) (hfits : t.emit.Fits t.callbackMode)
    (hdirect : t.callbackMode = .direct → t.resultQueue = [] ∧ t.callbackLoop = .idle) :
    DeliveryInv t where
  mutex := by
    intro o'
    rw [hmu]
    refine ⟨fun heq => ?_, fun hh => ?_⟩
    · rw [← some.inj heq]
      exact hholds
    by_contra hne
    have hbefore := (h.mutex o').mpr (hother o' (fun heq => hne (by rw [heq])) hh)
    rw [hfree] at hbefore
    cases hbefore
  quick := hquick
  fits := hfits
  direct := hdirect

theorem DeliveryInv.unlock (h : DeliveryInv s) (hheld : s.Holds o)
    (hmu : t.activeMu = none) (hholds : ¬ t.Holds o)
    (hother : ∀ o', o' ≠ o → t.Holds o' → s.Holds o')
    (hquick : t.sweep ≠ none → t.emit.Quick) (hfits : t.emit.Fits t.callbackMode)
    (hdirect : t.callbackMode = .direct → t.resultQueue = [] ∧ t.callbackLoop = .idle) :
    DeliveryInv t where
  mutex := by
    intro o'
    rw [hmu]
    refine ⟨nofun, fun hh => ?_⟩
    have hne : o' ≠ o := by
      rintro rfl
      exact hholds hh
    have hsame := ((h.mutex o').mpr (hother o' hne hh)).symm.trans ((h.mutex o).mpr hheld)
    exact absurd (some.inj hsame) hne
  quick := hquick
  fits := hfits
  direct := hdirect

/-! ### What the worker's functions change -/

theorem emitRequestResult_eq (s : EngineState) (r : Request) (event : ResultEvent) :
    ∃ e, s.emitRequestResult r event = { s with emit := e } ∧
      (e = s.emit ∨ e = .delivering event) := by
  unfold EngineState.emitRequestResult
  split
  · exact ⟨_, rfl, Or.inr rfl⟩
  · exact ⟨_, rfl, Or.inl rfl⟩

theorem finalizeRequestOnce_eq (s : EngineState) (id : Nat) (r : Request) (error : Bool) :
    ∃ rs e, s.finalizeRequestOnce id r error = { s with requests := rs, emit := e } ∧
      (e = s.emit ∨ ∃ event, e = .delivering event) := by
  unfold EngineState.finalizeRequestOnce
  split
  · exact ⟨_, _, rfl, Or.inl rfl⟩
  obtain ⟨e, heq, he⟩ := emitRequestResult_eq
    (s.modifyRequest id fun r => { r with terminalDispatched := true, finished := true }) r
    { requestId := id, finished := true, error := error }
  exact ⟨_, e, heq, he.imp_right fun hd => ⟨_, hd⟩⟩

theorem markCancelled_eq (s : EngineState) (id : Nat) :
    ∃ rs, s.markCancelled id = { s with requests := rs } := by
  unfold EngineState.markCancelled
  split <;> exact ⟨_, rfl⟩

theorem delivering_fits (mode : CallbackMode) (event : ResultEvent) :
    (Emit.delivering event).Fits mode := by
  cases mode <;> trivial

theorem none_fits (mode : CallbackMode) : Emit.none.Fits mode := by
  cases mode <;> trivial

section

variable (h : DeliveryInv s)

include h

theorem DeliveryInv.result (hnone : s.emit = .none) (rs : List Request)
    {sweep : Option (List Nat)} (hsweep : sweep.isSome = s.sweep.isSome)
    (he : e = .none ∨ ∃ event, e = .delivering event) :
    DeliveryInv { s with requests := rs, emit := e, sweep := sweep } := by
  refine h.keep rfl hsweep ?_ rfl (fun _ _ _ => Iff.rfl) ?_ ?_ h.direct
  · show e.holding = s.emit.holding
    rw [hnone]
    rcases he with rfl | ⟨event, rfl⟩ <;> rfl
  · intro _
    rcases he with rfl | ⟨event, rfl⟩ <;> trivial
  rcases he with rfl | ⟨event, rfl⟩
  · exact none_fits _
  · exact delivering_fits _ event

theorem DeliveryInv.goesOn (hout : s.sweep = none)
    (hholding : e.holding = s.emit.holding) (hfits : e.Fits s.callbackMode) :
    DeliveryInv { s with emit := e } :=
  h.keep rfl rfl hholding rfl (fun _ _ _ => Iff.rfl) (fun hne => absurd hout hne) hfits h.direct

theorem DeliveryInv.push (hmode : s.callbackMode = .async)
    (hholding : s.emit.holding = false) (event : ResultEvent) :
    DeliveryInv (s.pushEvent event) := by
  refine h.keep rfl rfl hholding.symm rfl (fun _ _ _ => Iff.rfl) (fun _ => trivial) (none_fits _) ?_
  intro hdirect
  cases hmode.symm.trans hdirect

/-- Where the worker waits or wakes up it is not in the section. -/
theorem DeliveryInv.outside (hnot : ¬ s.emit.Quick) : s.sweep = none := by
  by_contra hin
  exact hnot (h.quick hin)

theorem DeliveryInv.mode_async (he : s.emit = e)
    (hnot : ¬ e.Fits .direct) : s.callbackMode = .async := by
  have hfits := h.fits
  cases hmode : s.callbackMode with
  | async => rfl
  | direct =>
    rw [hmode, he] at hfits
    exact absurd hfits hnot

theorem DeliveryInv.mode_direct (he : s.emit = e)
    (hnot : ¬ e.Fits .async) : s.callbackMode = .direct := by
  have hfits := h.fits
  cases hmode : s.callbackMode with
  | direct => rfl
  | async =>
    rw [hmode, he] at hfits
    exact absurd hfits hnot

theorem DeliveryInv.loop_async (hbusy : s.callbackLoop ≠ .idle) :
    s.callbackMode ≠ .direct := fun hmode => hbusy (h.direct hmode).2

end

/-! ### The steps

The mutex has one holder, and whoever holds it can take its next step unless it waits for
the queue. The condition rules out that wait inside the section.
-/

section

variable (h : DeliveryInv s)

include h

theorem DeliveryInv.sweepNext (hs : s.step .sweepNext = some t) :
    DeliveryInv t := by
  simp only [EngineState.step] at hs
  split at hs
  · rename_i id rest hsweep
    split at hs
    · cases hs
    rename_i r hr
    obtain ⟨hnone, rfl⟩ := when_eq_some hs
    have hin : (some rest : Option (List Nat)).isSome = s.sweep.isSome := by
      rw [hsweep]
      rfl
    split
    · obtain ⟨rs, e, heq, he⟩ := finalizeRequestOnce_eq { s with sweep := some rest } id r true
      rw [heq]
      refine h.result hnone rs hin (he.imp_left fun hsame => ?_)
      rw [hsame]
      exact hnone
    have hstill := h.result (e := s.emit) hnone s.requests hin (Or.inl hnone)
    exact hstill
  · cases hs

theorem DeliveryInv.deliver (hok : s.SectionClear .deliver)
    (hs : s.step .deliver = some t) : DeliveryInv t := by
  simp only [EngineState.step] at hs
  split at hs
  · rename_i event he
    split at hs
    · rename_i hmode
      cases hs
      refine h.keep rfl rfl (by rw [he]; rfl) rfl (fun _ _ _ => Iff.rfl) (fun _ => trivial) ?_
        h.direct
      show (Emit.callback event).Fits s.callbackMode
      rw [hmode]
      trivial
    rename_i hmode
    cases hs
    unfold EngineState.pushResultEvent
    by_cases hwait : s.MustWait
    · rw [if_pos hwait]
      have hout : s.sweep = none := by
        by_contra hin
        exact hok hin hmode hwait
      refine h.goesOn hout (by rw [he]; rfl) ?_
      rw [hmode]
      trivial
    rw [if_neg hwait]
    exact h.push hmode (by rw [he]; rfl) event
  · cases hs

theorem DeliveryInv.recheck (hs : s.step .recheck = some t) :
    DeliveryInv t := by
  simp only [EngineState.step] at hs
  split at hs
  · rename_i event he
    cases hs
    have hmode := h.mode_async he id
    split
    · exact h.push hmode (by rw [he]; rfl) event
    refine h.goesOn (h.outside (by rw [he]; exact id)) (by rw [he]; rfl) ?_
    rw [hmode]
    trivial
  · cases hs

/-- The callback thread takes an event, and may wake the worker up. -/
theorem DeliveryInv.take (hs : s.step .take = some t) : DeliveryInv t := by
  simp only [EngineState.step] at hs
  split at hs
  · rename_i event rest hqueue
    obtain ⟨hidle, rfl⟩ := when_eq_some hs
    have hmode : s.callbackMode ≠ .direct := by
      intro hdirect
      rw [(h.direct hdirect).1] at hqueue
      cases hqueue
    have hnotify : ∀ e : Emit, (EngineState.notifyDrain e).holding = e.holding ∧
        (e.Quick → (EngineState.notifyDrain e).Quick) ∧
        (e.Fits s.callbackMode → (EngineState.notifyDrain e).Fits s.callbackMode) := by
      intro e
      cases e with
      | waiting event =>
        refine ⟨rfl, False.elim, fun hfits => ?_⟩
        cases hm : s.callbackMode with
        | async => trivial
        | direct => exact absurd hm hmode
      | _ => exact ⟨rfl, id, id⟩
    refine h.keep rfl rfl ?_ (by rw [hidle]; rfl) (fun _ _ _ => Iff.rfl) (fun hin => ?_) ?_
      (fun hdirect => absurd hdirect hmode)
    · show (if _ then _ else _ : Emit).holding = _
      split
      · exact (hnotify s.emit).1
      · rfl
    · show (if _ then _ else _ : Emit).Quick
      split
      · exact (hnotify s.emit).2.1 (h.quick hin)
      · exact h.quick hin
    show (if _ then _ else _ : Emit).Fits s.callbackMode
    split
    · exact (hnotify s.emit).2.2 h.fits
    · exact h.fits
  · cases hs

/-- The callback that the worker runs takes `active_mu`. -/
theorem DeliveryInv.inlineLock (hs : s.step .inlineLock = some t) :
    DeliveryInv t := by
  simp only [EngineState.step] at hs
  split at hs
  · rename_i event id he
    obtain ⟨hfree, rfl⟩ := when_eq_some hs
    have hmode := h.mode_direct he (fun hf => hf)
    have hout : s.sweep = none := h.outside (by rw [he]; exact fun hq => hq)
    refine h.lock hfree rfl (Or.inr rfl) (fun o hne hh => ?_) (fun hin => absurd hout hin) ?_
      h.direct
    · cases o with
      | worker => exact absurd rfl hne
      | _ => exact hh
    show (Emit.cancelling event (.holds id)).Fits s.callbackMode
    rw [hmode]
    trivial
  · cases hs

theorem DeliveryInv.inlineUnlock (hs : s.step .inlineUnlock = some t) :
    DeliveryInv t := by
  simp only [EngineState.step] at hs
  split at hs
  · rename_i event id he
    cases hs
    obtain ⟨rs, heq⟩ := markCancelled_eq s id
    rw [heq]
    have hmode := h.mode_direct he (fun hf => hf)
    have hout : s.sweep = none := h.outside (by rw [he]; exact fun hq => hq)
    refine h.unlock (o := .worker) (Or.inr (by rw [he]; rfl)) rfl ?_ (fun o hne hh => ?_)
      (fun hin => absurd hout hin) ?_ h.direct
    · rintro (hin | hholding)
      · have hin : s.sweep.isSome = true := hin
        rw [hout] at hin
        cases hin
      · cases hholding
    · cases o with
      | worker => exact absurd rfl hne
      | _ => exact hh
    show (Emit.callback event).Fits s.callbackMode
    rw [hmode]
    trivial
  · cases hs

theorem DeliveryInv.loopLock (hs : s.step .loopLock = some t) :
    DeliveryInv t := by
  simp only [EngineState.step] at hs
  split at hs
  · rename_i event id he
    obtain ⟨hfree, rfl⟩ := when_eq_some hs
    have hmode := h.loop_async (by rw [he]; nofun)
    refine h.lock hfree rfl rfl (fun o hne hh => ?_) h.quick h.fits
      (fun hdirect => absurd hdirect hmode)
    cases o with
    | callbackThread => exact absurd rfl hne
    | _ => exact hh
  · cases hs

theorem DeliveryInv.loopUnlock (hs : s.step .loopUnlock = some t) :
    DeliveryInv t := by
  simp only [EngineState.step] at hs
  split at hs
  · rename_i event id he
    cases hs
    obtain ⟨rs, heq⟩ := markCancelled_eq s id
    rw [heq]
    have hmode := h.loop_async (by rw [he]; nofun)
    have hheld : s.Holds .callbackThread := by
      show s.callbackLoop.holding = true
      rw [he]
      rfl
    refine h.unlock hheld rfl nofun (fun o hne hh => ?_) h.quick h.fits
      (fun hdirect => absurd hdirect hmode)
    cases o with
    | callbackThread => exact absurd rfl hne
    | _ => exact hh
  · cases hs

end

theorem holds_set {c : Option CancelCall} (h : t.Holds o)
    (hne : o ≠ .canceller i) (hsweep : t.sweep = s.sweep) (hemit : t.emit = s.emit)
    (hloop : t.callbackLoop = s.callbackLoop) (hcancels : t.cancels = s.cancels.set i c) :
    s.Holds o := by
  cases o with
  | worker =>
    have hw : t.sweep.isSome = true ∨ t.emit.holding = true := h
    rwa [hsweep, hemit] at hw
  | callbackThread =>
    have hw : t.callbackLoop.holding = true := h
    rwa [hloop] at hw
  | canceller j =>
    obtain ⟨call, hcall, hholding⟩ := h
    refine ⟨call, ?_, hholding⟩
    rw [hcancels, getElem?_set_ne fun heq => hne (by rw [heq])] at hcall
    exact hcall

theorem DeliveryInv.lockOther (h : DeliveryInv s) (hs : s.step (.lock i) = some t) :
    DeliveryInv t := by
  simp only [EngineState.step] at hs
  split at hs
  · rename_i id hi
    obtain ⟨hfree, rfl⟩ := when_eq_some hs
    have hlt := (List.getElem?_eq_some_iff.mp hi).1
    exact h.lock hfree rfl ⟨.holds id, getElem?_set_self hlt, rfl⟩
      (fun o hne hh => holds_set hh hne rfl rfl rfl rfl) h.quick h.fits h.direct
  · cases hs

theorem DeliveryInv.unlockOther (h : DeliveryInv s) (hs : s.step (.unlock i) = some t) :
    DeliveryInv t := by
  simp only [EngineState.step] at hs
  split at hs
  · rename_i id hi
    cases hs
    obtain ⟨rs, heq⟩ := markCancelled_eq s id
    rw [heq]
    have hlt := (List.getElem?_eq_some_iff.mp hi).1
    refine h.unlock (o := .canceller i) ⟨.holds id, hi, rfl⟩ rfl ?_
      (fun o hne hh => holds_set hh hne rfl rfl rfl rfl) h.quick h.fits h.direct
    rintro ⟨call, hcall, -⟩
    have hset : (s.cancels.set i none)[i]? = some (some call) := hcall
    rw [getElem?_set_self hlt] at hset
    cases some.inj hset
  · cases hs

/-- **Every step keeps the invariant**, if the section is clear. -/
theorem DeliveryInv.step (h : DeliveryInv s) {e : Event} (hok : s.SectionClear e)
    (hs : s.step e = some t) : DeliveryInv t := by
  cases e with
  | activate hasCallback | reap =>
    obtain ⟨-, rfl⟩ := when_eq_some hs
    exact h.keep rfl rfl rfl rfl (fun _ _ _ => Iff.rfl) h.quick h.fits h.direct
  | token id =>
    simp only [EngineState.step] at hs
    split at hs
    · cases hs
    rename_i r hr
    obtain ⟨⟨hfree, -⟩, rfl⟩ := when_eq_some hs
    obtain ⟨e, heq, he⟩ := emitRequestResult_eq s r
      { requestId := id, finished := false, error := false }
    rw [heq]
    refine h.result hfree.2 s.requests rfl ?_
    exact he.imp (fun hsame => hsame.trans hfree.2) fun hd => ⟨_, hd⟩
  | finish id error =>
    simp only [EngineState.step] at hs
    split at hs
    · cases hs
    rename_i r hr
    obtain ⟨⟨hfree, -⟩, rfl⟩ := when_eq_some hs
    obtain ⟨rs, e, heq, he⟩ := finalizeRequestOnce_eq s id r error
    rw [heq]
    exact h.result hfree.2 rs rfl (he.imp_left fun hsame => hsame.trans hfree.2)
  | beginSweep =>
    obtain ⟨⟨hfree, hmu⟩, rfl⟩ := when_eq_some hs
    refine h.lock hmu rfl (Or.inl rfl) (fun o hne hh => ?_) (fun _ => ?_) h.fits h.direct
    · cases o with
      | worker => exact absurd rfl hne
      | _ => exact hh
    show s.emit.Quick
    rw [hfree.2]
    trivial
  | sweepNext => exact h.sweepNext hs
  | endSweep =>
    obtain ⟨⟨hsweep, hnone⟩, rfl⟩ := when_eq_some hs
    refine h.unlock (o := .worker) (Or.inl (by rw [hsweep]; rfl)) rfl ?_ (fun o hne hh => ?_)
      (fun hin => absurd rfl hin) h.fits h.direct
    · rintro (hin | hholding)
      · cases hin
      have hholding : s.emit.holding = true := hholding
      rw [hnone] at hholding
      cases hholding
    cases o with
    | worker => exact absurd rfl hne
    | _ => exact hh
  | deliver => exact h.deliver hok hs
  | spurious =>
    simp only [EngineState.step] at hs
    split at hs
    · rename_i event he
      cases hs
      refine h.goesOn (h.outside (by rw [he]; exact id)) (by rw [he]; rfl) ?_
      rw [h.mode_async he id]
      trivial
    · cases hs
  | recheck => exact h.recheck hs
  | inlineCancel id =>
    simp only [EngineState.step] at hs
    split at hs
    · rename_i event he
      cases hs
      refine h.goesOn hok (by rw [he]; rfl) ?_
      rw [h.mode_direct he (fun hf => hf)]
      trivial
    · cases hs
  | inlineLock => exact h.inlineLock hs
  | inlineUnlock => exact h.inlineUnlock hs
  | inlineReturn =>
    simp only [EngineState.step] at hs
    split at hs
    · rename_i event he
      cases hs
      exact h.keep rfl rfl (by rw [he]; rfl) rfl (fun _ _ _ => Iff.rfl) (fun _ => trivial)
        (none_fits _) h.direct
    · cases hs
  | take => exact h.take hs
  | loopCancel id =>
    simp only [EngineState.step] at hs
    split at hs
    · rename_i event he
      cases hs
      exact h.keep rfl rfl rfl (by rw [he]; rfl) (fun _ _ _ => Iff.rfl) h.quick h.fits
        fun hdirect => absurd hdirect (h.loop_async (by rw [he]; nofun))
    · cases hs
  | loopLock => exact h.loopLock hs
  | loopUnlock => exact h.loopUnlock hs
  | loopReturn =>
    simp only [EngineState.step] at hs
    split at hs
    · rename_i event he
      cases hs
      exact h.keep rfl rfl rfl (by rw [he]; rfl) (fun _ _ _ => Iff.rfl) h.quick h.fits
        fun hdirect => absurd hdirect (h.loop_async (by rw [he]; nofun))
    · cases hs
  | cancel id =>
    cases hs
    refine h.keep rfl rfl rfl rfl (fun i call hcall => ⟨fun hi => ?_, fun hi => ?_⟩) h.quick
      h.fits h.direct
    · rcases getElem?_concat_cases hi with hold | ⟨-, heq⟩
      · exact hold
      rw [some.inj heq] at hcall
      cases hcall
    · exact getElem?_append_of_some hi _
  | lock i => exact h.lockOther hs
  | unlock i => exact h.unlockOther hs
  | stop =>
    cases hs
    exact h.keep rfl rfl rfl rfl (fun _ _ _ => Iff.rfl) h.quick h.fits h.direct

/-! ### A section that is not clear -/

/-- A callback comes to wait for `active_mu` while the worker waits for it. -/
theorem loop_waits {event : ResultEvent} (hmu : s.activeMu = some .worker)
    (hemit : s.emit = .waiting event) (hwait : s.MustWait)
    (hholding : s.callbackLoop.holding = true → s.activeMu = some .callbackThread) :
    ∃ u, Runs EngineState.step (fun _ _ => True) s u ∧ Deadlock u := by
  have hcancel : ∀ {u : EngineState} {taken : ResultEvent},
      Runs EngineState.step (fun _ _ => True) s u → u.activeMu = some .worker →
      u.emit = .waiting event → u.callbackLoop = .running taken →
      ∃ v, Runs EngineState.step (fun _ _ => True) s v ∧ Deadlock v := by
    intro u taken hrun hmu hemit hloop
    refine ⟨{ u with callbackLoop := .cancelling taken (.wants 0) },
      hrun.tail (e := .loopCancel 0) trivial ?_, hmu, Or.inl ⟨event, hemit⟩,
      Or.inl ⟨taken, 0, rfl⟩⟩
    simp only [EngineState.step]
    rw [hloop]
  cases hloop : s.callbackLoop with
  | idle =>
    -- the queue is far from empty, and still is after one event is taken out
    cases hqueue : s.resultQueue with
    | nil =>
      have hfull := hwait.1
      rw [hqueue] at hfull
      exact absurd hfull (by decide)
    | cons first rest =>
      have hmany : ¬ rest.length ≤ RESULT_QUEUE_LOW_WATERMARK := by
        have hfull := hwait.1
        rw [hqueue, length_cons] at hfull
        unfold RESULT_QUEUE_CRITICAL_WATERMARK at hfull
        unfold RESULT_QUEUE_LOW_WATERMARK
        omega
      have htake : s.step .take = some (s.taken first rest) := by
        simp only [EngineState.step]
        rw [hqueue]
        exact if_pos hloop
      refine hcancel (Runs.refl.tail trivial htake) hmu ?_ rfl
      show (if _ then _ else _ : Emit) = _
      rw [if_neg hmany]
      exact hemit
  | running taken => exact hcancel Runs.refl hmu hemit hloop
  | cancelling taken call =>
    cases call with
    | wants id =>
      exact ⟨s, Runs.refl, hmu, Or.inl ⟨event, hemit⟩, Or.inl ⟨taken, id, hloop⟩⟩
    | holds id =>
      have hother := hholding (by rw [hloop]; rfl)
      rw [hmu] at hother
      cases hother

/-- **A step that the section is not clear for leads to a deadlock.** -/
theorem DeliveryInv.deadlock (h : DeliveryInv s) {e : Event} (hnot : ¬ s.SectionClear e)
    (hs : s.step e = some t) :
    ∃ u, Runs EngineState.step (fun _ _ => True) t u ∧ Deadlock u := by
  have hin : s.sweep ≠ none → s.activeMu = some .worker := fun hsweep =>
    (h.mutex .worker).mpr (Or.inl (isSome_iff_ne_none.mpr hsweep))
  cases e with
  | deliver =>
    unfold EngineState.SectionClear at hnot
    push Not at hnot
    obtain ⟨hsweep, hmode, hwait⟩ := hnot
    simp only [EngineState.step] at hs
    split at hs
    · rename_i event he
      rw [hmode] at hs
      cases hs
      unfold EngineState.pushResultEvent
      rw [if_pos hwait]
      exact loop_waits (hin hsweep) rfl hwait (h.mutex .callbackThread).mpr
    · cases hs
  | inlineCancel id =>
    simp only [EngineState.step] at hs
    split at hs
    · rename_i event he
      cases hs
      exact ⟨_, Runs.refl, hin hnot, Or.inr (Or.inr ⟨event, .wants id, rfl⟩),
        Or.inr ⟨event, id, rfl⟩⟩
    · cases hs
  | _ => exact absurd trivial hnot

end Steps

/-! ### The result -/

/-- **Delivery does not deadlock, in either mode, in a run that keeps the section
clear**; and a step that does not is followed by a deadlock in some run. -/
theorem delivery_no_deadlock (mode : CallbackMode) :
    (∀ t, Runs EngineState.step EngineState.SectionClear (.init mode) t → ¬ Deadlock t) ∧
    ∀ s e t, Runs EngineState.step EngineState.SectionClear (.init mode) s →
      ¬ s.SectionClear e → s.step e = some t →
      ∃ u, Runs EngineState.step (fun _ _ => True) t u ∧ Deadlock u := by
  have hinv : ∀ t, Runs EngineState.step EngineState.SectionClear (.init mode) t →
      DeliveryInv t := fun t hrun =>
    hrun.inv (deliveryInv_init mode) fun _ _ _ h hok hs => h.step hok hs
  exact ⟨fun t hrun => (hinv t hrun).noDeadlock,
    fun s e t hrun hnot hs => (hinv s hrun).deadlock hnot hs⟩

/-- A cancelled request that is finalised while the queue is short. -/
theorem short_queue_clear : ∃ t, runList EngineState.step (.init .async)
      [.activate true, .token 0, .deliver, .take, .loopCancel 0, .loopLock, .loopUnlock,
        .loopReturn, .beginSweep, .sweepNext, .deliver, .endSweep, .reap] = some t ∧
    ¬ Deadlock t := by
  refine ⟨_, rfl, (delivery_no_deadlock .async).1 _ ?_⟩
  have hchecked : ∀ (s : EngineState) (e : Event), (match e with
        | .deliver => decide (¬ s.MustWait)
        | .inlineCancel _ => false
        | _ => true) = true → s.SectionClear e := by
    intro s e h
    cases e with
    | deliver => exact fun _ _ => of_decide_eq_true h
    | inlineCancel id => cases h
    | _ => trivial
  exact Runs.of_checked hchecked
    [.activate true, .token 0, .deliver, .take, .loopCancel 0, .loopLock, .loopUnlock,
      .loopReturn, .beginSweep, .sweepNext, .deliver, .endSweep, .reap] Runs.refl rfl

theorem fill {s : EngineState} {id : Nat} {r : Request} (hfree : s.Free)
    (hmode : s.callbackMode = .async) (hr : s.requests[id]? = some r)
    (hcallback : r.hasCallback = true) (hactive : id ∈ s.activeRequests) (n : Nat) :
    ∀ q : List ResultEvent, q.length + n ≤ RESULT_QUEUE_CRITICAL_WATERMARK →
      Runs EngineState.step (fun _ _ => True) s { s with resultQueue := q } →
      ∃ q', q'.length = q.length + n ∧
        Runs EngineState.step (fun _ _ => True) s { s with resultQueue := q' } := by
  induction n with
  | zero => exact fun q _ hrun => ⟨q, rfl, hrun⟩
  | succ n ih =>
    intro q hroom hrun
    have hshort : ¬ { s with resultQueue := q }.MustWait := by
      intro hwait
      have hfull : RESULT_QUEUE_CRITICAL_WATERMARK ≤ q.length := hwait.1
      omega
    have htoken : { s with resultQueue := q }.step (.token id) = some
        { s with
          resultQueue := q
          emit := .delivering { requestId := id, finished := false, error := false } } := by
      simp only [EngineState.step, hr]
      unfold EngineState.emitRequestResult
      rw [if_pos hcallback]
      exact if_pos ⟨hfree, hactive⟩
    obtain ⟨q', hlength, hrun'⟩ :=
      ih (q ++ [{ requestId := id, finished := false, error := false }])
        (by rw [length_append, length_singleton]; omega)
        ((hrun.tail trivial htoken).tail (e := .deliver) trivial (by
          simp only [EngineState.step, hmode]
          unfold EngineState.pushResultEvent EngineState.pushEvent
          rw [if_neg (by exact hshort), hfree.2]))
    refine ⟨q', ?_, hrun'⟩
    rw [hlength, length_append, length_singleton]
    omega

/-- Direct mode: the callback for a cancelled request calls `CancelRequest` on the thread
that holds the mutex. -/
theorem inline_deadlock : ∃ t, runList EngineState.step (.init .direct)
      [.activate true, .cancel 0, .lock 0, .unlock 0, .beginSweep, .sweepNext, .deliver,
        .inlineCancel 0] = some t ∧ Deadlock t :=
  ⟨_, rfl, rfl, Or.inr (Or.inr ⟨_, _, rfl⟩), Or.inr ⟨_, _, rfl⟩⟩

/-- A callback of an active request runs, and the request is cancelled. -/
def cancelledInCallback : EngineState :=
  { callbackMode := .async, stopped := false
    requests :=
      [{ hasCallback := true, cancelled := true, finished := false, terminalDispatched := false }]
    activeRequests := [0], activeMu := none, resultQueue := [], sweep := none, emit := .none
    callbackLoop := .running { requestId := 0, finished := false, error := false }
    cancels := [none] }

/-- Asynchronous mode: while the callback runs the queue fills up, the worker finalises
the cancelled request and waits, and the callback calls `CancelRequest`. -/
theorem drain_deadlock :
    ∃ t, Runs EngineState.step (fun _ _ => True) (.init .async) t ∧ Deadlock t := by
  have hstart : Runs EngineState.step (fun _ _ => True) (.init .async) cancelledInCallback :=
    Runs.of_list (show runList EngineState.step (.init .async)
      [.activate true, .token 0, .deliver, .take, .cancel 0, .lock 0, .unlock 0] =
        some cancelledInCallback from rfl)
  obtain ⟨q, hlength, hfill⟩ := fill (s := cancelledInCallback) ⟨rfl, rfl⟩ rfl
    (show cancelledInCallback.requests[0]? = some _ from rfl) rfl mem_cons_self
    RESULT_QUEUE_CRITICAL_WATERMARK [] (Nat.le_refl _) Runs.refl
  have hfull : RESULT_QUEUE_CRITICAL_WATERMARK ≤ q.length := by
    rw [hlength]
    exact Nat.le_refl _
  let swept : EngineState := { cancelledInCallback with
    requests :=
      [{ hasCallback := true, cancelled := true, finished := true, terminalDispatched := true }]
    resultQueue := q, activeMu := some .worker, sweep := some []
    emit := .delivering { requestId := 0, finished := true, error := true } }
  have hswept : Runs EngineState.step (fun _ _ => True)
      { cancelledInCallback with resultQueue := q } swept :=
    Runs.of_list (show runList EngineState.step { cancelledInCallback with resultQueue := q }
      [.beginSweep, .sweepNext] = some swept from rfl)
  have hwait : swept.MustWait := by
    refine ⟨hfull, ?_⟩
    rintro (hshort | hstopped)
    · have hfew : q.length ≤ RESULT_QUEUE_LOW_WATERMARK := hshort
      exact absurd (Nat.le_trans hfull hfew) (by decide)
    · cases hstopped
  have hdeliver : swept.step .deliver = some { swept with
      emit := .waiting { requestId := 0, finished := true, error := true } } :=
    congrArg some (if_pos hwait)
  obtain ⟨u, hrest, hdead⟩ := loop_waits (s := { swept with
    emit := .waiting { requestId := 0, finished := true, error := true } }) rfl rfl hwait nofun
  exact ⟨u, ((hstart.trans (hfill.trans hswept)).tail trivial hdeliver).trans hrest, hdead⟩

/-- Both modes can deadlock. -/
theorem delivery_deadlocks :
    (∃ t, Runs EngineState.step (fun _ _ => True) (.init .direct) t ∧ Deadlock t) ∧
      ∃ t, Runs EngineState.step (fun _ _ => True) (.init .async) t ∧ Deadlock t := by
  refine ⟨?_, drain_deadlock⟩
  obtain ⟨t, hlist, hdead⟩ := inline_deadlock
  exact ⟨t, Runs.of_list hlist, hdead⟩

/-! ### The length of the queue

Only two events push a result, and both look at the length first.
-/

namespace EngineState

/-- Until the engine is stopped, the queue does not outgrow the watermark. -/
def QueueBounded (s : EngineState) : Prop :=
  s.stopped = false → s.resultQueue.length ≤ RESULT_QUEUE_CRITICAL_WATERMARK

section

variable {s t : EngineState}

theorem QueueBounded.same (h : s.QueueBounded) (hqueue : t.resultQueue = s.resultQueue)
    (hstopped : t.stopped = s.stopped) : t.QueueBounded := by
  intro hrunning
  rw [hqueue]
  exact h (hstopped.symm.trans hrunning)

/-- An engine that runs and need not wait has room for one more event. -/
theorem QueueBounded.push (hmay : ¬ s.MustWait) (event : ResultEvent) :
    (s.pushEvent event).QueueBounded := by
  intro hrunning
  have hshort : s.resultQueue.length < RESULT_QUEUE_CRITICAL_WATERMARK := by
    by_contra hlong
    refine hmay ⟨Nat.not_lt.mp hlong, ?_⟩
    rintro (hlow | hstopped)
    · exact hlong (Nat.lt_of_le_of_lt hlow (by decide))
    · exact absurd (hstopped.symm.trans hrunning) (by decide)
  show (s.resultQueue ++ [event]).length ≤ _
  rw [length_append, length_singleton]
  exact hshort

theorem QueueBounded.deliver (h : s.QueueBounded) (hs : s.step .deliver = some t) :
    t.QueueBounded := by
  simp only [EngineState.step] at hs
  split at hs
  · rename_i event _
    split at hs
    · cases hs
      exact h.same rfl rfl
    cases hs
    unfold pushResultEvent
    split
    · exact h.same rfl rfl
    · rename_i hmay
      exact .push hmay event
  · cases hs

/-- The thread that waited pushes only when the queue has drained. -/
theorem QueueBounded.recheck (h : s.QueueBounded) (hs : s.step .recheck = some t) :
    t.QueueBounded := by
  simp only [EngineState.step] at hs
  split at hs
  · rename_i event _
    cases hs
    split
    · rename_i hdrained
      exact .push (fun hwait => hwait.2 hdrained) event
    · exact h.same rfl rfl
  · cases hs

theorem QueueBounded.take (h : s.QueueBounded) (hs : s.step .take = some t) :
    t.QueueBounded := by
  simp only [EngineState.step] at hs
  split at hs
  · rename_i event rest hqueue
    obtain ⟨-, rfl⟩ := when_eq_some hs
    intro hrunning
    have hbound := h hrunning
    rw [hqueue, length_cons] at hbound
    exact Nat.le_of_succ_le hbound
  · cases hs

attribute [local grind =] emitRequestResult finalizeRequestOnce markCancelled modifyRequest

/-- Every other event leaves the queue as it is. -/
theorem step_resultQueue {e : Event} (hs : s.step e = some t) (hdeliver : e ≠ .deliver)
    (hrecheck : e ≠ .recheck) (htake : e ≠ .take) (hstop : e ≠ .stop) :
    t.resultQueue = s.resultQueue ∧ t.stopped = s.stopped := by
  cases e <;> simp only [EngineState.step] at hs <;> grind [when_eq_some]

theorem QueueBounded.step {e : Event} (h : s.QueueBounded) (hs : s.step e = some t) :
    t.QueueBounded := by
  by_cases hdeliver : e = .deliver
  · exact h.deliver (hdeliver ▸ hs)
  by_cases hrecheck : e = .recheck
  · exact h.recheck (hrecheck ▸ hs)
  by_cases htake : e = .take
  · exact h.take (htake ▸ hs)
  by_cases hstop : e = .stop
  · subst hstop
    cases hs
    -- the bound is about engines that are not stopped
    intro hrunning
    cases hrunning
  obtain ⟨hqueue, hstopped⟩ := step_resultQueue hs hdeliver hrecheck htake hstop
  exact h.same hqueue hstopped

end

/-- **The result queue is bounded in every interleaving.** -/
theorem resultQueue_bounded (mode : CallbackMode) {s : EngineState}
    (hrun : Runs step (fun _ _ => True) (.init mode) s) : s.QueueBounded :=
  hrun.inv (fun _ => Nat.zero_le _) fun _ _ _ h _ hs => h.step hs

theorem oneToken_bounded : ∃ t : EngineState, t.resultQueue ≠ [] ∧ t.QueueBounded := by
  have hlist : runList step (.init .async) [.activate true, .token 0, .deliver] = some _ := rfl
  exact ⟨_, cons_ne_nil _ _, resultQueue_bounded .async (Runs.of_list hlist)⟩

end EngineState

end DenseCore.Delivery
