/-
Runs of a machine with labelled steps.

A machine is a partial step function: `step s e` is the state after event `e`, or
`none` where the event cannot happen.  A run takes events that a side condition
`ok` on the state before the step allows; with `ok` always true these are all the
runs.  The rules carry an invariant along a run, and a finite list of events to
the run it makes.
-/
import Mathlib.Init

namespace DenseCore.Lib

variable {σ ε : Type*} (step : σ → ε → Option σ) (ok : σ → ε → Prop)

/-- `t` is reached from `s` by events each of which `ok` allows where it happens. -/
inductive Runs (s : σ) : σ → Prop
  | refl : Runs s s
  | tail {t u : σ} {e : ε} (run : Runs s t) (allowed : ok t e) (taken : step t e = some u) :
      Runs s u

variable {step ok}

theorem Runs.inv {I : σ → Prop} {s t : σ} (hrun : Runs step ok s t) (hs : I s)
    (hstep : ∀ a e b, I a → ok a e → step a e = some b → I b) : I t := by
  induction hrun with
  | refl => exact hs
  | tail _ hallowed htaken ih => exact hstep _ _ _ ih hallowed htaken

theorem Runs.trans {s t u : σ} (hrun : Runs step ok s t) (hrest : Runs step ok t u) :
    Runs step ok s u :=
  hrest.inv hrun fun _ _ _ hbefore hallowed htaken => hbefore.tail hallowed htaken

theorem Runs.mono {ok' : σ → ε → Prop} (himp : ∀ a e, ok a e → ok' a e) {s t : σ}
    (hrun : Runs step ok s t) : Runs step ok' s t := by
  induction hrun with
  | refl => exact Runs.refl
  | tail _ hallowed htaken ih => exact Runs.tail ih (himp _ _ hallowed) htaken

/-- The state after an event that can happen where `c` holds. -/
def when (c : Prop) [Decidable c] (t : σ) : Option σ := if c then some t else none

theorem when_pos {c : Prop} [Decidable c] (h : c) (t : σ) : when c t = some t := if_pos h

theorem when_eq_some {c : Prop} [Decidable c] {t u : σ} (h : when c t = some u) : c ∧ t = u := by
  unfold when at h
  split at h
  · rename_i hc
    exact ⟨hc, Option.some.inj h⟩
  · cases h

/-- The events of a list, one after the other. -/
def runList (step : σ → ε → Option σ) : σ → List ε → Option σ
  | s, [] => some s
  | s, e :: rest => (step s e).bind fun t => runList step t rest

theorem Runs.of_list_from {s : σ} (es : List ε) :
    ∀ {t u : σ}, Runs step (fun _ _ => True) s t → runList step t es = some u →
      Runs step (fun _ _ => True) s u := by
  induction es with
  | nil =>
    intro t u hrun hlist
    rw [← Option.some.inj hlist]
    exact hrun
  | cons e rest ih =>
    intro t u hrun hlist
    obtain ⟨v, hv, hrest⟩ := Option.bind_eq_some_iff.mp hlist
    exact ih (Runs.tail hrun trivial hv) hrest

theorem Runs.of_list {s t : σ} {es : List ε} (h : runList step s es = some t) :
    Runs step (fun _ _ => True) s t :=
  Runs.of_list_from es Runs.refl h

/-- The events of a list, as long as a test allows each where it happens. -/
def runChecked (step : σ → ε → Option σ) (check : σ → ε → Bool) : σ → List ε → Option σ
  | s, [] => some s
  | s, e :: rest =>
    if check s e then (step s e).bind fun t => runChecked step check t rest else none

theorem Runs.of_checked {check : σ → ε → Bool} (hcheck : ∀ a e, check a e → ok a e) {s : σ}
    (es : List ε) :
    ∀ {t u : σ}, Runs step ok s t → runChecked step check t es = some u → Runs step ok s u := by
  induction es with
  | nil =>
    intro t u hrun hlist
    rw [← Option.some.inj hlist]
    exact hrun
  | cons e rest ih =>
    intro t u hrun hlist
    rw [runChecked] at hlist
    split at hlist
    · rename_i hallowed
      obtain ⟨v, hv, hrest⟩ := Option.bind_eq_some_iff.mp hlist
      exact ih (Runs.tail hrun (hcheck t e hallowed) hv) hrest
    · cases hlist

end DenseCore.Lib
