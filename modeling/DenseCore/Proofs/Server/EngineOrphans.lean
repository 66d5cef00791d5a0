/-
Engines that nobody closes.

`Covered` says that a slot is current, closed, or being closed by some call; every
section keeps it but one.  The second section of `loadModelForce` puts its slot in
place of whatever is current by then, which another load may have installed meanwhile,
and the slot it replaces is lost for good: `Lost` is kept by every step.
-/
import DenseCore.Proofs.Server.ModelService

namespace DenseCore.Server.ModelService

open List Option

variable {s s' : ModelService} {c i : Nat}

/-! ### Which engines are looked after -/

/-- All calls have returned, the goroutines in the background included, and all leases
are closed. -/
def Settled (s : ModelService) : Prop :=
  (∀ call ∈ s.calls, ∃ ok, call = .returned ok) ∧ ∀ lease ∈ s.leases, lease.phase = .closed

/-- An engine that is the current one or has been closed. -/
def LookedAfter (s : ModelService) (e : Nat) : Prop :=
  (∃ i slot, s.currentSlot = some i ∧ s.slots[i]? = some slot ∧ slot.engine = e) ∨
    ∃ engine, s.engines[e]? = some engine ∧ engine.closed = true

/-- `loadModelForce` puts its new slot where none is current. -/
def InstallsOverNothing (s : ModelService) : Event → Prop
  | .install _ => s.currentSlot = none
  | _ => True

/-- Every slot is current, closed or being closed. -/
def Covered (s : ModelService) : Prop :=
  ∀ i (slot : EngineSlot), s.slots[i]? = some slot → s.currentSlot = some i ∨
    slot.closeOnce = .done ∨ ∃ call ∈ s.calls, call.slot = some i

theorem Covered.keep (h : s.Covered) (hcurrent : s'.currentSlot = s.currentSlot)
    (hslots : ∀ (i : Nat) (slot' : EngineSlot), s'.slots[i]? = some slot' → ∃ slot : EngineSlot,
      s.slots[i]? = some slot ∧ (slot.closeOnce = .done → slot'.closeOnce = .done))
    (hcalls : ∀ (i : Nat) (slot' : EngineSlot), s'.slots[i]? = some slot' →
      (∃ call ∈ s.calls, call.slot = some i) → slot'.closeOnce = .done ∨ ∃ call ∈ s'.calls, call.slot = some i) : s'.Covered := by
  intro i slot' hi
  obtain ⟨slot, hslot, hdone⟩ := hslots i slot' hi
  rw [hcurrent]
  rcases h i slot hslot with hcur | hd | hcall
  · exact Or.inl hcur
  · exact Or.inr (Or.inl (hdone hd))
  · exact Or.inr (hcalls i slot' hi hcall)

variable {x y : Call} {e : Nat} {t : ModelService}

theorem closing_set {calls : List Call} (hx : calls[c]? = some x)
    (hslot : ∀ i, x.slot = some i → y.slot = some i) (h : ∃ call ∈ calls, call.slot = some i) :
    ∃ call ∈ calls.set c y, call.slot = some i := by
  obtain ⟨call, hcall, hi⟩ := h
  by_cases heq : call = x
  · exact ⟨y, Lib.mem_set_self hx y, hslot i (heq ▸ hi)⟩
  · exact ⟨call, Lib.mem_set_of_ne hx hcall heq, hi⟩

theorem Covered.setCall (h : s.Covered) (hx : s.calls[c]? = some x)
    (hslot : ∀ i, x.slot = some i → y.slot = some i) : (s.setCall c y).Covered :=
  h.keep rfl (fun _ slot hi => ⟨slot, hi, id⟩) fun _ _ _ hcall =>
    Or.inr (closing_set hx hslot hcall)

theorem Covered.modifySlot (h : s.Covered) {f : EngineSlot → EngineSlot}
    (hf : ∀ slot, slot.closeOnce = .done → (f slot).closeOnce = .done) :
    (s.modifySlot i f).Covered := by
  refine h.keep rfl (fun j slot' hj => ?_) fun _ _ _ hcall => Or.inr hcall
  obtain ⟨slot, hslot, rfl⟩ := getElem?_modify_cases hj
  refine ⟨slot, hslot, fun hdone => ?_⟩
  split
  · exact hf slot hdone
  · exact hdone

theorem Covered.markCurrent (h : s.Covered) : s.markCurrent.Covered := by
  unfold ModelService.markCurrent
  split
  · exact h
  · exact h.modifySlot fun _ hdone => hdone

theorem markCurrent_currentSlot (s : ModelService) : s.markCurrent.currentSlot = s.currentSlot := by
  unfold ModelService.markCurrent
  split
  · rfl
  · rfl

@[simp] theorem closeEngineSlot_slot (ctx : Ctx) (next : AfterClose) (o : Option Nat) :
    (closeEngineSlot ctx next o).slot = o := by
  cases o with
  | none => cases next <;> rfl
  | some i => rfl

theorem Covered.takeOut (h : s.Covered) (hx : s.calls[c]? = some x)
    (hslot : x.slot = none) (ctx : Ctx) (next : AfterClose) (slot : EngineSlot)
    (hi : s.slots[i]? = some slot) : slot.closeOnce = .done ∨
      ∃ call ∈ s.calls.set c (closeEngineSlot ctx next s.currentSlot), call.slot = some i := by
  rcases h i slot hi with hcur | hdone | hcall
  · refine Or.inr ⟨_, Lib.mem_set_self hx _, ?_⟩
    rw [closeEngineSlot_slot, hcur]
  · exact Or.inl hdone
  refine Or.inr (closing_set hx (fun j hj => ?_) hcall)
  rw [hslot] at hj
  cases hj

theorem Covered.detach (h : s.Covered) (hx : s.calls[c]? = some x)
    (hslot : x.slot = none) (ctx : Ctx) (next : AfterClose) : (s.detach c ctx next).Covered := by
  intro i slot hi
  have hout := h.markCurrent.takeOut (by rw [markCurrent_calls]; exact hx) hslot ctx next slot hi
  rw [markCurrent_currentSlot] at hout
  exact Or.inr hout

theorem Covered.putSlot {path : String}
    (h : ∀ i (slot : EngineSlot), s.slots[i]? = some slot → slot.closeOnce = .done ∨
      ∃ call ∈ s.calls.set c y, call.slot = some i) :
    ((s.putSlot path e).setCall c y).Covered := by
  intro i slot hi
  rcases Lib.getElem?_concat_cases hi with hold | ⟨rfl, rfl⟩
  · exact Or.inr (h i slot hold)
  · exact Or.inl rfl

/-- The moves keep every engine covered, if an install finds no current slot. -/
theorem Covered.moved (h : s.Covered) {e : Event} (hm : s.Moved e t)
    (hok : s.InstallsOverNothing e) : t.Covered := by
  cases hm with
  | begun e hkept y hengine hslot hsafe =>
    refine h.keep rfl (fun _ slot hi => ⟨slot, hi, id⟩) fun _ _ _ ⟨call, hcall, hi⟩ => ?_
    exact Or.inr ⟨call, mem_append_left _ hcall, hi⟩
  | built c x y hx hold hnew hslot hnone hsafe =>
    exact h.setCall (y := y) hx fun i hi => nomatch hslot.symm.trans hi
  | notBuilt c x y hx hold hnew hslot hnone hsafe =>
    exact h.setCall hx fun i hi => nomatch hslot.symm.trans hi
  | swapped c path engine hx =>
    refine Covered.putSlot fun i slot hi => ?_
    have hout := h.markCurrent.takeOut (by rw [markCurrent_calls]; exact hx) rfl .background
      .greenLoad slot hi
    rw [markCurrent_currentSlot] at hout
    exact hout
  | detached c x ctx next hx hold hslot => exact h.detach hx hslot ctx next
  | installed c path engine hx =>
    refine Covered.putSlot fun i slot hi => ?_
    rcases h i slot hi with hcur | hrest
    · rw [show s.currentSlot = none from hok] at hcur
      cases hcur
    rcases hrest with hdone | hcall
    · exact Or.inl hdone
    · exact Or.inr (closing_set hx (fun j hj => nomatch hj) hcall)
  | signalled c i ctx signalled next slot hx hi hwg => exact h.setCall hx fun _ hi => hi
  | proceeded c i ctx next hx => exact h.setCall hx fun _ hi => hi
  | gaveUp c i signalled next hx =>
    refine h.keep rfl (fun _ slot hj => ⟨slot, hj, id⟩) fun j _ _ ⟨call, hcall, hj⟩ => ?_
    refine Or.inr ?_
    by_cases heq : call = .waiting i .cancellable signalled next
    · refine ⟨_, mem_append_right _ (mem_singleton_self _), ?_⟩
      rw [heq] at hj
      exact hj
    · exact ⟨call, mem_append_left _ (Lib.mem_set_of_ne hx hcall heq), hj⟩
  | entered c i next slot hx hi hunused =>
    refine Covered.setCall (s := s.modifySlot i (.setOnce .running)) ?_ hx fun _ hi => hi
    refine h.keep rfl (fun j slot' hj => ?_) fun _ _ _ hcall => Or.inr hcall
    obtain ⟨old, hold, rfl⟩ := getElem?_modify_cases hj
    refine ⟨old, hold, fun hdone => ?_⟩
    by_cases hij : i = j
    · rw [some.inj (hold.symm.trans (hij ▸ hi)), hunused] at hdone
      cases hdone
    rw [if_neg hij]
    exact hdone
  | passed c i next slot hx hi hdone =>
    refine h.keep rfl (fun _ slot hj => ⟨slot, hj, id⟩) fun j slot' hj ⟨call, hcall, hslot⟩ => ?_
    by_cases heq : call = .atOnce i next
    · rw [heq] at hslot
      rw [← some.inj hslot] at hj
      rw [some.inj (hj.symm.trans hi)]
      exact Or.inl hdone
    · exact Or.inr ⟨call, Lib.mem_set_of_ne hx hcall heq, hslot⟩
  | finished c i next slot hx hi =>
    refine h.keep rfl (fun j slot' hj => ?_) fun j slot' hj ⟨call, hcall, hslot⟩ => ?_
    · obtain ⟨old, hold, rfl⟩ := getElem?_modify_cases hj
      refine ⟨old, hold, fun hdone => ?_⟩
      split
      · rfl
      · exact hdone
    by_cases heq : call = .inClose i next
    · rw [heq] at hslot
      obtain ⟨old, -, rfl⟩ := getElem?_modify_cases hj
      rw [if_pos (some.inj hslot)]
      exact Or.inl rfl
    · exact Or.inr ⟨call, Lib.mem_set_of_ne hx hcall heq, hslot⟩
  | granted i slot hcurrent hi hopen => exact h.modifySlot fun _ hdone => hdone
  | nothing => exact h
  | leaseClosing l lease hl hphase => exact h
  | refDropped l lease hl hphase => exact h.modifySlot fun _ hdone => hdone
  | leaseClosed l lease hl hphase => exact h.modifySlot fun _ hdone => hdone
  | marked => exact h.markCurrent

/-- **No engine is orphaned, as long as each force load finds no slot in the way.**  In
every run in which no load has installed an engine between the two sections of a force
load, once all is settled every engine that was built is current or closed. -/
theorem no_engine_orphaned (hs : Lib.Runs step InstallsOverNothing newModelService s)
    (hsettled : s.Settled) (e : Nat) (he : e < s.engines.length) : s.LookedAfter e := by
  have h := Runs.inv hs
  have hcovered : s.Covered :=
    Lib.Runs.inv hs (fun _ _ hi => nomatch hi) fun _ _ _ hc hok ht =>
      hc.moved (step_moved ht) hok
  rcases h.engine_cases he with ⟨-, call, hcall, hengine⟩ | ⟨i, slot, hi, rfl, hstate⟩
  · obtain ⟨ok, rfl⟩ := hsettled.1 call hcall
    cases hengine
  rcases hcovered i slot hi with hcur | hdone | ⟨call, hcall, hslot⟩
  · exact Or.inl ⟨i, slot, hcur, hi, rfl⟩
  · exact Or.inr ⟨_, hstate, decide_eq_true hdone⟩
  obtain ⟨ok, rfl⟩ := hsettled.1 call hcall
  cases hslot

instance (s : ModelService) (e : Event) : Decidable (s.InstallsOverNothing e) := by
  unfold InstallsOverNothing
  split <;> infer_instance

/-- A force load and then an unload. -/
theorem load_and_unload_settled : ∃ s, Lib.runList step newModelService
      [.load "m" true, .detach 0, .created 0 true, .install 0, .unload .background, .detach 1,
        .signal 1, .proceed 1, .enterOnce 1, .closed 1] = some s ∧
    ∀ e < s.engines.length, s.LookedAfter e := by
  refine ⟨_, rfl, fun e he => no_engine_orphaned ?_ ?_ e he⟩
  · have hchecked : ∀ (s : ModelService) (e : Event),
        decide (s.InstallsOverNothing e) = true → s.InstallsOverNothing e :=
      fun _ _ h => of_decide_eq_true h
    exact Lib.Runs.of_checked hchecked
      [.load "m" true, .detach 0, .created 0 true, .install 0, .unload .background, .detach 1,
        .signal 1, .proceed 1, .enterOnce 1, .closed 1] Lib.Runs.refl rfl
  refine ⟨?_, fun _ h => nomatch h⟩
  rintro call (_ | ⟨_, _ | ⟨_, h⟩⟩)
  · exact ⟨true, rfl⟩
  · exact ⟨true, rfl⟩
  · cases h

/-- Two force loads that both find no slot: the engine installed first is neither
current nor closed, and nobody is left to close it. -/
theorem two_force_loads_orphan : ∃ s, Lib.runList step newModelService
      [.load "a" true, .load "b" true, .detach 0, .detach 1, .created 0 true, .created 1 true,
        .install 0, .install 1] = some s ∧
    s.Settled ∧ 0 < s.engines.length ∧ ¬ s.LookedAfter 0 := by
  refine ⟨_, rfl, ⟨?_, fun _ h => nomatch h⟩, Nat.zero_lt_two, ?_⟩
  · rintro call (_ | ⟨_, _ | ⟨_, h⟩⟩)
    · exact ⟨true, rfl⟩
    · exact ⟨true, rfl⟩
    · cases h
  rintro (⟨i, slot, hi, hslot, hengine⟩ | ⟨engine, he, hclosed⟩)
  · rw [← some.inj hi] at hslot
    rw [← some.inj hslot] at hengine
    exact absurd hengine (by decide)
  rw [← some.inj he] at hclosed
  cases hclosed

/-! ### What happens to a slot that is replaced -/

/-- The slot of engine `e` is closed by no call, and the engine is open. -/
def Unattended (s : ModelService) (i e : Nat) : Prop :=
  (∀ call ∈ s.calls, call.slot ≠ some i) ∧
    ∃ slot : EngineSlot, s.slots[i]? = some slot ∧ slot.engine = e ∧ slot.closeOnce = .unused

theorem unattended_set {calls : List Call} (h : ∀ call ∈ calls, call.slot ≠ some i)
    (hy : y.slot ≠ some i) : ∀ call ∈ calls.set c y, call.slot ≠ some i := by
  intro call hcall
  rcases mem_or_eq_of_mem_set hcall with hold | rfl
  · exact h call hold
  · exact hy

theorem unattended_append {calls : List Call} (h : ∀ call ∈ calls, call.slot ≠ some i)
    (hy : y.slot ≠ some i) : ∀ call ∈ calls ++ [y], call.slot ≠ some i := by
  intro call hcall
  rcases List.mem_append.mp hcall with hold | hnew
  · exact h call hold
  · exact List.mem_singleton.mp hnew ▸ hy

theorem unused_append {slots : List EngineSlot} (h : ∃ slot, slots[i]? = some slot ∧
    slot.engine = e ∧ slot.closeOnce = .unused) (new : List EngineSlot) :
    ∃ slot, (slots ++ new)[i]? = some slot ∧ slot.engine = e ∧ slot.closeOnce = .unused := by
  obtain ⟨slot, hi, hrest⟩ := h
  exact ⟨slot, Lib.getElem?_append_of_some hi new, hrest⟩

theorem unused_modify {slots : List EngineSlot} {j : Nat} {f : EngineSlot → EngineSlot}
    (h : ∃ slot, slots[i]? = some slot ∧ slot.engine = e ∧ slot.closeOnce = .unused)
    (hengine : ∀ slot, (f slot).engine = slot.engine)
    (honce : j = i → ∀ slot, (f slot).closeOnce = slot.closeOnce) :
    ∃ slot, (slots.modify j f)[i]? = some slot ∧ slot.engine = e ∧ slot.closeOnce = .unused := by
  obtain ⟨slot, hi, he, hunused⟩ := h
  by_cases hji : j = i
  · refine ⟨f slot, ?_, (hengine slot).trans he, (honce hji slot).trans hunused⟩
    rw [hji, getElem?_modify_eq, hi]
    rfl
  refine ⟨slot, ?_, he, hunused⟩
  rw [getElem?_modify_ne f slots hji, hi]

theorem Unattended.markCurrent (h : s.Unattended i e) : s.markCurrent.Unattended i e := by
  unfold ModelService.markCurrent
  split
  · exact h
  · exact ⟨h.1, unused_modify h.2 (fun _ => rfl) fun _ _ => rfl⟩

theorem Unattended.closing (h : s.Unattended i e) (hkept : s.currentSlot ≠ some i) (ctx : Ctx)
    (next : AfterClose) : ∀ call ∈
      s.markCurrent.calls.set c (closeEngineSlot ctx next s.currentSlot), call.slot ≠ some i := by
  rw [markCurrent_calls]
  refine unattended_set h.1 ?_
  rw [closeEngineSlot_slot]
  exact hkept

@[simp] theorem AfterClose.resume_slot (next : AfterClose) : next.resume.slot = none := by
  cases next <;> rfl

theorem Unattended.moved {engine : Nat} (h : s.Unattended i engine) {e : Event} (hm : s.Moved e t)
    (hkept : e.takesOut → s.currentSlot ≠ some i) :
    t.Unattended i engine := by
  have hne : ∀ {c j : Nat} {x : Call}, s.calls[c]? = some x → x.slot = some j → some j ≠ some i :=
    fun hx hj => hj ▸ h.1 _ (mem_of_getElem? hx)
  cases hm with
  | begun _ _ y hengine hnone => exact ⟨unattended_append h.1 (hnone ▸ nofun), h.2⟩
  | built c x y hx hold hnew hslot hnone | notBuilt c x y hx hold hnew hslot hnone =>
    exact ⟨unattended_set h.1 (hnone ▸ nofun), h.2⟩
  | swapped => exact ⟨h.closing (hkept trivial) _ _, unused_append h.markCurrent.2 _⟩
  | detached => exact ⟨h.closing (hkept trivial) _ _, h.markCurrent.2⟩
  | installed => exact ⟨unattended_set h.1 nofun, unused_append h.2 _⟩
  | signalled c j ctx signalled next slot hx | proceeded c j ctx next hx =>
    exact ⟨unattended_set h.1 (hne hx rfl), h.2⟩
  | gaveUp c j signalled next hx =>
    exact ⟨unattended_append (unattended_set h.1 nofun) (hne hx rfl), h.2⟩
  | entered c j next slot hx hj hunused =>
    refine ⟨unattended_set h.1 (hne hx rfl), unused_modify h.2 (fun _ => rfl) ?_⟩
    rintro rfl
    exact absurd rfl (hne hx rfl)
  | passed => exact ⟨unattended_set h.1 (by simp), h.2⟩
  | finished c j next slot hx hj =>
    refine ⟨unattended_set h.1 (by simp), unused_modify h.2 (fun _ => rfl) ?_⟩
    rintro rfl
    exact absurd rfl (hne hx rfl)
  | granted | refDropped | leaseClosed =>
    exact ⟨h.1, unused_modify h.2 (fun _ => rfl) fun _ _ => rfl⟩
  | nothing | leaseClosing => exact h
  | marked => exact h.markCurrent

theorem Inv.slot_lt (h : s.Inv) {call : Call} (hcall : call ∈ s.calls)
    (hslot : call.slot = some i) : i < s.slots.length := by
  have hsafe := h.safe call hcall
  cases call with
  | waiting j ctx signalled next | atOnce j next | inClose j next =>
    obtain ⟨slot, hj, -⟩ := hsafe
    exact some.inj hslot ▸ (List.getElem?_eq_some_iff.mp hj).1
  | _ => cases hslot

theorem Inv.unattended_new (h : s.Inv) {path : String} (hy : y.slot ≠ some s.slots.length) :
    ((s.putSlot path e).setCall c y).Unattended s.slots.length e := by
  refine ⟨unattended_set (fun call hcall hslot => ?_) hy, EngineSlot.new e, ?_, rfl, rfl⟩
  · exact absurd (h.slot_lt hcall hslot) (Nat.lt_irrefl _)
  · exact getElem?_concat_length

theorem Inv.current_moved (h : s.Inv) {e : Event} (hm : s.Moved e t) :
    (t.currentSlot = s.currentSlot ∧ ¬ e.takesOut) ∨ t.currentSlot = none ∨
      t.currentSlot = some s.slots.length ∧ ∃ engine, t.Unattended s.slots.length engine := by
  have hlength : s.markCurrent.slots.length = s.slots.length := by
    unfold ModelService.markCurrent
    split
    · rfl
    · exact length_modify _ _ _
  cases hm with
  | begun _ hkept | nothing _ hkept => exact Or.inl ⟨rfl, hkept⟩
  | swapped c path engine hx =>
    refine Or.inr (Or.inr ⟨congrArg some hlength, engine, ?_⟩)
    rw [← hlength]
    refine h.markCurrent.unattended_new ?_
    rw [closeEngineSlot_slot, ← markCurrent_currentSlot]
    intro hcurrent
    exact absurd (h.markCurrent.current _ hcurrent) (Nat.lt_irrefl _)
  | detached => exact Or.inr (Or.inl rfl)
  | installed c path engine hx => exact Or.inr (Or.inr ⟨rfl, engine, h.unattended_new nofun⟩)
  | marked => exact Or.inl ⟨markCurrent_currentSlot s, id⟩
  | _ => exact Or.inl ⟨rfl, id⟩

/-- The current slot is not being closed. -/
def CurrentIdle (s : ModelService) : Prop :=
  ∀ i, s.currentSlot = some i → ∃ e, s.Unattended i e

theorem CurrentIdle.moved (hidle : s.CurrentIdle) (h : s.Inv) {e : Event}
    (hm : s.Moved e t) : t.CurrentIdle := by
  intro i hi
  rcases h.current_moved hm with ⟨hsame, hkept⟩ | hnone | ⟨hnew, hun⟩
  · obtain ⟨engine, hun⟩ := hidle i (hsame ▸ hi)
    exact ⟨engine, hun.moved hm fun htaken => absurd htaken hkept⟩
  · exact absurd (hnone.symm.trans hi) nofun
  · exact some.inj (hnew.symm.trans hi) ▸ hun

theorem Reachable.currentIdle (hs : s.Reachable) : s.CurrentIdle := by
  have hboth : s.Inv ∧ s.CurrentIdle := by
    refine Lib.Runs.inv (I := fun a => a.Inv ∧ a.CurrentIdle) hs
      ⟨inv_new, fun _ hi => nomatch hi⟩ fun a e b hab _ ht => ?_
    exact ⟨hab.1.moved (step_moved ht), hab.2.moved hab.1 (step_moved ht)⟩
  exact hboth.2

theorem Unattended.ne_length (h : s.Unattended i e) : some s.slots.length ≠ some i := by
  obtain ⟨-, slot, hi, -⟩ := h
  have hlt := (List.getElem?_eq_some_iff.mp hi).1
  intro heq
  have hlen := some.inj heq
  omega

/-- The slot of engine `e` is neither current nor being closed, and the engine is open. -/
def Lost (s : ModelService) (i e : Nat) : Prop := s.currentSlot ≠ some i ∧ s.Unattended i e

theorem Lost.moved {engine : Nat} (h : s.Lost i engine) (hinv : s.Inv) {e : Event}
    (hm : s.Moved e t) : t.Lost i engine := by
  refine ⟨?_, h.2.moved hm fun _ => h.1⟩
  rcases hinv.current_moved hm with ⟨hsame, -⟩ | hnone | ⟨hnew, -⟩
  · rw [hsame]
    exact h.1
  · rw [hnone]
    exact nofun
  rw [hnew]
  exact h.2.ne_length

theorem Lost.not_lookedAfter (h : s.Lost i e) (hinv : s.Inv) : ¬ s.LookedAfter e := by
  obtain ⟨hcurrent, -, slot, hi, rfl, hunused⟩ := h
  rintro (⟨j, other, hj, hother, hengine⟩ | ⟨engine, he, hclosed⟩)
  · rw [hinv.engine_inj hi hother hengine.symm] at hcurrent
    exact hcurrent hj
  rw [hinv.engine slot (mem_of_getElem? hi), EngineSlot.state_fresh hunused] at he
  rw [← some.inj he] at hclosed
  cases hclosed

/-- **The engine of a slot that a force load replaces is lost.**  From the state on in
which `loadModelForce` installs its slot over another, the other's engine is neither
current nor closed, whatever happens next. -/
theorem replaced_engine_lost (hs : s.Reachable) {u : ModelService}
    (ht : s.step (.install c) = some t) {slot : EngineSlot} (hcurrent : s.currentSlot = some i)
    (hi : s.slots[i]? = some slot) (hu : Lib.Runs step (fun _ _ => True) t u) :
    ¬ u.LookedAfter slot.engine := by
  have hlost : t.Lost i slot.engine := by
    obtain ⟨e, hidle⟩ := hs.currentIdle i hcurrent
    have hnext := hidle.moved (step_moved ht) fun htaken => absurd htaken id
    have hne := hidle.ne_length
    obtain ⟨-, slot', hi', rfl, -⟩ := hidle
    rw [some.inj (hi'.symm.trans hi)] at hnext
    refine ⟨?_, hnext⟩
    rw [ModelService.step] at ht
    split at ht
    · rw [← some.inj ht]
      exact hne
    · cases ht
  have hboth : u.Inv ∧ u.Lost i slot.engine := by
    refine Lib.Runs.inv (I := fun a => a.Inv ∧ a.Lost i slot.engine) hu
      ⟨(Runs.inv hs).moved (step_moved ht), hlost⟩ fun a e b hab _ ht' => ?_
    exact ⟨hab.1.moved (step_moved ht'), hab.2.moved hab.1 (step_moved ht')⟩
  exact hboth.2.not_lookedAfter hboth.1

theorem second_force_load_loses : ∃ s t : ModelService,
    s.Reachable ∧ s.step (.install 1) = some t ∧ ¬ t.LookedAfter 0 := by
  have hrun : Lib.runList step newModelService
      [.load "a" true, .load "b" true, .detach 0, .detach 1, .created 0 true, .created 1 true,
        .install 0] = some _ := rfl
  have hs := Lib.Runs.of_list hrun
  exact ⟨_, _, hs, rfl, replaced_engine_lost (c := 1) (i := 0) hs rfl rfl rfl Lib.Runs.refl⟩

end DenseCore.Server.ModelService
