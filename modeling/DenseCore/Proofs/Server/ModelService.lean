/-
Leases and the closing of engines.

Nothing unmarks a slot, and a slot that is closing gets no lease, so once it has no
lease left it never has one again.  That is what a wait establishes and what the rest
of `closeEngineSlot` relies on: `Inv` says of every call where its slot stands, of
every counter which leases it counts, and of every engine that exactly one party
holds it, a load that has built it or the slot it is in, so that the slot's `Once`
alone says how often the engine was closed.
-/
import DenseCore.Server.ModelService
import DenseCore.Lib.Parts
import Mathlib.Data.List.Range

namespace DenseCore.Server.ModelService

open List EngineLease

variable {s s' : ModelService} {c i l : Nat}

/-! ### What the parties hold -/

/-- The engine a load has built and not yet installed. -/
def Call.engine : Call → List Nat
  | .swapping _ e => [e]
  | .installing _ e => [e]
  | _ => []

/-- The slot a call is closing. -/
def Call.slot : Call → Option Nat
  | .waiting i _ _ _ => some i
  | .atOnce i _ => some i
  | .inClose i _ => some i
  | _ => none

/-- The sections that take the current slot out to close it. -/
def Event.takesOut : Event → Prop
  | .swap _ => True
  | .detach _ => True
  | _ => False

/-- What a call knows of the slot it is closing. -/
def Call.Safe (slots : List EngineSlot) : Call → Prop
  | .waiting i _ signalled _ => ∃ slot, slots[i]? = some slot ∧ slot.closing = true ∧
      (signalled = true → slot.wg = 0)
  | .atOnce i _ => ∃ slot, slots[i]? = some slot ∧ slot.closing = true ∧ slot.wg = 0
  | .inClose i _ => ∃ slot, slots[i]? = some slot ∧ slot.closing = true ∧ slot.wg = 0 ∧
      slot.closeOnce ≠ .unused
  | _ => True

/-- The engine of a slot, as the slot's `Once` has it. -/
def EngineSlot.state (slot : EngineSlot) : Engine :=
  { closeCalls := if slot.closeOnce = .unused then 0 else 1
    closed := decide (slot.closeOnce = .done) }

/-- A lease on slot `i` that is not back yet. -/
def EngineLease.outstanding (i : Nat) (lease : EngineLease) : Bool :=
  lease.slot = i && lease.phase ≠ .closed

/-- A lease on slot `i` whose reference is not dropped yet. -/
def EngineLease.referring (i : Nat) (lease : EngineLease) : Bool :=
  lease.slot = i && (lease.phase = .held || lease.phase = .releasing)

/-- The engines, each with the party that holds it. -/
def owned (s : ModelService) : List Nat :=
  s.calls.flatMap Call.engine ++ s.slots.map EngineSlot.engine

/-! ### What a step can do

Each step moves at most one call, one slot and one lease. What it does to each of them is
stated once here, and the invariant is checked move by move.
-/

/-- The moves, each with what it found. -/
inductive Moved (s : ModelService) : Event → ModelService → Prop
  | begun (e : Event) (hkept : ¬ e.takesOut) (y : Call) (hengine : y.engine = [])
      (hslot : y.slot = none) (hsafe : ∀ slots, y.Safe slots) :
      Moved s e { s with calls := s.calls ++ [y] }
  | built (c : Nat) (x y : Call) (hx : s.calls[c]? = some x) (hold : x.engine = [])
      (hnew : y.engine = [s.engines.length]) (hslot : x.slot = none) (hnone : y.slot = none)
      (hsafe : ∀ slots, y.Safe slots) :
      Moved s (.created c true)
        { s.setCall c y with engines := s.engines ++ [Engine.fresh] }
  | notBuilt (c : Nat) (x y : Call) (hx : s.calls[c]? = some x) (hold : x.engine = [])
      (hnew : y.engine = []) (hslot : x.slot = none) (hnone : y.slot = none)
      (hsafe : ∀ slots, y.Safe slots) : Moved s (.created c false) (s.setCall c y)
  | swapped (c : Nat) (path : String) (engine : Nat)
      (hx : s.calls[c]? = some (.swapping path engine)) :
      Moved s (.swap c) ((s.markCurrent.putSlot path engine).setCall c
        (closeEngineSlot .background .greenLoad s.currentSlot))
  | detached (c : Nat) (x : Call) (ctx : Ctx) (next : AfterClose) (hx : s.calls[c]? = some x)
      (hold : x.engine = []) (hslot : x.slot = none) : Moved s (.detach c) (s.detach c ctx next)
  | installed (c : Nat) (path : String) (engine : Nat)
      (hx : s.calls[c]? = some (.installing path engine)) :
      Moved s (.install c) ((s.putSlot path engine).setCall c (.returned true))
  | signalled (c i : Nat) (ctx : Ctx) (signalled : Bool) (next : AfterClose) (slot : EngineSlot)
      (hx : s.calls[c]? = some (.waiting i ctx signalled next)) (hi : s.slots[i]? = some slot)
      (hwg : slot.wg = 0) : Moved s (.signal c) (s.setCall c (.waiting i ctx true next))
  | proceeded (c i : Nat) (ctx : Ctx) (next : AfterClose)
      (hx : s.calls[c]? = some (.waiting i ctx true next)) :
      Moved s (.proceed c) (s.setCall c (.atOnce i next))
  | gaveUp (c i : Nat) (signalled : Bool) (next : AfterClose)
      (hx : s.calls[c]? = some (.waiting i .cancellable signalled next)) :
      Moved s (.giveUp c) { s with
        calls := s.calls.set c (.returned false) ++ [.waiting i .background false .background] }
  | entered (c i : Nat) (next : AfterClose) (slot : EngineSlot)
      (hx : s.calls[c]? = some (.atOnce i next)) (hi : s.slots[i]? = some slot)
      (hunused : slot.closeOnce = .unused) :
      Moved s (.enterOnce c) { (s.modifySlot i (.setOnce .running)).setCall c (.inClose i next) with
        engines := s.engines.modify slot.engine fun e =>
          { e with closeCalls := e.closeCalls + 1 } }
  | passed (c i : Nat) (next : AfterClose) (slot : EngineSlot)
      (hx : s.calls[c]? = some (.atOnce i next)) (hi : s.slots[i]? = some slot)
      (hdone : slot.closeOnce = .done) : Moved s (.enterOnce c) (s.setCall c next.resume)
  | finished (c i : Nat) (next : AfterClose) (slot : EngineSlot)
      (hx : s.calls[c]? = some (.inClose i next)) (hi : s.slots[i]? = some slot) :
      Moved s (.closed c) { (s.modifySlot i (.setOnce .done)).setCall c next.resume with
        engines := s.engines.modify slot.engine fun e => { e with closed := true } }
  | granted (i : Nat) (slot : EngineSlot) (hcurrent : s.currentSlot = some i)
      (hi : s.slots[i]? = some slot) (hopen : slot.closing = false) :
      Moved s .acquire { s.modifySlot i EngineSlot.addLease with
        leases := s.leases ++ [{ engine := slot.engine, slot := i, phase := .held }] }
  /-- an acquisition that gets nothing, a repeated `Close` -/
  | nothing (e : Event) (hkept : ¬ e.takesOut) : Moved s e s
  | leaseClosing (l : Nat) (lease : EngineLease) (hl : s.leases[l]? = some lease)
      (hphase : lease.phase = .held) :
      Moved s (.closeLease l) (s.setLease l { lease with phase := .releasing })
  | refDropped (l : Nat) (lease : EngineLease) (hl : s.leases[l]? = some lease)
      (hphase : lease.phase = .releasing) :
      Moved s (.release l) ((s.modifySlot lease.slot EngineSlot.dropRef).setLease l
        { lease with phase := .dropped })
  | leaseClosed (l : Nat) (lease : EngineLease) (hl : s.leases[l]? = some lease)
      (hphase : lease.phase = .dropped) :
      Moved s (.wgDone l) ((s.modifySlot lease.slot EngineSlot.wgDone).setLease l
        { lease with phase := .closed })
  | marked : Moved s .beginShutdown s.markCurrent

theorem acquireEngineLease_moved (s : ModelService) : s.Moved .acquire s.acquireEngineLease := by
  unfold acquireEngineLease
  split
  · exact .nothing _ id
  rename_i i hi
  split
  · exact .nothing _ id
  rename_i slot hslot
  split
  · exact .nothing _ id
  rename_i hopen
  exact .granted i slot hi hslot (Bool.eq_false_iff.mpr hopen)

variable {next : AfterClose} {t : ModelService} {e : Event} {slots slots' : List EngineSlot}
  {f : EngineSlot → EngineSlot} {slot' slot : EngineSlot} {calls : List Call} {x y : Call}
  {lease : EngineLease}

theorem enterOnce_moved
    (hx : s.calls[c]? = some (.atOnce i next)) (ht : s.enterOnce c i next = some t) :
    s.Moved (.enterOnce c) t := by
  unfold enterOnce at ht
  split at ht
  · cases ht
  rename_i slot hi
  split at ht
  · rename_i hunused
    rw [← Option.some.inj ht]
    exact .entered c i next slot hx hi hunused
  · cases ht
  rename_i hdone
  rw [← Option.some.inj ht]
  exact .passed c i next slot hx hi hdone

theorem finishClose_moved
    (hx : s.calls[c]? = some (.inClose i next)) (ht : s.finishClose c i next = some t) :
    s.Moved (.closed c) t := by
  unfold finishClose at ht
  split at ht
  · cases ht
  rename_i slot hi
  rw [← Option.some.inj ht]
  exact .finished c i next slot hx hi

/-- Every step is one of the moves. -/
theorem step_moved (ht : s.step e = some t) : s.Moved e t := by
  cases e with
  | load path force =>
    rw [← Option.some.inj ht]
    cases force with
    | true => exact .begun _ id _ rfl rfl fun _ => trivial
    | false => exact .begun _ id _ rfl rfl fun _ => trivial
  | unload ctx =>
    rw [← Option.some.inj ht]
    exact .begun _ id _ rfl rfl fun _ => trivial
  | created c ok =>
    rw [ModelService.step] at ht
    split at ht
    · rename_i path hx
      cases ok with
      | true =>
        rw [← Option.some.inj ht]
        exact .built c _ _ hx rfl rfl rfl rfl fun _ => trivial
      | false =>
        rw [← Option.some.inj ht]
        exact .notBuilt c _ _ hx rfl rfl rfl rfl fun _ => trivial
    · rename_i path hx
      cases ok with
      | true =>
        rw [← Option.some.inj ht]
        exact .built c _ _ hx rfl rfl rfl rfl fun _ => trivial
      | false =>
        rw [← Option.some.inj ht]
        exact .notBuilt c _ _ hx rfl rfl rfl rfl fun _ => trivial
    · cases ht
  | swap c =>
    rw [ModelService.step] at ht
    split at ht
    · rename_i path engine hx
      rw [← Option.some.inj ht]
      exact .swapped c path engine hx
    · cases ht
  | detach c =>
    rw [ModelService.step] at ht
    split at ht
    · rename_i path hx
      rw [← Option.some.inj ht]
      exact .detached c _ _ _ hx rfl rfl
    · rename_i ctx hx
      rw [← Option.some.inj ht]
      exact .detached c _ _ _ hx rfl rfl
    · cases ht
  | install c =>
    rw [ModelService.step] at ht
    split at ht
    · rename_i path engine hx
      rw [← Option.some.inj ht]
      exact .installed c path engine hx
    · cases ht
  | signal c =>
    rw [ModelService.step] at ht
    split at ht
    · rename_i i ctx signalled next hx
      split at ht
      · rename_i slot hi
        split at ht
        · rename_i hwg
          rw [← Option.some.inj ht]
          exact .signalled c i ctx signalled next slot hx hi hwg
        · cases ht
      · cases ht
    · cases ht
  | proceed c =>
    rw [ModelService.step] at ht
    split at ht
    · rename_i i ctx next hx
      rw [← Option.some.inj ht]
      exact .proceeded c i ctx next hx
    · cases ht
  | giveUp c =>
    rw [ModelService.step] at ht
    split at ht
    · rename_i i signalled next hx
      rw [← Option.some.inj ht]
      exact .gaveUp c i signalled next hx
    · cases ht
  | enterOnce c =>
    rw [ModelService.step] at ht
    split at ht
    · rename_i i next hx
      exact enterOnce_moved hx ht
    · cases ht
  | closed c =>
    rw [ModelService.step] at ht
    split at ht
    · rename_i i next hx
      exact finishClose_moved hx ht
    · cases ht
  | acquire =>
    rw [← Option.some.inj ht]
    exact s.acquireEngineLease_moved
  | closeLease l =>
    rw [ModelService.step] at ht
    split at ht
    · rename_i lease hl
      split at ht
      · rename_i hphase
        rw [← Option.some.inj ht]
        exact .leaseClosing l lease hl hphase
      rw [← Option.some.inj ht]
      exact .nothing _ id
    · cases ht
  | release l =>
    rw [ModelService.step] at ht
    split at ht
    · rename_i lease hl
      split at ht
      · rename_i hphase
        rw [← Option.some.inj ht]
        exact .refDropped l lease hl hphase
      · cases ht
    · cases ht
  | wgDone l =>
    rw [ModelService.step] at ht
    split at ht
    · rename_i lease hl
      split at ht
      · rename_i hphase
        rw [← Option.some.inj ht]
        exact .leaseClosed l lease hl hphase
      · cases ht
    · cases ht
  | beginShutdown =>
    rw [← Option.some.inj ht]
    exact .marked

/-! ### The invariant -/

/-- What holds in every reachable state of the service. -/
structure Inv (s : ModelService) : Prop where
  current : ∀ i, s.currentSlot = some i → i < s.slots.length
  owned : s.owned.Perm (range s.engines.length)
  /-- an engine that is not installed is not closed -/
  built : ∀ call ∈ s.calls, ∀ e ∈ call.engine, s.engines[e]? = some Engine.fresh
  engine : ∀ slot ∈ s.slots, s.engines[slot.engine]? = some slot.state
  /-- a slot's engine is closed after its leases are back -/
  quiet : ∀ slot ∈ s.slots, slot.closeOnce ≠ .unused → slot.closing = true ∧ slot.wg = 0
  safe : ∀ call ∈ s.calls, call.Safe s.slots
  wg : ∀ i (slot : EngineSlot), s.slots[i]? = some slot → slot.wg = s.leases.countP (outstanding i)
  refs : ∀ i (slot : EngineSlot), s.slots[i]? = some slot →
    slot.refCount = s.leases.countP (referring i)
  lease : ∀ lease ∈ s.leases, ∃ slot, s.slots[lease.slot]? = some slot ∧ slot.engine = lease.engine

theorem inv_new : Inv newModelService where
  current := fun _ h => nomatch h
  owned := Perm.refl _
  built := fun _ h => nomatch h
  engine := fun _ h => nomatch h
  quiet := fun _ h => nomatch h
  safe := fun _ h => nomatch h
  wg := fun _ _ h => nomatch h
  refs := fun _ _ h => nomatch h
  lease := fun _ h => nomatch h

/-! ### Slots only move one way -/

/-- What later slots keep of earlier ones: marks, and what a call may know. -/
def Keeps (slots slots' : List EngineSlot) : Prop :=
  ∀ (i : Nat) (slot : EngineSlot), slots[i]? = some slot → ∃ slot' : EngineSlot,
    slots'[i]? = some slot' ∧ slot'.engine = slot.engine ∧
    (slot.closing = true → slot'.closing = true ∧ (slot.wg = 0 → slot'.wg = 0)) ∧
    (slot.closeOnce ≠ .unused → slot'.closeOnce ≠ .unused)

theorem Keeps.refl (slots : List EngineSlot) : Keeps slots slots :=
  fun _ slot h => ⟨slot, h, rfl, fun hc => ⟨hc, id⟩, id⟩

theorem Keeps.append (slots new : List EngineSlot) : Keeps slots (slots ++ new) := by
  intro i slot hi
  refine ⟨slot, ?_, rfl, fun hc => ⟨hc, id⟩, id⟩
  rw [getElem?_append_left (List.getElem?_eq_some_iff.mp hi).1]
  exact hi

theorem getElem?_modify_cases {j : Nat} (h : (slots.modify i f)[j]? = some slot') :
    ∃ slot, slots[j]? = some slot ∧ slot' = if i = j then f slot else slot := by
  rw [getElem?_modify] at h
  obtain ⟨slot, hslot, heq⟩ := Option.map_eq_some_iff.mp h
  refine ⟨slot, hslot, ?_⟩
  exact heq.symm

theorem mem_modify_cases (h : slot' ∈ slots.modify i f) :
    slot' ∈ slots ∨ ∃ slot, slots[i]? = some slot ∧ slot' = f slot := by
  obtain ⟨j, hj⟩ := mem_iff_getElem?.mp h
  obtain ⟨slot, hslot, heq⟩ := getElem?_modify_cases hj
  by_cases hij : i = j
  · rw [if_pos hij] at heq
    exact Or.inr ⟨slot, hij ▸ hslot, heq⟩
  rw [if_neg hij] at heq
  exact Or.inl (heq ▸ mem_of_getElem? hslot)

theorem Keeps.modify (hi : slots[i]? = some slot) (hengine : (f slot).engine = slot.engine)
    (hclosing : slot.closing = true → (f slot).closing = true ∧ (slot.wg = 0 → (f slot).wg = 0))
    (honce : slot.closeOnce ≠ .unused → (f slot).closeOnce ≠ .unused) :
    Keeps slots (slots.modify i f) := by
  intro j slot' hj
  by_cases hij : i = j
  · subst hij
    have heq : slot' = slot := Option.some.inj (hj.symm.trans hi)
    rw [getElem?_modify_eq, hj, heq]
    exact ⟨f slot, rfl, hengine, hclosing, honce⟩
  rw [getElem?_modify_ne f slots hij, hj]
  exact ⟨slot', rfl, rfl, fun hc => ⟨hc, id⟩, id⟩

theorem Call.Safe.mono (hkeeps : Keeps slots slots') {call : Call}
    (h : call.Safe slots) : call.Safe slots' := by
  cases call with
  | waiting i ctx signalled next =>
    obtain ⟨slot, hi, hc, hwg⟩ := h
    obtain ⟨slot', hi', -, hclosing, -⟩ := hkeeps i slot hi
    exact ⟨slot', hi', (hclosing hc).1, fun hs => (hclosing hc).2 (hwg hs)⟩
  | atOnce i next =>
    obtain ⟨slot, hi, hc, hwg⟩ := h
    obtain ⟨slot', hi', -, hclosing, -⟩ := hkeeps i slot hi
    exact ⟨slot', hi', (hclosing hc).1, (hclosing hc).2 hwg⟩
  | inClose i next =>
    obtain ⟨slot, hi, hc, hwg, ho⟩ := h
    obtain ⟨slot', hi', -, hclosing, honce⟩ := hkeeps i slot hi
    exact ⟨slot', hi', (hclosing hc).1, (hclosing hc).2 hwg, honce ho⟩
  | _ => trivial

@[simp] theorem AfterClose.resume_engine (next : AfterClose) : next.resume.engine = [] := by
  cases next <;> rfl

theorem AfterClose.resume_safe (next : AfterClose) (slots : List EngineSlot) :
    next.resume.Safe slots := by
  cases next <;> trivial

@[simp] theorem closeEngineSlot_engine (ctx : Ctx) (next : AfterClose) (o : Option Nat) :
    (closeEngineSlot ctx next o).engine = [] := by
  cases o with
  | none => exact next.resume_engine
  | some i => rfl

/-! ### The moves of a call -/

theorem owned_moved (hx : calls[c]? = some x) (y : Call)
    {held held' : List Nat} (h : (x.engine ++ held).Perm (y.engine ++ held')) :
    (calls.flatMap Call.engine ++ held).Perm ((calls.set c y).flatMap Call.engine ++ held') := by
  have hold := (Lib.flatMap_perm_of_getElem Call.engine hx).append_right held
  have hnew := (Lib.flatMap_set_perm Call.engine hx y).append_right held'
  refine hold.trans (Perm.trans ?_ hnew.symm)
  calc (x.engine ++ (calls.eraseIdx c).flatMap Call.engine ++ held).Perm _ :=
        (perm_append_comm.append_right held)
    _ = _ := append_assoc _ _ _
    Perm _ _ := h.append_left _
    _ = _ := (append_assoc _ _ _).symm
    Perm _ (y.engine ++ (calls.eraseIdx c).flatMap Call.engine ++ held') :=
        (perm_append_comm.append_right held')

theorem safe_set
    (h : ∀ call ∈ calls, call.Safe slots) (hkeeps : Keeps slots slots') (hy : y.Safe slots') :
    ∀ call ∈ calls.set c y, call.Safe slots' := by
  intro call hcall
  rcases mem_or_eq_of_mem_set hcall with hold | rfl
  · exact (h call hold).mono hkeeps
  · exact hy

theorem built_set {engines : List Engine}
    (h : ∀ call ∈ calls, ∀ e ∈ call.engine, engines[e]? = some Engine.fresh)
    (hy : ∀ e ∈ y.engine, engines[e]? = some Engine.fresh) :
    ∀ call ∈ calls.set c y, ∀ e ∈ call.engine, engines[e]? = some Engine.fresh := by
  intro call hcall e he
  rcases mem_or_eq_of_mem_set hcall with hold | rfl
  · exact h call hold e he
  · exact hy e he

theorem lease_keeps {leases : List EngineLease}
    (h : ∀ lease ∈ leases, ∃ slot, slots[lease.slot]? = some slot ∧ slot.engine = lease.engine)
    (hkeeps : Keeps slots slots') :
    ∀ lease ∈ leases, ∃ slot, slots'[lease.slot]? = some slot ∧ slot.engine = lease.engine := by
  intro lease hlease
  obtain ⟨slot, hslot, hengine⟩ := h lease hlease
  obtain ⟨slot', hslot', hengine', -⟩ := hkeeps _ _ hslot
  exact ⟨slot', hslot', hengine'.trans hengine⟩

theorem Inv.setCall (h : s.Inv) (hx : s.calls[c]? = some x)
    (hengine : y.engine = x.engine) (hsafe : y.Safe s.slots) : (s.setCall c y).Inv where
  current := h.current
  owned := by
    refine (owned_moved hx y ?_).symm.trans h.owned
    rw [hengine]
    exact Perm.refl _
  built := built_set h.built (hengine ▸ h.built x (mem_of_getElem? hx))
  engine := h.engine
  quiet := h.quiet
  safe := safe_set h.safe (Keeps.refl _) hsafe
  wg := h.wg
  refs := h.refs
  lease := h.lease

theorem Inv.addCall (h : s.Inv) (hengine : y.engine = []) (hsafe : y.Safe s.slots) :
    Inv { s with calls := s.calls ++ [y] } where
  current := h.current
  owned := by
    unfold ModelService.owned
    rw [Lib.flatMap_append_singleton, hengine, append_nil]
    exact h.owned
  built := by
    intro call hcall e he
    rcases mem_append.mp hcall with hold | hnew
    · exact h.built call hold e he
    rw [mem_singleton.mp hnew, hengine] at he
    cases he
  engine := h.engine
  quiet := h.quiet
  safe := by
    intro call hcall
    rcases mem_append.mp hcall with hold | hnew
    · exact h.safe call hold
    rw [mem_singleton.mp hnew]
    exact hsafe
  wg := h.wg
  refs := h.refs
  lease := h.lease

/-- `NewDenseEngine` returns an engine. -/
theorem Inv.create (h : s.Inv) (hx : s.calls[c]? = some x) (hold : x.engine = [])
    (hnew : y.engine = [s.engines.length]) (hsafe : y.Safe s.slots) :
    Inv { s.setCall c y with engines := s.engines ++ [Engine.fresh] } where
  current := h.current
  owned := by
    show Perm _ (range (s.engines ++ [Engine.fresh]).length)
    rw [length_append, length_singleton, range_succ]
    have hswap : (x.engine ++ (s.slots.map EngineSlot.engine ++ [s.engines.length])).Perm
        (y.engine ++ s.slots.map EngineSlot.engine) := by
      rw [hold, hnew]
      exact perm_append_singleton _ _
    have hmoved := owned_moved hx y hswap
    rw [← append_assoc] at hmoved
    exact hmoved.symm.trans (h.owned.append_right _)
  built := by
    refine built_set (fun call hcall e he => ?_) (fun e he => ?_)
    · exact Lib.getElem?_append_of_some (h.built call hcall e he) _
    rw [hnew] at he
    rw [mem_singleton.mp he]
    exact getElem?_concat_length
  engine := fun slot hslot => Lib.getElem?_append_of_some (h.engine slot hslot) _
  quiet := h.quiet
  safe := safe_set h.safe (Keeps.refl _) hsafe
  wg := h.wg
  refs := h.refs
  lease := h.lease

/-! ### The moves of the slots -/

theorem map_engine_modify (slots : List EngineSlot) (i : Nat)
    (hf : ∀ slot, (f slot).engine = slot.engine) :
    (slots.modify i f).map EngineSlot.engine = slots.map EngineSlot.engine := by
  refine ext_getElem? fun j => ?_
  rw [getElem?_map, getElem?_map, getElem?_modify]
  cases slots[j]? with
  | none => rfl
  | some slot =>
    show some (EngineSlot.engine (if i = j then f slot else slot)) = some slot.engine
    split
    · rw [hf]
    · rfl

theorem keeps_markClosing
    (hi : slots[i]? = some slot) : Keeps slots (slots.modify i EngineSlot.markClosing) :=
  Keeps.modify hi rfl (fun _ => ⟨rfl, id⟩) id

/-- A slot is marked as closing. -/
theorem Inv.mark (h : s.Inv) (hi : s.slots[i]? = some slot) :
    (s.modifySlot i EngineSlot.markClosing).Inv where
  current := by
    intro j hj
    show j < (s.slots.modify i EngineSlot.markClosing).length
    rw [length_modify]
    exact h.current j hj
  owned := by
    show Perm (_ ++ (s.slots.modify i EngineSlot.markClosing).map _) _
    rw [map_engine_modify s.slots i (f := EngineSlot.markClosing) fun _ => rfl]
    exact h.owned
  built := h.built
  engine := by
    intro slot hslot
    rcases mem_modify_cases hslot with hold | ⟨slot', hslot', rfl⟩
    · exact h.engine slot hold
    · exact h.engine slot' (mem_of_getElem? hslot')
  quiet := by
    intro slot hslot ho
    rcases mem_modify_cases hslot with hold | ⟨slot', hslot', rfl⟩
    · exact h.quiet slot hold ho
    · exact ⟨rfl, (h.quiet slot' (mem_of_getElem? hslot') ho).2⟩
  safe := fun call hcall => (h.safe call hcall).mono (keeps_markClosing hi)
  wg := by
    intro j slot hslot
    obtain ⟨slot', hslot', rfl⟩ := getElem?_modify_cases hslot
    refine Eq.trans ?_ (h.wg j slot' hslot')
    split <;> rfl
  refs := by
    intro j slot hslot
    obtain ⟨slot', hslot', rfl⟩ := getElem?_modify_cases hslot
    refine Eq.trans ?_ (h.refs j slot' hslot')
    split <;> rfl
  lease := lease_keeps h.lease (keeps_markClosing hi)

theorem Inv.markCurrent (h : s.Inv) : s.markCurrent.Inv := by
  unfold ModelService.markCurrent
  cases hcur : s.currentSlot with
  | none => exact h
  | some i => exact h.mark (getElem?_eq_getElem (h.current i hcur))

theorem Inv.safe_closeEngineSlot (h : s.Inv) (ctx : Ctx) (next : AfterClose) :
    (closeEngineSlot ctx next s.currentSlot).Safe s.markCurrent.slots := by
  unfold ModelService.markCurrent
  cases hcur : s.currentSlot with
  | none => exact next.resume_safe _
  | some i =>
    have hlt := h.current i hcur
    refine ⟨EngineSlot.markClosing s.slots[i], ?_, rfl, fun hs => nomatch hs⟩
    show (s.slots.modify i _)[i]? = _
    rw [getElem?_modify_eq, getElem?_eq_getElem hlt]
    rfl

theorem markCurrent_calls (s : ModelService) : s.markCurrent.calls = s.calls := by
  unfold markCurrent
  split <;> rfl

theorem Inv.detach (h : s.Inv) (hx : s.calls[c]? = some x) (hengine : x.engine = [])
    (ctx : Ctx) (next : AfterClose) : (s.detach c ctx next).Inv := by
  have hmoved := h.markCurrent.setCall (c := c) (x := x)
    (by rw [markCurrent_calls]; exact hx)
    ((closeEngineSlot_engine ctx next s.currentSlot).trans hengine.symm)
    (h.safe_closeEngineSlot ctx next)
  exact { hmoved with current := fun _ hc => nomatch hc }

theorem Inv.countP_new (h : s.Inv) (p : Nat → EngineLease → Bool)
    (hp : ∀ lease, p s.slots.length lease = true → lease.slot = s.slots.length) :
    s.leases.countP (p s.slots.length) = 0 := by
  rw [countP_eq_zero]
  intro lease hlease hcount
  obtain ⟨slot, hslot, -⟩ := h.lease lease hlease
  have hlt := (List.getElem?_eq_some_iff.mp hslot).1
  have heq := hp lease hcount
  omega

/-- A call that has loaded an engine puts it into a slot. -/
theorem Inv.putSlot (h : s.Inv) {e : Nat} (path : String)
    (hx : s.calls[c]? = some x) (hold : x.engine = [e]) (hnew : y.engine = [])
    (hsafe : y.Safe s.slots) : ((s.putSlot path e).setCall c y).Inv where
  current := by
    intro i hi
    show i < (s.slots ++ [EngineSlot.new e]).length
    rw [length_append, length_singleton, ← Option.some.inj hi]
    exact Nat.lt_succ_self _
  owned := by
    refine (owned_moved hx y ?_).symm.trans h.owned
    rw [hold, hnew]
    show Perm _ ((s.slots ++ [EngineSlot.new e]).map EngineSlot.engine)
    rw [map_append]
    exact perm_append_comm
  built := built_set h.built (by rw [hnew]; exact fun _ he => nomatch he)
  engine := by
    intro slot hslot
    rcases mem_append.mp hslot with hmem | hmem
    · exact h.engine slot hmem
    rw [mem_singleton.mp hmem]
    exact h.built x (mem_of_getElem? hx) e (hold ▸ mem_singleton_self e)
  quiet := by
    intro slot hslot ho
    rcases mem_append.mp hslot with hmem | hmem
    · exact h.quiet slot hmem ho
    rw [mem_singleton.mp hmem] at ho
    exact absurd rfl ho
  safe := safe_set h.safe (Keeps.append _ _) (hsafe.mono (Keeps.append _ _))
  wg := by
    intro j slot hslot
    rcases Lib.getElem?_concat_cases hslot with hmem | ⟨rfl, rfl⟩
    · exact h.wg j slot hmem
    show (0 : Int) = ((s.leases.countP (outstanding s.slots.length) : Nat) : Int)
    rw [h.countP_new outstanding (by simp +contextual [outstanding])]
    rfl
  refs := by
    intro j slot hslot
    rcases Lib.getElem?_concat_cases hslot with hmem | ⟨rfl, rfl⟩
    · exact h.refs j slot hmem
    show (0 : Int) = ((s.leases.countP (referring s.slots.length) : Nat) : Int)
    rw [h.countP_new referring (by simp +contextual [referring])]
    rfl
  lease := lease_keeps h.lease (Keeps.append _ _)

/-! ### The moves of the leases -/

/-- A move of one lease and its slot, with the counts brought into step. -/
theorem Inv.moveLease (h : s.Inv) (leases : List EngineLease)
    (hi : s.slots[i]? = some slot) (hengine : ∀ x, (f x).engine = x.engine)
    (hclosing : ∀ x, (f x).closing = x.closing) (honce : ∀ x, (f x).closeOnce = x.closeOnce)
    (hzero : slot.closing = true → slot.wg = 0 → (f slot).wg = 0)
    (hwg : ∀ j x, s.slots[j]? = some x → (if i = j then f x else x).wg =
      leases.countP (outstanding j))
    (hrefs : ∀ j x, s.slots[j]? = some x → (if i = j then f x else x).refCount =
      leases.countP (referring j))
    (hlease : ∀ lease ∈ leases, ∃ x, s.slots[lease.slot]? = some x ∧ x.engine = lease.engine) :
    Inv { s.modifySlot i f with leases := leases } := by
  have hkeeps : Keeps s.slots (s.slots.modify i f) := by
    refine Keeps.modify hi (hengine slot) (fun hc => ⟨(hclosing slot).trans hc, hzero hc⟩) ?_
    rw [honce]
    exact id
  exact
    { current := fun j hj => by
        show j < (s.slots.modify i f).length
        rw [length_modify]
        exact h.current j hj
      owned := by
        show Perm (_ ++ (s.slots.modify i f).map _) _
        rw [map_engine_modify s.slots i hengine]
        exact h.owned
      built := h.built
      engine := fun x hx => by
        rcases mem_modify_cases hx with hold | ⟨x', hx', rfl⟩
        · exact h.engine x hold
        have hstate : (f x').state = x'.state := by
          unfold EngineSlot.state
          rw [honce]
        rw [hengine, hstate]
        exact h.engine x' (mem_of_getElem? hx')
      quiet := fun x hx ho => by
        rcases mem_modify_cases hx with hold | ⟨x', hx', rfl⟩
        · exact h.quiet x hold ho
        rw [honce] at ho
        obtain ⟨hc, hw⟩ := h.quiet x' (mem_of_getElem? hx') ho
        have heq : x' = slot := Option.some.inj (hx'.symm.trans hi)
        rw [hclosing]
        exact ⟨hc, heq ▸ hzero (heq ▸ hc) (heq ▸ hw)⟩
      safe := fun call hcall => (h.safe call hcall).mono hkeeps
      wg := fun j x hx => by
        obtain ⟨x', hx', rfl⟩ := getElem?_modify_cases hx
        exact hwg j x' hx'
      refs := fun j x hx => by
        obtain ⟨x', hx', rfl⟩ := getElem?_modify_cases hx
        exact hrefs j x' hx'
      lease := lease_keeps hlease hkeeps }

theorem lease_set {leases : List EngineLease}
    (h : ∀ lease ∈ leases, ∃ slot, slots[lease.slot]? = some slot ∧ slot.engine = lease.engine)
    (hl : leases[l]? = some lease) (phase : LeasePhase) :
    ∀ x ∈ leases.set l { lease with phase := phase }, ∃ slot, slots[x.slot]? = some slot ∧
      slot.engine = x.engine := by
  intro x hx
  rcases mem_or_eq_of_mem_set hx with hold | rfl
  · exact h x hold
  · exact h lease (mem_of_getElem? hl)

theorem Inv.closeLease (h : s.Inv) (hl : s.leases[l]? = some lease) (hphase : lease.phase = .held) :
    (s.setLease l { lease with phase := .releasing }).Inv := by
  have hsame : ∀ p : EngineLease → Bool, p { lease with phase := .releasing } = p lease →
      (s.leases.set l { lease with phase := .releasing }).countP p = s.leases.countP p := by
    intro p hp
    have hcount := Lib.countP_set_add p hl { lease with phase := .releasing }
    rw [hp] at hcount
    omega
  exact
    { h with
      wg := fun j slot hslot => by
        show slot.wg = (((s.leases.set l _).countP (outstanding j) : Nat) : Int)
        rw [hsame _ (by simp [outstanding, hphase])]
        exact h.wg j slot hslot
      refs := fun j slot hslot => by
        show slot.refCount = (((s.leases.set l _).countP (referring j) : Nat) : Int)
        rw [hsame _ (by simp [referring, hphase])]
        exact h.refs j slot hslot
      lease := lease_set h.lease hl .releasing }

theorem Inv.release (h : s.Inv) (hl : s.leases[l]? = some lease)
    (hphase : lease.phase = .releasing) :
    ((s.modifySlot lease.slot EngineSlot.dropRef).setLease l
      { lease with phase := .dropped }).Inv := by
  obtain ⟨slot, hslot, -⟩ := h.lease lease (mem_of_getElem? hl)
  refine h.moveLease (s.leases.set l { lease with phase := .dropped }) (f := EngineSlot.dropRef)
    hslot (fun _ => rfl) (fun _ => rfl) (fun _ => rfl)
    (fun _ hw => hw) ?_ ?_ (lease_set h.lease hl .dropped)
  · intro j x hx
    have hcount := Lib.countP_set_add (outstanding j) hl
      { lease with phase := .dropped }
    have hsame : outstanding j { lease with phase := .dropped } = outstanding j lease := by
      simp [outstanding, hphase]
    rw [hsame] at hcount
    rw [Nat.add_right_cancel hcount, ← h.wg j x hx]
    split <;> rfl
  intro j x hx
  have hcount := Lib.countP_set_add (referring j) hl
    { lease with phase := .dropped }
  have hrefs := h.refs j x hx
  by_cases hj : lease.slot = j
  · subst hj
    simp [referring, hphase] at hcount
    rw [if_pos rfl]
    show x.refCount - 1 = _
    omega
  simp [referring, hj] at hcount
  rw [if_neg hj, hrefs, hcount]

theorem Inv.wgDone (h : s.Inv) (hl : s.leases[l]? = some lease) (hphase : lease.phase = .dropped) :
    ((s.modifySlot lease.slot EngineSlot.wgDone).setLease l
      { lease with phase := .closed }).Inv := by
  obtain ⟨slot, hslot, -⟩ := h.lease lease (mem_of_getElem? hl)
  have hout := Lib.countP_set_add (outstanding lease.slot) hl
    { lease with phase := .closed }
  simp [outstanding, hphase] at hout
  have hwg := h.wg lease.slot slot hslot
  refine h.moveLease (s.leases.set l { lease with phase := .closed }) (f := EngineSlot.wgDone)
    hslot (fun _ => rfl) (fun _ => rfl) (fun _ => rfl)
    ?_ ?_ ?_ (lease_set h.lease hl .closed)
  · -- the lease itself is counted, so the counter is not zero
    intro _ hzero
    omega
  · intro j x hx
    have hcount := Lib.countP_set_add (outstanding j) hl
      { lease with phase := .closed }
    have hwg := h.wg j x hx
    by_cases hj : lease.slot = j
    · subst hj
      simp [outstanding, hphase] at hcount
      rw [if_pos rfl]
      show x.wg - 1 = _
      omega
    simp [outstanding, hj] at hcount
    rw [if_neg hj, hwg, hcount]
  intro j x hx
  have hcount := Lib.countP_set_add (referring j) hl
    { lease with phase := .closed }
  have hsame : referring j { lease with phase := .closed } = referring j lease := by
    simp [referring, hphase]
  rw [hsame] at hcount
  rw [Nat.add_right_cancel hcount, ← h.refs j x hx]
  split <;> rfl

theorem Inv.granted (h : s.Inv) (hi : s.slots[i]? = some slot) (hopen : slot.closing = false) :
    Inv { s.modifySlot i EngineSlot.addLease with
      leases := s.leases ++ [{ engine := slot.engine, slot := i, phase := .held }] } := by
  refine h.moveLease (s.leases ++ [{ engine := slot.engine, slot := i, phase := .held }])
    (f := EngineSlot.addLease) hi (fun _ => rfl) (fun _ => rfl) (fun _ => rfl) ?_ ?_ ?_ ?_
  · intro hc
    exact absurd hc (Bool.eq_false_iff.mp hopen)
  · intro j x hx
    have hwg := h.wg j x hx
    rw [countP_append, countP_singleton]
    by_cases hj : i = j
    · rw [if_pos hj, if_pos (by simp [outstanding, hj])]
      show x.wg + 1 = _
      omega
    rw [if_neg hj, if_neg (by simp [outstanding, hj])]
    exact hwg
  · intro j x hx
    have hrefs := h.refs j x hx
    rw [countP_append, countP_singleton]
    by_cases hj : i = j
    · rw [if_pos hj, if_pos (by simp [referring, hj])]
      show x.refCount + 1 = _
      omega
    rw [if_neg hj, if_neg (by simp [referring, hj])]
    exact hrefs
  intro lease hlease
  rcases mem_append.mp hlease with hold | hnew
  · exact h.lease lease hold
  rw [mem_singleton.mp hnew]
  exact ⟨slot, hi, rfl⟩

/-! ### The moves of the engines -/

theorem Inv.engine_inj (h : s.Inv) {j : Nat}
    (hi : s.slots[i]? = some slot) (hj : s.slots[j]? = some slot')
    (heq : slot.engine = slot'.engine) : i = j := by
  have hnodup : (s.slots.map EngineSlot.engine).Nodup :=
    ((h.owned.nodup_iff.mpr nodup_range).sublist (sublist_append_right _ _))
  have hlt : i < (s.slots.map EngineSlot.engine).length := by
    rw [length_map]
    exact (List.getElem?_eq_some_iff.mp hi).1
  refine (getElem?_inj hlt hnodup).mp ?_
  rw [getElem?_map, getElem?_map, hi, hj]
  exact congrArg some heq

theorem Inv.engine_ne (h : s.Inv) {call : Call} {e : Nat}
    (hcall : call ∈ s.calls) (he : e ∈ call.engine) (hslot : slot ∈ s.slots) :
    e ≠ slot.engine := by
  rintro rfl
  have hnodup := h.owned.nodup_iff.mpr nodup_range
  exact (disjoint_of_nodup_append hnodup) (mem_flatMap.mpr ⟨call, hcall, he⟩)
    (mem_map_of_mem hslot)

/-- A call steps into or out of the engine's `Close`. -/
theorem Inv.moveOnce (h : s.Inv) {o : Once}
    {g : Engine → Engine} (hx : s.calls[c]? = some x) (hi : s.slots[i]? = some slot)
    (hold : x.engine = []) (hnew : y.engine = []) (hclosing : slot.closing = true)
    (hwg : slot.wg = 0) (ho : o ≠ .unused) (hg : g slot.state = (slot.setOnce o).state)
    (hsafe : y.Safe (s.slots.modify i (.setOnce o))) :
    Inv { (s.modifySlot i (.setOnce o)).setCall c y with
      engines := s.engines.modify slot.engine g } := by
  have hkeeps : Keeps s.slots (s.slots.modify i (.setOnce o)) :=
    Keeps.modify hi rfl (fun hc => ⟨hc, id⟩) fun _ => ho
  exact
    { current := fun j hj => by
        show j < (s.slots.modify i _).length
        rw [length_modify]
        exact h.current j hj
      owned := by
        show Perm (_ ++ (s.slots.modify i (.setOnce o)).map _)
          (range (s.engines.modify slot.engine g).length)
        rw [map_engine_modify s.slots i (f := .setOnce o) fun _ => rfl, length_modify]
        refine (owned_moved hx y ?_).symm.trans h.owned
        rw [hold, hnew]
      built := by
        refine built_set (fun call hcall e he => ?_) (by rw [hnew]; exact fun _ he => nomatch he)
        have hne := h.engine_ne hcall he (mem_of_getElem? hi)
        show (s.engines.modify slot.engine g)[e]? = _
        rw [getElem?_modify_ne g _ (Ne.symm hne)]
        exact h.built call hcall e he
      engine := fun z hz => by
        obtain ⟨j, hj⟩ := mem_iff_getElem?.mp hz
        obtain ⟨z', hz', rfl⟩ := getElem?_modify_cases hj
        have hengine := h.engine z' (mem_of_getElem? hz')
        show (s.engines.modify slot.engine g)[_]? = _
        by_cases hij : i = j
        · have heq : z' = slot := Option.some.inj (hz'.symm.trans (hij ▸ hi))
          rw [if_pos hij, heq]
          show (s.engines.modify slot.engine g)[slot.engine]? = _
          rw [getElem?_modify_eq, h.engine slot (mem_of_getElem? hi)]
          exact congrArg some hg
        rw [if_neg hij, getElem?_modify_ne g _ fun he => hij (h.engine_inj hi hz' he)]
        exact hengine
      quiet := fun z hz hused => by
        rcases mem_modify_cases hz with hmem | ⟨z', hz', rfl⟩
        · exact h.quiet z hmem hused
        have heq : z' = slot := Option.some.inj (hz'.symm.trans hi)
        rw [heq]
        exact ⟨hclosing, hwg⟩
      safe := safe_set h.safe hkeeps hsafe
      wg := fun j z hz => by
        obtain ⟨z', hz', rfl⟩ := getElem?_modify_cases hz
        refine Eq.trans ?_ (h.wg j z' hz')
        split <;> rfl
      refs := fun j z hz => by
        obtain ⟨z', hz', rfl⟩ := getElem?_modify_cases hz
        refine Eq.trans ?_ (h.refs j z' hz')
        split <;> rfl
      lease := lease_keeps h.lease hkeeps }

theorem Inv.entered (h : s.Inv)
    (hx : s.calls[c]? = some (.atOnce i next)) (hi : s.slots[i]? = some slot)
    (hunused : slot.closeOnce = .unused) :
    Inv { (s.modifySlot i (.setOnce .running)).setCall c (.inClose i next) with
      engines := s.engines.modify slot.engine fun e =>
        { e with closeCalls := e.closeCalls + 1 } } := by
  obtain ⟨slot', hi', hclosing, hwg⟩ := h.safe _ (mem_of_getElem? hx)
  have heq : slot' = slot := Option.some.inj (hi'.symm.trans hi)
  subst heq
  refine h.moveOnce hx hi rfl rfl hclosing hwg (by simp) ?_
    ⟨slot'.setOnce .running, ?_, hclosing, hwg, by simp [EngineSlot.setOnce]⟩
  · simp [EngineSlot.state, EngineSlot.setOnce, hunused]
  rw [getElem?_modify_eq, hi]
  rfl

theorem Inv.finished (h : s.Inv)
    (hx : s.calls[c]? = some (.inClose i next)) (hi : s.slots[i]? = some slot) :
    Inv { (s.modifySlot i (.setOnce .done)).setCall c next.resume with
      engines := s.engines.modify slot.engine fun e => { e with closed := true } } := by
  obtain ⟨slot', hi', hclosing, hwg, hused⟩ := h.safe _ (mem_of_getElem? hx)
  have heq : slot' = slot := Option.some.inj (hi'.symm.trans hi)
  subst heq
  refine h.moveOnce hx hi rfl next.resume_engine hclosing hwg (by simp) ?_ (next.resume_safe _)
  simp [EngineSlot.state, EngineSlot.setOnce, hused]

/-! ### Every step keeps the invariant -/

theorem Inv.moved (h : s.Inv) (hm : s.Moved e t) : t.Inv := by
  cases hm with
  | begun e hkept y hengine hslot hsafe => exact h.addCall hengine (hsafe _)
  | built c x y hx hold hnew hslot hnone hsafe => exact h.create hx hold hnew (hsafe _)
  | notBuilt c x y hx hold hnew hslot hnone hsafe =>
    exact h.setCall hx (hnew.trans hold.symm) (hsafe _)
  | swapped c path engine hx =>
    exact h.markCurrent.putSlot path (by rw [markCurrent_calls]; exact hx) rfl
      (closeEngineSlot_engine _ _ _) (h.safe_closeEngineSlot _ _)
  | detached c x ctx next hx hold hslot => exact h.detach hx hold _ _
  | installed c path engine hx => exact h.putSlot path hx rfl rfl trivial
  | signalled c i ctx signalled next slot hx hi hwg =>
    obtain ⟨slot', hi', hclosing, -⟩ := h.safe _ (mem_of_getElem? hx)
    have heq : slot' = slot := Option.some.inj (hi'.symm.trans hi)
    exact h.setCall hx rfl ⟨slot, hi, heq ▸ hclosing, fun _ => hwg⟩
  | proceeded c i ctx next hx =>
    obtain ⟨slot, hi, hclosing, hwg⟩ := h.safe _ (mem_of_getElem? hx)
    exact h.setCall hx rfl ⟨slot, hi, hclosing, hwg rfl⟩
  | gaveUp c i signalled next hx =>
    obtain ⟨slot, hi, hclosing, -⟩ := h.safe _ (mem_of_getElem? hx)
    have hreturned := h.setCall (y := .returned false) hx rfl trivial
    exact hreturned.addCall rfl ⟨slot, hi, hclosing, fun hs => nomatch hs⟩
  | entered c i next slot hx hi hunused => exact h.entered hx hi hunused
  | passed c i next slot hx hi hdone =>
    exact h.setCall hx next.resume_engine (next.resume_safe _)
  | finished c i next slot hx hi => exact h.finished hx hi
  | granted i slot hcurrent hi hopen => exact h.granted hi hopen
  | nothing => exact h
  | leaseClosing l lease hl hphase => exact h.closeLease hl hphase
  | refDropped l lease hl hphase => exact h.release hl hphase
  | leaseClosed l lease hl hphase => exact h.wgDone hl hphase
  | marked => exact h.markCurrent

theorem Runs.inv {ok : ModelService → Event → Prop}
    (hs : Lib.Runs step ok newModelService s) : s.Inv :=
  Lib.Runs.inv hs inv_new fun _ _ _ h _ ht => h.moved (step_moved ht)

/-! ### Leases are safe

A lease that is held keeps the count of its slot above zero, and an engine is closed only
after the count has come down to zero.
-/

theorem EngineSlot.state_closeCalls_le (slot : EngineSlot) : slot.state.closeCalls ≤ 1 := by
  unfold EngineSlot.state
  dsimp only
  split
  · exact Nat.zero_le 1
  · exact Nat.le_refl 1

theorem EngineSlot.state_fresh (h : slot.closeOnce = .unused) : slot.state = Engine.fresh := by
  unfold EngineSlot.state
  rw [h]
  rfl

theorem Inv.engine_cases (h : s.Inv) {e : Nat} (he : e < s.engines.length) :
    s.engines[e]? = some Engine.fresh ∧ (∃ call ∈ s.calls, e ∈ call.engine) ∨
      ∃ (i : Nat) (slot : EngineSlot), s.slots[i]? = some slot ∧ slot.engine = e ∧
        s.engines[e]? = some slot.state := by
  have howned : e ∈ s.owned := h.owned.mem_iff.mpr (mem_range.mpr he)
  rcases mem_append.mp howned with hcall | hslot
  · obtain ⟨call, hcall, he⟩ := mem_flatMap.mp hcall
    exact Or.inl ⟨h.built call hcall e he, call, hcall, he⟩
  obtain ⟨slot, hmem, rfl⟩ := mem_map.mp hslot
  obtain ⟨i, hi⟩ := mem_iff_getElem?.mp hmem
  exact Or.inr ⟨i, slot, hi, rfl, h.engine slot hmem⟩

theorem Inv.closeCalls_le (h : s.Inv) {engine : Engine} (hengine : engine ∈ s.engines) :
    engine.closeCalls ≤ 1 := by
  obtain ⟨e, he⟩ := mem_iff_getElem?.mp hengine
  rcases h.engine_cases (List.getElem?_eq_some_iff.mp he).1 with ⟨hfresh, -⟩ | ⟨i, slot, -, -, hstate⟩
  · rw [Option.some.inj (he.symm.trans hfresh)]
    exact Nat.zero_le 1
  rw [Option.some.inj (he.symm.trans hstate)]
  exact slot.state_closeCalls_le

theorem Inv.fresh_of_outstanding (h : s.Inv) (hlease : lease ∈ s.leases)
    (hout : lease.phase ≠ .closed) : ∃ slot, s.slots[lease.slot]? = some slot ∧
      slot.engine = lease.engine ∧ s.engines[lease.engine]? = some Engine.fresh := by
  obtain ⟨slot, hslot, hengine⟩ := h.lease lease hlease
  have hmem := mem_of_getElem? hslot
  have hunused : slot.closeOnce = .unused := by
    by_contra hused
    have hwg := h.wg _ slot hslot
    rw [(h.quiet slot hmem hused).2] at hwg
    have hpos : 0 < s.leases.countP (outstanding lease.slot) :=
      countP_pos_iff.mpr ⟨lease, hlease, by simp [outstanding, hout]⟩
    omega
  refine ⟨slot, hslot, hengine, ?_⟩
  rw [← hengine, h.engine slot hmem, EngineSlot.state_fresh hunused]

theorem Moved.granted_open (hm : s.Moved e t)
    (hl : s.leases.length ≤ l) (hlease : t.leases[l]? = some lease) :
    ∃ slot, s.slots[lease.slot]? = some slot ∧ slot.closing = false := by
  have hlt := (List.getElem?_eq_some_iff.mp hlease).1
  have hmarked : s.markCurrent.leases = s.leases := by
    unfold markCurrent
    split <;> rfl
  have hold : t.leases.length = s.leases.length → False := fun heq => by omega
  cases hm with
  | granted i slot hcurrent hi hopen =>
    rcases Lib.getElem?_concat_cases hlease with hmem | ⟨-, rfl⟩
    · have := (List.getElem?_eq_some_iff.mp hmem).1
      omega
    · exact ⟨slot, hi, hopen⟩
  | swapped | detached | marked => exact absurd (congrArg List.length hmarked) hold
  | leaseClosing | refDropped | leaseClosed => exact absurd length_set hold
  | _ => exact absurd rfl hold

/-- **Engine leases are safe in every interleaving.**  No engine is closed twice; while
a lease is out its engine's `Close` has not been called; and a new lease is on a slot
that is not closing. -/
theorem engine_leases_safe (hs : s.Reachable) : (∀ engine ∈ s.engines, engine.closeCalls ≤ 1) ∧
      (∀ lease ∈ s.leases, lease.phase ≠ .closed → ∃ slot, s.slots[lease.slot]? = some slot ∧
        slot.engine = lease.engine ∧ s.engines[lease.engine]? = some Engine.fresh) ∧
      ∀ e t, s.step e = some t → ∀ l lease, s.leases.length ≤ l → t.leases[l]? = some lease →
        ∃ slot, s.slots[lease.slot]? = some slot ∧ slot.closing = false := by
  have h := Runs.inv hs
  refine ⟨fun engine hengine => h.closeCalls_le hengine, fun lease hlease hout => ?_, ?_⟩
  · exact h.fresh_of_outstanding hlease hout
  intro e t ht l lease hl hlease
  exact (step_moved ht).granted_open hl hlease

/-- An unload that gives up on a lease, which is then closed twice. -/
theorem unload_gives_up_safe : ∃ s, Lib.runList step newModelService
      [.load "m" true, .detach 0, .created 0 true, .install 0, .acquire, .unload .cancellable,
        .detach 1, .giveUp 1, .closeLease 0, .closeLease 0, .release 0, .wgDone 0, .signal 2,
        .proceed 2, .enterOnce 2, .closed 2] = some s ∧
    s.engines = [{ closeCalls := 1, closed := true }] ∧
      ∀ engine ∈ s.engines, engine.closeCalls ≤ 1 := by
  refine ⟨_, rfl, rfl, (engine_leases_safe ?_).1⟩
  exact Lib.Runs.of_list (show Lib.runList step newModelService
      [.load "m" true, .detach 0, .created 0 true, .install 0, .acquire, .unload .cancellable,
        .detach 1, .giveUp 1, .closeLease 0, .closeLease 0, .release 0, .wgDone 0, .signal 2,
        .proceed 2, .enterOnce 2, .closed 2] = _ from rfl)

end DenseCore.Server.ModelService
