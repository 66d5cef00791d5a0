/-
The model service.

`ModelService` hands out leases on the engine of its current slot and replaces that
slot.  A load or an unload is a sequence of critical sections with waits between
them: it marks the old slot as closing and takes it out, waits until the slot's
leases are back, closes the slot's engine, and a load builds an engine before or
after that and puts it into a slot of its own.  An unload whose context ends while it
waits leaves the closing to a goroutine in the background.

One event is one atomic step of one goroutine.  Which of its two strategies a load
takes depends on the environment and on free memory, and whether an engine can be
built depends on the native library, so the event says so.  The loading status and
its error are stored outside the lock and only read by probes; they are left out, and
so is the native `BeginShutdown`, which closes nothing.
-/
import DenseCore.Lib.Trace

namespace DenseCore

namespace Server

namespace ModelService

/-- A native engine, as far as its closing goes. -/
structure Engine where
  /-- how often `Close` was called -/
  closeCalls : Nat
  /-- whether a call of `Close` has returned -/
  closed : Bool
deriving DecidableEq, Repr

/-- An engine that nobody has closed. -/
def Engine.fresh : Engine := { closeCalls := 0, closed := false }

/-- A `sync.Once`. -/
inductive Once where
  | unused
  /-- the first caller is in the function, the others wait -/
  | running
  | done
deriving DecidableEq, Repr

/-- `engineSlot`. -/
structure EngineSlot where
  engine : Nat
  closing : Bool
  refCount : Int
  wg : Int
  closeOnce : Once
deriving DecidableEq, Repr

/-- `&engineSlot{engine: e}`. -/
def EngineSlot.new (engine : Nat) : EngineSlot :=
  { engine := engine, closing := false, refCount := 0, wg := 0, closeOnce := .unused }

/-- How far the lease's `Close` has come. -/
inductive LeasePhase where
  | held
  /-- in `releaseEngineLease`, about to take the lock -/
  | releasing
  /-- the reference is dropped, about to call `wg.Done` -/
  | dropped
  | closed
deriving DecidableEq, Repr

/-- `engineLease`. -/
structure EngineLease where
  engine : Nat
  slot : Nat
  phase : LeasePhase
deriving DecidableEq, Repr

/-- A context: whether it can end. -/
inductive Ctx where
  | background
  | cancellable
deriving DecidableEq, Repr

/-- What comes after the closing of a slot. -/
inductive AfterClose where
  | greenLoad
  | forceLoad (path : String)
  | unload
  /-- the goroutine that closes for an unload that gave up -/
  | background
deriving DecidableEq, Repr

/-- Where a call stands.  The last four points are in `closeEngineSlot`. -/
inductive Call where
  /-- `loadModelBlueGreen`, building its engine -/
  | creatingGreen (path : String)
  /-- about to swap the slots -/
  | swapping (path : String) (engine : Nat)
  /-- `loadModelForce`, about to take the current slot out -/
  | detachingForce (path : String)
  | creatingForce (path : String)
  | installing (path : String) (engine : Nat)
  /-- `UnloadModelContext`, about to take the current slot out -/
  | detachingUnload (ctx : Ctx)
  /-- in the select; `signalled` says that the waiting goroutine has closed `done` -/
  | waiting (slot : Nat) (ctx : Ctx) (signalled : Bool) (next : AfterClose)
  /-- about to call `closeOnce.Do` -/
  | atOnce (slot : Nat) (next : AfterClose)
  /-- in the engine's `Close` -/
  | inClose (slot : Nat) (next : AfterClose)
  | returned (ok : Bool)
deriving DecidableEq, Repr

/-- Where a call goes on once the slot is closed. -/
def AfterClose.resume : AfterClose → Call
  | .greenLoad => .returned true
  | .forceLoad path => .creatingForce path
  | .unload => .returned true
  | .background => .returned true

/-- The call of `closeEngineSlot`; without a slot it returns at once. -/
def closeEngineSlot (ctx : Ctx) (next : AfterClose) : Option Nat → Call
  | none => next.resume
  | some slot => .waiting slot ctx false next

/-- What can happen next in the service. -/
inductive Event where
  /-- `LoadModelWithOptions` decides for one of its strategies -/
  | load (path : String) (force : Bool)
  | unload (ctx : Ctx)
  /-- `NewDenseEngine` returns to call `c` -/
  | created (c : Nat) (ok : Bool)
  | swap (c : Nat)
  | detach (c : Nat)
  | install (c : Nat)
  /-- the goroutine of call `c` that waits for the leases closes `done` -/
  | signal (c : Nat)
  /-- the select takes `done` -/
  | proceed (c : Nat)
  /-- the select takes `ctx.Done()` -/
  | giveUp (c : Nat)
  | enterOnce (c : Nat)
  /-- the engine's `Close` returns to call `c` -/
  | closed (c : Nat)
  | acquire
  | closeLease (l : Nat)
  | release (l : Nat)
  | wgDone (l : Nat)
  | beginShutdown
deriving DecidableEq, Repr

variable (slot : EngineSlot)

/-- No lease is handed out on the slot any more. -/
def EngineSlot.markClosing : EngineSlot := { slot with closing := true }

/-- One more lease on the slot. -/
def EngineSlot.addLease : EngineSlot :=
  { slot with refCount := slot.refCount + 1, wg := slot.wg + 1 }

/-- One reference to the slot less. -/
def EngineSlot.dropRef : EngineSlot :=
  { slot with refCount := slot.refCount - 1 }

/-- `wg.Done` -/
def EngineSlot.wgDone : EngineSlot := { slot with wg := slot.wg - 1 }

/-- The slot with the state of its `closeOnce` set. -/
def EngineSlot.setOnce (o : Once) (slot : EngineSlot) : EngineSlot :=
  { slot with closeOnce := o }

end ModelService

open ModelService in
/-- `ModelService`, with every engine, slot, lease and call there ever was. -/
structure ModelService where
  currentSlot : Option Nat
  currentModelPath : String
  engines : List ModelService.Engine
  slots : List EngineSlot
  leases : List EngineLease
  /-- the calls, and the goroutines that close in the background -/
  calls : List Call
deriving DecidableEq, Repr

namespace ModelService

/-- `NewModelService`. -/
def newModelService : ModelService :=
  { currentSlot := none, currentModelPath := "", engines := [], slots := [], leases := []
    calls := [] }

variable (s : ModelService)

/-- The service with one call in a new state. -/
def setCall (c : Nat) (call : Call) : ModelService :=
  { s with calls := s.calls.set c call }

/-- The service with one slot changed. -/
def modifySlot (i : Nat) (f : EngineSlot → EngineSlot) : ModelService :=
  { s with slots := s.slots.modify i f }

/-- The service with one lease in a new state. -/
def setLease (l : Nat) (lease : EngineLease) : ModelService :=
  { s with leases := s.leases.set l lease }

/-- `oldSlot.closing = true`, when there is an old slot. -/
def markCurrent : ModelService :=
  match s.currentSlot with
  | none => s
  | some i => s.modifySlot i EngineSlot.markClosing

/-- `s.currentSlot = &engineSlot{engine: e}`. -/
def putSlot (path : String) (engine : Nat) : ModelService :=
  { s with
    slots := s.slots ++ [EngineSlot.new engine]
    currentSlot := some s.slots.length, currentModelPath := path }

/-- The critical section that takes the current slot out. -/
def detach (c : Nat) (ctx : Ctx) (next : AfterClose) : ModelService :=
  { s.markCurrent.setCall c (closeEngineSlot ctx next s.currentSlot) with
    currentSlot := none, currentModelPath := "" }

/-- `AcquireEngineLease`. -/
def acquireEngineLease : ModelService :=
  match s.currentSlot with
  | none => s
  | some i =>
    match s.slots[i]? with
    | none => s
    | some slot =>
      if slot.closing = true then s
      else { s.modifySlot i EngineSlot.addLease with
              leases := s.leases ++ [{ engine := slot.engine, slot := i, phase := .held }] }

/-- `closeOnce.Do`. -/
def enterOnce (c i : Nat) (next : AfterClose) : Option ModelService :=
  match s.slots[i]? with
  | none => none
  | some slot =>
    match slot.closeOnce with
    | .unused => some { (s.modifySlot i (.setOnce .running)).setCall c (.inClose i next) with
        engines := s.engines.modify slot.engine fun e =>
          { e with closeCalls := e.closeCalls + 1 } }
    | .running => none
    | .done => some (s.setCall c next.resume)

/-- The engine's `Close` returns. -/
def finishClose (c i : Nat) (next : AfterClose) : Option ModelService :=
  match s.slots[i]? with
  | none => none
  | some slot => some { (s.modifySlot i (.setOnce .done)).setCall c next.resume with
      engines := s.engines.modify slot.engine fun e => { e with closed := true } }

/-- One atomic step. -/
def step : Event → Option ModelService
  | .load path force => some { s with
      calls := s.calls ++ [if force = true then .detachingForce path else .creatingGreen path] }
  | .unload ctx => some { s with calls := s.calls ++ [.detachingUnload ctx] }
  | .created c ok =>
    match s.calls[c]? with
    | some (.creatingGreen path) =>
      if ok = true then
        some { s.setCall c (.swapping path s.engines.length) with
          engines := s.engines ++ [Engine.fresh] }
      else some (s.setCall c (.detachingForce path))
    | some (.creatingForce path) =>
      if ok = true then
        some { s.setCall c (.installing path s.engines.length) with
          engines := s.engines ++ [Engine.fresh] }
      else some (s.setCall c (.returned false))
    | _ => none
  | .swap c =>
    match s.calls[c]? with
    | some (.swapping path engine) =>
      some ((s.markCurrent.putSlot path engine).setCall c
        (closeEngineSlot .background .greenLoad s.currentSlot))
    | _ => none
  | .detach c =>
    match s.calls[c]? with
    | some (.detachingForce path) => some (s.detach c .background (.forceLoad path))
    | some (.detachingUnload ctx) => some (s.detach c ctx .unload)
    | _ => none
  | .install c =>
    match s.calls[c]? with
    | some (.installing path engine) =>
      -- the slot that is current by now is not looked at
      some ((s.putSlot path engine).setCall c (.returned true))
    | _ => none
  | .signal c =>
    match s.calls[c]? with
    | some (.waiting i ctx _ next) =>
      match s.slots[i]? with
      | some slot =>
        if slot.wg = 0 then some (s.setCall c (.waiting i ctx true next)) else none
      | none => none
    | _ => none
  | .proceed c =>
    match s.calls[c]? with
    | some (.waiting i _ true next) => some (s.setCall c (.atOnce i next))
    | _ => none
  | .giveUp c =>
    match s.calls[c]? with
    | some (.waiting i .cancellable _ _) =>
      some { s with
        calls := s.calls.set c (.returned false) ++ [.waiting i .background false .background] }
    | _ => none
  | .enterOnce c =>
    match s.calls[c]? with
    | some (.atOnce i next) => s.enterOnce c i next
    | _ => none
  | .closed c =>
    match s.calls[c]? with
    | some (.inClose i next) => s.finishClose c i next
    | _ => none
  | .acquire => some s.acquireEngineLease
  | .closeLease l =>
    match s.leases[l]? with
    | some lease =>
      if lease.phase = .held then some (s.setLease l { lease with phase := .releasing })
      else some s
    | none => none
  | .release l =>
    match s.leases[l]? with
    | some lease =>
      if lease.phase = .releasing then
        some ((s.modifySlot lease.slot EngineSlot.dropRef).setLease l
          { lease with phase := .dropped })
      else none
    | none => none
  | .wgDone l =>
    match s.leases[l]? with
    | some lease =>
      if lease.phase = .dropped then
        some ((s.modifySlot lease.slot EngineSlot.wgDone).setLease l
          { lease with phase := .closed })
      else none
    | none => none
  | .beginShutdown => some s.markCurrent

/-- The states that some interleaving reaches. -/
def Reachable : Prop := Lib.Runs step (fun _ _ => True) newModelService s

end ModelService

end Server

end DenseCore
