/-
The life of a request in the worker loop, cut as finely as ownership moves.

`Engine.step` takes one turn of the loop as one step, and inside a turn the worker
may itself retire the request an empty output declares unschedulable.  Here that
retirement is a step like any other: `Schedule` with the replay of its output is
one step, retiring a request another, building the batch a third.  Every turn of
the loop is a few of these steps in a row.
-/
import DenseCore.Runtime.Engine

namespace DenseCore.Engine

variable {σ : Type}

variable (t : ModelTraits σ)

/-- Steps 4 to 6 of the loop. -/
def replayOutput (e : Engine σ) (output : SchedulerOutput) : Engine σ :=
  let e₁ := output.swapInSeqIds.foldl swapIn (e.applyTables t output)
  output.preemptedSeqIds.foldl swapOut (output.freedBlocks.foldl releaseFreed e₁)

/-- `Schedule` and the replay of its output. -/
def scheduleAndReplay (e : Engine σ) (choice : ScheduleChoice) : Engine σ :=
  let r := e.scheduler.schedule choice
  { e with scheduler := r.1, log := r.2 :: e.log }.replayOutput t r.2

/-- The batch of the latest output. -/
def buildLatest (e : Engine σ) (choice : BuildChoice) : Engine σ :=
  match e.log with
  | [] => e
  | output :: _ => e.buildBatch choice output

/-- The steps of the worker loop, retirements included. -/
inductive LifeStep (σ : Type) where
  | submit (r : Submission σ)
  | retire (seqId : Int) (completed : Bool)
  | fastPath (choice : FastPathChoice)
  | schedule (choice : ScheduleChoice)
  | build (choice : BuildChoice)
  | complete (res : ForwardResult σ)
  | setPredictedExperts (seqId : Int) (experts : List Int)

/-- What such a step does. -/
def lifeStep (e : Engine σ) : LifeStep σ → Engine σ
  | .submit r => e.submit t r
  | .retire seqId completed => e.retire seqId completed
  | .fastPath choice => e.fastPathStep t choice
  | .schedule choice => e.scheduleAndReplay t choice
  | .build choice => e.buildLatest choice
  | .complete res => e.completeStep t res
  | .setPredictedExperts seqId experts =>
    { e with scheduler := e.scheduler.setPredictedExperts seqId experts }

/-- Many steps, one after another. -/
def lifeRun (e : Engine σ) (steps : List (LifeStep σ)) : Engine σ :=
  steps.foldl (lifeStep t) e

end DenseCore.Engine
