/-
The scheduler as its client uses it.

A client adds and removes requests, asks for batches, and reports the progress of
what the latest batch listed.  `Client` is the scheduler with what the client may
still report: of each listed prefill the tokens of its chunk that have not been
reported, of each listed decode one token.  `live` are the sequences the client
has added and that neither it nor the scheduler has taken out again.  Between two
calls the client may use the block manager in any way; the scheduler sees the
result.

`Call.Legal` is the client's side of the contract: prompt lengths are counts, and
progress is reported only within what is due.
-/
import DenseCore.Runtime.Schedule

namespace DenseCore

/-- The scheduler with what its client has been told. -/
structure Client (σ : Type) where
  sch : Scheduler σ
  prefillDue : Int → Int := fun _ => 0
  decodeDue : Int → Int := fun _ => 0
  live : List Int := []

namespace Client

variable {σ : Type}

/-- What `AddRequest` is called with. -/
structure NewRequest (σ : Type) where
  requestId : Int := 0
  promptLen : Int
  priority : Int := 100
  prefixTokens : Option (List Int32) := none
  allowChunkedPrefill : Bool := true
  requireSnapshot : Bool := false
  maxPrefillChunkTokens : Int := -1
  validator : Option (List σ → Bool) := none
  now : Nat := 0

/-- The calls of a client. -/
inductive Call (σ : Type) where
  | addRequest (r : NewRequest σ)
  | removeRequest (seqId : Int) (finished : Bool)
  | schedule (choice : ScheduleChoice)
  | setPredictedExperts (seqId : Int) (experts : List Int)
  | onPrefillChunkComplete (seqId tokens : Int) (finished : Bool)
  | onDecodeStepComplete (seqId tokens : Int)
  | updateProgress (seqId tokens : Int)
  | updateProgressBatch (updates : List (Int × Int))
  | useManager (op : BlockManager.Op σ)

/-- Nothing has been submitted. -/
def init (bm : BlockManager σ) (config : SchedulerConfig) : Client σ :=
  { sch := Scheduler.init bm config }

/-- The tokens of an output's chunk for one sequence. -/
def chunkOf (o : SchedulerOutput) (seqId : Int) : Int :=
  ((o.prefillChunkInfo.filter fun c => c.seqId = seqId).map (·.chunkTokens)).sum

/-- A report of `tokens` uses up that much of what is due. -/
def report (c : Client σ) (sch : Scheduler σ) (seqId tokens : Int) : Client σ :=
  { c with
    sch := sch
    prefillDue := Function.update c.prefillDue seqId (c.prefillDue seqId - max 0 tokens)
    decodeDue := Function.update c.decodeDue seqId (c.decodeDue seqId - max 0 tokens) }

/-- A request is added. -/
def addRequest (salt : UInt64) (c : Client σ) (r : NewRequest σ) : Client σ :=
  let added := c.sch.addRequest salt r.now r.requestId r.promptLen r.priority r.prefixTokens
    r.allowChunkedPrefill r.requireSnapshot r.maxPrefillChunkTokens r.validator
  { c with sch := added.2, live := c.live ++ added.1.toList }

/-- A request is removed, and nothing is due for it any more. -/
def removeRequest (c : Client σ) (seqId : Int) (finished : Bool) : Client σ :=
  { sch := c.sch.removeRequest seqId finished
    prefillDue := Function.update c.prefillDue seqId 0
    decodeDue := Function.update c.decodeDue seqId 0
    live := c.live.filter fun x => x ≠ seqId }

/-- A sequence the call has cancelled is not live any more. -/
def schedule (c : Client σ) (choice : ScheduleChoice) : Client σ :=
  let r := c.sch.schedule choice
  { sch := r.1
    prefillDue := chunkOf r.2
    decodeDue := fun seqId => if seqId ∈ r.2.decodeSeqIds then 1 else 0
    live := c.live.filter fun x => r.1.seqStatus x ≠ some .cancelled }

/-- What a call does. -/
def step (salt : UInt64) (c : Client σ) : Call σ → Client σ
  | .addRequest r => c.addRequest salt r
  | .removeRequest seqId finished => c.removeRequest seqId finished
  | .schedule choice => c.schedule choice
  | .setPredictedExperts seqId experts =>
    { c with sch := c.sch.setPredictedExperts seqId experts }
  | .onPrefillChunkComplete seqId tokens finished =>
    c.report (c.sch.onPrefillChunkComplete seqId tokens finished) seqId tokens
  | .onDecodeStepComplete seqId tokens =>
    c.report (c.sch.onDecodeStepComplete seqId tokens) seqId tokens
  | .updateProgress seqId tokens => c.report (c.sch.updateProgress seqId tokens) seqId tokens
  | .updateProgressBatch updates =>
    { updates.foldl (fun c u => c.report c.sch u.1 u.2) c with
      sch := c.sch.updateProgressBatch updates }
  | .useManager op =>
    { c with sch := { c.sch with blockManager := c.sch.blockManager.apply salt op } }

/-- `tokens` of progress are due for the sequence. -/
def Due (c : Client σ) (seqId tokens : Int) : Prop :=
  tokens ≤ c.prefillDue seqId ∨ tokens ≤ c.decodeDue seqId

/-- Each update of a batch is due when its turn comes. -/
def DueAll : Client σ → List (Int × Int) → Prop
  | _, [] => True
  | c, u :: updates => c.Due u.1 u.2 ∧ DueAll (c.report c.sch u.1 u.2) updates

/-- The calls that the worker makes. -/
def Call.Legal (c : Client σ) : Call σ → Prop
  | .addRequest r => 0 ≤ r.promptLen
  | .onPrefillChunkComplete seqId tokens finished =>
    tokens ≤ c.prefillDue seqId ∧ (finished = true ↔ c.sch.waitingRemaining seqId = some tokens)
  | .onDecodeStepComplete seqId tokens => tokens ≤ c.decodeDue seqId
  | .updateProgress seqId tokens => c.Due seqId tokens
  | .updateProgressBatch updates => c.DueAll updates
  | _ => True

/-- A run of legal calls. -/
def LegalRun (salt : UInt64) : Client σ → List (Call σ) → Prop
  | _, [] => True
  | c, call :: calls => call.Legal c ∧ LegalRun salt (c.step salt call) calls

instance (c : Client σ) (seqId tokens : Int) : Decidable (c.Due seqId tokens) :=
  inferInstanceAs (Decidable (_ ∨ _))

instance decidableDueAll : (c : Client σ) → (updates : List (Int × Int)) →
    Decidable (c.DueAll updates)
  | _, [] => inferInstanceAs (Decidable True)
  | c, u :: updates =>
    have := decidableDueAll (c.report c.sch u.1 u.2) updates
    inferInstanceAs (Decidable (_ ∧ _))

instance (c : Client σ) : (call : Call σ) → Decidable (call.Legal c)
  | .addRequest r => inferInstanceAs (Decidable (0 ≤ r.promptLen))
  | .removeRequest _ _ => inferInstanceAs (Decidable True)
  | .schedule _ => inferInstanceAs (Decidable True)
  | .setPredictedExperts _ _ => inferInstanceAs (Decidable True)
  | .onPrefillChunkComplete _ _ _ => inferInstanceAs (Decidable (_ ∧ (_ ↔ _)))
  | .onDecodeStepComplete seqId tokens => inferInstanceAs (Decidable (tokens ≤ c.decodeDue seqId))
  | .updateProgress seqId tokens => inferInstanceAs (Decidable (c.Due seqId tokens))
  | .updateProgressBatch updates => inferInstanceAs (Decidable (c.DueAll updates))
  | .useManager _ => inferInstanceAs (Decidable True)

instance decidableLegalRun (salt : UInt64) : (c : Client σ) → (calls : List (Call σ)) →
    Decidable (LegalRun salt c calls)
  | _, [] => inferInstanceAs (Decidable True)
  | c, call :: calls =>
    have := decidableLegalRun salt (c.step salt call) calls
    inferInstanceAs (Decidable (_ ∧ _))

/-- Many calls, one after another. -/
def run (salt : UInt64) (c : Client σ) (calls : List (Call σ)) : Client σ :=
  calls.foldl (step salt) c

end Client

end DenseCore
