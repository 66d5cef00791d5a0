/-
References across the life of a request.

`AddRequest` takes a reference on every block of the cached prefix and leaves them
with the waiting group; the worker learns of them when the group is listed for the
first time.  Until then nobody gives them back: retiring the request frees an empty
table, and the scheduler's own cancellation frees a table it has not filled yet.

As long as neither happens, the references of every block are exactly its places
in the worker's tables and in the waiting groups, so when all requests are gone, so
are the references.
-/
import DenseCore.Proofs.Runtime.BlockTables

namespace DenseCore

open BlockManager Scheduler

namespace Engine

variable {σ : Type} {ok : Prop} {t : ModelTraits σ} {e : Engine σ}

/-- Every step of the run keeps the prefixes, in the state it is taken in. -/
def KeepsAll (t : ModelTraits σ) : Engine σ → List (LifeStep σ) → Prop
  | _, [] => True
  | e, step :: steps => step.Keeps e ∧ KeepsAll t (e.lifeStep t step) steps

theorem lifeRun_inv_of_keeps (steps : List (LifeStep σ)) : ∀ e : Engine σ, Inv True t e →
    KeepsAll t e steps → Inv True t (e.lifeRun t steps) := by
  induction steps with
  | nil => intro e h _; exact h
  | cons step steps ih =>
    intro e h hkeeps
    exact ih _ (h.lifeStep step fun _ => hkeeps.1) hkeeps.2

theorem Inv.refs_of_no_requests (h : Inv True t e) (hnone : e.requests = []) (b : Int) :
    (e.manager.blocks b).refCount = 0 := by
  have hqueue : e.scheduler.waitingQueue = [] := by
    rw [List.eq_nil_iff_forall_not_mem]
    intro g hg
    obtain ⟨r, hr, -⟩ := h.within.groups g hg
    rw [hnone] at hr
    simp at hr
  obtain ⟨lost, hcust, hlost⟩ := h.custody
  rw [hlost trivial, hqueue, tables, hnone] at hcust
  simpa [sharedOf] using hcust.exact b

/-- **References are conserved**: in a run that retires no request and cancels no
group while a cached prefix is still waiting to be handed over, every block is
without references once all requests have been retired. -/
theorem lifeRun_refs_released (t : ModelTraits σ) (numBlocks : Nat) (blockSize : Int)
    (config : SchedulerConfig) (steps : List (LifeStep σ))
    (hkeeps : KeepsAll t (init numBlocks blockSize config) steps)
    (hretired : ((init numBlocks blockSize config).lifeRun t steps).requests = []) (b : Int) :
    (((init numBlocks blockSize config).lifeRun t steps).manager.blocks b).refCount = 0 :=
  (lifeRun_inv_of_keeps steps _ (init_inv numBlocks blockSize config) hkeeps).refs_of_no_requests
    hretired b

/-- A prompt comes, is served and leaves; it comes again, with a cached prefix, and
leaves after it has been listed. -/
def servedTwice : List (LifeStep Unit) :=
  repeatedPrompt ++ [.schedule {}, .build {}, .complete { sampled := 7 }, .retire 2 true]

theorem servedTwice_keepsAll : KeepsAll {} (init 4 16 {}) servedTwice := by
  refine ⟨trivial, ?_, trivial, trivial, ?_, trivial, ?_, trivial, trivial, ?_, trivial⟩
  · show ∀ g ∈ (Scheduler.waitingQueue _), g.sharedBlockIds ≠ [] → FitsBudget _ g
    unfold FitsBudget
    decide +kernel
  · show ¬ ∃ g ∈ (Scheduler.waitingQueue _), g.sequenceId = 1 ∧ g.sharedBlockIds ≠ []
    decide +kernel
  · show ∀ g ∈ (Scheduler.waitingQueue _), g.sharedBlockIds ≠ [] → FitsBudget _ g
    unfold FitsBudget
    decide +kernel
  show ¬ ∃ g ∈ (Scheduler.waitingQueue _), g.sequenceId = 2 ∧ g.sharedBlockIds ≠ []
  decide +kernel

theorem servedTwice_refs_released :
    (((init 4 16 {}).lifeRun {} servedTwice : Engine Unit).manager.blocks 0).refCount = 0 := by
  refine lifeRun_refs_released {} 4 16 {} servedTwice servedTwice_keepsAll ?_ 0
  have hlen : ((init 4 16 {}).lifeRun {} servedTwice : Engine Unit).requests.length = 0 := by
    decide +kernel
  exact List.length_eq_zero_iff.mp hlen

/-- The second request is cancelled before the first `Schedule` that could list it:
all requests are gone and block 0 keeps a reference. -/
theorem cancelled_before_schedule_leaks :
    ((init 4 16 {}).lifeRun {} (repeatedPrompt ++ [.retire 2 false]) : Engine Unit).requests = [] ∧
    (((init 4 16 {}).lifeRun {} (repeatedPrompt ++ [.retire 2 false]) : Engine Unit).manager.blocks
      0).refCount = 1 := by
  refine ⟨?_, by decide +kernel⟩
  have hlen : ((init 4 16 {}).lifeRun {} (repeatedPrompt ++ [.retire 2 false])
      : Engine Unit).requests.length = 0 := by decide +kernel
  exact List.length_eq_zero_iff.mp hlen

end Engine

end DenseCore
