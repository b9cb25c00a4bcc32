import CypheraKernel.Lib.WaitQueues
import Mathlib.Tactic

/-!
# Waiting in a queue

`WaitQueue` and `wait_guarded` of `kernel/src/core/wait.rs`, with `park_current_then` and `wake_pid`
of `kernel/src/core/park.rs`: a process enters the queue, finds a condition false and parks if it is
still queued; others make the condition true and wake one process of the queue or all of them.

`no_lost_wakeup`: **whoever has taken a parked process out of the queue is about to wake it**.
-/

namespace CypheraKernel.Core.WaitQueue

open List WaitQueues

/-- The calls on a queue. -/
inductive Request
  | wait
  | wakeOne
  | wakeAll
  deriving DecidableEq

variable {ι : Type}

/-- The condition is all there is of the resource. -/
def waitQueue : Device Bool Request Unit ι where
  queues
    | .wait => [()]
    | .wakeOne | .wakeAll => []
  patient _ := true
  attempt ready _
    | .wait => ⟨ready, [], !ready, [.dequeue ()]⟩
    | .wakeOne => ⟨true, [], false, [.wakeOne ()]⟩
    | .wakeAll => ⟨true, [], false, [.wakeAll ()]⟩

def initial : System Bool Request Unit ι := ⟨false, fun _ => [], fun _ => .running [] .leave⟩

variable [DecidableEq ι]

/-- **Enqueue, check, park.**  In every interleaving of any number of processes that wait and of
others that wake, a process that is parked is in the queue, or whoever took it out is about to wake
it; so at the end every parked process is in the queue. -/
theorem no_lost_wakeup (es : List (Event Request ι)) :
    Runs.Always (System.step waitQueue) (fun s => ∀ p, s.control p = .parked .wait →
      (p ∈ s.queue () ∨ Promised s p) ∧ (Quiet s → p ∈ s.queue ())) es initial := by
  refine Runs.always_of_invariant (I := NotLost waitQueue)
    (fun s e s' h _ hs => h.step (stepped_of_step hs)) (fun s h p hp => ?_) nofun
    (Runs.meets_true es _)
  have hor : p ∈ s.queue () ∨ Promised s p :=
    or_iff_not_imp_left.2 (h p .wait hp () (mem_singleton_self _))
  refine ⟨hor, fun hq => hor.resolve_right ?_⟩
  rintro (hw | ⟨q, hw⟩)
  · exact not_has_of_quiet hq _ hw
  · exact not_has_of_quiet hq _ hw

end CypheraKernel.Core.WaitQueue
