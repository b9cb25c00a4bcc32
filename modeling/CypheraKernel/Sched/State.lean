import Mathlib.Tactic

/-!
# Process states and scheduler owners

The two enumerations of `kernel/src/sched_state.rs` and the three relations that every change of a
process state or of a scheduler owner is checked against.
-/

namespace CypheraKernel.Sched

/-- The number of a process or thread. -/
abbrev Pid := ℕ

/-- Who has hold of a process. -/
inductive SchedOwner
  | none
  | running (cpu : ℕ)
  | runnable (cpu : ℕ)
  | parked (waitqAddr : ℕ)
  | stopped
  | traced
  | zombie
  | reaping
  deriving DecidableEq, Repr

inductive ProcessState
  | runnable
  | running
  | parked
  | zombie (code : ℤ)
  | killedByFault (vector addr error : ℕ)
  | stopped
  | dlThrottled
  | cgroupThrottled
  | traced
  | killedBySignal (signal : ℕ)
  deriving DecidableEq, Repr

def schedOwnerTransitionOk (cur new : SchedOwner) : Bool :=
  match cur, new with
  | .none, .runnable _ => true
  | .none, .running _ => true
  | .runnable a, .running b => a == b
  | .running a, .runnable b => a == b
  | .running _, .parked _ => true
  | .parked _, .runnable _ => true
  | .parked _, .running _ => true
  | .runnable _, .runnable _ => true
  | .running _, .stopped => true
  | .running _, .traced => true
  | .stopped, .runnable _ => true
  | .traced, .runnable _ => true
  | .running _, .zombie => true
  | .runnable _, .zombie => true
  | .parked _, .zombie => true
  | .stopped, .zombie => true
  | .traced, .zombie => true
  | .zombie, .reaping => true
  | .reaping, .none => true
  | a, b => a == b

def stateIsTerminal : ProcessState → Bool
  | .zombie _ | .killedByFault _ _ _ | .killedBySignal _ => true
  | _ => false

def stateTransitionOk (cur new : ProcessState) : Bool :=
  if stateIsTerminal new then true
  else if stateIsTerminal cur then false
  else
    match cur, new with
    | .running, .runnable => true
    | .runnable, .running => true
    | .running, .parked => true
    | .parked, .runnable => true
    | .running, .stopped => true
    | .stopped, .runnable => true
    | .running, .traced => true
    | .stopped, .traced => true
    | .traced, .runnable => true
    | .running, .cgroupThrottled => true
    | .runnable, .cgroupThrottled => true
    | .cgroupThrottled, .runnable => true
    | .running, .dlThrottled => true
    | .dlThrottled, .runnable => true
    | a, b => a == b

def stateOwnerConsistent (state : ProcessState) (owner : SchedOwner) : Bool :=
  if stateIsTerminal state then true
  else
    match state, owner with
    | _, .zombie | _, .reaping => true
    | .runnable, .runnable _ => true
    | .runnable, .none => true
    | .running, .running _ => true
    | .running, .runnable _ => true
    | .runnable, .running _ => true
    | .parked, .parked _ => true
    | .stopped, .stopped => true
    | .traced, .traced => true
    | .dlThrottled, .parked _ | .dlThrottled, .running _ | .dlThrottled, .runnable _ => true
    | .cgroupThrottled, .parked _ | .cgroupThrottled, .running _
    | .cgroupThrottled, .runnable _ => true
    | .parked, .running _ | .stopped, .running _ | .traced, .running _ => true
    | .runnable, .parked _ => true
    | .runnable, .stopped => true
    | .runnable, .traced => true
    | .traced, .stopped => true
    | _, _ => false

end CypheraKernel.Sched
