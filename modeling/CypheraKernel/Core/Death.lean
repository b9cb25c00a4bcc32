import CypheraKernel.Core.Kernel

/-!
# The ways a process ends

`kernel/src/core/death.rs`: `exit_current`, `exit_group_current`, `terminate_current_with_signal`,
and `publish_corpse`, by which the scheduler makes the end of a process known once the process has
left its CPU.  The calls are followed from their first line to the end of the process; a kill of a
process that does not run is `sigkill` of `CypheraKernel.Core.Kernel`.
Timers, file descriptors, the address space, terminals and tracing are left out.
-/

namespace CypheraKernel.Core

open Sched
open Rust hiding Panic

namespace Kernel

/-! ### Releases -/

variable (k : Kernel) (cpu : ℕ)

/-- `locks::posix::drop_owner`. -/
def dropOwner (pid : Pid) : Kernel :=
  { k with locks := fun inode => (k.locks inode).filter fun lk => lk.owner ≠ pid }

/-- The memory that the process has charged is uncharged, and the pid is detached. -/
def leaveCgroup (pid : Pid) : Kernel :=
  match k.processCgroup pid with
  | none => k
  | some cg =>
    let charged := k.processChargedBytes pid
    let groups := if charged > 0 then k.groups.unchargeMemory cg charged else k.groups
    { k with groups := groups.detachPid cg pid }

/-! ### Children -/

/-- The process has exited, not been killed. -/
def isZombie : ProcessState → Bool
  | .zombie _ => true
  | _ => false

/-- The walk of `handle_dying_children` up the parents, to a subreaper that is not a zombie.  The
first argument counts the turns that are left. -/
def walkReaper (k : Kernel) : ℕ → Option Pid → Option Pid
  | 0, _ => none
  | _, none => none
  | turns + 1, some q =>
    match k.proc? q with
    | none => none
    | some p =>
      if (k.life q).childSubreaper && !isZombie p.state then some q
      else k.walkReaper turns (k.life q).parent

/-- The parent that the children of `cur` get. -/
def newParent (cur : Pid) : Pid :=
  (k.walkReaper 1025 ((k.proc? cur).bind fun _ => (k.life cur).parent)).getD 1

/-- The signal that a child has asked for.  Only `SIGKILL` can end it. -/
def sendPdeathsig (child : Pid) : Except Panic Kernel :=
  if (k.proc? child).isSome && (k.life child).pdeathsig = signalKill then k.sigkill child else .ok k

/-- The child gets the parent `np`. -/
def adopt (np child : Pid) : Kernel :=
  (k.updateLife child fun l => { l with parent := some np }).updateLife np fun l =>
    if child ∈ l.children then l else { l with children := l.children ++ [child] }

def adoptEach (np : Pid) : List Pid → Kernel → Except Panic Kernel
  | [], k => .ok k
  | child :: rest, k => do
    let k ← k.sendPdeathsig child
    adoptEach np rest (k.adopt np child)

def handleDyingChildren (cur : Pid) : Except Panic Kernel :=
  adoptEach (k.newParent cur) (if (k.proc? cur).isSome then (k.life cur).children else []) k

/-! ### Ending -/

/-- A process that has been told how it ends keeps that. -/
def setPendingExit (pid : Pid) (st : TerminalState) : Kernel :=
  k.updateLife pid fun l => { l with pendingExit := some (l.pendingExit.getD st) }

/-- The process leaves the table. -/
def reap (dead : Pid) : Kernel :=
  { k with sched := { k.sched with processes := k.sched.processes.eraseKey dead } }

/-- `publish_corpse`: the process ends, and a thread that does not lead its group is reaped. -/
def publishCorpse (dead : Pid) : Except Panic Kernel :=
  match k.proc? dead, (k.life dead).pendingExit with
  | some p, some st => do
    let p ← p.setState st "death"
    let k := (k.updateLife dead fun l => { l with pendingExit := none }).setProc dead p
    if (k.life dead).tgid = dead then return k
    else return k.reap dead
  | _, _ => .ok k

/-- How a call of `exit` ends a process. -/
def exited (code : ℤ) : TerminalState := ⟨.zombie code, rfl⟩

/-- `exit_current` up to the children. -/
def prepareExit (cur : Pid) (p : Process) (code : ℤ) : Except Panic Kernel := do
  let k := { k with sched := k.sched.setCurrent cpu none }
  let k := ((k.releaseDlBandwidth p).dropOwner cur).setPendingExit cur (exited code)
  let p ← p.setSchedOwner .zombie "exit_current"
  return k.setProc cur p

/-- `exit_current`, up to the end of the process. -/
def exitCurrent (code : ℤ) : Except Panic Kernel :=
  match (k.sched.cpus cpu).current with
  | none => .error (.noCurrent "exit_current")
  | some cur =>
    match k.proc? cur with
    | none => .error (.missing "exit_current" cur)
    | some p => do
      let k ← k.prepareExit cpu cur p code
      let k ← k.handleDyingChildren cur
      (k.leaveCgroup cur).publishCorpse cur

/-- `terminate_current_with_signal` up to the control group. -/
def prepareTermination (cur : Pid) (signal : ℕ) : Kernel :=
  let k := { k with sched := k.sched.setCurrent cpu none }
  (k.dropOwner cur).setPendingExit cur (killedBy signal)

/-- `terminate_current_with_signal`, up to the end of the process. -/
def terminateCurrentWithSignal (signal : ℕ) : Except Panic Kernel :=
  match (k.sched.cpus cpu).current with
  | none => .error (.noCurrent "terminate_current_with_signal")
  | some cur =>
    match k.proc? cur with
    | none => .error (.missing "terminate_current_with_signal" cur)
    | some _ => ((k.prepareTermination cpu cur signal).leaveCgroup cur).publishCorpse cur

/-- The other processes of the thread group that have not ended. -/
def livePeers (tgid cur : Pid) : List Pid :=
  (k.sched.processes.entries.filter fun e =>
    e.1 ≠ cur && (k.life e.1).tgid = tgid && !stateIsTerminal e.2.state).map Prod.fst

def sigkillEach : List Pid → Kernel → Except Panic Kernel
  | [], k => .ok k
  | pid :: rest, k => do
    let k ← k.sigkill pid
    sigkillEach rest k

/-- The first part of `exit_group_current`: the leader is told how it ends, and the others are
killed. -/
def killPeers (cur : Pid) (code : ℤ) : Except Panic Kernel :=
  let tgid := if (k.proc? cur).isSome then (k.life cur).tgid else cur
  let peers := k.livePeers tgid cur
  sigkillEach peers (if tgid ≠ cur then k.setPendingExit tgid (exited code) else k)

/-- `exit_group_current`. -/
def exitGroupCurrent (code : ℤ) : Except Panic Kernel :=
  match (k.sched.cpus cpu).current with
  | none => .error (.noCurrent "current_pid")
  | some cur => do
    let k ← k.killPeers cur code
    k.exitCurrent cpu code

end Kernel

/-- A way to end: the current process of a CPU exits, or exits with its group, or a signal ends it;
or a process that does not run is killed. -/
inductive Death
  | exit (cpu : ℕ) (code : ℤ)
  | exitGroup (cpu : ℕ) (code : ℤ)
  | fatalSignal (cpu signal : ℕ)
  | sigkill (target : Pid)
  deriving DecidableEq, Repr

namespace Death

def run (k : Kernel) : Death → Except Panic Kernel
  | exit cpu code => k.exitCurrent cpu code
  | exitGroup cpu code => k.exitGroupCurrent cpu code
  | fatalSignal cpu signal => k.terminateCurrentWithSignal cpu signal
  | sigkill target => k.sigkill target

/-- The process that ends.  `SIGKILL` ends a process at once that is stopped or throttled. -/
def dying (k : Kernel) : Death → Option Pid
  | exit cpu _ | exitGroup cpu _ | fatalSignal cpu _ => (k.sched.cpus cpu).current
  | sigkill target =>
    if (k.proc? target).any fun p => Kernel.killable p.state then some target else none

end Death

end CypheraKernel.Core
