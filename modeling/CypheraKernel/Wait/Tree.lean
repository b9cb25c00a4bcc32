import CypheraKernel.Core.Death
import CypheraKernel.Trap.Ptrace
import CypheraKernel.Wait.Family

/-!
# The process table and the wait calls

`kernel/src/process_model/wait.rs`, the wait calls of `kernel/src/syscall/proc.rs`, and what changes
the processes that these calls look at: fork, the two ways to end (`kernel/src/core/death.rs`), stops
and continues (`park.rs`, `signals.rs`) and tracing (`trace_ctl.rs`, `ptrace.rs`).

`Event`, `Tree.run`: one section under the lock after the other, in any order.

A wait call that finds nothing yet and is allowed to block stays in its call; waking it up is left
out, so it may look again at any time.  The states that the scheduler gives a process, and its run
queues, change by events of their own.  The signal that a child asks for at the death of its parent
is an event of its own too.
-/

namespace CypheraKernel.Wait

open Sched (Pid ProcessState stateIsTerminal stateTransitionOk)
open Core (TerminalState)
open Trap (TraceContext TraceStop)
open Lists Function

/-! ### The state -/

/-- A namespace of pids: the number of a process in it, and the process of a number. -/
structure PidNamespace where
  localToHost : ℕ → Option Pid
  hostToLocal : Pid → Option ℕ
  nextLocal : ℕ

/-- A process or thread.  `pidNs` is its namespace with the namespaces around it, from the inside to
the outside; `pendingPidNs` is the namespace that its next child gets. -/
structure Process where
  (tgid pgid : Pid)
  parent : Option Pid
  children : List Pid
  state : ProcessState
  (pidNs pendingPidNs : Option (List ℕ))
  isKernel : Bool
  (euid dumpable : ℕ)
  childSubreaper : Bool
  pendingExit : Option TerminalState
  continuedLatch : Bool
  trace : TraceContext

/-- What a wait call asks for.  The numbers of the caller's namespace are resolved when the call is
made; a number that means no process asks for nothing. -/
inductive Wanted
  | any
  | ownGroup
  | pid (host : Option Pid)
  | group (host : Option Pid)
  deriving DecidableEq, Repr

/-- How far a process is: in a wait call, before or after a child has been chosen, or in its own
end, with the children that still have to get a new parent. -/
inductive Phase
  | user
  | waiting (wanted : Wanted) (target : ℤ) (options : UInt64)
  | reaping (child : Pid) (status : ℕ)
  | leaving (reaper : Pid) (orphans : List Pid)
  | corpse
  deriving DecidableEq, Repr

/-- The process has left its CPU for good. -/
def Phase.left : Phase → Bool
  | .leaving _ _ | .corpse => true
  | _ => false

/-- A stop that a wait call has returned to `caller`: the stop with the given number of the child,
which then had the given parent. -/
structure StopReport where
  (caller child : Pid)
  parent : Option Pid
  stop : ℕ
  deriving DecidableEq, Repr

/-- The process table.  `queued` tells which pids a run queue or a CPU has.  The kernel does not keep
the last four: `stops` counts the job-control stops of each process, and the others are the history
of what has ended and what wait calls have returned. -/
structure Tree where
  processes : Pid → Option Process
  namespaces : ℕ → PidNamespace
  nextPid : ℕ
  phase : Pid → Phase
  queued : Pid → Bool
  stops : Pid → ℕ
  deaths : List Pid
  terminations : List Termination
  stopReports : List StopReport

/-- The panics of the source. -/
inductive Panic
  | negOverflow
  | badStateTransition (site : String) (pid : Pid) (cur new : ProcessState)
  | staleScheduled (site : String) (pid : Pid)
  deriving DecidableEq, Repr

/-- The host namespace. -/
def hostPidNs : List ℕ := [0]

def Process.setState (m : Process) (pid : Pid) (new : ProcessState) (site : String) :
    Except Panic Process :=
  if stateTransitionOk m.state new then .ok { m with state := new }
  else .error (.badStateTransition site pid m.state new)

def Process.ended (m : Process) : Bool := stateIsTerminal m.state

/-- `Process::new` and `Process::new_kthread`. -/
def Process.new (pid : Pid) (isKernel : Bool) : Process where
  tgid := pid
  pgid := pid
  parent := none
  children := []
  state := .runnable
  pidNs := if isKernel then none else some hostPidNs
  pendingPidNs := none
  isKernel := isKernel
  euid := 0
  dumpable := 1
  childSubreaper := false
  pendingExit := none
  continuedLatch := false
  trace := .untraced

/-! ### Namespaces -/

def PidNamespace.empty : PidNamespace where
  localToHost _ := none
  hostToLocal _ := none
  nextLocal := 1

def PidNamespace.assign (ns : PidNamespace) (host : Pid) : PidNamespace :=
  match ns.hostToLocal host with
  | some _ => ns
  | none =>
    { localToHost := update ns.localToHost (ns.nextLocal % 2 ^ 32) (some host)
      hostToLocal := update ns.hostToLocal host (some (ns.nextLocal % 2 ^ 32))
      nextLocal := ns.nextLocal + 1 }

def PidNamespace.drop (ns : PidNamespace) (host : Pid) : PidNamespace :=
  match ns.hostToLocal host with
  | none => ns
  | some l =>
    { ns with
      localToHost := update ns.localToHost l none
      hostToLocal := update ns.hostToLocal host none }

/-- Change the namespaces of a chain. -/
def onChain (f : PidNamespace → PidNamespace) (chain : List ℕ) (nss : ℕ → PidNamespace) :
    ℕ → PidNamespace :=
  chain.foldl (fun nss i => update nss i (f (nss i))) nss

def assignChain (chain : List ℕ) (host : Pid) : (ℕ → PidNamespace) → ℕ → PidNamespace :=
  onChain (·.assign host) chain

def dropChain (chain : List ℕ) (host : Pid) : (ℕ → PidNamespace) → ℕ → PidNamespace :=
  onChain (·.drop host) chain

namespace Tree

/-- Before the first process. -/
def boot : Tree where
  processes _ := none
  namespaces _ := .empty
  nextPid := 1
  phase _ := .user
  queued _ := false
  stops _ := 0
  deaths := []
  terminations := []
  stopReports := []

variable (s : Tree) (p : Pid)

def onProc (q : Pid) (f : Process → Process) : Tree :=
  { s with processes := update s.processes q ((s.processes q).map f) }

def setProc (q : Pid) (m : Process) : Tree :=
  { s with processes := update s.processes q (some m) }

def setPhase (ph : Phase) : Tree :=
  { s with phase := update s.phase p ph }

def setQueued (b : Bool) : Tree :=
  { s with queued := update s.queued p b }

/-- `caller_local_to_host`. -/
def callerLocalToHost (l : ℕ) : Option Pid :=
  match (s.processes p).bind Process.pidNs with
  | none => some l
  | some chain => (chain.head?.map s.namespaces).bind fun ns => ns.localToHost l

/-- The process runs, and is in no call that is modelled step by step. -/
def acting : Option Process :=
  if s.phase p = .user then (s.processes p).filter fun m => m.state = .running else none

/-! ### Births -/

/-- How `fork_current` and `clone_thread_current` end: the address space cannot be copied, the
control group refuses the new pid, or the child is there. -/
inductive BirthOutcome
  | noMemory
  | refused
  | made
  deriving DecidableEq, Repr

/-- `PTRACE_O_TRACEFORK` or `PTRACE_O_TRACEVFORK`, and `PTRACE_O_TRACECLONE`. -/
def forkOption (vfork : Bool) : UInt64 := if vfork then 4 else 2

def cloneOption : UInt64 := 8

/-- The tracer that a child of `m` inherits. -/
def inheritedTracer (m : Process) (option : UInt64) : Option Pid :=
  if m.trace.options &&& option ≠ 0 then m.trace.tracerPid else none

/-- The trace context of a child. -/
def childTrace (m : Process) (option : UInt64) : TraceContext :=
  match inheritedTracer m option with
  | some tracer => TraceContext.untraced.inheritTrace tracer m.trace.options
  | none => .untraced

/-- The event that the parent has to report to its tracer. -/
def postEvent (m : Process) (option : UInt64) (event : ℕ) (child : Pid) : TraceContext :=
  if m.trace.options &&& option ≠ 0 then
    m.trace.postEventStop (.eventStop event) (.ofNat child)
  else m.trace

/-- The tracer of a new process gets it as a tracee. -/
def tellTracer (tracer : Option Pid) (child : Pid) : Tree :=
  match tracer with
  | some t => s.onProc t fun m => { m with trace := m.trace.addTracee child }
  | none => s

/-- `next_pid`, a counter of 32 bits. -/
def freshPid : Pid := s.nextPid % 2 ^ 32

def usePid : Tree := { s with nextPid := s.nextPid + 1 }

/-- The namespace of the next child. -/
def childNs (m : Process) : List ℕ := m.pendingPidNs.getD (m.pidNs.getD hostPidNs)

/-- The child of `m`, which has the pid `p`. -/
def forkChild (m : Process) (vfork : Bool) (child : Pid) : Process where
  tgid := child
  pgid := m.pgid
  parent := some p
  children := []
  state := .runnable
  pidNs := some (childNs m)
  pendingPidNs := none
  isKernel := false
  euid := m.euid
  dumpable := 1
  childSubreaper := false
  pendingExit := none
  continuedLatch := false
  trace := childTrace m (forkOption vfork)

/-- A new thread in the group of `m`. -/
def threadChild (m : Process) : Process where
  tgid := m.tgid
  pgid := m.pgid
  parent := m.parent
  children := []
  state := .runnable
  pidNs := m.pidNs
  pendingPidNs := none
  isKernel := false
  euid := m.euid
  dumpable := 1
  childSubreaper := false
  pendingExit := none
  continuedLatch := false
  trace := childTrace m cloneOption

/-- The child is put into the table. -/
def insertChild (m : Process) (vfork : Bool) : Tree :=
  let child := s.freshPid
  let s := s.setProc child (forkChild p m vfork child)
  let s := s.onProc p fun q => { q with
    pendingPidNs := none
    children := q.children ++ [child]
    trace := postEvent q (forkOption vfork) (if vfork then 2 else 1) child }
  let s := s.tellTracer (inheritedTracer m (forkOption vfork)) child
  { s with namespaces := assignChain (childNs m) child s.namespaces }

/-- A refused child leaves the table and the list of its parent again. -/
def undoChild (m : Process) (child : Pid) : Tree :=
  let s := { s with
    processes := update s.processes child none
    namespaces := dropChain (childNs m) child s.namespaces }
  s.onProc p fun q => { q with children := q.children.filter (· ≠ child) }

def fork (m : Process) (vfork : Bool) : BirthOutcome → Tree
  | .noMemory => s.usePid
  | .refused => ((s.insertChild p m vfork).undoChild p m s.freshPid).usePid
  | .made => (s.insertChild p m vfork).usePid

/-- The thread is put into the table. -/
def insertThread (m : Process) : Tree :=
  let child := s.freshPid
  let s := s.setProc child (threadChild m)
  let s := s.onProc p fun q => { q with trace := postEvent q cloneOption 3 child }
  let s := s.tellTracer (inheritedTracer m cloneOption) child
  { s with namespaces := assignChain (m.pidNs.getD hostPidNs) child s.namespaces }

def cloneThread (m : Process) : BirthOutcome → Tree
  | .noMemory => s.usePid
  | .refused =>
    let child := s.freshPid
    let s := s.insertThread p m
    { s with
      processes := update s.processes child none
      namespaces := dropChain (m.pidNs.getD hostPidNs) child s.namespaces }.usePid
  | .made => (s.insertThread p m).usePid

/-- `register_with_vmspace` and `spawn_kthread`. -/
def register (isKernel : Bool) : Tree :=
  let pid := s.freshPid
  let s := s.setProc pid (.new pid isKernel)
  { s with
    namespaces := if isKernel then s.namespaces else assignChain hostPidNs pid s.namespaces }.usePid

/-! ### Ends -/

/-- The history gets the end of a process that leads its group. -/
def logDeath (pid tgid : Pid) : Tree :=
  if tgid = pid then { s with deaths := s.deaths ++ [pid] } else s

/-- The walk of `handle_dying_children` up the parents. -/
def walkReaper (s : Tree) : ℕ → Option Pid → Option Pid
  | 0, _ => none
  | _, none => none
  | turns + 1, some q =>
    match s.processes q with
    | none => none
    | some m =>
      if m.childSubreaper && !Core.Kernel.isZombie m.state then some q
      else s.walkReaper turns m.parent

def newParent (m : Process) : Pid := (s.walkReaper 1025 m.parent).getD 1

/-- `exit_current` and `terminate_current_with_signal` up to the children.  The process has left its
CPU; only `exit_current` gives the children to somebody. -/
def beginExit (m : Process) (st : TerminalState) (adopts : Bool) : Tree :=
  let s := s.onProc p fun m => { m with pendingExit := some (m.pendingExit.getD st) }
  (s.setPhase p (.leaving (s.newParent m) (if adopts then m.children else []))).setQueued p false

/-- The next child gets the new parent. -/
def adoptChild (reaper child : Pid) : Tree :=
  let s := s.onProc child fun m => { m with parent := some reaper }
  s.onProc reaper fun m => { m with children := pushNew m.children child }

/-- A tracee that is given up goes on. -/
def letTraceeGo (tracer : Pid) (m : Process) : Process :=
  if m.trace.tracedBy tracer then
    { m with
      trace := m.trace.detach
      state := if m.state = .traced then .runnable else m.state }
  else m

/-- What `detach_orphaned_tracees` does to `q`: the list of `p` becomes empty, and each process that
was on it is given up. -/
def orphanTracee (tracees : List Pid) (q : Pid) (m : Process) : Process :=
  let m := if q = p then { m with trace := { m.trace with tracees := [] } } else m
  if q ∈ tracees then letTraceeGo p m else m

def detachOrphanedTracees (m : Process) : Tree :=
  { s with processes := fun q => (s.processes q).map (orphanTracee p m.trace.tracees q) }

/-- The process leaves the table and its namespaces. -/
def removeProc (q : Pid) (m : Process) : Tree :=
  { s with
    processes := update s.processes q none
    namespaces := match m.pidNs with
      | some chain => dropChain chain q s.namespaces
      | none => s.namespaces }

/-- `publish_corpse`. -/
def publishCorpse (m : Process) : Except Panic Tree :=
  match m.pendingExit with
  | none => .ok s
  | some st => do
    let m ← m.setState p st "death"
    let m := { m with pendingExit := none }
    if m.tgid = p then return (s.setProc p m).logDeath p m.tgid
    else if s.queued p then throw (.staleScheduled "thread_corpse_reap" p)
    else return s.removeProc p m

/-- `send_signal_with_info` for `SIGKILL`.  A process that runs or is to run only gets a mark. -/
def sigkill (target : Pid) (m : Process) : Except Panic Tree :=
  let terminal := m.pendingExit.getD (Core.Kernel.killedBy 9)
  match m.state with
  | .stopped => do
    let m ← m.setState target terminal "signals"
    return ((s.setProc target m).setQueued target false).logDeath target m.tgid
  | .cgroupThrottled | .dlThrottled => do
    let m ← m.setState target terminal "signals"
    return (s.setProc target m).logDeath target m.tgid
  | .parked => do
    let m ← m.setState target .runnable "signals"
    return s.setProc target m
  | .traced => do
    let m ← m.setState target .runnable "signals"
    return s.setProc target { m with trace := m.trace.clearStop }
  | .running | .runnable | .zombie _ | .killedByFault _ _ _ | .killedBySignal _ => .ok s

/-! ### Tracing -/

/-- `register_traceme`. -/
def traceme (child : Pid) (m : Process) : Tree :=
  match m.parent with
  | none => s
  | some par =>
    if (s.processes par).isSome && !m.trace.isTraced then
      (s.onProc child fun m => { m with trace := m.trace.setTracer par }).onProc par
        fun q => { q with trace := q.trace.addTracee child }
    else s

/-- The process may be traced by a caller with the effective user `uid`. -/
def mayAttach (m : Process) (uid : ℕ) : Bool :=
  !m.trace.isTraced && !m.isKernel && !m.ended && (uid = 0 || (m.euid = uid && m.dumpable ≠ 0))

/-- `request_ptrace_attach`. -/
def requestPtraceAttach (tracer target : Pid) (caller m : Process) : Except Panic Tree :=
  if mayAttach m caller.euid then do
    let m ←
      if m.state = .running ∨ m.state = .runnable then
        pure { m with trace := m.trace.attachDeferred tracer }
      else do
        let m ← m.setState target .traced "trace_ctl"
        pure { m with trace := m.trace.attach tracer }
    return (s.setProc target m).onProc tracer fun q => { q with trace := q.trace.addTracee target }
  else .ok s

/-- `park_for_trace_stop`. -/
def parkForTraceStop (m : Process) (reason : TraceStop) : Except Panic Tree :=
  if m.trace.isTraced then do
    let m ← m.setState p .traced "park"
    return (s.setProc p { m with trace := m.trace.enterStop reason }).setQueued p false
  else .ok s

/-- `resume_traced`. -/
def resumeTraced (caller target : Pid) (m : Process) (traceSyscall : Bool) : Except Panic Tree :=
  if m.trace.tracedBy caller ∧ m.state = .traced then do
    let m ← m.setState target .runnable "trace_ctl"
    return s.setProc target { m with trace := m.trace.resume traceSyscall }
  else .ok s

/-- `detach` of `kernel/src/ptrace.rs` with `request_ptrace_continue`. -/
def ptraceDetach (caller target : Pid) (m : Process) : Tree :=
  if m.trace.tracedBy caller then
    (s.onProc caller fun q => { q with trace := q.trace.removeTracee target }).onProc target
      (letTraceeGo caller)
  else s

/-- `request_ptrace_continue` for `PTRACE_KILL`. -/
def ptraceKill (caller target : Pid) (m : Process) : Except Panic Tree :=
  if m.trace.tracedBy caller ∧ m.state = .traced then do
    let m ← m.setState target .runnable "trace_ctl"
    return s.setProc target { m with trace := m.trace.clearStop }
  else .ok s

/-! ### Waiting -/

def i64Min : ℤ := -2 ^ 63

/-- `wait_selector_matches`.  Negating the smallest number overflows. -/
def waitSelectorMatches (target : ℤ) (cpid childPgid callerPgid : Pid) : Except Panic Bool :=
  if target > 0 then .ok (cpid = target)
  else if target = 0 then .ok (childPgid = callerPgid)
  else if target = -1 then .ok true
  else if target = i64Min then .error .negOverflow
  else .ok (childPgid = -target)

/-- What a scan of `wait4` finds. -/
inductive WaitScan
  | noChildren
  | reap (child : Pid) (status : ℕ)
  | report (child : Pid) (status : ℕ) (isTraceStop : Bool)
  | continued (child : Pid)
  | noneReady
  deriving DecidableEq, Repr

def wnohang (options : UInt64) : Bool := options &&& 1 ≠ 0

def wuntraced (options : UInt64) : Bool := options &&& 2 ≠ 0

def wcontinued (options : UInt64) : Bool := options &&& 8 ≠ 0

/-- The status of a process that has ended. -/
def exitStatus : ProcessState → ℕ
  | .zombie code => (code % 256).toNat <<< 8
  | .killedByFault _ _ _ => 11
  | .killedBySignal signal => signal % 128
  | _ => 0

/-- `is_reportable_stop`. -/
def isReportableStop (m : Process) : Bool :=
  m.state = .traced && !m.trace.waitConsumed && m.trace.stop.isSome

/-- What there is to say of a child that the call has asked for. -/
def childReport (child : Pid) (m : Process) (isTracee : Bool) (options : UInt64) : Option WaitScan :=
  if m.ended then some (.reap child (exitStatus m.state))
  else if m.state = .stopped ∧ wuntraced options then some (.report child (19 <<< 8 ||| 0x7f) false)
  else if m.state = .traced ∧ isTracee ∧ isReportableStop m then
    some (.report child ((m.trace.stopStatusSignal.getD 19) <<< 8 ||| 0x7f) true)
  else if wcontinued options ∧ m.continuedLatch then some (.continued child)
  else none

/-- One of the candidates is asked for. -/
def anySelected (s : Tree) (target : ℤ) (callerPgid : Pid) : List Pid → Except Panic Bool
  | [] => .ok false
  | c :: cs =>
    match s.processes c with
    | none => s.anySelected target callerPgid cs
    | some m => do
      if ← waitSelectorMatches target c m.pgid callerPgid then return true
      else s.anySelected target callerPgid cs

/-- The first candidate of which there is something to say. -/
def scanCandidates (s : Tree) (me : Process) (target : ℤ) (options : UInt64) :
    List Pid → Except Panic WaitScan
  | [] => .ok .noneReady
  | c :: cs =>
    match s.processes c with
    | none => s.scanCandidates me target options cs
    | some m => do
      if ← waitSelectorMatches target c m.pgid me.pgid then
        match childReport c m (c ∈ me.trace.tracees) options with
        | some r => return r
        | none => s.scanCandidates me target options cs
      else s.scanCandidates me target options cs

/-- The children of the caller, and then its tracees. -/
def candidates (me : Process) : List Pid := me.trace.tracees.foldl pushNew me.children

def wait4Scan (cur : Pid) (target : ℤ) (options : UInt64) : Except Panic WaitScan :=
  match s.processes cur with
  | none => .ok .noChildren
  | some me =>
    if me.children = [] ∧ me.trace.tracees = [] then .ok .noChildren
    else do
      if ← s.anySelected target me.pgid (candidates me) then
        s.scanCandidates me target options (candidates me)
      else return .noChildren

/-- What `sys_wait4` asks for, and what it hands to `wait4_current`. -/
def wait4Target (pid : UInt64) : Wanted × Option ℤ :=
  let raw := pid.toBitVec.toInt
  if raw > 0 then
    (.pid (if raw < 2 ^ 32 then s.callerLocalToHost p raw.toNat else none),
      (s.callerLocalToHost p (pid.toNat % 2 ^ 32)).map Int.ofNat)
  else if raw = 0 then (.ownGroup, some 0)
  else if raw = -1 then (.any, some (-1))
  else
    (.group (if -raw < 2 ^ 32 then s.callerLocalToHost p (-raw).toNat else none), some raw)

/-- What `sys_waitid` asks for, and what it hands to `wait4_current`.  There is no answer for
arguments that are invalid. -/
def waitidTarget (idtype id : UInt64) : Option (Wanted × Option ℤ) :=
  let whole := if id.toNat < 2 ^ 32 then s.callerLocalToHost p id.toNat else none
  let cut := s.callerLocalToHost p (id.toNat % 2 ^ 32)
  if idtype = 0 then some (.any, some (-1))
  else if idtype = 1 then
    if id.toBitVec.toInt ≤ 0 then none else some (.pid whole, cut.map Int.ofNat)
  else if idtype = 2 then
    if id = 0 then some (.ownGroup, some 0) else some (.group whole, cut.map fun (g : ℕ) => -(g : ℤ))
  else none

/-- The call goes on to `wait4_current`, or returns `ECHILD` at once. -/
def enterWait (options : UInt64) : Wanted × Option ℤ → Tree
  | (wanted, some target) => s.setPhase p (.waiting wanted target options)
  | (_, none) => s

/-- The first section of `wait4_current`.  `copied` tells whether a status that is returned at once
can be copied to the caller. -/
def finishScan (options : UInt64) (copied : Bool) : WaitScan → Tree
  | .noChildren => s.setPhase p .user
  | .reap c status =>
    (s.onProc p fun m => { m with
      children := m.children.filter (· ≠ c)
      trace := m.trace.removeTracee c }).setPhase p (.reaping c status)
  | .report c _ isTraceStop =>
    let s := s.setPhase p .user
    if isTraceStop then s.onProc c fun m => { m with trace := m.trace.markWaitConsumed }
    else if copied then
      { s with stopReports :=
        s.stopReports ++ [⟨p, c, (s.processes c).bind Process.parent, s.stops c⟩] }
    else s
  | .continued c => (s.setPhase p .user).onProc c fun m => { m with continuedLatch := false }
  | .noneReady => if wnohang options then s.setPhase p .user else s

/-- The other members of the group that have ended.  Those that a CPU still has are passed over. -/
def zombiePeers (tgid leader : Pid) : List Pid :=
  (List.range s.nextPid).filter fun q =>
    q ≠ leader && (s.processes q).any fun m => m.tgid = tgid && m.ended && !s.queued q

/-- `sweep_thread_group_zombies`. -/
def sweepThreadGroupZombies (tgid leader : Pid) : Tree :=
  let peers := s.zombiePeers tgid leader
  { s with
    processes := fun q => if q ∈ peers then none else s.processes q
    namespaces := peers.foldl (fun nss q =>
      match (s.processes q).bind Process.pidNs with
      | some chain => dropChain chain q nss
      | none => nss) s.namespaces }

/-- The second section of `wait4_current`: the child leaves the table. -/
def finishReap (c : Pid) (status : ℕ) (copied : Bool) : Except Panic Tree :=
  if s.queued c then .error (.staleScheduled "wait4_reap_drain" c)
  else
    let tgid := ((s.processes c).map Process.tgid).getD c
    let told : Termination := ⟨p, c, (s.processes c).bind Process.parent, status, copied⟩
    let s := match s.processes c with
      | some m => s.removeProc c m
      | none => s
    let s := (s.sweepThreadGroupZombies tgid c).setPhase p .user
    .ok { s with terminations := s.terminations ++ [told] }

end Tree

/-! ### Runs -/

/-- One section under the lock of the process table.  The first argument, where there is one, is the
process that takes the step. -/
inductive Event
  | register (isKernel : Bool)
  | fork (p : Pid) (vfork : Bool) (outcome : Tree.BirthOutcome)
  | cloneThread (p : Pid) (outcome : Tree.BirthOutcome)
  | setPgid (p pgid : Pid)
  | setCreds (p : Pid) (euid dumpable : ℕ)
  | setSubreaper (p : Pid) (v : Bool)
  | stagePidNs (p : Pid) (chain : List ℕ)
  | schedule (p : Pid) (state : ProcessState)
  | setQueued (p : Pid) (b : Bool)
  | stop (p : Pid)
  | requestContinue (p : Pid)
  | setContinuedLatch (p : Pid)
  | setPendingExit (p : Pid) (st : TerminalState)
  | exit (p : Pid) (code : ℤ)
  | fatal (p : Pid) (st : TerminalState)
  | adoptNext (p : Pid)
  | detachOrphanedTracees (p : Pid)
  | publishCorpse (p : Pid)
  | sigkill (target : Pid)
  | traceme (p : Pid)
  | attach (p target : Pid)
  | setOptions (p target : Pid) (options : UInt64)
  | traceStop (p : Pid) (reason : TraceStop)
  | resumeTraced (p target : Pid) (traceSyscall : Bool)
  | detach (p target : Pid)
  | ptraceKill (p target : Pid)
  | wait4 (p : Pid) (pid options : UInt64)
  | waitid (p : Pid) (idtype id options : UInt64)
  | scan (p : Pid) (copied : Bool)
  | interrupted (p : Pid)
  | finishReap (p : Pid) (copied : Bool)

namespace Tree

/-- The states between which the scheduler moves a process. -/
def scheduled : ProcessState → Bool
  | .running | .runnable | .parked | .dlThrottled | .cgroupThrottled => true
  | _ => false

variable (s : Tree) (p : Pid)

/-- The scheduler changes the state of a process. -/
def schedule (m : Process) (new : ProcessState) : Tree :=
  if scheduled m.state && scheduled new && stateTransitionOk m.state new && !(s.phase p).left then
    let s := s.setProc p { m with state := new }
    if new = .running ∨ new = .runnable then s else s.setQueued p false
  else s

/-- The step of a process in the middle of a wait call. -/
def runWaiting (step : Phase → Except Panic Tree) : Except Panic Tree :=
  match s.processes p with
  | some m => if m.state = .running then step (s.phase p) else .ok s
  | none => .ok s

/-- The step of a process that makes a call. -/
def runActing (step : Process → Except Panic Tree) : Except Panic Tree :=
  match s.acting p with
  | some m => step m
  | none => .ok s

/-- The step that is done to a process. -/
def runOn (step : Process → Except Panic Tree) : Except Panic Tree :=
  match s.processes p with
  | some m => step m
  | none => .ok s

/-- The effect of an event.  One that is not possible changes nothing. -/
def run : Event → Except Panic Tree
  | .register isKernel => .ok (s.register isKernel)
  | .fork p vfork outcome => s.runActing p fun m => .ok (s.fork p m vfork outcome)
  | .cloneThread p outcome => s.runActing p fun m => .ok (s.cloneThread p m outcome)
  | .setPgid p pgid => .ok (s.onProc p fun m => { m with pgid := if pgid = 0 then p else pgid })
  | .setCreds p euid dumpable => .ok (s.onProc p fun m => { m with euid := euid, dumpable := dumpable })
  | .setSubreaper p v => .ok (s.onProc p fun m => { m with childSubreaper := v })
  | .stagePidNs p chain => .ok (s.onProc p fun m => { m with pendingPidNs := some chain })
  | .schedule p state => s.runOn p fun m => .ok (s.schedule p m state)
  | .setQueued p b => .ok (s.setQueued p b)
  | .stop p => s.runActing p fun m => do
    let m ← m.setState p .stopped "park"
    let s := (s.setProc p m).setQueued p false
    return { s with stops := update s.stops p (s.stops p + 1) }
  | .requestContinue p => s.runOn p fun m =>
    if m.state = .stopped then do
      let m ← m.setState p .runnable "park"
      return s.setProc p m
    else .ok s
  | .setContinuedLatch p => .ok (s.onProc p fun m => { m with continuedLatch := true })
  | .setPendingExit p st =>
    .ok (s.onProc p fun m => { m with pendingExit := some (m.pendingExit.getD st) })
  | .exit p code => s.runActing p fun m => .ok (s.beginExit p m (Core.Kernel.exited code) true)
  | .fatal p st => s.runActing p fun m => .ok (s.beginExit p m st false)
  | .adoptNext p => s.runOn p fun _ =>
    match s.phase p with
    | .leaving reaper (c :: os) => .ok ((s.adoptChild reaper c).setPhase p (.leaving reaper os))
    | _ => .ok s
  | .detachOrphanedTracees p => s.runOn p fun m =>
    match s.phase p with
    | .leaving _ [] => .ok ((s.detachOrphanedTracees p m).setPhase p .corpse)
    | _ => .ok s
  | .publishCorpse p => s.runOn p fun m =>
    if s.phase p = .corpse then s.publishCorpse p m else .ok s
  | .sigkill target => s.runOn target fun m => s.sigkill target m
  | .traceme p => s.runActing p fun m => .ok (s.traceme p m)
  | .attach p target => s.runActing p fun caller => s.runOn target fun m =>
    if target = p then .ok s else s.requestPtraceAttach p target caller m
  | .setOptions p target options => s.runActing p fun _ => s.runOn target fun m =>
    if m.trace.tracedBy p ∧ m.state = .traced then
      .ok (s.setProc target { m with trace := m.trace.setOptions options })
    else .ok s
  | .traceStop p reason => s.runActing p fun m => s.parkForTraceStop p m reason
  | .resumeTraced p target traceSyscall => s.runActing p fun _ => s.runOn target fun m =>
    s.resumeTraced p target m traceSyscall
  | .detach p target => s.runActing p fun _ => s.runOn target fun m => .ok (s.ptraceDetach p target m)
  | .ptraceKill p target => s.runActing p fun _ => s.runOn target fun m => s.ptraceKill p target m
  | .wait4 p pid options => s.runActing p fun _ => .ok (s.enterWait p options (s.wait4Target p pid))
  | .waitid p idtype id options => s.runActing p fun _ =>
    match s.waitidTarget p idtype id with
    | some target => .ok (s.enterWait p options target)
    | none => .ok s
  | .scan p copied => s.runWaiting p fun
    | .waiting _ target options => do
      let r ← s.wait4Scan p target options
      return s.finishScan p options copied r
    | _ => .ok s
  | .interrupted p => s.runWaiting p fun
    | .waiting _ _ _ => .ok (s.setPhase p .user)
    | _ => .ok s
  | .finishReap p copied => s.runWaiting p fun
    | .reaping c status => s.finishReap p c status copied
    | _ => .ok s

/-- The state after an event that does not panic. -/
def step (e : Event) : Option Tree := (s.run e).toOption

end Tree

end CypheraKernel.Wait
