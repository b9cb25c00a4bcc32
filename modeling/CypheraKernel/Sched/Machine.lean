import CypheraKernel.Cgroup.Cpu
import CypheraKernel.Sched.RunQueue

/-!
# The scheduler: processes, CPUs and the operations on them

The scheduler of `kernel/src/core`, taken apart into its locked sections.  An operation that takes a
lock more than once is several sections, and between two of them it stands in `inFlight` with what
it remembers: a process that it has made runnable and not yet queued, a process that it has stolen,
and so on.  The scheduler loop of a CPU stands in the `phase` of the CPU.

* the sections: waking, parking, yielding and continuing (`park.rs`), dispatching, stealing and the
  replenishing of control groups (`dispatch.rs`), and the change of a scheduling class
  (`sched_class.rs`);
* the tick is in `CypheraKernel.Sched.Tick`, the steps of the machine in `CypheraKernel.Sched.Step`.

Context switches, statistics and interrupts to other CPUs are left out, as is the death of
processes. The clock is read by each section where the kernel reads it; its value is an argument.
-/

namespace CypheraKernel.Sched

open Rust Cgroup Function

/-! ### Panics -/

/-- The checks whose failure stops the kernel, with what the message tells. -/
inductive Panic
  | badTransition (site : String) (pid : Pid) (cur new : SchedOwner)
  | badStateTransition (site : String) (pid : Pid) (cur new : ProcessState)
  | divergence (site : String) (pid : Pid) (state : ProcessState) (owner : SchedOwner)
  | noCurrent (site : String)
  | missing (site : String) (pid : Pid)
  | deadPicked (site : String) (pid : Pid)
  | pickedCurrent
  deriving DecidableEq, Repr

/-! ### Processes -/

/-- The scheduling fields of a process. -/
structure SchedEntity where
  homeCpu : ℕ
  cpuAffinity : UInt64
  parkingUnsaved : Bool
  nice : ℤ
  schedClass : SchedClass
  (vruntime weight lastRunNs dlRuntimeRemaining dlAbsoluteDeadline dlNextReplenish : ℕ)
  dlThrottled : Bool
  piOrigClass : Option SchedClass
  deriving DecidableEq, Repr

/-- The fields that the scheduler reads. -/
structure Process where
  pid : Pid
  state : ProcessState
  owner : SchedOwner
  sched : SchedEntity
  cgroup : Option Path
  deriving DecidableEq, Repr

namespace Process

variable (p : Process)

/-- The owner is changed, and with it the mark that the registers are not saved yet. -/
def withOwner (new : SchedOwner) : Process :=
  { p with
    owner := new
    sched := { p.sched with
      parkingUnsaved := match new with
        | .stopped | .traced | .parked _ => true
        | .running _ => false
        | _ => p.sched.parkingUnsaved } }

def setSchedOwner (new : SchedOwner) (site : String) : Except Panic Process :=
  if !schedOwnerTransitionOk p.owner new then .error (.badTransition site p.pid p.owner new)
  else if !stateOwnerConsistent p.state new then .error (.divergence site p.pid p.state new)
  else .ok (p.withOwner new)

def setState (new : ProcessState) (site : String) : Except Panic Process :=
  if !stateTransitionOk p.state new then .error (.badStateTransition site p.pid p.state new)
  else if !stateOwnerConsistent new p.owner then .error (.divergence site p.pid new p.owner)
  else .ok { p with state := new }

def withVruntime (v : ℕ) : Process := { p with sched := { p.sched with vruntime := v } }

def withHome (cpu : ℕ) : Process := { p with sched := { p.sched with homeCpu := cpu } }

def withLastRun (now : ℕ) : Process :=
  { p with sched := { p.sched with lastRunNs := now } }

/-- The registers of a process that leaves its CPU are not saved yet. -/
def unsaved : Process := { p with sched := { p.sched with parkingUnsaved := true } }

/-- A deadline process gets its runtime for the next period. -/
def replenished (runtimeNs periodNs : ℕ) : Process :=
  { p with sched := { p.sched with
    dlRuntimeRemaining := runtimeNs
    dlAbsoluteDeadline := saturatingAddU64 p.sched.dlAbsoluteDeadline periodNs
    dlNextReplenish := saturatingAddU64 p.sched.dlAbsoluteDeadline periodNs
    dlThrottled := false } }

/-- The process becomes a deadline process. -/
def asDeadline (runtimeNs deadlineNs periodNs now : ℕ) : Process :=
  { p with sched := { p.sched with
    schedClass := .deadline runtimeNs deadlineNs periodNs
    dlRuntimeRemaining := runtimeNs
    dlAbsoluteDeadline := saturatingAddU64 now deadlineNs
    dlNextReplenish := saturatingAddU64 now deadlineNs
    dlThrottled := false } }

/-- A task that moves to another queue keeps its distance to the least virtual runtime. -/
def rebase (srcMin dstMin : ℕ) : Process :=
  if p.sched.schedClass = .cfs then p.withVruntime (saturatingAddU64 (p.sched.vruntime - srcMin) dstMin)
  else p

end Process

/-! ### The machine -/

/-- Where the scheduler loop of a CPU stands, with what it remembers: before `pick_next`, after it,
before `migrate_dispatched_to`, before `switch_to_pid`, and in `switch_to_pid` before the current
process is set. -/
inductive LoopPhase
  | idle
  | picked (pid : Pid) (srcMinVr : ℕ)
  | migrating (pid : Pid) (target srcMinVr : ℕ)
  | dispatching (pid : Pid)
  | switching (pid : Pid)
  deriving DecidableEq, Repr

/-- The run queue and the state of a CPU. -/
structure CpuQueue where
  runnable : RunQueues
  current : Option Pid
  phase : LoopPhase

/-- The runtime of real-time and deadline processes in the current period. -/
structure RtBandwidth where
  (periodNs runtimeNs periodStartNs consumedNs : ℕ)
  throttled : Bool
  deriving DecidableEq, Repr

/-- A new period begins. -/
def RtBandwidth.reset (rt : RtBandwidth) (start : ℕ) : RtBandwidth :=
  { rt with periodStartNs := start, consumedNs := 0, throttled := false }

/-- `charge_rt_runtime`. -/
def RtBandwidth.charge (rt : RtBandwidth) (deltaNs now : ℕ) : RtBandwidth :=
  if rt.runtimeNs = usizeBound - 1 then rt
  else
    let rt := if rt.periodStartNs = 0 ∨ now - rt.periodStartNs ≥ rt.periodNs then rt.reset now else rt
    let rt := { rt with consumedNs := rt.consumedNs + deltaNs }
    if rt.consumedNs ≥ rt.runtimeNs then { rt with throttled := true } else rt

/-- `rt_bandwidth_tick`. -/
def RtBandwidth.tick (rt : RtBandwidth) (now : ℕ) : RtBandwidth :=
  if rt.periodStartNs ≠ 0 ∧ now - rt.periodStartNs ≥ rt.periodNs then rt.reset now else rt

/-- An operation between two of its sections, with what it remembers. -/
inductive InFlight
  /-- a new process that `admit_task` is going to queue -/
  | admitting (pid : Pid) (home : ℕ)
  /-- a new process that its parent is going to queue when it waits for it -/
  | vforkChild (pid : Pid)
  /-- `wake_pid` -/
  | waking (pid : Pid) (home : ℕ)
  /-- a stopped, traced or signalled process that is runnable again and is going to be queued -/
  | resuming (pid : Pid) (home : ℕ) (site : String)
  /-- a traced process that is runnable again, before `reenqueue_runnable` -/
  | resumed (pid : Pid)
  /-- `try_steal_one_to_local` before it looks at the CPU `off` places on -/
  | stealing (cpu off : ℕ)
  | stolen (cpu : ℕ) (pid : Pid) (peerMinVr : ℕ)
  /-- `dl_replenish_callback` after its first section, which has or has not ended a throttling -/
  | dlReplenished (pid : Pid) (released : Bool)
  | dlEnqueue (pid : Pid) (home : ℕ)
  /-- `cgroup_replenish_throttled` before the next candidate -/
  | replenishing (now : ℕ) (candidates : List Pid)
  | replenishCheck (now : ℕ) (pid : Pid) (cg : Path) (rest : List Pid)
  | replenishReset (now : ℕ) (pid : Pid) (cg : Path) (rest : List Pid)
  | replenishHome (now : ℕ) (pid : Pid) (rest : List Pid)
  | replenishEnqueue (now : ℕ) (pid : Pid) (home : ℕ) (rest : List Pid)
  /-- `set_sched_class` after it has read the home CPU -/
  | changing (target : Pid) (home : ℕ) (newClass : SchedClass)
  /-- `set_deadline_class` after it has read the home CPU -/
  | changingDeadline (target : Pid) (home : ℕ) (runtimeNs deadlineNs periodNs : ℕ)
  /-- `pi_boost` and `pi_refresh` before they call `set_sched_class` -/
  | boosting (holder : Pid) (newClass : SchedClass)
  deriving DecidableEq, Repr

/-- The processes, one pair of queue and current process for each CPU, the CPU controllers of the
control groups, the runtime of real-time processes, and the operations in progress.  At least one
CPU is online. -/
structure Machine where
  maxCpus : ℕ
  online : { mask : UInt64 // mask ≠ 0 }
  nextHomeCpu : UInt32
  processes : SortedMap Pid Process
  cpus : ℕ → CpuQueue
  cpuCtl : Path → CpuController
  rt : RtBandwidth
  inFlight : List InFlight

namespace Machine

variable (m : Machine) (pid : Pid)

def proc? : Option Process := m.processes.get? pid

def setProc (p : Process) : Machine :=
  { m with processes := m.processes.insert pid p }

def setRunnable (cpu : ℕ) (rq : RunQueues) : Machine :=
  { m with cpus := update m.cpus cpu { m.cpus cpu with runnable := rq } }

def setCurrent (cpu : ℕ) (cur : Option Pid) : Machine :=
  { m with cpus := update m.cpus cpu { m.cpus cpu with current := cur } }

def setPhase (cpu : ℕ) (phase : LoopPhase) : Machine :=
  { m with cpus := update m.cpus cpu { m.cpus cpu with phase := phase } }

def setCpuCtl (cg : Path) (c : CpuController) : Machine :=
  { m with cpuCtl := update m.cpuCtl cg c }

/-- The operation goes on later. -/
def start (f : InFlight) : Machine := { m with inFlight := f :: m.inFlight }

/-! ### Placing processes -/

def affinityAllows (affinity : UInt64) (cpu : ℕ) : Bool := cpu < 64 && affinity.toNat.testBit cpu

/-- The numbers of the bits set in a mask. -/
def bits (mask : UInt64) : List ℕ := (List.range 64).filter mask.toNat.testBit

/-- The CPUs that are online and allowed, one after the other. -/
def pickHomeCpuIn (affinity : UInt64) : ℕ × Machine :=
  let eff := if m.online.1 &&& affinity = 0 then m.online.1 else m.online.1 &&& affinity
  ((bits eff).getD (m.nextHomeCpu.toNat % (bits eff).length) 64,
    { m with nextHomeCpu := m.nextHomeCpu + 1 })

/-- The home CPU, which is chosen anew when the process may not run there. -/
def effectiveHomeCpu (p : Process) : ℕ × Machine × Process :=
  if affinityAllows p.sched.cpuAffinity p.sched.homeCpu then (p.sched.homeCpu, m, p)
  else
    let r := m.pickHomeCpuIn p.sched.cpuAffinity
    (r.1, r.2, p.withHome r.1)

def cgroupWeight (p : Process) : ℕ :=
  match p.cgroup with
  | some cg => (m.cpuCtl cg).weight
  | none => 100

/-- `enqueue_data_from_proc`. -/
def enqueueData (p : Process) : EnqueueData where
  schedClass := p.sched.schedClass
  vruntime := p.sched.vruntime
  weight := saturatingMulU64 p.sched.weight (m.cgroupWeight p) / 100
  dlDeadline := p.sched.dlAbsoluteDeadline

/-- Put the process into the queue of a CPU.  The process comes back with the virtual runtime at
which it was placed. -/
def enqueue (m : Machine) (cpu : ℕ) (pid : Pid) (p : Process) (kind : CfsPlace) :
    Machine × Process :=
  let r := (m.cpus cpu).runnable.enqueue pid (m.enqueueData p) kind
  (m.setRunnable cpu r.1, p.withVruntime r.2)

/-! ### New processes -/

/-- A process is entered into the table, runnable and with no owner. -/
def spawn (sched : SchedEntity) (cgroup : Option Path) (vfork : Bool) : Machine :=
  match m.proc? pid with
  | some _ => m
  | none =>
    (m.setProc pid ⟨pid, .runnable, .none, sched, cgroup⟩).start
      (if vfork then .vforkChild pid else .admitting pid sched.homeCpu)

/-- `admit_runnable_locked`. -/
def admitRunnable (home : ℕ) (site : String) : Except Panic Machine :=
  match m.proc? pid with
  | none => .ok m
  | some p => do
    let r := m.enqueue home pid p .new
    let p ← r.2.setSchedOwner (.runnable home) site
    return r.1.setProc pid p

/-- The first section of `park_on_vfork_done`: the child is queued here unless it has an owner. -/
def admitVforkChild (cpu : ℕ) (child : Pid) : Except Panic Machine :=
  match m.proc? child with
  | none => .ok m
  | some p => if p.owner = .none then m.admitRunnable child cpu "vfork_child" else .ok m

/-! ### Waking -/

/-- `wake_pid`, first section. -/
def wakePid : Except Panic Machine :=
  match m.proc? pid with
  | none => .ok m
  | some p =>
    if p.state ≠ .parked then .ok m
    else do
      let p ← p.setState .runnable "park"
      let r := m.effectiveHomeCpu p
      let p ← r.2.2.setSchedOwner (.runnable r.1) "wake_pid"
      return (r.2.1.setProc pid p).start (.waking pid r.1)

/-- `wake_pid`, second section. -/
def finishWake (home : ℕ) : Except Panic Machine :=
  match m.proc? pid with
  | none => .ok m
  | some p =>
    if p.state = .runnable then
      let r := m.enqueue home pid p .wake
      .ok (r.1.setProc pid r.2)
    else .ok m

/-- A process that waits in the state `from` is made runnable and queued on its home CPU later: the
signals that wake a parked process, and `request_continue` for a stopped one. -/
def resumeFrom (old : ProcessState) (stateSite site : String) : Except Panic Machine :=
  match m.proc? pid with
  | none => .ok m
  | some p =>
    if p.state ≠ old then .ok m
    else do
      let p ← p.setState .runnable stateSite
      return (m.setProc pid p).start (.resuming pid p.sched.homeCpu site)

def sigkillParked : Except Panic Machine :=
  m.resumeFrom pid .parked "signals" "sigkill_parked_wake"

def signalWakeParked : Except Panic Machine :=
  m.resumeFrom pid .parked "signals" "signal_wake_parked"

def requestContinue : Except Panic Machine :=
  m.resumeFrom pid .stopped "park" "sigcont_wake"

/-- A tracer lets a traced process go on. -/
def resumeTraced : Except Panic Machine :=
  match m.proc? pid with
  | none => .ok m
  | some p =>
    if p.state ≠ .traced then .ok m
    else do
      let p ← p.setState .runnable "trace_ctl"
      return (m.setProc pid p).start (.resumed pid)

/-- `reenqueue_runnable`, first section. -/
def reenqueueRunnable : Machine :=
  match m.proc? pid with
  | none => m
  | some p =>
    if p.state = .runnable then
      let r := m.effectiveHomeCpu p
      (r.2.1.setProc pid r.2.2).start (.resuming pid r.1 "reenqueue_runnable")
    else m

/-- The last section of the operations above: the process is queued whatever its state. -/
def finishResume (home : ℕ) (site : String) : Except Panic Machine :=
  match m.proc? pid with
  | none => .ok m
  | some p => do
    let r := m.enqueue home pid p .wake
    let p ← r.2.setSchedOwner (.runnable home) site
    return r.1.setProc pid p

/-! ### Parking -/

/-- What a parked process waits for. -/
inductive ParkDest
  | sleep (waitqAddr : ℕ)
  | stopped
  | traced
  deriving DecidableEq, Repr

def ParkDest.state : ParkDest → ProcessState
  | sleep _ => .parked
  | stopped => .stopped
  | traced => .traced

def ParkDest.owner : ParkDest → SchedOwner
  | sleep addr => .parked addr
  | stopped => .stopped
  | traced => .traced

/-- `park_current_then`, when its caller has decided to park. -/
def parkCurrent (cpu : ℕ) (dest : ParkDest) (site : String) (now : ℕ) : Except Panic Machine :=
  match (m.cpus cpu).current with
  | none => .ok m
  | some cur =>
    match m.proc? cur with
    | none => .ok (m.setCurrent cpu none)
    | some p => do
      let p ← (p.withLastRun now).setState dest.state "park"
      let p ← p.setSchedOwner dest.owner site
      return (m.setCurrent cpu none).setProc cur p

/-! ### Runtime -/

def nice0Load : ℕ := 1024

def prioToWeight : List ℕ :=
  [88761, 71755, 56483, 46273, 36291, 29154, 23254, 18705, 14949, 11916, 9548, 7620, 6100, 4904,
    3906, 3121, 2501, 1991, 1586, 1277, 1024, 820, 655, 526, 423, 335, 272, 215, 172, 137, 110, 87,
    70, 56, 45, 36, 29, 23, 18, 15]

def niceToWeight (nice : ℤ) : ℕ :=
  if nice + 20 < 0 then nice0Load else prioToWeight.getD (nice + 20).toNat nice0Load

/-- Runtime in virtual time. -/
def calcDeltaVruntime (deltaNs weight : ℕ) : ℕ :=
  if weight = 0 then deltaNs else saturatingMulU64 deltaNs nice0Load / weight

/-- `charge_runtime`: real-time runtime is charged to the machine, fair runtime to the process. -/
def chargeRuntime (p : Process) (deltaNs now : ℕ) : Machine × Process :=
  match p.sched.schedClass with
  | .cfs =>
    let raw := if p.sched.weight = 0 then niceToWeight p.sched.nice else p.sched.weight
    let weight := saturatingMulU64 raw (m.cgroupWeight p) / 100
    (m, p.withVruntime
      (saturatingAddU64 p.sched.vruntime (calcDeltaVruntime deltaNs (max weight 1))))
  | _ => ({ m with rt := m.rt.charge deltaNs now }, p)

/-- `yield_current`. -/
def yieldCurrent (cpu now : ℕ) : Except Panic Machine :=
  match (m.cpus cpu).current with
  | none => .error (.noCurrent "yield_current")
  | some cur =>
    match m.proc? cur with
    | none => .error (.missing "yield_current" cur)
    | some p => do
      let p ← p.setState .runnable "dispatch"
      let p ← p.setSchedOwner (.runnable cpu) "yield_current"
      let c := (m.setCurrent cpu none).chargeRuntime p.unsaved (now - p.sched.lastRunNs) now
      let r := c.1.enqueue cpu cur (c.2.withLastRun now) .continuing
      return r.1.setProc cur r.2

/-! ### Dispatching -/

/-- The next process is taken from the queue. -/
def loopPick (cpu : ℕ) : Machine :=
  match (m.cpus cpu).runnable.pickNext (!m.rt.throttled) with
  | none => m
  | some (pid, rq) => (m.setRunnable cpu rq).setPhase cpu (.picked pid rq.cfsMinVruntime)

/-- A process that may not run here is going to another CPU. -/
def loopCheckAffinity (cpu : ℕ) (pid : Pid) (srcMinVr : ℕ) : Machine :=
  match m.proc? pid with
  | none => m.setPhase cpu (.dispatching pid)
  | some p =>
    if affinityAllows p.sched.cpuAffinity cpu then m.setPhase cpu (.dispatching pid)
    else
      let r := m.pickHomeCpuIn p.sched.cpuAffinity
      if r.1 ≠ cpu then r.2.setPhase cpu (.migrating pid r.1 srcMinVr)
      else r.2.setPhase cpu (.dispatching pid)

/-- Move a process that is in no queue to the queue of a CPU, its new home. -/
def moveTo (p : Process) (cpu srcMinVr : ℕ) (site : String) : Except Panic Machine := do
  let dstMinVr := (m.cpus cpu).runnable.cfsMinVruntime
  let p ← (p.withHome cpu).setSchedOwner (.runnable cpu) site
  let r := m.enqueue cpu pid (p.rebase srcMinVr dstMinVr) .continuing
  return r.1.setProc pid r.2

/-- `migrate_dispatched_to`. -/
def migrateDispatchedTo (target srcMinVr : ℕ) : Except Panic Machine :=
  match m.proc? pid with
  | none => .ok m
  | some p =>
    if stateIsTerminal p.state then .ok m else m.moveTo pid p target srcMinVr "affinity_migrate"

/-- `switch_to_pid`, first section. -/
def switchToPid (cpu : ℕ) (pid : Pid) (now : ℕ) : Except Panic Machine :=
  match m.proc? pid with
  | none => .error (.missing "switch_to_pid" pid)
  | some p =>
    if stateIsTerminal p.state then .ok m
    else do
      let p ← p.setState .running "dispatch"
      let p ← p.setSchedOwner (.running cpu) "switch_to_pid"
      return (m.setProc pid (p.withLastRun now)).setPhase cpu (.switching pid)

/-- `scheduler_loop`, the next section.  The loop runs while the CPU has no current process. -/
def schedulerLoop (cpu now : ℕ) : Except Panic Machine :=
  if (m.cpus cpu).current.isSome then .ok m
  else
    match (m.cpus cpu).phase with
    | .idle => .ok (m.loopPick cpu)
    | .picked pid srcMinVr => .ok ((m.setPhase cpu .idle).loopCheckAffinity cpu pid srcMinVr)
    | .migrating pid target srcMinVr =>
      (m.setPhase cpu .idle).migrateDispatchedTo pid target srcMinVr
    | .dispatching pid => (m.setPhase cpu .idle).switchToPid cpu pid now
    | .switching pid => .ok ((m.setPhase cpu .idle).setCurrent cpu (some pid))

/-! ### Stealing -/

/-- The CPUs have been looked at up to `off`; take a process from the next one. -/
def stealFrom (cpu off : ℕ) : Machine :=
  if off < m.maxCpus then
    let peer := (cpu + off) % m.maxCpus
    let peerMin := (m.cpus peer).runnable.cfsMinVruntime
    match (m.cpus peer).runnable.pickNext (!m.rt.throttled) with
    | none => m.start (.stealing cpu (off + 1))
    | some (pid, rq) =>
      match m.proc? pid with
      | none => (m.setRunnable peer rq).start (.stolen cpu pid peerMin)
      | some p =>
        if p.sched.parkingUnsaved ∨ !affinityAllows p.sched.cpuAffinity cpu ∨ stateIsTerminal p.state
        then
          -- the process is put back
          let r := (m.setRunnable peer rq).enqueue peer pid p .continuing
          (r.1.setProc pid r.2).start (.stealing cpu (off + 1))
        else (m.setRunnable peer rq).start (.stolen cpu pid peerMin)
  else m

/-- The stolen process is queued here. -/
def finishSteal (cpu : ℕ) (pid : Pid) (peerMinVr : ℕ) : Except Panic Machine :=
  match m.proc? pid with
  | none => .ok m
  | some p =>
    if stateIsTerminal p.state then .ok m else m.moveTo pid p cpu peerMinVr "try_steal_one_to_local"

/-- The check of `on_tick` for an idle CPU. -/
def stealIfIdle (cpu : ℕ) : Machine :=
  if (m.cpus cpu).current.isNone && (m.cpus cpu).runnable.isEmpty then m.start (.stealing cpu 1) else m

/-! ### Replenishing -/

/-- `dl_replenish_callback`, first section. -/
def dlReplenishCallback : Except Panic Machine :=
  match m.proc? pid with
  | none => .ok m
  | some p =>
    match p.sched.schedClass with
    | .deadline runtimeNs _ periodNs => do
      let wasThrottled : Bool := p.state = .dlThrottled
      let p := p.replenished runtimeNs periodNs
      let p ← if wasThrottled then p.setState .runnable "sched_class" else .ok p
      return (m.setProc pid p).start (.dlReplenished pid wasThrottled)
    | _ => .ok m

/-- `dl_replenish_callback`, second section: whether the process was throttled is worked out again,
from its state and class alone. -/
def dlCheck : Machine :=
  match m.proc? pid with
  | none => m
  | some p =>
    if p.state = .runnable && p.sched.schedClass.isDeadline then m.start (.dlEnqueue pid p.sched.homeCpu)
    else m

/-- `dl_replenish_callback`, third section. -/
def dlEnqueue (home : ℕ) : Except Panic Machine :=
  match m.proc? pid with
  | none => .ok m
  | some p =>
    if p.state = .runnable then do
      let p ← p.setSchedOwner (.runnable home) "dl_replenish_callback"
      let r := m.enqueue home pid p .continuing
      return r.1.setProc pid r.2
    else .ok m

/-- The processes that wait for their control group to be replenished. -/
def throttledPids : List Pid :=
  (m.processes.entries.filter fun e => e.2.state = .cgroupThrottled).map Prod.fst

/-- The last section of `cgroup_replenish_throttled` for one candidate. -/
def releaseThrottled (home : ℕ) : Except Panic Machine :=
  match m.proc? pid with
  | none => .ok m
  | some p =>
    if p.state = .cgroupThrottled then do
      let p ← p.setState .runnable "dispatch"
      let p ← p.setSchedOwner (.runnable home) "cgroup_throttle_replenish"
      let r := m.enqueue home pid p .wake
      return r.1.setProc pid r.2
    else .ok m

/-- `cgroup_replenish_throttled` asks for the control group of its next candidate, -/
def replenishNext (now : ℕ) : List Pid → Machine
  | [] => m
  | pid :: rest =>
    match (m.proc? pid).bind Process.cgroup with
    | none => m.start (.replenishing now rest)
    | some cg => m.start (.replenishCheck now pid cg rest)

/-- asks whether the period of the group is over, -/
def replenishCheck (now : ℕ) (pid : Pid) (cg : Path) (rest : List Pid) : Machine :=
  if (m.cpuCtl cg).periodElapsed now then m.start (.replenishReset now pid cg rest)
  else m.start (.replenishing now rest)

/-- begins the next period, -/
def replenishReset (now : ℕ) (pid : Pid) (cg : Path) (rest : List Pid) : Machine :=
  (m.setCpuCtl cg ((m.cpuCtl cg).replenish now)).start (.replenishHome now pid rest)

/-- reads the home CPU of the candidate, -/
def replenishHome (now : ℕ) (pid : Pid) (rest : List Pid) : Machine :=
  match m.proc? pid with
  | none => m.start (.replenishing now rest)
  | some p => m.start (.replenishEnqueue now pid p.sched.homeCpu rest)

/-- and queues it there. -/
def replenishEnqueue (now : ℕ) (pid : Pid) (home : ℕ) (rest : List Pid) : Except Panic Machine := do
  let m ← m.releaseThrottled pid home
  return m.start (.replenishing now rest)

/-! ### Scheduling classes -/

/-- `set_sched_class` and `set_deadline_class` lock the queue of the home CPU that they have read.
-/
def setSchedClass (target : Pid) (newClass : SchedClass) : Machine :=
  match m.proc? target with
  | none => m
  | some p => m.start (.changing target p.sched.homeCpu newClass)

/-- The first section of `set_deadline_class`. -/
def setDeadlineClass (target : Pid) (runtimeNs deadlineNs periodNs : ℕ) : Machine :=
  match m.proc? target with
  | none => m
  | some p => m.start (.changingDeadline target p.sched.homeCpu runtimeNs deadlineNs periodNs)

/-- The queue of `home` without the process, if it is runnable. -/
def dequeueIfRunnable (target : Pid) (p : Process) (home : ℕ) : Machine :=
  if p.state = .runnable then
    m.setRunnable home ((m.cpus home).runnable.removePid target).1
  else m

/-- A deadline process that leaves its class gives up its bandwidth and its deadlines. -/
def leaveDeadline (p : Process) (home : ℕ) (newClass : SchedClass) : Machine × Process :=
  match p.sched.schedClass with
  | .deadline runtimeNs _ periodNs =>
    if newClass.isDeadline then (m, p)
    else
      (m.setRunnable home ((m.cpus home).runnable.releaseDlBandwidth runtimeNs periodNs),
        { p with sched := { p.sched with
          dlRuntimeRemaining := 0
          dlAbsoluteDeadline := 0
          dlNextReplenish := 0
          dlThrottled := false } })
  | _ => (m, p)

/-- The class is set, and the virtual runtime of a fair process is at least the least of the queue.
-/
def withClass (p : Process) (home : ℕ) (newClass : SchedClass) : Process :=
  { p with sched := { p.sched with
    schedClass := newClass
    vruntime :=
      if newClass = .cfs then max p.sched.vruntime (m.cpus home).runnable.cfsMinVruntime
      else p.sched.vruntime } }

/-- `set_sched_class`, second section. -/
def changeClass (target : Pid) (home : ℕ) (newClass : SchedClass) : Except Panic Machine :=
  match m.proc? target with
  | none => .ok m
  | some p => do
    let wasQueued : Bool := p.state = .runnable
    let m := m.dequeueIfRunnable target p home
    let unthrottled : Bool :=
      p.sched.schedClass.isDeadline && !newClass.isDeadline && p.state = .dlThrottled
    let l := m.leaveDeadline p home newClass
    let p ← if unthrottled then l.2.setState .runnable "sched_class" else .ok l.2
    let p := l.1.withClass p home newClass
    if unthrottled then
      let p ← p.setSchedOwner (.runnable home) "set_sched_class"
      let r := l.1.enqueue home target p .wake
      return r.1.setProc target r.2
    else if wasQueued then
      let r := l.1.enqueue home target p .continuing
      return r.1.setProc target r.2
    else return l.1.setProc target p

/-- The queue with the bandwidth of a process exchanged, if the new bandwidth is admitted. -/
def exchangeBandwidth (rq : RunQueues) (p : Process) (runtimeNs periodNs : ℕ) : Option RunQueues :=
  let released := match p.sched.schedClass with
    | .deadline rt _ pe => rq.releaseDlBandwidth rt pe
    | _ => rq
  released.admitDlBandwidth runtimeNs periodNs

/-- The queue after a refusal: the old bandwidth is asked for again. -/
def restoreBandwidth (rq : RunQueues) (p : Process) : RunQueues :=
  match p.sched.schedClass with
  | .deadline rt _ pe =>
    let released := rq.releaseDlBandwidth rt pe
    (released.admitDlBandwidth rt pe).getD released
  | _ => rq

/-- `set_deadline_class`, second section. -/
def changeDeadlineClass (target : Pid) (home runtimeNs deadlineNs periodNs now : ℕ) : Machine :=
  match m.proc? target with
  | none => m
  | some p =>
    match exchangeBandwidth (m.cpus home).runnable p runtimeNs periodNs with
    | none => m.setRunnable home (restoreBandwidth (m.cpus home).runnable p)
    | some rq =>
      let wasRunnable : Bool := p.state = .runnable
      let m := (m.setRunnable home rq).dequeueIfRunnable target p home
      let p := p.asDeadline runtimeNs deadlineNs periodNs now
      if wasRunnable then
        let r := m.enqueue home target p .continuing
        r.1.setProc target r.2
      else m.setProc target p

/-- `pi_boost`. -/
def piBoost (holder : Pid) (targetPrio : UInt8) : Machine :=
  match m.proc? holder with
  | none => m
  | some p =>
    if p.sched.schedClass.priority ≥ targetPrio then m
    else
      let orig := p.sched.piOrigClass.getD p.sched.schedClass
      (m.setProc holder { p with sched := { p.sched with piOrigClass := some orig } }).start
        (.boosting holder (.rt targetPrio false))

/-- `pi_refresh`. -/
def piRefresh (holder : Pid) (topWaiterPrio : UInt8) : Machine :=
  match m.proc? holder with
  | none => m
  | some p =>
    let origPrio := (p.sched.piOrigClass.getD p.sched.schedClass).priority
    let finalPrio := max topWaiterPrio origPrio
    if finalPrio = origPrio then
      match p.sched.piOrigClass with
      | some orig =>
        (m.setProc holder { p with sched := { p.sched with piOrigClass := none } }).start
          (.boosting holder orig)
      | none => m
    else if .rt finalPrio false = p.sched.schedClass then m
    else m.start (.boosting holder (.rt finalPrio false))

/-! ### Parameters -/

def setCpuAffinity (mask : UInt64) : Machine :=
  match m.proc? pid with
  | none => m
  | some p => m.setProc pid { p with sched := { p.sched with cpuAffinity := mask } }

def setNice (value : ℤ) : Machine :=
  match m.proc? pid with
  | none => m
  | some p =>
    m.setProc pid { p with sched := { p.sched with nice := value, weight := niceToWeight value } }

/-- `set_process_cgroup`, the last section of a migration. -/
def setProcessCgroup (cg : Path) : Machine :=
  match m.proc? pid with
  | none => m
  | some p => m.setProc pid { p with cgroup := some cg }

/-- A write to a control file of a group, which may be refused. -/
def writeCpuCtl (cg : Path) (write : CpuController → Except Errno CpuController) : Machine :=
  match write (m.cpuCtl cg) with
  | .ok c => m.setCpuCtl cg c
  | .error _ => m

def setRtPeriodNs (periodNs : ℕ) : Machine :=
  if periodNs = 0 then m else { m with rt := { m.rt with periodNs := periodNs }.reset 0 }

def setRtRuntimeNs (runtimeNs : ℕ) : Machine :=
  { m with rt := { m.rt with runtimeNs := runtimeNs }.reset 0 }

end Machine

end CypheraKernel.Sched
