import CypheraKernel.Sched.Tick

/-!
# Runs of the scheduler

* `Event`, `step`: a call enters its first section, or an operation in flight takes its next one;
* `exec`: a run, up to the first panic;
* `boot`: no processes yet, any control groups and any number of CPUs.
-/

namespace CypheraKernel.Sched

open Cgroup

/-- The locked sections. -/
inductive Event
  | spawn (pid : Pid) (sched : SchedEntity) (cgroup : Option Path) (vfork : Bool)
  | parkOnVforkDone (cpu : ℕ) (child : Pid)
  | wake (pid : Pid)
  | sigkillParked (pid : Pid)
  | signalWakeParked (pid : Pid)
  | requestContinue (pid : Pid)
  | resumeTraced (pid : Pid)
  | park (cpu : ℕ) (dest : Machine.ParkDest) (site : String) (now : ℕ)
  | yield (cpu now : ℕ)
  | schedulerLoop (cpu now : ℕ)
  | stealIfIdle (cpu : ℕ)
  | tick (cpu now : ℕ)
  | dlReplenish (pid : Pid)
  | cgroupReplenish (now : ℕ)
  | setSchedClass (target : Pid) (newClass : SchedClass)
  | setDeadlineClass (target : Pid) (runtimeNs deadlineNs periodNs : ℕ)
  | piBoost (holder : Pid) (targetPrio : UInt8)
  | piRefresh (holder : Pid) (topWaiterPrio : UInt8)
  | setCpuAffinity (pid : Pid) (mask : UInt64)
  | setNice (pid : Pid) (value : ℤ)
  | setProcessCgroup (pid : Pid) (cg : Path)
  | writeCpuMax (cg : Path) (text : List Char)
  | writeCpuWeight (cg : Path) (text : List Char)
  | rtBandwidthTick (now : ℕ)
  | setRtPeriod (periodNs : ℕ)
  | setRtRuntime (runtimeNs : ℕ)
  /-- the operation in flight takes its next section -/
  | resume (f : InFlight) (now : ℕ)
  deriving DecidableEq, Repr

namespace Machine

/-- The next section of an operation that is no longer in flight. -/
def advance (m : Machine) (now : ℕ) : InFlight → Except Panic Machine
  | .admitting pid home => m.admitRunnable pid home "admit"
  -- queued by `parkOnVforkDone` only
  | .vforkChild pid => .ok (m.start (.vforkChild pid))
  | .waking pid home => m.finishWake pid home
  | .resuming pid home site => m.finishResume pid home site
  | .resumed pid => .ok (m.reenqueueRunnable pid)
  | .stealing cpu off => .ok (m.stealFrom cpu off)
  | .stolen cpu pid peerMinVr => m.finishSteal cpu pid peerMinVr
  | .dlReplenished pid _ => .ok (m.dlCheck pid)
  | .dlEnqueue pid home => m.dlEnqueue pid home
  | .replenishing now candidates => .ok (m.replenishNext now candidates)
  | .replenishCheck now pid cg rest => .ok (m.replenishCheck now pid cg rest)
  | .replenishReset now pid cg rest => .ok (m.replenishReset now pid cg rest)
  | .replenishHome now pid rest => .ok (m.replenishHome now pid rest)
  | .replenishEnqueue now pid home rest => m.replenishEnqueue now pid home rest
  | .changing target home newClass => m.changeClass target home newClass
  | .changingDeadline target home runtimeNs deadlineNs periodNs =>
    .ok (m.changeDeadlineClass target home runtimeNs deadlineNs periodNs now)
  | .boosting holder newClass => .ok (m.setSchedClass holder newClass)

/-- The operation is in flight no longer. -/
def finish (m : Machine) (f : InFlight) : Machine := { m with inFlight := m.inFlight.erase f }

/-- One section.  An event that cannot take place changes nothing. -/
def step (m : Machine) : Event → Except Panic Machine
  | .spawn pid sched cgroup vfork => .ok (m.spawn pid sched cgroup vfork)
  | .parkOnVforkDone cpu child =>
    if .vforkChild child ∈ m.inFlight then (m.finish (.vforkChild child)).admitVforkChild cpu child
    else .ok m
  | .wake pid => m.wakePid pid
  | .sigkillParked pid => m.sigkillParked pid
  | .signalWakeParked pid => m.signalWakeParked pid
  | .requestContinue pid => m.requestContinue pid
  | .resumeTraced pid => m.resumeTraced pid
  | .park cpu dest site now => m.parkCurrent cpu dest site now
  -- only a process that runs can yield
  | .yield cpu now => if (m.cpus cpu).current.isSome then m.yieldCurrent cpu now else .ok m
  | .schedulerLoop cpu now => m.schedulerLoop cpu now
  | .stealIfIdle cpu => .ok (m.stealIfIdle cpu)
  | .tick cpu now => m.onTick cpu now
  | .dlReplenish pid => m.dlReplenishCallback pid
  | .cgroupReplenish now => .ok (m.start (.replenishing now m.throttledPids))
  | .setSchedClass target newClass => .ok (m.setSchedClass target newClass)
  | .setDeadlineClass target runtimeNs deadlineNs periodNs =>
    .ok (m.setDeadlineClass target runtimeNs deadlineNs periodNs)
  | .piBoost holder targetPrio => .ok (m.piBoost holder targetPrio)
  | .piRefresh holder topWaiterPrio => .ok (m.piRefresh holder topWaiterPrio)
  | .setCpuAffinity pid mask => .ok (m.setCpuAffinity pid mask)
  | .setNice pid value => .ok (m.setNice pid value)
  | .setProcessCgroup pid cg => .ok (m.setProcessCgroup pid cg)
  | .writeCpuMax cg text => .ok (m.writeCpuCtl cg fun c => c.writeMax text)
  | .writeCpuWeight cg text => .ok (m.writeCpuCtl cg fun c => c.writeWeight text)
  | .rtBandwidthTick now => .ok { m with rt := m.rt.tick now }
  | .setRtPeriod periodNs => .ok (m.setRtPeriodNs periodNs)
  | .setRtRuntime runtimeNs => .ok (m.setRtRuntimeNs runtimeNs)
  | .resume f now => if f ∈ m.inFlight then (m.finish f).advance now f else .ok m

/-- The sections of a run, one after the other. -/
def exec : List Event → Machine → Except Panic Machine
  | [], m => .ok m
  | e :: es, m => do
    let m ← m.step e
    exec es m

/-- The state before the first process. -/
def boot (maxCpus : ℕ) (online : { mask : UInt64 // mask ≠ 0 }) (cpuCtl : Path → CpuController)
    (rt : RtBandwidth) : Machine where
  maxCpus := maxCpus
  online := online
  nextHomeCpu := 0
  processes := .empty
  cpus := fun _ => ⟨.new, none, .idle⟩
  cpuCtl := cpuCtl
  rt := rt
  inFlight := []

end Machine

end CypheraKernel.Sched
