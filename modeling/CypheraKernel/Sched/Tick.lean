import CypheraKernel.Sched.Machine

/-!
# The timer tick

`on_tick` of `kernel/src/core/dispatch.rs`, the section under the lock of the CPU's queue: the
running process is charged, and when it has used up its slice, its quota or its deadline runtime
another one is started.
-/

namespace CypheraKernel.Sched.Machine

open Rust

def schedWakeupGranularityNs : ℕ := 1000000
def schedRrTimesliceNs : ℕ := 100000000

/-- What the tick decides about the running process: it stays; another one may run; it is put into a
throttled state. -/
inductive Verdict
  | stay
  | reschedule
  | throttle (state : ProcessState)
  deriving DecidableEq, Repr

variable (m : Machine) (cpu : ℕ)

/-- The quota of the process's own control group is charged. -/
def chargeCgroup (p : Process) (delta now : ℕ) : Bool × Machine :=
  match p.cgroup with
  | some cg =>
    let r := (m.cpuCtl cg).chargeCpuRuntime delta now
    (r.1, m.setCpuCtl cg r.2)
  | none => (false, m)

/-- A fair process leaves when a process with less virtual runtime waits, or at the end of its
slice. -/
def cfsPreempted (rq : RunQueues) (p : Process) (delta : ℕ) : Bool :=
  saturatingAddU64 rq.cfsLeftmostVruntimePub schedWakeupGranularityNs < p.sched.vruntime ||
    !(delta < rq.cfsSliceFor p.sched.weight)

def chargeCurrent (p : Process) (now : ℕ) : Verdict × Machine × Process :=
  let rq := (m.cpus cpu).runnable
  let delta := now - p.sched.lastRunNs
  let rtTop := rq.rtTopPriority
  match p.sched.schedClass with
  | .cfs =>
    let c := m.chargeCgroup p delta now
    if c.1 then (.throttle .cgroupThrottled, c.2, p.withLastRun now)
    else
      let r := c.2.chargeRuntime p delta now
      let p := r.2.withLastRun now
      if rq.isEmpty then (.stay, r.1, p)
      else if rtTop.isSome then (.reschedule, r.1, p)
      else if cfsPreempted rq p delta then (.reschedule, r.1, p)
      else (.stay, r.1, p)
  | .rt priority roundRobin =>
    if rq.isEmpty then (.stay, m, p.withLastRun now)
    else if rtTop.any fun t => t > priority.toNat then (.reschedule, m, p.withLastRun now)
    else if roundRobin then
      if !(rtTop.any fun t => t = priority.toNat) ∨ delta < schedRrTimesliceNs then (.stay, m, p)
      else (.reschedule, m, p.withLastRun now)
    else (.stay, m, p)
  | .deadline _ _ _ =>
    let remaining := p.sched.dlRuntimeRemaining - min delta p.sched.dlRuntimeRemaining
    let p := { p with sched := { p.sched with dlRuntimeRemaining := remaining, lastRunNs := now } }
    if remaining = 0 then
      (.throttle .dlThrottled, m, { p with sched := { p.sched with dlThrottled := true } })
    else if rq.isEmpty then (.stay, m, p)
    else (.reschedule, m, p)

/-- A fair process whose control group is throttled. -/
def cgroupIsThrottled (p : Process) : Bool :=
  p.sched.schedClass = .cfs && p.cgroup.any fun cg => (m.cpuCtl cg).throttled

/-- The loop of `on_tick` over `pick_next`.  Each turn takes a process out, so the number of
processes queued, and one more, is fuel enough. -/
def pickRunnable (cpu : ℕ) : ℕ → Machine → Except Panic (Option Pid × Machine)
  | 0, m => .ok (none, m)
  | fuel + 1, m =>
    match (m.cpus cpu).runnable.pickNext (!m.rt.throttled) with
    | none => .ok (none, m)
    | some (n, rq) =>
      let m := m.setRunnable cpu rq
      match m.proc? n with
      | none => .ok (some n, m)
      | some p =>
        if m.cgroupIsThrottled p then do
          let p ← p.setState .cgroupThrottled "dispatch"
          let p ← p.setSchedOwner (.parked 0) "on_tick/throttle_peer"
          pickRunnable cpu fuel (m.setProc n p)
        else .ok (some n, m)

/-- No other process is there: a process that has been throttled leaves the CPU idle. -/
def tickIdle (cur : Pid) (throttled : Bool) : Except Panic Machine :=
  if throttled then
    match m.proc? cur with
    | none => .ok (m.setCurrent cpu none)
    | some p => do
      let p ← p.setSchedOwner (.parked 0) "on_tick/throttle_idle"
      return (m.setCurrent cpu none).setProc cur p
  else .ok m

/-- The running process is queued again, or leaves in its throttled state. -/
def tickLeave (cur : Pid) (throttled : Bool) : Except Panic Machine :=
  match m.proc? cur with
  | none => .error (.missing "on_tick/preempt(cur)" cur)
  | some p =>
    if throttled then do
      let p ← p.setSchedOwner (.parked 0) "on_tick/throttle_preempt"
      return m.setProc cur p
    else do
      let p ← p.setState .runnable "dispatch"
      let p ← p.setSchedOwner (.runnable cpu) "on_tick/preempt(cur)"
      let r := m.enqueue cpu cur p.unsaved .continuing
      return r.1.setProc cur r.2

/-- The process picked is started. -/
def tickEnter (next : Pid) (now : ℕ) : Except Panic Machine :=
  match m.proc? next with
  | none => .error (.missing "on_tick/preempt(next)" next)
  | some p =>
    if stateIsTerminal p.state then .error (.deadPicked "on_tick/preempt(next)" next)
    else do
      let p ← p.setState .running "dispatch"
      let p ← p.setSchedOwner (.running cpu) "on_tick/preempt(next)"
      return m.setProc next (p.withLastRun now)

/-- The end of the tick, with the process picked. -/
def tickSwitch (cur next : Pid) (throttled : Bool) (now : ℕ) : Except Panic Machine :=
  match m.proc? next with
  | some p =>
    if affinityAllows p.sched.cpuAffinity cpu then go
    else
      -- the process is put back; the running one stays, throttled or not
      let r := m.enqueue cpu next p .continuing
      .ok (r.1.setProc next r.2)
  | none => go
where
  go : Except Panic Machine := do
    if next = cur then throw .pickedCurrent
    let m ← (m.setCurrent cpu (some next)).tickLeave cpu cur throttled
    m.tickEnter cpu next now

/-- The tick goes on to another process. -/
def tickResched (cur : Pid) (throttled : Bool) (now : ℕ) : Except Panic Machine := do
  let r ← pickRunnable cpu ((m.cpus cpu).runnable.pids.length + 1) m
  match r.1 with
  | none => r.2.tickIdle cpu cur throttled
  | some next => r.2.tickSwitch cpu cur next throttled now

def onTick (now : ℕ) : Except Panic Machine :=
  match (m.cpus cpu).current with
  | none => .ok m
  | some cur =>
    match m.proc? cur with
    | none => m.tickResched cpu cur false now
    | some p =>
      let c := m.chargeCurrent cpu p now
      match c.1 with
      | .stay => .ok (c.2.1.setProc cur c.2.2)
      | .reschedule => (c.2.1.setProc cur c.2.2).tickResched cpu cur false now
      | .throttle state => do
        let p ← c.2.2.setState state "dispatch"
        (c.2.1.setProc cur p).tickResched cpu cur true now

end CypheraKernel.Sched.Machine
