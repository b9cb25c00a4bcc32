import CypheraKernel.Core.Death

/-!
# Charging memory to control groups

The calls of the kernel that charge or uncharge memory: the page faults of
`kernel/src/mm/mmap_fault.rs`, `mprotect`, `munmap` and `madvise` of `kernel/src/syscall/mm.rs`,
writes to another process, `fork`, the migration of a process to another group (`migrate_pid` of
`kernel/src/fs/cgroupfs.rs`), and the ends of processes.  What is charged is recorded twice: in the
groups, and for each process in `cgroupChargedBytes`.
-/

namespace CypheraKernel.Core

open Sched Cgroup
open Rust hiding Panic

namespace Kernel

/-! ### Charging a process -/

variable (k : Kernel) (cpu : ℕ)

def currentCgroup : Option Path :=
  (k.sched.cpus cpu).current.bind k.processCgroup

def recordCharge (pid : Pid) (bytes : ℕ) : Kernel :=
  k.updateLife pid fun l =>
    { l with cgroupChargedBytes := saturatingAddU64 l.cgroupChargedBytes bytes }

def addCgroupCharge (bytes : ℕ) : Kernel :=
  match (k.sched.cpus cpu).current with
  | none => k
  | some pid => k.recordCharge pid bytes

def subCgroupCharge (bytes : ℕ) : Kernel :=
  match (k.sched.cpus cpu).current with
  | none => k
  | some pid =>
    match k.proc? pid with
    | none => k
    | some p =>
      let actual := min bytes (k.life pid).cgroupChargedBytes
      let k := k.updateLife pid fun l =>
        { l with cgroupChargedBytes := l.cgroupChargedBytes - actual }
      match p.cgroup with
      | none => k
      | some cg => if actual > 0 then { k with groups := k.groups.unchargeMemory cg actual } else k

/-- The process with the largest charge, the last one of several. -/
def oomVictim (first : Pid) (rest : List Pid) : Pid :=
  rest.foldl (fun best pid =>
    if k.processChargedBytes best ≤ k.processChargedBytes pid then pid else best) first

/-- `oom_kill_one`. -/
def oomKillOne (cg : Path) : Except Panic Kernel :=
  match (k.groups cg).pids.sort (· ≤ ·) with
  | [] => .ok k
  | first :: rest =>
    let m := (k.groups cg).memory
    let groups := k.groups.setMemory cg { m with eventsOomKill := m.eventsOomKill + 1 }
    { k with groups := groups }.sigkill (k.oomVictim first rest)

/-- How a fault ends after its page has been charged.

* `dropped`: there is no page, and the charge is taken back.  So end a fault that finds no frame or
  no page of the file, and a copy that turns out not to be needed (`BrokenInPlace`,
  `AlreadyWritable`) or fails;
* `kept`: the charge is recorded.  So end the faults that succeed, and those that fail when the file
  is read or in `grow_stack` when the page is mapped;
* `released`: the charge is recorded and taken back, when the page cannot be mapped. -/
inductive ChargeEnd
  | dropped
  | kept
  | released
  deriving DecidableEq, Repr

def pageSize : ℕ := 4096

/-- The end of a fault whose page has been charged to `cg`. -/
def endCharge (cg : Option Path) : ChargeEnd → Kernel
  | .dropped =>
    match cg with
    | none => k
    | some cg => { k with groups := k.groups.unchargeMemory cg pageSize }
  | .kept => k.addCgroupCharge cpu pageSize
  | .released => (k.addCgroupCharge cpu pageSize).subCgroupCharge cpu pageSize

/-- The charge of `fault_in_page`, `try_break_cow` and `grow_stack`. -/
def pageCharge (e : ChargeEnd) : Except Panic Kernel :=
  match k.currentCgroup cpu with
  | none => .ok (k.endCharge cpu none e)
  | some cg =>
    let r := k.groups.tryChargeMemory cg pageSize
    match r.1 with
    | .error _ => { k with groups := r.2 }.oomKillOne cg
    | .ok () => .ok ({ k with groups := r.2 }.endCharge cpu (some cg) e)

/-- `charge_process_memory`: the pages that a write to another process has copied. -/
def chargeProcessMemory (pid : Pid) (bytes : ℕ) : Except Panic Kernel :=
  if bytes = 0 then .ok k
  else
    match k.proc? pid with
    | none => .ok k
    | some p =>
      match p.cgroup with
      | none => .ok (k.recordCharge pid bytes)
      | some cg =>
        let r := k.groups.tryChargeMemory cg bytes
        match r.1 with
        | .error _ => { k with groups := r.2 }.oomKillOne cg
        | .ok () => .ok ({ k with groups := r.2 }.recordCharge pid bytes)

/-- The charge of `mprotect` for the pages that it has copied. -/
def protectCharge (copied : ℕ) : Except Panic Kernel :=
  match (k.sched.cpus cpu).current with
  | none => .ok k
  | some pid => k.chargeProcessMemory pid (copied * pageSize)

/-! ### New processes -/

/-- The scheduling data of a child. -/
def childSched (p : Process) (home : ℕ) : SchedEntity :=
  { p.sched with
    homeCpu := home
    parkingUnsaved := false
    lastRunNs := 0
    dlRuntimeRemaining := 0
    dlAbsoluteDeadline := 0
    dlNextReplenish := 0
    dlThrottled := false
    piOrigClass := none }

def childLife (child parent : Pid) : Life :=
  ⟨child, some parent, [], 0, false, none, 0, false⟩

/-- The child is in the table and on the list of its parent. -/
def enterChild (parent child : Pid) (p : Process) : Kernel :=
  let r := k.sched.pickHomeCpuIn p.sched.cpuAffinity
  { k with
    sched := r.2.setProc child ⟨child, .runnable, .none, childSched p r.1, p.cgroup⟩
    life := Function.update k.life child (childLife child parent) }.updateLife parent fun l =>
      { l with children := l.children ++ [child] }

/-- The part of `fork_current` that the control groups see.  A child that its group refuses leaves
the table again. -/
def forkCurrent (child : Pid) (shareVmspace : Bool) : Kernel :=
  match (k.sched.cpus cpu).current with
  | none => k
  | some parent =>
    match k.proc? parent, k.proc? child with
    | some p, none =>
      let entered := k.enterChild parent child p
      let start (k : Kernel) : Kernel :=
        let home := ((k.proc? child).map fun p => p.sched.homeCpu).getD 0
        let call := if shareVmspace then .vforkChild child else .admitting child home
        { k with sched := k.sched.start call }
      match p.cgroup with
      | none => start entered
      | some cg =>
        match entered.groups.attachPid cg child with
        | .ok groups => start { entered with groups := groups }
        | .error _ =>
          (entered.reap child).updateLife parent fun l =>
            { l with children := l.children.filter fun c => c ≠ child }
    | _, _ => k

/-! ### Migration -/

/-- The groups after an attempt to attach the process. -/
def attachOrKeep (gs : Groups) (g : Path) (pid : Pid) : Groups :=
  match gs.attachPid g pid with
  | .ok gs => gs
  | .error _ => gs

/-- `migrate_pid`. -/
def migratePid (pid : Pid) (target : Path) : Except Errno Unit × Kernel :=
  match k.processCgroup pid with
  | none => (.error .noent, k)
  | some old =>
    if old = target then (.ok (), k)
    else
      let detached := k.groups.detachPid old pid
      match detached.attachPid target pid with
      | .error e => (.error e, { k with groups := attachOrKeep detached old pid })
      | .ok gs =>
        let charged := k.processChargedBytes pid
        if charged > 0 then
          let r := (gs.unchargeMemory old charged).tryChargeMemory target charged
          match r.1 with
          | .error e =>
            let gs := ((r.2.tryChargeMemory old charged).2).detachPid target pid
            (.error e, { k with groups := attachOrKeep gs old pid })
          | .ok () =>
            (.ok (), { k with groups := r.2, sched := k.sched.setProcessCgroup pid target })
        else (.ok (), { k with groups := gs, sched := k.sched.setProcessCgroup pid target })

/-! ### Runs -/

/-- A call, or a step of the rest of the kernel that the calls see: a process is put on a CPU, a
process changes between states in which it lives, and a dead process is reaped. -/
inductive Op
  | fault (cpu : ℕ) (e : ChargeEnd)
  | protect (cpu copied : ℕ)
  | remoteWrite (pid : Pid) (pages : ℕ)
  | unmap (cpu pages : ℕ)
  | fork (cpu : ℕ) (child : Pid) (shareVmspace : Bool)
  | migrate (pid : Pid) (target : Path)
  | death (d : Death)
  | writeMemoryMax (g : Path) (max : Option ℕ)
  | dispatch (cpu : ℕ) (pid : Pid)
  | changeState (pid : Pid) (state : ProcessState)
  | reap (pid : Pid)
  deriving DecidableEq, Repr

/-- The current process of a CPU is there and has not ended. -/
def running : Bool := (k.sched.cpus cpu).current.any k.live

/-- A process that runs can end itself, and any process can be killed. -/
def canEnd : Death → Bool
  | .exit cpu _ | .exitGroup cpu _ | .fatalSignal cpu _ => k.running cpu
  | .sigkill _ => true

/-- One step.  A step that cannot take place changes nothing: a process that has ended makes no
calls. -/
def step : Op → Except Panic Kernel
  | .fault cpu e => if k.running cpu then k.pageCharge cpu e else .ok k
  | .protect cpu copied => if k.running cpu then k.protectCharge cpu copied else .ok k
  | .remoteWrite pid pages => k.chargeProcessMemory pid (pages * pageSize)
  | .unmap cpu pages => .ok (if k.running cpu then k.subCgroupCharge cpu (pages * pageSize) else k)
  | .fork cpu child shareVmspace =>
    .ok (if k.running cpu then k.forkCurrent cpu child shareVmspace else k)
  | .migrate pid target => .ok (k.migratePid pid target).2
  | .death d => if k.canEnd d then d.run k else .ok k
  | .writeMemoryMax g max =>
    .ok { k with groups := k.groups.setMemory g { (k.groups g).memory with max := max } }
  | .dispatch cpu pid =>
    .ok (if k.live pid then { k with sched := k.sched.setCurrent cpu (some pid) } else k)
  | .changeState pid state =>
    match k.proc? pid with
    | some p =>
      .ok (if !stateIsTerminal p.state && !stateIsTerminal state then
        k.setProc pid { p with state := state } else k)
    | none => .ok k
  | .reap pid => .ok (if k.live pid then k else Kernel.reap k pid)

def exec : List Op → Kernel → Except Panic Kernel
  | [], k => .ok k
  | op :: ops, k => do
    let k ← k.step op
    exec ops k

end Kernel

end CypheraKernel.Core
