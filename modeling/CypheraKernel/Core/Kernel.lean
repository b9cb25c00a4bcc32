import CypheraKernel.Cgroup.Accounts
import CypheraKernel.Sched.Ownership

/-!
# Processes, their control groups and their locks

The state that ending a process has to put in order: beside the scheduler (`CypheraKernel.Sched`)
the family of each process, the memory it has charged, the control groups and the POSIX record
locks.

`sigkill`: `send_signal_with_info` of `kernel/src/core/signals.rs` for `SIGKILL`, which ends a
process that is stopped or throttled at once and leaves a mark on any other.

Signals other than `SIGKILL` end no process; what they do to the signal queues, and the wake-ups of
waiting processes, are left out.
-/

namespace CypheraKernel.Core

open Sched Cgroup Process Machine
open Rust hiding Panic

/-! ### The state -/

/-- A state that a process does not leave. -/
abbrev TerminalState := { s : ProcessState // stateIsTerminal s = true }

/-- What is kept of a process beside what the scheduler reads.  `sigkillPending` tells whether
`SIGKILL` is among the pending signals. -/
structure Life where
  tgid : Pid
  parent : Option Pid
  children : List Pid
  pdeathsig : ℕ
  childSubreaper : Bool
  pendingExit : Option TerminalState
  cgroupChargedBytes : ℕ
  sigkillPending : Bool
  deriving DecidableEq

/-- The life with the mark of a kill. -/
def Life.marked (l : Life) : Life := { l with sigkillPending := true }

/-- A POSIX record lock on the bytes from `start` up to `stop`. -/
structure FileLock where
  (kind start stop : ℕ)
  owner : Pid
  deriving DecidableEq, Repr

/-- The scheduler, the lives of its processes, the control groups, and the locks of each inode.
What `life` tells about a pid without a process means nothing. -/
structure Kernel where
  sched : Machine
  life : Pid → Life
  groups : Groups
  locks : ℕ → List FileLock

namespace Kernel

def proc? (k : Kernel) (pid : Pid) : Option Process := k.sched.proc? pid

variable (k : Kernel) (pid : Pid)

/-- The process is there and has not ended. -/
def live : Bool := (k.proc? pid).any fun p => !stateIsTerminal p.state

def processCgroup : Option Path := (k.proc? pid).bind cgroup

def processChargedBytes : ℕ :=
  if (k.proc? pid).isSome then (k.life pid).cgroupChargedBytes else 0

def setProc (k : Kernel) (pid : Pid) (p : Process) : Kernel :=
  { k with sched := k.sched.setProc pid p }

/-- Change the life of a process, if it is there. -/
def updateLife (f : Life → Life) : Kernel :=
  if (k.proc? pid).isSome then { k with life := Function.update k.life pid (f (k.life pid)) } else k

/-- The bandwidth promised to deadline processes of a CPU. -/
def dlTotalBw (k : Kernel) (cpu : ℕ) : ℕ := (k.sched.cpus cpu).runnable.dlTotalBw

/-- The queue of the home CPU gets back the bandwidth of a deadline process. -/
def releaseDlBandwidth (k : Kernel) (p : Process) : Kernel :=
  match p.sched.schedClass with
  | .deadline runtimeNs _ periodNs =>
    let rq := (k.sched.cpus p.sched.homeCpu).runnable.releaseDlBandwidth runtimeNs periodNs
    { k with sched := k.sched.setRunnable p.sched.homeCpu rq }
  | _ => k

/-! ### Killing -/

def signalKill : ℕ := 9

/-- How a signal ends a process. -/
def killedBy (signal : ℕ) : TerminalState := ⟨.killedBySignal signal, rfl⟩

/-- The state in which `SIGKILL` leaves a process that it ends. -/
def killedState : TerminalState :=
  (k.life pid).pendingExit.getD (killedBy signalKill)

def markSigkill : Kernel :=
  k.updateLife pid Life.marked

/-- `reenqueue_runnable`, both sections. -/
def reenqueueRunnable (m : Machine) (pid : Pid) : Except Panic Machine :=
  match m.proc? pid with
  | none => .ok m
  | some p =>
    if p.state = .runnable then
      let r := m.effectiveHomeCpu p
      (r.2.1.setProc pid r.2.2).finishResume pid r.1 "reenqueue_runnable"
    else .ok m

/-- `send_signal_with_info` for `SIGKILL`.  A target that does not exist is an error for the caller,
which none of the callers here looks at. -/
def sigkill (target : Pid) : Except Panic Kernel :=
  match k.proc? target with
  | none => .ok k
  | some p =>
    match p.state with
    | .running | .runnable => .ok (k.markSigkill target)
    | .stopped => do
      let p ← p.setState (k.killedState target) "signals"
      let m := k.sched.setProc target p
      let rq := ((m.cpus p.sched.homeCpu).runnable.removePid target).1
      return { k with sched := m.setRunnable p.sched.homeCpu rq }
    | .parked => do
      let p ← p.setState .runnable "signals"
      let k := (k.markSigkill target).setProc target p
      let m ← k.sched.finishResume target p.sched.homeCpu "sigkill_parked_wake"
      return { k with sched := m }
    | .traced => do
      let p ← p.setState .runnable "signals"
      let k := (k.markSigkill target).setProc target p
      let m ← reenqueueRunnable k.sched target
      return { k with sched := m }
    | .cgroupThrottled => do
      let p ← p.setState (k.killedState target) "signals"
      return k.setProc target p
    | .dlThrottled => do
      let p ← p.setState (k.killedState target) "signals"
      return (k.setProc target p).releaseDlBandwidth p
    | .zombie _ | .killedByFault _ _ _ | .killedBySignal _ => .ok k

end Kernel

/-! ### The parts of the state -/

/-- The bandwidth of a deadline process, in the units of `dlTotalBw`. -/
def bandwidth (p : Process) : ℕ :=
  match p.sched.schedClass with
  | .deadline runtimeNs _ periodNs => saturatingMulU64 runtimeNs dlBwScale / periodNs
  | _ => 0

variable (rq : RunQueues) {site : String} {p q : Process}

@[simp] theorem dlTotalBw_enqueue (pid : Pid) (data : EnqueueData) (kind : CfsPlace) :
    (rq.enqueue pid data kind).1.dlTotalBw = rq.dlTotalBw := by
  unfold RunQueues.enqueue
  split <;> rfl

@[simp] theorem dlTotalBw_removePid (pid : Pid) :
    (rq.removePid pid).1.dlTotalBw = rq.dlTotalBw := by
  simp [RunQueues.removePid, RunQueues.removeRt]

theorem dlTotalBw_releaseDlBandwidth (runtimeNs periodNs : ℕ) :
    (rq.releaseDlBandwidth runtimeNs periodNs).dlTotalBw =
      rq.dlTotalBw - saturatingMulU64 runtimeNs dlBwScale / periodNs := by
  grind [RunQueues.releaseDlBandwidth]

theorem setState_terminal (p : Process) (st : TerminalState) (site : String) :
    p.setState st site = .ok { p with state := st } := by
  have htransition : stateTransitionOk p.state st = true := by simp [stateTransitionOk, st.2]
  have hconsistent : stateOwnerConsistent st p.owner = true := by simp [stateOwnerConsistent, st.2]
  simp [setState, htransition, hconsistent]

theorem setState_eq {new : ProcessState}
    (h : p.setState new site = .ok q) : q = { p with state := new } := by grind [setState]

theorem setSchedOwner_eq {new : SchedOwner}
    (h : p.setSchedOwner new site = .ok q) : q = p.withOwner new := by grind [setSchedOwner]

namespace Kernel

variable {k k' : Kernel} {pid q : Pid} {p : Process}

@[simp] theorem proc?_setProc_self (k : Kernel) (pid : Pid) (p : Process) :
    (k.setProc pid p).proc? pid = some p := Machine.proc?_setProc_self _ _ _

theorem proc?_setProc_of_ne (k : Kernel) (h : q ≠ pid) (p : Process) :
    (k.setProc pid p).proc? q = k.proc? q := Machine.proc?_setProc_of_ne _ h _

section

variable (k : Kernel) (pid : Pid) (f : Life → Life)

@[simp] theorem sched_updateLife : (k.updateLife pid f).sched = k.sched := by
  unfold updateLife
  split_ifs <;> rfl

@[simp] theorem proc?_updateLife (q : Pid) : (k.updateLife pid f).proc? q = k.proc? q := by
  rw [proc?, sched_updateLife, proc?]

@[simp] theorem groups_updateLife : (k.updateLife pid f).groups = k.groups := by
  unfold updateLife
  split_ifs <;> rfl

@[simp] theorem locks_updateLife : (k.updateLife pid f).locks = k.locks := by
  unfold updateLife
  split_ifs <;> rfl

@[simp] theorem dlTotalBw_updateLife (c : ℕ) :
    (k.updateLife pid f).dlTotalBw c = k.dlTotalBw c := by
  rw [dlTotalBw, sched_updateLife, dlTotalBw]

end

theorem current_setRunnable (m : Machine) (cpu : ℕ) (rq : RunQueues) (c : ℕ) :
    ((m.setRunnable cpu rq).cpus c).current = (m.cpus c).current := by
  by_cases hc : c = cpu
  · subst hc
    simp [setRunnable]
  · simp [setRunnable, hc]

@[simp] theorem dlTotalBw_setProc (k : Kernel) (pid : Pid) (p : Process) (c : ℕ) :
    (k.setProc pid p).dlTotalBw c = k.dlTotalBw c := rfl

theorem life_updateLife (k : Kernel) (pid : Pid) (f : Life → Life) (q : Pid) :
    (k.updateLife pid f).life q =
      if q = pid ∧ (k.proc? pid).isSome then f (k.life q) else k.life q := by
  unfold updateLife
  by_cases hp : (k.proc? pid).isSome
  · by_cases hq : q = pid
    · subst hq
      simp [hp]
    · simp [hp, hq]
  · simp [hp]

theorem dlTotalBw_releaseDlBandwidth (k : Kernel) (p : Process) (c : ℕ) :
    (k.releaseDlBandwidth p).dlTotalBw c =
      k.dlTotalBw c - if c = p.sched.homeCpu then bandwidth p else 0 := by
  unfold releaseDlBandwidth bandwidth dlTotalBw
  split
  · by_cases hc : c = p.sched.homeCpu
    · subst hc
      simp [setRunnable, Core.dlTotalBw_releaseDlBandwidth]
    · simp [setRunnable, hc]
  · simp

section

variable (k p)

theorem processes_releaseDlBandwidth :
    (k.releaseDlBandwidth p).sched.processes = k.sched.processes := by
  unfold releaseDlBandwidth
  split <;> rfl

theorem releaseDlBandwidth_eq :
    k.releaseDlBandwidth p = { k with sched := (k.releaseDlBandwidth p).sched } := by
  unfold releaseDlBandwidth
  split <;> rfl

theorem current_releaseDlBandwidth (c : ℕ) :
    ((k.releaseDlBandwidth p).sched.cpus c).current = (k.sched.cpus c).current := by
  unfold releaseDlBandwidth
  split
  · exact current_setRunnable _ _ _ c
  · rfl

@[simp] theorem life_releaseDlBandwidth : (k.releaseDlBandwidth p).life = k.life := by
  rw [releaseDlBandwidth_eq]

@[simp] theorem groups_releaseDlBandwidth : (k.releaseDlBandwidth p).groups = k.groups := by
  rw [releaseDlBandwidth_eq]

end

/-! ### What a kill keeps -/

/-- A process that `SIGKILL` ends at once. -/
def killable (st : ProcessState) : Bool :=
  match st with
  | .stopped | .cgroupThrottled | .dlThrottled => true
  | _ => false

/-- Two scheduler states that tell the same of the group and the state of each process, and of the
bandwidth and the current process of each CPU. -/
structure SameStates (m m' : Machine) : Prop where
  cgroup : ∀ q, (m'.proc? q).map cgroup = (m.proc? q).map cgroup
  state : ∀ q, (m'.proc? q).map state = (m.proc? q).map state
  bandwidth : ∀ c, (m'.cpus c).runnable.dlTotalBw = (m.cpus c).runnable.dlTotalBw
  current : ∀ c, (m'.cpus c).current = (m.cpus c).current

variable {m m' : Machine}

theorem SameStates.trans {m'' : Machine} (h : SameStates m m') (h' : SameStates m' m'') :
    SameStates m m'' where
  cgroup q := (h'.cgroup q).trans (h.cgroup q)
  state q := (h'.state q).trans (h.state q)
  bandwidth c := (h'.bandwidth c).trans (h.bandwidth c)
  current c := (h'.current c).trans (h.current c)

theorem SameStates.of_processes (hm : m'.processes = m.processes)
    (hbw : ∀ c, (m'.cpus c).runnable.dlTotalBw = (m.cpus c).runnable.dlTotalBw)
    (hcur : ∀ c, (m'.cpus c).current = (m.cpus c).current) : SameStates m m' := by
  refine ⟨fun q => ?_, fun q => ?_, hbw, hcur⟩ <;> rw [Machine.proc?, Machine.proc?, hm]

theorem sameStates_setProc {p' : Process} (hp : m.proc? pid = some p)
    (hgroup : p'.cgroup = p.cgroup) (hstate : p'.state = p.state) :
    SameStates m (m.setProc pid p') := by
  refine ⟨fun q => ?_, fun q => ?_, fun _ => rfl, fun _ => rfl⟩ <;> by_cases hq : q = pid
  · subst hq
    simp [hp, hgroup]
  · rw [Machine.proc?_setProc_of_ne m hq]
  · subst hq
    simp [hp, hstate]
  · rw [Machine.proc?_setProc_of_ne m hq]

theorem sameStates_enqueue (m : Machine) (cpu : ℕ) (pid : Pid) (p : Process) (kind : CfsPlace) :
    SameStates m (m.enqueue cpu pid p kind).1 := by
  refine SameStates.of_processes rfl (fun c => ?_) (current_setRunnable _ _ _)
  by_cases hc : c = cpu
  · subst hc
    simp [enqueue, setRunnable]
  · simp [enqueue, setRunnable, hc]

theorem sameStates_finishResume {home : ℕ}
    (h : m.finishResume pid home site = .ok m') : SameStates m m' := by
  unfold finishResume at h
  cases hp : m.proc? pid with
  | none =>
    rw [hp] at h
    cases h
    exact SameStates.of_processes rfl (fun _ => rfl) fun _ => rfl
  | some p =>
    rw [hp] at h
    obtain ⟨p', hp', h⟩ := bind_eq_ok.1 h
    cases h
    obtain rfl := setSchedOwner_eq hp'
    refine (sameStates_enqueue m home pid p .wake).trans ?_
    exact sameStates_setProc (p := p) hp rfl rfl

theorem sameStates_reenqueueRunnable (h : reenqueueRunnable m pid = .ok m') : SameStates m m' := by
  unfold reenqueueRunnable at h
  cases hp : m.proc? pid with
  | none =>
    rw [hp] at h
    cases h
    exact SameStates.of_processes rfl (fun _ => rfl) fun _ => rfl
  | some p =>
    rw [hp] at h
    dsimp only at h
    split_ifs at h
    · refine SameStates.trans ?_ (sameStates_finishResume h)
      unfold effectiveHomeCpu
      split_ifs
      · exact sameStates_setProc hp rfl rfl
      · have hpick : SameStates m (m.pickHomeCpuIn p.sched.cpuAffinity).2 :=
          SameStates.of_processes rfl (fun _ => rfl) fun _ => rfl
        exact hpick.trans (sameStates_setProc (p := p) hp rfl rfl)
    · grind [SameStates.of_processes]

/-- What `sigkill` keeps, and when it ends its target. -/
structure Signalled (k : Kernel) (target : Pid) (k' : Kernel) : Prop where
  groups : k'.groups = k.groups
  locks : k'.locks = k.locks
  life : ∀ q, (k'.life q).marked = (k.life q).marked
  cgroup : ∀ q, (k'.proc? q).map cgroup = (k.proc? q).map cgroup
  state : ∀ q, q ≠ target → (k'.proc? q).map state = (k.proc? q).map state
  live : k'.live target = (k.live target && !(k.proc? target).any fun p => killable p.state)
  settled : ((k'.proc? target).any fun p => killable p.state) = false
  bandwidth : ∀ c, k'.dlTotalBw c ≤ k.dlTotalBw c
  current : ∀ c, (k'.sched.cpus c).current = (k.sched.cpus c).current

theorem any_state_congr (f : ProcessState → Bool)
    (h : (k'.proc? q).map state = (k.proc? q).map state) :
    ((k'.proc? q).any fun p => f p.state) = (k.proc? q).any fun p => f p.state := by
  have hany (o : Option Process) : (o.any fun p => f p.state) = (o.map state).any f := by
    cases o <;> rfl
  rw [hany, hany, h]

theorem live_congr (h : (k'.proc? q).map state = (k.proc? q).map state) :
    k'.live q = k.live q := any_state_congr (fun st => !stateIsTerminal st) h

/-- A target that is not ended, and whose state may have changed otherwise. -/
theorem signalled_of_resumed (p' : Process) (hp : k.proc? pid = some p)
    (hkill : killable p.state = false) (hkill' : killable p'.state = false)
    (hgroup : p'.cgroup = p.cgroup) (hterminal : stateIsTerminal p'.state = stateIsTerminal p.state)
    (hm : SameStates (k.sched.setProc pid p') m) :
    Signalled k pid { k.markSigkill pid with sched := m } where
  groups := groups_updateLife _ _ _
  locks := locks_updateLife _ _ _
  life q := by
    rw [markSigkill, life_updateLife]
    split_ifs <;> rfl
  cgroup q := by
    refine (hm.cgroup q).trans ?_
    by_cases hq : q = pid
    · subst hq
      simp [hp, hgroup]
    · rw [Machine.proc?_setProc_of_ne _ hq]
      rfl
  state q hq := by
    refine (hm.state q).trans ?_
    rw [Machine.proc?_setProc_of_ne _ hq]
    rfl
  live := by
    refine Eq.trans (live_congr (k := k.setProc pid p') (hm.state pid)) ?_
    simp [live, hp, hkill, hterminal]
  settled := by
    refine Eq.trans (any_state_congr killable (k := k.setProc pid p') (hm.state pid)) ?_
    simp [hkill']
  bandwidth c := (hm.bandwidth c).le
  current := hm.current

/-- A target that is ended. -/
theorem signalled_of_killed {st : TerminalState} (hp : k.proc? pid = some p)
    (hkill : killable p.state = true)
    (hm : m.processes = (k.sched.setProc pid { p with state := st }).processes)
    (hbw : ∀ c, (m.cpus c).runnable.dlTotalBw ≤ k.dlTotalBw c)
    (hcur : ∀ c, (m.cpus c).current = (k.sched.cpus c).current) :
    Signalled k pid { k with sched := m } := by
  have hproc (q : Pid) : ({ k with sched := m } : Kernel).proc? q =
      (k.setProc pid { p with state := st }).proc? q := by
    unfold proc? Machine.proc?
    rw [hm]
    rfl
  have hsettled : killable st = false := by
    have hst := st.2
    revert hst
    cases st.1 <;> simp [killable, stateIsTerminal]
  refine ⟨rfl, rfl, fun _ => rfl, fun q => ?_, fun q hq => ?_, ?_, ?_, hbw, hcur⟩
  · rw [hproc]
    by_cases hq : q = pid
    · subst hq
      simp [hp]
    · rw [proc?_setProc_of_ne k hq]
  · rw [hproc, proc?_setProc_of_ne k hq]
  · simp [live, hproc, hp, hkill, st.2]
  · simp [hproc, hsettled]

theorem signalled_self (h : ∀ p, k.proc? pid = some p → killable p.state = false) :
    Signalled k pid k := by
  refine ⟨rfl, rfl, fun _ => rfl, fun _ => rfl, fun _ _ => rfl, ?_, ?_, fun _ => le_rfl,
    fun _ => rfl⟩
  · cases hp : k.proc? pid with
    | none => simp
    | some p => simp [h p hp]
  · cases hp : k.proc? pid with
    | none => rfl
    | some p => simp [h p hp]

/-- **`SIGKILL`** ends its target just when it is stopped or throttled. -/
theorem signalled_of_sigkill (h : k.sigkill pid = .ok k') : Signalled k pid k' := by
  unfold sigkill at h
  cases hp : k.proc? pid with
  | none =>
    rw [hp] at h
    cases h
    exact signalled_self fun p hp' => nomatch hp.symm.trans hp'
  | some p =>
    rw [hp] at h
    have hself (hkill : killable p.state = false) : Signalled k pid k :=
      signalled_self fun p' hp' => Option.some.inj (hp.symm.trans hp') ▸ hkill
    have hmark (hkill : killable p.state = false) : Signalled k pid (k.markSigkill pid) := by
      have hsame : SameStates k.sched (k.sched.setProc pid p) := sameStates_setProc hp rfl rfl
      have hm : SameStates (k.sched.setProc pid p) k.sched :=
        ⟨fun q => (hsame.cgroup q).symm, fun q => (hsame.state q).symm, fun _ => rfl, fun _ => rfl⟩
      have hsig := signalled_of_resumed p hp hkill hkill rfl rfl hm
      rwa [show ({ k.markSigkill pid with sched := k.sched } : Kernel) = k.markSigkill pid by
        unfold markSigkill updateLife; split_ifs <;> rfl] at hsig
    -- one case for each state; what the states of a kind have in common is above
    cases hs : p.state with
    | running | runnable =>
      simp only [hs] at h
      cases h
      exact hmark (by rw [hs]; rfl)
    | stopped =>
      simp only [hs, setState_terminal, ok_bind] at h
      cases h
      refine signalled_of_killed hp (by rw [hs]; rfl) rfl (fun c => ?_) (fun c => ?_)
      · by_cases hc : c = p.sched.homeCpu
        · subst hc
          simp [Machine.setRunnable, Machine.setProc, dlTotalBw]
        · simp [Machine.setRunnable, Machine.setProc, dlTotalBw, hc]
      · exact current_setRunnable _ _ _ c
    | cgroupThrottled =>
      simp only [hs, setState_terminal, ok_bind] at h
      cases h
      exact signalled_of_killed hp (by rw [hs]; rfl) rfl (fun c => le_rfl) fun c => rfl
    | dlThrottled =>
      simp only [hs, setState_terminal, ok_bind] at h
      cases h
      have hbw (c : ℕ) := dlTotalBw_releaseDlBandwidth (k.setProc pid { p with
        state := k.killedState pid }) { p with state := k.killedState pid } c
      have hrest := releaseDlBandwidth_eq (k.setProc pid { p with
        state := k.killedState pid }) { p with state := k.killedState pid }
      rw [hrest]
      refine signalled_of_killed hp (by rw [hs]; rfl) (processes_releaseDlBandwidth _ _)
        (fun c => ?_) (fun c => ?_)
      · exact (hbw c).trans_le (Nat.sub_le _ _)
      · exact current_releaseDlBandwidth _ _ c
    | parked | traced =>
      simp only [hs] at h
      obtain ⟨p', hp', h⟩ := bind_eq_ok.1 h
      obtain ⟨m, hm, h⟩ := bind_eq_ok.1 h
      cases h
      obtain rfl := setState_eq hp'
      refine signalled_of_resumed { p with state := .runnable } hp (by rw [hs]; rfl) rfl rfl
        (by rw [hs]; rfl) ?_
      have hsame : SameStates ((k.markSigkill pid).setProc pid { p with state := .runnable }).sched
          m := by first | exact sameStates_finishResume hm | exact sameStates_reenqueueRunnable hm
      rwa [setProc, markSigkill, sched_updateLife] at hsame
    | zombie | killedByFault | killedBySignal =>
      simp only [hs] at h
      cases h
      exact hself (by rw [hs]; rfl)

end Kernel

end CypheraKernel.Core
