import CypheraKernel.Core.Kernel
import CypheraKernel.Security.Credentials
import CypheraKernel.Signal.Checkpoint

/-!
# Sending signals

`send_signal_with_info`, `send_group_signal` and `notify_parent_status_change` of
`kernel/src/core/signals.rs`, and `signal_pgrp` of `kernel/src/core/introspect.rs`.

`Event`: the table keeps a history of what has been sent, which the source does not have.

`SIGKILL` ends a stopped or throttled process at once and closes its descriptors, which may hang up
terminals and so send further signals (`closeAll`).  These are never `SIGKILL`, so the functions are
written first for an arbitrary `kill`.  What the scheduler does with a process that is woken, and
what else goes with the end of a process, is that of `CypheraKernel.Sched` and `CypheraKernel.Core`;
the wake-ups of waiting processes are left out, since a parked process and a runnable one are alike
here.
-/

namespace CypheraKernel.Signal

open Sched Core Creds

/-! ### The processes -/

/-- The two maps of a pid namespace. -/
structure PidNamespace where
  localToHost : UInt32 → Option Pid
  hostToLocal : Pid → Option UInt32

def PidNamespace.hostToLocalIn (ns : PidNamespace) (pid : Pid) : UInt32 :=
  (ns.hostToLocal pid).getD 0

/-- What sending signals reads of a process and does not change.  `rtSigpendingLimit` is the limit
that `rt_sigpending_limit` finds, and `pidfds` tells which descriptors are open and which of them
stand for a process. -/
structure Proc where
  (tgid pgid sid : Pid)
  parent : Option Pid
  children : List Pid
  creds : Credentials
  pidNs : Option PidNamespace
  rtSigpendingLimit : ℕ
  sigactions : Signo → SigAction
  tracer : Option Pid
  pendingExit : Option TerminalState
  pidfds : UInt32 → Option (Option Pid)

/-- The state of the process when `SIGKILL` ends it at once. -/
def Proc.killedState (p : Proc) : ProcessState := p.pendingExit.getD ⟨.killedBySignal 9, rfl⟩

/-- What has been sent: a signal was put among the pending ones of a thread, or it was sent to a
process that has live threads. -/
inductive Event
  | enqueued (pid : Pid) (signal : Signo)
  | groupSignal (tgid : Pid) (signal : Signo)
  deriving DecidableEq, Repr

/-- The processes with their states and signals, and the history.  What `state` and `signals` tell
about a pid without a process means nothing.  `hungUp` tells which process groups `tty::hangup` is
about when the descriptors of a process are closed: those of the pseudo-terminals whose master
nobody else has open. -/
structure Table where
  processes : SortedMap Pid Proc
  state : Pid → ProcessState
  signals : Pid → SignalContext
  hungUp : Pid → List Pid := fun _ => []
  events : List Event

namespace Table

variable (t : Table)

def proc? (pid : Pid) : Option Proc := t.processes.get? pid

def setState (pid : Pid) (s : ProcessState) : Table :=
  { t with state := Function.update t.state pid s }

def setSignals (pid : Pid) (c : SignalContext) : Table :=
  { t with signals := Function.update t.signals pid c }

def record (e : Event) : Table := { t with events := t.events ++ [e] }

/-- Change the signals of a process, if it is there. -/
def updateSignals (pid : Pid) (f : SignalContext → SignalContext) : Table :=
  if (t.proc? pid).isSome then t.setSignals pid (f (t.signals pid)) else t

/-- `enqueue_signal` on a process, if it is there. -/
def enqueue (pid : Pid) (s : Signo) (info : PendingSigInfo) : Table :=
  if (t.proc? pid).isSome then
    (t.setSignals pid ((t.signals pid).enqueueSignal s info)).record (.enqueued pid s)
  else t

/-- `enqueue_with_annihilation` on a process, if it is there. -/
def enqueueWithAnnihilation (t : Table) (pid : Pid) (s : Signo) (info : PendingSigInfo) : Table :=
  if (t.proc? pid).isSome then
    (t.setSignals pid ((t.signals pid).enqueueWithAnnihilation s info)).record (.enqueued pid s)
  else t

/-! ### Telling the parent -/

def cldExited : UInt32 := 1
def cldKilled : UInt32 := 2
def cldStopped : UInt32 := 5
def cldContinued : UInt32 := 6

/-- The pid by which a process is known in its own namespace. -/
def localPid (p : Proc) (pid : Pid) : UInt32 :=
  match p.pidNs with
  | some ns => ns.hostToLocalIn pid
  | none => .ofNat pid

/-- Those who are told about a process: its parent, and its tracer unless it is the parent. -/
def notified (p : Proc) : List Pid :=
  p.parent.toList ++ (p.tracer.filter fun tracer => some tracer ≠ p.parent).toList

def notifyParentStatusChange (child : Pid) (code status : UInt32) : Table :=
  match t.proc? child with
  | none => t
  | some p =>
    let info := PendingSigInfo.forChild (localPid p child) status code
    (notified p).foldl (fun t pid => t.enqueue pid sigchld info) t

/-! ### To a thread -/

/-- The signal with the number, which must not be `0`. -/
def signo? (signal : UInt32) : Option Signo :=
  if h : signal.toNat < 64 ∧ signal ≠ 0 then some ⟨signal.toNat, h.1⟩ else none

/-- `uid_rt_pending`. -/
def uidRtPending (ruid : UInt32) : ℕ :=
  ((t.processes.entries.filter fun e => e.2.creds.uid.r = ruid).map
    fun e => (t.signals e.1).rtPendingCount).sum

/-- The first section of `request_continue`; the answer tells whether the process was stopped. -/
def requestContinue (target : Pid) : Bool × Table :=
  if (t.proc? target).isSome ∧ t.state target = .stopped then
    let c := t.signals target
    (true, (t.setSignals target { c with pending := c.pending &&& ~~~stopSignalMask }).setState
      target .runnable)
  else (false, t)

/-- `send_signal_with_info` for `SIGCONT`, the signal being enqueued. -/
def afterContinue (target : Pid) (p : Proc) : Table :=
  if t.state target = .stopped then
    let t := (t.requestContinue target).2
    let t := t.updateSignals p.tgid fun c => c.clearGroupStop.setContinuedLatch
    t.notifyParentStatusChange p.tgid cldContinued 18
  else t

/-- The end of `send_signal_with_info`: a parked process that does not block the signal is woken. -/
def wakeParked (target : Pid) (s : Signo) : Table :=
  if t.state target = .parked ∧ has (t.signals target).blocked s = false then
    t.setState target .runnable
  else t

/-- `send_signal_with_info`; what it does for `SIGKILL` is `kill`. -/
def sendWith (kill : Table → Pid → Proc → PendingSigInfo → Table) (t : Table) (target : Pid)
    (signal : UInt32) (info : PendingSigInfo) : Except Errno Unit × Table :=
  match signo? signal with
  | none => (.error .inval, t)
  | some s =>
    match t.proc? target with
    | none => (.error .srch, t)
    | some p =>
      if isRtSignal s ∧ t.uidRtPending p.creds.uid.r ≥ p.rtSigpendingLimit then
        (.error .again, t)
      else if s = sigkill then (.ok (), kill t target p info)
      else
        let t := t.enqueueWithAnnihilation target s info
        if s = sigcont then (.ok (), t.afterContinue target p) else (.ok (), t.wakeParked target s)

/-! ### To a process -/

def liveGroupMembers (tgid : Pid) : List Pid :=
  (t.processes.entries.filter fun e => e.2.tgid = tgid ∧ stateIsTerminal (t.state e.1) = false).map
    Prod.fst

/-- `pick_group_target`; the first member if all of them block the signal. -/
def pickGroupTarget (members : List Pid) (s : Signo) : Option Pid :=
  (members.find? fun m => !has (t.signals m).blocked s).or members.head?

/-- The members that have not stopped. -/
def going (members : List Pid) : List Pid :=
  members.filter fun m => t.state m ≠ .stopped

def initiateGroupStop (tgid : Pid) (s : Signo) (info : PendingSigInfo)
    (members : List Pid) : Table :=
  let going := t.going members
  let t := going.foldl (fun t m => t.enqueueWithAnnihilation m s info) t
  let t := t.updateSignals tgid fun c => c.clearGroupStop.armGroupStop going.length
  if going = [] then
    let last := (t.proc? tgid).isSome && ((t.signals tgid).groupStopArrive).1
    let t := t.updateSignals tgid fun c => c.groupStopArrive.2
    if last then t.notifyParentStatusChange tgid cldStopped 19 else t
  else t

/-- The first loop of `continue_group`. -/
def continueSignals (info : PendingSigInfo) (members : List Pid) : Table :=
  members.foldl (fun t m =>
    let t := t.updateSignals m SignalContext.discardStopSignals
    if t.state m ≠ .stopped then t.enqueueWithAnnihilation m sigcont info else t) t

def continueGroup (tgid : Pid) (info : PendingSigInfo) (members : List Pid) : Table :=
  let anyResumed := members.any fun m => t.state m = .stopped
  let t := t.updateSignals tgid SignalContext.clearGroupStop
  let t := t.continueSignals info members
  let t := members.foldl (fun t m => (t.requestContinue m).2) t
  if anyResumed then
    let t := t.updateSignals tgid SignalContext.setContinuedLatch
    t.notifyParentStatusChange tgid cldContinued 18
  else t

/-- `send_group_signal`; what is done to a thread for `SIGKILL` is `kill`. -/
def groupWith (kill : Table → Pid → Proc → PendingSigInfo → Table) (t : Table) (tgid : Pid)
    (signal : UInt32) (info : PendingSigInfo) : Except Errno Unit × Table :=
  match signo? signal with
  | none => (.error .inval, t)
  | some s =>
    match t.liveGroupMembers tgid with
    | [] => (.error .srch, t)
    | first :: rest =>
      let members := first :: rest
      let t := t.record (.groupSignal tgid s)
      if s = sigkill then
        (.ok (), members.foldl (fun t m => (t.sendWith kill m signal info).2) t)
      else if has stopSignalMask s then (.ok (), t.initiateGroupStop tgid s info members)
      else if s = sigcont then (.ok (), t.continueGroup tgid info members)
      else t.sendWith kill ((t.pickGroupTarget members s).getD first) signal info

/-! ### `SIGKILL` -/

/-- The signals of a hangup to a process group, `SIGHUP` and then `SIGCONT`. -/
def hangupSignals (pgrp : Pid) : List (Pid × UInt32) := [(pgrp, 1), (pgrp, 18)]

/-- `send_group_signal` in a hangup, where there is no `SIGKILL`. -/
def hup (r : Pid × UInt32) : Table :=
  (t.groupWith (fun t _ _ _ => t) r.1 r.2 (.forKill 0)).2

/-- `close_all` on the descriptors of a process, which may hang up terminals. -/
def closeAll (pid : Pid) : Table := ((t.hungUp pid).flatMap hangupSignals).foldl hup t

/-- How `notify_parent_status_change` describes a process that `SIGKILL` has ended. -/
def killedStatus : ProcessState → UInt32 × UInt32
  | .zombie code => (cldExited, .ofNat (code % 2 ^ 32).toNat)
  | _ => (cldKilled, 9)

/-- `send_signal_with_info` for `SIGKILL`. -/
def sendKill (target : Pid) (p : Proc) (info : PendingSigInfo) : Table :=
  match t.state target with
  | .running | .runnable => t.enqueue target sigkill info
  | .parked | .traced => (t.enqueue target sigkill info).setState target .runnable
  | .stopped | .cgroupThrottled | .dlThrottled =>
    ((t.setState target p.killedState).closeAll target).notifyParentStatusChange target
      (killedStatus p.killedState).1 (killedStatus p.killedState).2
  | .zombie _ | .killedByFault _ _ _ | .killedBySignal _ => t

/-- Send a signal to a thread. -/
def sendSignalWithInfo (target : Pid) (signal : UInt32) (info : PendingSigInfo) :
    Except Errno Unit × Table :=
  t.sendWith sendKill target signal info

/-- Send a signal to a process. -/
def sendGroupSignal (tgid : Pid) (signal : UInt32) (info : PendingSigInfo) :
    Except Errno Unit × Table :=
  t.groupWith sendKill tgid signal info

/-! ### To a process group -/

/-- The leaders of the processes in the process group. -/
def pgrpLeaders (pgid : Pid) : List Pid :=
  (t.processes.entries.filter fun e => e.2.pgid = pgid ∧ e.2.tgid = e.1).map Prod.fst

def signalPgrp (cur pgid : Pid) (signal : UInt32) : Table :=
  (t.pgrpLeaders pgid).foldl
    (fun t tgid => (t.sendGroupSignal tgid signal (.forKill (.ofNat cur))).2) t

/-! ### What sending keeps -/

/-- The threads in which a signal has been enqueued. -/
def recipients : Set Pid := { q | ∃ s, Event.enqueued q s ∈ t.events }

/-- The step from `t` to `t'` has enqueued signals in the threads of `R`, and has changed the state
of no process outside `S`. -/
structure Changes (R S : Set Pid) (t t' : Table) : Prop where
  processes : t'.processes = t.processes
  state : ∀ q ∉ S, t'.state q = t.state q
  recipients : t'.recipients = t.recipients ∪ R

namespace Changes

variable {R R' S S' : Set Pid} {t t' t'' : Table}

theorem refl (t : Table) : Changes ∅ ∅ t t :=
  ⟨rfl, fun _ _ => rfl, (Set.union_empty _).symm⟩

section

variable (h : Changes R S t t')

include h

theorem trans (h' : Changes R' S' t' t'') :
    Changes (R ∪ R') (S ∪ S') t t'' where
  processes := h'.processes.trans h.processes
  state q hq := (h'.state q fun hS => hq (.inr hS)).trans (h.state q fun hS => hq (.inl hS))
  recipients := by rw [h'.recipients, h.recipients, Set.union_assoc]

theorem proc? (q : Pid) : t'.proc? q = t.proc? q := by
  rw [Table.proc?, h.processes, Table.proc?]

theorem mono (hS : S ⊆ S') : Changes R S' t t' :=
  { h with state := fun q hq => h.state q fun hin => hq (hS hin) }

end

end Changes

/-- Such a step in which nothing is sent to a process as a whole. -/
structure Sends (R S : Set Pid) (t t' : Table) : Prop extends Changes R S t t' where
  groups : ∀ g s, Event.groupSignal g s ∈ t'.events ↔ Event.groupSignal g s ∈ t.events

namespace Sends

variable {R R' S S' : Set Pid} {t t' t'' : Table}

theorem refl (t : Table) : Sends ∅ ∅ t t := ⟨.refl t, fun _ _ => Iff.rfl⟩

theorem trans (h : Sends R S t t') (h' : Sends R' S' t' t'') : Sends (R ∪ R') (S ∪ S') t t'' :=
  ⟨h.toChanges.trans h'.toChanges, fun g s => (h'.groups g s).trans (h.groups g s)⟩

theorem mono (h : Sends R S t t') (hS : S ⊆ S') : Sends R S' t t' :=
  ⟨h.toChanges.mono hS, h.groups⟩

theorem cast (h : Sends R S t t') (hR : R = R') (hS : S = S') : Sends R' S' t t' := hR ▸ hS ▸ h

end Sends

section

variable (t : Table) (pid : Pid) (s : Signo) (info : PendingSigInfo)

theorem sends_setState (st : ProcessState) : Sends ∅ {pid} t (t.setState pid st) where
  processes := rfl
  state _ hq := Function.update_of_ne hq _ _
  recipients := (Set.union_empty _).symm
  groups _ _ := Iff.rfl

theorem sends_setSignals (c : SignalContext) : Sends ∅ ∅ t (t.setSignals pid c) where
  processes := rfl
  state _ _ := rfl
  recipients := (Set.union_empty _).symm
  groups _ _ := Iff.rfl

theorem sends_updateSignals (f : SignalContext → SignalContext) :
    Sends ∅ ∅ t (t.updateSignals pid f) := by
  unfold updateSignals
  split_ifs
  · exact t.sends_setSignals pid _
  · exact .refl t

theorem sends_record_enqueued : Sends {pid} ∅ t (t.record (.enqueued pid s)) where
  processes := rfl
  state _ _ := rfl
  recipients := by
    ext q
    constructor
    · rintro ⟨u, h⟩
      rcases List.mem_append.1 h with h | h
      · exact .inl ⟨u, h⟩
      · exact .inr (Event.enqueued.inj (List.mem_singleton.1 h)).1
    · rintro (⟨u, h⟩ | rfl)
      · exact ⟨u, List.mem_append_left _ h⟩
      · exact ⟨s, List.mem_append_right _ (List.mem_singleton_self _)⟩
  groups g u := by simp [record]

end

end Table

end CypheraKernel.Signal
