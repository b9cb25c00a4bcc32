import CypheraKernel.Signal.Reach

/-!
# Who may send a signal to whom

The system calls of `kernel/src/syscall/signal.rs` by which a process sends signals, and the timers
of `kernel/src/syscall/posix_timer.rs`.

`permitted_iff`: only two of the entry points ask `can_signal`, and those only for the target that
they are given, so it all depends on the threads that are reached.
-/

namespace CypheraKernel.Signal

open Sched Trap Creds Bytes Function

/-! ### Names of processes -/

/-- How a call may stop the kernel: `-pid` overflows, or there is no current process. -/
inductive SendPanic
  | negOverflow
  | noCurrent
  deriving DecidableEq, Repr

namespace Table

variable (t : Table) (cur : Pid)

def callerLocalToHost (pid : UInt32) : Option Pid :=
  match (t.proc? cur).bind Proc.pidNs with
  | none => some pid.toNat
  | some ns => ns.localToHost pid

def currentPgid : Pid := ((t.proc? cur).map Proc.pgid).getD cur

def processTgid (pid : Pid) : Option Pid := (t.proc? pid).map Proc.tgid

/-- The pid of the sender in the namespace of the target. -/
def senderLocal (sender target : Pid) : UInt32 :=
  (((t.proc? target).bind Proc.pidNs).map (·.hostToLocalIn sender)).getD 0

/-- Whether the caller, whose credentials are `c`, may signal the target. -/
def permitted (c : Credentials) (target : Pid) : Bool :=
  (t.proc? target).any fun p => c.canSignal p.creds

/-! ### System calls -/

/-- The answer of a call and the table after it. -/
abbrev Answer := Except Errno Unit × Table

def sysKill (pid signal : UInt64) : Except SendPanic Answer :=
  if signal.toUInt32 ≥ 64 then .ok (.error .inval, t)
  else if pid.toInt64 < 0 then
    if pid = 2 ^ 63 then .error .negOverflow
    else
      match t.callerLocalToHost cur (0 - pid).toUInt32 with
      | none => .ok (.error .srch, t)
      | some pgid => .ok (.ok (), t.signalPgrp cur pgid signal.toUInt32)
  else if pid = 0 then .ok (.ok (), t.signalPgrp cur (t.currentPgid cur) signal.toUInt32)
  else
    match t.callerLocalToHost cur pid.toUInt32 with
    | none => .ok (.error .srch, t)
    | some target =>
      match t.proc? cur with
      | none => .error .noCurrent
      | some me =>
        if t.permitted me.creds target then
          if signal = 0 then .ok (.ok (), t)
          else
            .ok (t.sendGroupSignal ((t.processTgid target).getD target) signal.toUInt32
              (.forKill (.ofNat cur)))
        else .ok (.error .perm, t)

def sysTkill (tid sig : UInt64) : Answer :=
  if sig.toUInt32 ≥ 64 then (.error .inval, t)
  else
    match t.callerLocalToHost cur tid.toUInt32 with
    | none => (.error .srch, t)
    | some target =>
      if sig = 0 then (.ok (), t)
      else t.sendSignalWithInfo target sig.toUInt32 (.forTkill (t.senderLocal cur target))

def sysTgkill (tgid tid sig : UInt64) : Answer :=
  if tgid.toInt64 ≤ 0 ∨ tid.toInt64 ≤ 0 then (.error .inval, t) else t.sysTkill cur tid sig

/-- The part of the two queueing calls after the target is known: the information is copied, and who
is not root may only use a negative code. -/
def queueTo (target : Pid) (sig infoPtr : UInt64) (mem : UserMemory) : Answer :=
  match mem.copyFromUser infoPtr 128 with
  | none => (.error .fault, t)
  | some buf =>
    let siCode := readWord32 buf 8
    if siCode.toNat < 2 ^ 31 ∧ ((t.proc? cur).map fun p => p.creds.uid.e).getD 0 ≠ 0 then
      (.error .perm, t)
    else
      let info := PendingSigInfo.forQueue siCode (t.senderLocal cur target) (readWord buf 24)
      match t.sendSignalWithInfo target sig.toUInt32 info with
      | (.ok (), t) => (.ok (), t)
      | (.error .again, t) => (.error .again, t)
      | (.error _, t) => (.error .srch, t)

def sysRtSigqueueinfo (localPid sig infoPtr : UInt64) (mem : UserMemory) : Answer :=
  if sig ≥ 64 then (.error .inval, t)
  else
    match t.callerLocalToHost cur localPid.toUInt32 with
    | none => (.error .srch, t)
    | some target => t.queueTo cur target sig infoPtr mem

def sysRtTgsigqueueinfo (localTgid localTid sig infoPtr : UInt64) (mem : UserMemory) : Answer :=
  if sig ≥ 64 then (.error .inval, t)
  else
    match t.callerLocalToHost cur localTid.toUInt32, t.callerLocalToHost cur localTgid.toUInt32 with
    | some target, some tgid =>
      if t.processTgid target = some tgid then t.queueTo cur target sig infoPtr mem
      else (.error .srch, t)
    | _, _ => (.error .srch, t)

def sysPidfdSendSignal (pidfd sig flags : UInt64) : Except SendPanic Answer :=
  if flags ≠ 0 then .ok (.error .inval, t)
  else if sig.toUInt32 ≥ 64 then .ok (.error .inval, t)
  else
    match t.proc? cur with
    | none => .error .noCurrent
    | some me =>
      match me.pidfds pidfd.toUInt32 with
      | none => .ok (.error .badf, t)
      | some none => .ok (.error .inval, t)
      | some (some target) =>
        if t.permitted me.creds target then
          if sig = 0 then .ok (.ok (), t)
          else .ok (t.sendSignalWithInfo target sig.toUInt32 (.forKill (.ofNat cur)))
        else .ok (.error .perm, t)

end Table

/-! ### Timers -/

/-- How a timer tells about its expiry; `SIGEV_THREAD` is turned into `SIGEV_SIGNAL`. -/
inductive SigevNotify
  | signal
  | none
  | threadId
  deriving DecidableEq, Repr

/-- A timer of `timer_create`. -/
structure PosixTimer where
  clockid : UInt64
  sigevNotify : SigevNotify
  sigevSigno : UInt32
  sigevValue : UInt64
  sigevThreadId : UInt32
  (deadlineNs intervalNs overrunLast : ℕ)
  deriving DecidableEq, Repr

/-- The timers of a process by their numbers, and the next number. -/
structure TimerContext where
  timers : ℕ → Option PosixTimer
  nextId : ℕ

def TimerContext.empty : TimerContext := ⟨fun _ => none, 0⟩

def TimerContext.alloc (c : TimerContext) (timer : PosixTimer) : ℕ × TimerContext :=
  (c.nextId, ⟨update c.timers c.nextId (some timer), c.nextId + 1⟩)

/-- `sevp` as `timer_create` reads it. -/
structure Sigevent where
  value : UInt64
  (signo notify threadId : UInt32)

/-- How `timer_create` understands a `sigevent`. -/
def Sigevent.check (t : Table) (e : Sigevent) : Option SigevNotify :=
  if e.notify = 1 then some .none
  else if e.signo = 0 ∨ e.signo ≥ 64 then none
  else if e.notify = 0 ∨ e.notify = 2 then some .signal
  else if e.notify = 4 ∧ (t.processTgid e.threadId.toNat).isSome then some .threadId
  else none

/-- `timer_create` of a supported clock, the `sigevent` being read and the number being written
without a fault. -/
def sysTimerCreate (t : Table) (c : TimerContext) (clockid : UInt64) (sevp : Option Sigevent) :
    Except Errno (ℕ × TimerContext) :=
  match sevp with
  | none => .ok (c.alloc ⟨clockid, .signal, 14, 0, 0, 0, 0, 0⟩)
  | some e =>
    match e.check t with
    | none => .error .inval
    | some notify => .ok (c.alloc ⟨clockid, notify, e.signo, e.value, e.threadId, 0, 0, 0⟩)

/-- `timer_settime`, the value being read without a fault; `now` is the time of the timer's clock.
-/
def TimerContext.settime (c : TimerContext) (id : ℕ) (absolute : Bool)
    (intervalNs valueNs now nowMono : ℕ) : Except Errno TimerContext :=
  match c.timers id with
  | none => .error .inval
  | some timer =>
    let deadlineNs :=
      if valueNs = 0 then 0
      else if absolute then nowMono + (valueNs - now)
      else nowMono + valueNs
    let intervalNs := if valueNs = 0 then 0 else intervalNs
    let armed := { timer with deadlineNs, intervalNs, overrunLast := 0 }
    .ok { c with timers := update c.timers id (some armed) }

def timerKey (pid : Pid) (timerId : ℕ) : ℕ := 2 ^ 62 + timerId * 2 ^ 32 + pid

def keyPid (key : ℕ) : Pid := key % 2 ^ 32

def keyTimerId (key : ℕ) : ℕ := key / 2 ^ 32 % 2 ^ 30

/-- The loop of `timer_fire` over the expiries that have been missed.  The source saturates at the
last value of the clock, which is never reached. -/
def nextDeadline (now interval next missed : ℕ) : ℕ × ℕ :=
  if next ≤ now ∧ 0 < interval then nextDeadline now interval (next + interval) (missed + 1)
  else (next, missed)
termination_by now + 1 - next

/-- The timer after its expiry. -/
def PosixTimer.expire (timer : PosixTimer) (now : ℕ) : PosixTimer :=
  if timer.intervalNs ≠ 0 then
    let r := nextDeadline now timer.intervalNs (timer.deadlineNs + timer.intervalNs) 1
    { timer with deadlineNs := r.1, overrunLast := min (r.2 - 1) (2 ^ 31 - 1) }
  else { timer with deadlineNs := 0, overrunLast := 0 }

/-- `timer_fire`: the table and the timers of the owner. -/
def timerFire (t : Table) (timers : Pid → TimerContext) (key now : ℕ) :
    Table × (Pid → TimerContext) :=
  let owner := keyPid key
  let id := keyTimerId key
  match t.proc? owner, (timers owner).timers id with
  | some p, some timer =>
    if timer.deadlineNs = 0 then (t, timers)
    else
      let fired := timer.expire now
      let context := { timers owner with timers := update (timers owner).timers id fired }
      let info := PendingSigInfo.forTimer (.ofNat id) (.ofNat fired.overrunLast) timer.sigevValue
      let t :=
        match timer.sigevNotify with
        | .none => t
        | .signal => (t.sendSignalWithInfo p.tgid timer.sigevSigno info).2
        | .threadId =>
          (t.sendSignalWithInfo timer.sigevThreadId.toNat timer.sigevSigno info).2
      (t, update timers owner context)
  | _, _ => (t, timers)

/-! ### Calls -/

/-- The ways by which signals are sent, with the arguments and what is read of user memory.  `timer`
is the expiry of a timer, whose owner has made it. -/
inductive Call
  | kill (pid signal : UInt64)
  | tkill (tid sig : UInt64)
  | tgkill (tgid tid sig : UInt64)
  | rtSigqueueinfo (localPid sig infoPtr : UInt64) (mem : UserMemory)
  | rtTgsigqueueinfo (localTgid localTid sig infoPtr : UInt64) (mem : UserMemory)
  | pidfdSendSignal (pidfd sig flags : UInt64)
  | timer (timers : Pid → TimerContext) (key now : ℕ)

namespace Call

/-- The process that sends, `cur` being the current one. -/
def caller (cur : Pid) : Call → Pid
  | timer _ key _ => keyPid key
  | _ => cur

def run (t : Table) (cur : Pid) : Call → Except SendPanic Table.Answer
  | kill pid signal => t.sysKill cur pid signal
  | tkill tid sig => .ok (t.sysTkill cur tid sig)
  | tgkill tgid tid sig => .ok (t.sysTgkill cur tgid tid sig)
  | rtSigqueueinfo localPid sig infoPtr mem =>
    .ok (t.sysRtSigqueueinfo cur localPid sig infoPtr mem)
  | rtTgsigqueueinfo localTgid localTid sig infoPtr mem =>
    .ok (t.sysRtTgsigqueueinfo cur localTgid localTid sig infoPtr mem)
  | pidfdSendSignal pidfd sig flags => t.sysPidfdSendSignal cur pidfd sig flags
  | timer timers key now => .ok (.ok (), (timerFire t timers key now).1)

end Call

/-- The thread belongs to the process of the caller, or the caller may signal it. -/
def Allowed (t : Table) (caller q : Pid) : Prop :=
  ∃ me p, t.proc? caller = some me ∧ t.proc? q = some p ∧
    (p.tgid = me.tgid ∨ me.creds.canSignal p.creds = true)

/-- The table without its history. -/
def Table.fresh (t : Table) : Table := { t with events := [] }

/-- The call enqueues signals only where it is allowed. -/
def Permitted (t : Table) (cur : Pid) (call : Call) : Prop :=
  ∀ r, call.run t.fresh cur = .ok r → ∀ q ∈ r.2.recipients, Allowed t (call.caller cur) q

/-! ### Whom a call reaches -/

namespace Table

/-- Whom `kill` reaches: a process group, the one of the caller if the pid is `0`, or the process of
a thread that the caller may signal. -/
def killCallReach (t : Table) (cur : Pid) (pid signal : UInt64) : Set Pid :=
  if signal.toUInt32 ≥ 64 then ∅
  else if pid.toInt64 < 0 then
    if pid = 2 ^ 63 then ∅
    else
      match t.callerLocalToHost cur (0 - pid).toUInt32 with
      | none => ∅
      | some pgid => t.pgrpSent signal.toUInt32 cur pgid
  else if pid = 0 then t.pgrpSent signal.toUInt32 cur (t.currentPgid cur)
  else
    match t.callerLocalToHost cur pid.toUInt32, t.proc? cur with
    | some target, some me =>
      if t.permitted me.creds target then
        t.groupSent signal.toUInt32 (.forKill (.ofNat cur)) ((t.processTgid target).getD target)
      else ∅
    | _, _ => ∅

/-- Whom `tkill` reaches: the thread, whoever it belongs to. -/
def tkillReach (t : Table) (cur : Pid) (tid sig : UInt64) : Set Pid :=
  match t.callerLocalToHost cur tid.toUInt32 with
  | none => ∅
  | some target => t.threadSent sig.toUInt32 target

/-- Whom the queueing calls reach: the target, if the information can be read and has a code that
the caller may use. -/
def queueReach (t : Table) (cur target : Pid) (sig infoPtr : UInt64) (mem : UserMemory) : Set Pid :=
  match mem.copyFromUser infoPtr 128 with
  | none => ∅
  | some buf =>
    if (readWord32 buf 8).toNat < 2 ^ 31 ∧
        ((t.proc? cur).map fun p => p.creds.uid.e).getD 0 ≠ 0 then ∅
    else t.threadSent sig.toUInt32 target

end Table

/-- Whom a timer of the process `p` reaches when it expires: the first thread of the process, or the
thread that was named when the timer was made. -/
def PosixTimer.reach (t : Table) (p : Proc) (timer : PosixTimer) : Set Pid :=
  if timer.deadlineNs = 0 then ∅
  else
    match timer.sigevNotify with
    | .none => ∅
    | .signal => t.threadSent timer.sigevSigno p.tgid
    | .threadId => t.threadSent timer.sigevSigno timer.sigevThreadId.toNat

/-- **Whom a call reaches.**  Only `kill` with a positive pid and `pidfd_send_signal` ask whether
the caller may signal the target. -/
def Call.reach (t : Table) (cur : Pid) : Call → Set Pid
  | kill pid signal => t.killCallReach cur pid signal
  | tkill tid sig => t.tkillReach cur tid sig
  | tgkill tgid tid sig =>
    if tgid.toInt64 ≤ 0 ∨ tid.toInt64 ≤ 0 then ∅ else t.tkillReach cur tid sig
  | rtSigqueueinfo localPid sig infoPtr mem =>
    match t.callerLocalToHost cur localPid.toUInt32 with
    | none => ∅
    | some target => if sig ≥ 64 then ∅ else t.queueReach cur target sig infoPtr mem
  | rtTgsigqueueinfo localTgid localTid sig infoPtr mem =>
    match t.callerLocalToHost cur localTid.toUInt32, t.callerLocalToHost cur localTgid.toUInt32 with
    | some target, some tgid =>
      if sig < 64 ∧ t.processTgid target = some tgid then
        t.queueReach cur target sig infoPtr mem
      else ∅
    | _, _ => ∅
  | pidfdSendSignal pidfd sig flags =>
    match t.proc? cur with
    | none => ∅
    | some me =>
      match me.pidfds pidfd.toUInt32 with
      | some (some target) =>
        if flags = 0 ∧ t.permitted me.creds target then
          t.threadSent sig.toUInt32 target
        else ∅
      | _ => ∅
  | timer timers key _ =>
    match t.proc? (keyPid key), (timers (keyPid key)).timers (keyTimerId key) with
    | some p, some armed => armed.reach t p
    | _, _ => ∅

section

variable {t : Table} {cur q target : Pid} {sig : UInt32} {info : PendingSigInfo} (call : Call)

namespace Table

theorem threadSent_of_le (h : 64 ≤ sig) : t.threadSent sig target = ∅ := by
  have hnone : signo? sig = none := by
    rw [signo?, dif_neg]
    rintro ⟨hlt, -⟩
    have hle : 64 ≤ sig.toNat := h
    omega
  rw [threadSent, bySigno, hnone]

theorem recipients_queueTo (t : Table) (cur target : Pid) (sig infoPtr : UInt64)
    (mem : UserMemory) :
    (t.queueTo cur target sig infoPtr mem).2.recipients =
      t.recipients ∪ t.queueReach cur target sig infoPtr mem := by
  grind [queueTo, queueReach, recipients_sendSignalWithInfo]

theorem recipients_sysTkill (t : Table) (cur : Pid) (tid sig : UInt64) :
    (t.sysTkill cur tid sig).2.recipients = t.recipients ∪ t.tkillReach cur tid sig := by
  unfold sysTkill tkillReach
  cases t.callerLocalToHost cur tid.toUInt32 with
  | none => split_ifs <;> exact (Set.union_empty _).symm
  | some target =>
    dsimp only
    split_ifs with hle hzero
    · rw [threadSent_of_le hle, Set.union_empty]
    · rw [hzero]
      exact (Set.union_empty _).symm
    · exact recipients_sendSignalWithInfo ..

/-- A call returns with the signals sent to `R`, or panics before any is sent. -/
def Sent (t : Table) (R : Set Pid) : Except SendPanic Answer → Prop
  | .ok r => r.2.recipients = t.recipients ∪ R
  | .error _ => R = ∅

theorem sent_unchanged (t : Table) (e : Except Errno Unit) : t.Sent ∅ (.ok (e, t)) :=
  (Set.union_empty _).symm

theorem sent_sysKill (t : Table) (cur : Pid) (pid signal : UInt64) :
    t.Sent (t.killCallReach cur pid signal) (t.sysKill cur pid signal) := by
  unfold sysKill killCallReach
  by_cases hle : signal.toUInt32 ≥ 64
  · rw [if_pos hle, if_pos hle]
    exact t.sent_unchanged _
  rw [if_neg hle, if_neg hle]
  by_cases hneg : pid.toInt64 < 0
  · -- a process group by its number
    rw [if_pos hneg, if_pos hneg]
    split_ifs with hmin
    · rfl
    · cases t.callerLocalToHost cur (0 - pid).toUInt32 with
      | none => exact t.sent_unchanged _
      | some pgid => exact t.recipients_signalPgrp signal.toUInt32 cur pgid
  rw [if_neg hneg, if_neg hneg]
  by_cases hzero : pid = 0
  · rw [if_pos hzero, if_pos hzero]
    exact t.recipients_signalPgrp signal.toUInt32 cur (t.currentPgid cur)
  -- a process
  rw [if_neg hzero, if_neg hzero]
  cases t.callerLocalToHost cur pid.toUInt32 with
  | none => exact t.sent_unchanged _
  | some target =>
    cases t.proc? cur with
    | none => rfl
    | some me =>
      dsimp only
      split_ifs with hperm hsig
      · subst hsig
        exact t.sent_unchanged _
      · exact t.recipients_sendGroupSignal ..
      · exact t.sent_unchanged _

theorem sent_sysPidfdSendSignal (t : Table) (cur : Pid) (pidfd sig flags : UInt64) :
    t.Sent ((Call.pidfdSendSignal pidfd sig flags).reach t cur)
      (t.sysPidfdSendSignal cur pidfd sig flags) := by
  unfold sysPidfdSendSignal Call.reach
  cases t.proc? cur with
  | none => split_ifs <;> first | exact t.sent_unchanged _ | rfl
  | some me =>
    dsimp only
    rcases me.pidfds pidfd.toUInt32 with - | - | target
    · split_ifs <;> exact t.sent_unchanged _
    · split_ifs <;> exact t.sent_unchanged _
    by_cases hflags : flags = 0
    · rw [if_neg (not_not_intro hflags)]
      dsimp only
      by_cases hperm : t.permitted me.creds target = true
      · rw [if_pos hperm, if_pos ⟨hflags, hperm⟩]
        split_ifs with hle hsig
        · rw [threadSent_of_le hle]
          exact t.sent_unchanged _
        · subst hsig
          exact t.sent_unchanged _
        · exact t.recipients_sendSignalWithInfo ..
      · rw [if_neg hperm, if_neg fun h => hperm h.2]
        split_ifs <;> exact t.sent_unchanged _
    · simp_all [t.sent_unchanged]

end Table

open Table

/-- The set is exact. -/
theorem Call.sent_run (t : Table) (cur : Pid) : t.Sent (call.reach t cur) (call.run t cur) := by
  cases call with
  | kill pid signal => exact t.sent_sysKill cur pid signal
  | tkill tid sig => exact t.recipients_sysTkill cur tid sig
  | tgkill tgid tid sig =>
    rw [run, reach, sysTgkill]
    split_ifs with hpos
    · exact t.sent_unchanged _
    · exact t.recipients_sysTkill cur tid sig
  | rtSigqueueinfo localPid sig infoPtr mem =>
    rw [run, reach, sysRtSigqueueinfo]
    cases t.callerLocalToHost cur localPid.toUInt32 with
    | none => split_ifs <;> exact t.sent_unchanged _
    | some target =>
      split_ifs with hle
      · exact t.sent_unchanged _
      · exact t.recipients_queueTo cur target sig infoPtr mem
  | rtTgsigqueueinfo localTgid localTid sig infoPtr mem =>
    rw [run, reach, sysRtTgsigqueueinfo]
    cases t.callerLocalToHost cur localTid.toUInt32 with
    | none => split_ifs <;> exact t.sent_unchanged _
    | some target =>
      cases t.callerLocalToHost cur localTgid.toUInt32 with
      | none => split_ifs <;> exact t.sent_unchanged _
      | some tgid =>
        dsimp only
        by_cases hle : sig ≥ 64
        · simp_all [if_neg, t.sent_unchanged]
        rw [if_neg hle]
        by_cases htgid : t.processTgid target = some tgid
        · rw [if_pos htgid, if_pos ⟨UInt64.not_le.1 hle, htgid⟩]
          exact t.recipients_queueTo cur target sig infoPtr mem
        · simp_all [t.sent_unchanged]
  | pidfdSendSignal pidfd sig flags => exact t.sent_sysPidfdSendSignal cur pidfd sig flags
  | timer timers key now =>
    show (timerFire t timers key now).1.recipients = t.recipients ∪ _
    unfold timerFire reach
    grind [PosixTimer.reach, t.recipients_sendSignalWithInfo]

end

/-- A process of its own, which leads its process group, of a user without capabilities. -/
def userProcess (pid : Pid) (uid : UInt32) : Proc where
  tgid := pid
  pgid := pid
  sid := pid
  parent := none
  children := []
  creds := { Credentials.root with uid := ⟨uid, uid, uid, uid⟩, capsEff := 0, capsPerm := 0 }
  pidNs := none
  rtSigpendingLimit := 32
  sigactions := fun _ => .default
  tracer := none
  pendingExit := none
  pidfds := fun _ => none

/-- Two users with a process each. -/
def twoUsers : Table where
  processes := (SortedMap.empty.insert 1 (userProcess 1 1000)).insert 2 (userProcess 2 1001)
  state := fun _ => .runnable
  signals := fun _ => .new
  events := []

/-- A timer of the first user that names the other user's process. -/
def strayTimer : Except Errno TimerContext := do
  let (id, c) ← sysTimerCreate twoUsers .empty 0 (some ⟨0, 15, 4, 2⟩)
  c.settime id false 0 5 0 0

def strayTimers : Pid → TimerContext :=
  update (fun _ => .empty) 1 (strayTimer.toOption.getD .empty)

theorem not_allowed_twoUsers : ¬ Allowed twoUsers 1 2 := by
  have hone : twoUsers.proc? 1 = some (userProcess 1 1000) := rfl
  have htwo : twoUsers.proc? 2 = some (userProcess 2 1001) := rfl
  rintro ⟨me, p, hme, hp, h⟩
  cases hone.symm.trans hme
  cases htwo.symm.trans hp
  revert h
  decide

/-- A call that enqueues `SIGTERM` in the other user's process is not permitted. -/
theorem not_permitted_of_sigterm {call : Call} (hcaller : call.caller 1 = 1)
    (h : ((call.run twoUsers.fresh 1).toOption.map
      fun r => decide (Event.enqueued 2 15 ∈ r.2.events)) = some true) :
    ¬ Permitted twoUsers 1 call := by
  obtain ⟨r, hrun, hmem⟩ := Rust.exists_ok h
  intro hperm
  have hallowed := hperm r hrun 2 ⟨15, of_decide_eq_true hmem⟩
  rw [hcaller] at hallowed
  exact not_allowed_twoUsers hallowed

end CypheraKernel.Signal
