import CypheraKernel.Signal.Queue
import CypheraKernel.Trap.Ptrace

/-!
# Checkpoints

`irq_notify_resume_checkpoint` and `deliver_pending_signals` of `kernel/src/core/signals.rs`, with
`forward_signal_to_tracer_if_any` of `kernel/src/core/trace_ctl.rs`: what becomes of the pending
signals of the running process before it goes on in user mode.

`checkpoint_ends_iff`: exactly when a process with `SIGKILL` pending ends there.  Both take the
signals in the order of their numbers, so what counts is the first signal below `SIGKILL`.

Other processes act on the process only while it is stopped: signals that arrive between two
sections of a checkpoint are left out.
-/

namespace CypheraKernel.Signal

open Trap SignalContext
open Rust hiding Panic

/-! ### Dispositions -/

/-- What a signal without handler does. -/
inductive DefaultAction
  | term
  | core
  | stop
  | cont
  | ignore
  deriving DecidableEq, Repr

def defaultAction (signum : Signo) : DefaultAction :=
  match signum.val with
  | 3 | 4 | 5 | 6 | 7 | 8 | 11 | 24 | 25 | 31 => .core
  | 17 | 23 | 28 => .ignore
  | 18 => .cont
  | 19 | 20 | 21 | 22 => .stop
  | _ => .term

def saResethand : UInt64 := 0x80000000

/-- `SigAction::default()`. -/
def SigAction.default : SigAction := ⟨0, 0, 0, 0⟩

/-- `force_default`. -/
def forceDefault (signal : Signo) : Bool := signal = sigkill || signal = sigstop

/-! ### The running process -/

structure Running where
  signals : SignalContext
  sigactions : Signo → SigAction
  trace : TraceContext
  tf : TrapFrame
  mem : UserMemory

/-- What a checkpoint ends in: the process goes on in user mode, there in a handler, stops, or
ends. -/
inductive Outcome
  | userMode (p : Running)
  | handler (p : Running)
  | stopped (p : Running)
  | terminated (signal : Signo)
  | exited (code : ℤ)

/-- `irq_notify_resume_checkpoint`. -/
def irqNotifyResumeCheckpoint (p : Running) : Outcome :=
  match lowest p.signals.deliverable with
  | none => .userMode p
  | some signal =>
    if signal ≠ sigkill ∧ p.trace.isTraced then .userMode p
    else if (p.sigactions signal).handler ≠ 0 ∧ !forceDefault signal then .userMode p
    else
      let p := { p with signals := p.signals.discardSignal signal }
      match defaultAction signal with
      | .term | .core => .terminated signal
      | .stop => .stopped p
      | .cont | .ignore => .userMode p

/-! ### Telling the tracer -/

/-- The registers are saved, `park_for_trace_stop` stops the process unless it is to be killed, and
the registers are restored.  What the process finds when it goes on is given by `resumed`. -/
def Running.stopFor (resumed : Running → Running) (reason : TraceStop) (p : Running) : Running :=
  let p := { p with trace := { p.trace with savedRegs := some (saveTfToProc p.tf) } }
  let p :=
    if p.trace.tracerPid.isNone || has p.signals.pending sigkill then p
    else resumed { p with trace := p.trace.enterStop reason }
  match p.trace.savedRegs with
  | some regs => { p with tf := restoreTfFromProc regs p.tf }
  | none => p

/-- The first part of `forward_signal_to_tracer_if_any`. -/
def stopForAttach (resumed : Running → Running) (p : Running) : Running :=
  if p.trace.isTraced && !has p.signals.pending sigkill && p.trace.pendingAttachStop then
    { p with trace := { p.trace with pendingAttachStop := false } }.stopFor resumed .attach
  else p

/-- The signal for which a traced process stops next. -/
def Running.nextStop (p : Running) : Option Signo :=
  if p.trace.isTraced then (lowest p.signals.deliverable).filter (· ≠ sigkill) else none

/-- The stop for a signal, which is discarded. -/
def Running.stopForSignal (resumed : Running → Running) (signal : Signo) (p : Running) : Running :=
  let p := { p with
    signals := p.signals.discardSignal signal
    trace := { p.trace with eventMsg := .ofNat signal, pendingInject := 0 } }
  p.stopFor resumed (.signal signal)

/-- The signal that the tracer has left to be injected is enqueued. -/
def Running.inject (p : Running) : Running :=
  if h : p.trace.pendingInject < 64 then
    { p with
      signals := p.signals.enqueueSignal ⟨p.trace.pendingInject, h⟩ .forKernel
      trace := { p.trace with pendingInject := 0 } }
  else p

/-- The loop of `forward_signal_to_tracer_if_any`; the stop with `n` rounds left ends as `resumed n`
says. -/
def forwardSignals (resumed : ℕ → Running → Running) : ℕ → Running → Running
  | 0, p => p
  | n + 1, p =>
    match p.nextStop with
    | none => p
    | some signal =>
      let p := p.stopForSignal (resumed n) signal
      if p.trace.pendingInject = 0 then forwardSignals resumed n p else p.inject

/-- `NSIG`. -/
def nsig : ℕ := 64

def forwardSignalToTracerIfAny (resumed : ℕ → Running → Running) (p : Running) : Running :=
  forwardSignals resumed nsig (stopForAttach (resumed nsig) p)

/-! ### Delivery -/

inductive Action
  | none
  | terminateBySignal (signal : Signo)
  | stop
  | cont
  | invokeHandler (signal : Signo) (action : SigAction) (preBlocked : UInt64) (info : SigInfo)
      (altstack : AltStack)

/-- What is to be done about a signal that has been taken. -/
def Running.action (p : Running) (signal : Signo) (info : SigInfo) : Action :=
  let act := p.sigactions signal
  if act.handler = 1 ∧ !forceDefault signal then .none
  else if act.handler = 0 ∨ forceDefault signal then
    match defaultAction signal with
    | .term | .core => .terminateBySignal signal
    | .stop => .stop
    | .cont => .cont
    | .ignore => .none
  else .invokeHandler signal act p.signals.blocked info p.signals.altstack

/-- The loop of `deliver_pending_signals`. -/
def nextAction : ℕ → Running → Action × Running
  | 0, p => (.none, p)
  | n + 1, p =>
    match lowest p.signals.deliverable with
    | none => (.none, p)
    | some signal =>
      let taken := p.signals.dequeueSignal signal
      let p := { p with signals := taken.2 }
      match p.action signal (taken.1.expand signal), p.trace.isTraced with
      | .none, false | .cont, false => nextAction n p
      | action, _ => (action, p)

/-- The last part of `deliver_pending_signals`. -/
def Running.perform (p : Running) : Action → Except Panic Outcome
  | .none | .cont => .ok (.userMode p)
  | .terminateBySignal signal => .ok (.terminated signal)
  | .stop => .ok (.stopped p)
  | .invokeHandler signal action preBlocked info altstack => do
    let d ← deliverToHandler p.tf p.mem signal action preBlocked info altstack
    match d.result with
    | some newBlocked =>
      return .handler { p with
        tf := d.tf
        mem := d.mem
        signals := p.signals.withBlocked newBlocked
        sigactions :=
          if action.flags &&& saResethand ≠ 0 then Function.update p.sigactions signal .default
          else p.sigactions }
    | none => return .exited (128 + 11)

def deliverPendingSignals (resumed : ℕ → Running → Running) (p : Running) : Except Panic Outcome :=
  let r := nextAction nsig (forwardSignalToTracerIfAny resumed p)
  r.2.perform r.1

/-! ### SIGKILL -/

/-- A checkpoint: after an interrupt, or on the way back from a system call or a fault. -/
inductive Checkpoint
  | irq
  | syscall (resumed : ℕ → Running → Running)

def Checkpoint.run : Checkpoint → Running → Except Panic Outcome
  | irq, p => .ok (irqNotifyResumeCheckpoint p)
  | syscall resumed, p => deliverPendingSignals resumed p

/-- The process ends. -/
def Ends : Except Panic Outcome → Prop
  | .ok (.terminated _) | .ok (.exited _) => True
  | _ => False

/-- The signal is the first that the process does not ignore. -/
structure First (p : Running) (s : Signo) : Prop where
  deliverable : has p.signals.deliverable s = true
  handler : (p.sigactions s).handler ≠ 1
  ignored : ∀ t < s, has p.signals.deliverable t = true → (p.sigactions t).handler = 1

/-- The frame for the handler of the signal cannot be written. -/
def NoFrame (p : Running) (s : Signo) : Prop :=
  ∃ d, deliverToHandler p.tf p.mem s (p.sigactions s) p.signals.blocked
    ((p.signals.siginfo s).expand s) p.signals.altstack = .ok d ∧ d.result = none

/-- Nothing comes before `SIGKILL` that lets the process go on.  After an interrupt, a lower signal
has to have its default action, which ends the process, and the process must not be traced.  On the
way back from a system call the tracer takes what comes before; without one, the first lower signal
that is not ignored has its default action, or a handler whose frame cannot be written. -/
def Checkpoint.Clear : Checkpoint → Running → Prop
  | irq, p => ∀ s < sigkill, lowest p.signals.deliverable = some s →
      p.trace.isTraced = false ∧ (p.sigactions s).handler = 0
  | syscall _, p => p.trace.isTraced = false → ∀ s < sigkill, First p s →
      (p.sigactions s).handler = 0 ∨ NoFrame p s

variable {s : Signo}

/-- The default action of a signal below `SIGKILL` ends the process. -/
theorem defaultAction_of_lt (h : s < sigkill) :
    defaultAction s = .term ∨ defaultAction s = .core := by
  revert s
  decide

theorem forceDefault_of_lt (h : s < sigkill) : forceDefault s = false := by
  revert s
  decide

theorem isRtSignal_of_le (h : s ≤ sigkill) : isRtSignal s = false := by
  revert s
  decide

section

variable {p : Running} {s : Signo} {n : ℕ} (info : SigInfo)

section

variable (h : has p.signals.pending sigkill = true)

include h

theorem has_deliverable_sigkill : has p.signals.deliverable sigkill = true := by
  rw [has_deliverable, h, has_blocked_eq_false _ (.inl rfl)]
  rfl

/-- With `SIGKILL` pending there is a first signal, and it is not beyond `SIGKILL`. -/
theorem exists_lowest : ∃ s ≤ sigkill, lowest p.signals.deliverable = some s := by
  have hkill := has_deliverable_sigkill h
  cases hlow : lowest p.signals.deliverable with
  | none => exact absurd (lowest_eq_none_iff.1 hlow sigkill) (by simp [hkill])
  | some s =>
    refine ⟨s, ?_, rfl⟩
    by_contra hlt
    have hfalse := (lowest_eq_some_iff.1 hlow).2 sigkill (not_le.1 hlt)
    exact absurd hkill (by simp [hfalse])

/-! ### The checkpoint after an interrupt -/

theorem irq_ends_iff : Ends (Checkpoint.irq.run p) ↔ Checkpoint.irq.Clear p := by
  obtain ⟨s, hle, hlow⟩ := exists_lowest h
  have hclear : Checkpoint.irq.Clear p ↔
      (s < sigkill → p.trace.isTraced = false ∧ (p.sigactions s).handler = 0) := by
    constructor
    · intro hc hlt
      exact hc s hlt hlow
    · intro hc t hlt ht
      cases hlow.symm.trans ht
      exact hc hlt
  rw [hclear, Checkpoint.run, irqNotifyResumeCheckpoint, hlow]
  dsimp only
  rcases hle.lt_or_eq with hlt | rfl
  · -- a lower signal: it is looked at and `SIGKILL` is not
    have hne : s ≠ sigkill := hlt.ne
    rw [forceDefault_of_lt hlt]
    by_cases htraced : p.trace.isTraced = true
    · rw [if_pos ⟨hne, htraced⟩]
      exact iff_of_false id fun hc => absurd (hc hlt).1 (by simp [htraced])
    have huntraced : ¬ (s ≠ sigkill ∧ p.trace.isTraced = true) := fun hc => htraced hc.2
    rw [if_neg huntraced]
    by_cases hhandler : (p.sigactions s).handler = 0
    · have hdefault : ¬ ((p.sigactions s).handler ≠ 0 ∧ (!false) = true) :=
        fun hc => hc.1 hhandler
      rw [if_neg hdefault]
      refine iff_of_true ?_ fun _ => ⟨by simpa using htraced, hhandler⟩
      rcases defaultAction_of_lt hlt with hd | hd <;> rw [hd] <;> trivial
    · rw [if_pos ⟨hhandler, rfl⟩]
      exact iff_of_false id fun hc => hhandler (hc hlt).2
  · have hkill : ¬ (sigkill ≠ sigkill ∧ p.trace.isTraced = true) := fun hc => hc.1 rfl
    have hforced : ¬ ((p.sigactions sigkill).handler ≠ 0 ∧ (!forceDefault sigkill) = true) :=
      fun hc => Bool.false_ne_true hc.2
    rw [if_neg hkill, if_neg hforced]
    exact iff_of_true trivial fun hlt => absurd hlt (lt_irrefl _)

end

/-! ### The checkpoint of a traced process -/

/-- A process that is to be killed does not stop. -/
theorem stopFor_of_sigkill (resumed : Running → Running) (reason : TraceStop)
    (h : has p.signals.pending sigkill = true) :
    (p.stopFor resumed reason).signals = p.signals ∧
      (p.stopFor resumed reason).trace =
        { p.trace with savedRegs := some (saveTfToProc p.tf) } := by simp_all [Running.stopFor]

/-- The tracer takes the signals below `SIGKILL`: the bound on `n` tells that the rounds suffice. -/
theorem forwardSignals_of_traced (resumed : ℕ → Running → Running)
    (hkill : has p.signals.pending sigkill = true) (htraced : p.trace.isTraced = true)
    (hn : ∀ s, has p.signals.deliverable s = true → 9 ≤ s.val + n) :
    lowest (forwardSignals resumed n p).signals.deliverable = some sigkill := by
  induction n generalizing p with
  | zero =>
    refine lowest_eq_some_iff.2 ⟨has_deliverable_sigkill hkill, fun t ht => ?_⟩
    rw [forwardSignals]
    by_contra hdel
    have hle := hn t (Bool.not_eq_false _ ▸ hdel)
    have hlt : t.val < 9 := ht
    omega
  | succ n ih =>
    obtain ⟨s, hle, hlow⟩ := exists_lowest hkill
    have hnext : p.nextStop = (some s).filter (· ≠ sigkill) := by
      rw [Running.nextStop, if_pos htraced, hlow]
    rcases hle.lt_or_eq with hlt | rfl
    · have hsome : p.nextStop = some s := hnext.trans (Option.filter_some_pos (by simpa using hlt.ne))
      rw [forwardSignals, hsome]
      dsimp only [Running.stopForSignal]
      -- the signal is gone, and the others are above it
      set q : Running := { p with
        signals := p.signals.discardSignal s
        trace := { p.trace with eventMsg := .ofNat s, pendingInject := 0 } } with hq
      have hkill' : has q.signals.pending sigkill = true := by
        rw [hq, has_pending_discardSignal, hkill]
        simpa using hlt.ne'
      obtain ⟨hsignals, htrace⟩ := stopFor_of_sigkill (resumed n) (.signal s) hkill'
      have hinject : (q.stopFor (resumed n) (.signal s)).trace.pendingInject = 0 := by rw [htrace, hq]
      rw [if_pos hinject]
      refine ih (by rw [hsignals, hkill']) (by rw [htrace]; exact htraced) fun t ht => ?_
      rw [hsignals, has_deliverable, hq,
        has_pending_discardSignal] at ht
      obtain ⟨ht, hblocked⟩ := Bool.and_eq_true_iff.1 ht
      obtain ⟨hpending, hne⟩ := Bool.and_eq_true_iff.1 ht
      have hdel : has p.signals.deliverable t = true := by
        rw [has_deliverable, hpending]
        simpa using hblocked
      obtain ⟨hs, hbelow⟩ := lowest_eq_some_iff.1 hlow
      have hst : s < t := by
        refine lt_of_le_of_ne (le_of_not_gt fun hts => ?_) (Ne.symm (of_decide_eq_true hne))
        exact absurd hdel (by simp [hbelow t hts])
      have hs' := hn s hs
      rw [Fin.lt_def] at hst
      omega
    · have hnone : p.nextStop = none := hnext
      rw [forwardSignals, hnone]
      exact hlow

/-! ### Taking the signals one after the other -/

theorem action_sigkill (p : Running) (info : SigInfo) :
    p.action sigkill info = .terminateBySignal sigkill := by
  simp [forceDefault, sigkill, defaultAction, Running.action]

theorem action_of_default (hlt : s < sigkill)
    (h : (p.sigactions s).handler = 0) : p.action s info = .terminateBySignal s := by
  rcases defaultAction_of_lt hlt with hd | hd <;> simp [Running.action, h, hd]

theorem action_of_handler (hlt : s < sigkill)
    (h0 : (p.sigactions s).handler ≠ 0) (h1 : (p.sigactions s).handler ≠ 1) :
    p.action s info =
      .invokeHandler s (p.sigactions s) p.signals.blocked info p.signals.altstack := by
  simp [Running.action, h0, h1, forceDefault_of_lt hlt]

/-- What the loop takes is an action that is not nothing. -/
theorem nextAction_of_action {action : Action} (hlow : lowest p.signals.deliverable = some s)
    (haction : p.action s ((p.signals.siginfo s).expand s) = action) (hnone : action ≠ .none)
    (hcont : action ≠ .cont) :
    nextAction (n + 1) p = (action, { p with signals := (p.signals.dequeueSignal s).2 }) := by
  have hpending : has p.signals.pending s = true := by simp_all [lowest_eq_some_iff]
  simp_all [Running.action, fst_dequeueSignal, nextAction]

/-- The signal at which the loop ends: the first that is not ignored, if it is below `SIGKILL`. -/
structure LoopEnds (p : Running) (s : Signo) : Prop where
  le : s ≤ sigkill
  deliverable : has p.signals.deliverable s = true
  handler : s < sigkill → (p.sigactions s).handler ≠ 1
  ignored : ∀ t < s, has p.signals.deliverable t = true → (p.sigactions t).handler = 1

/-- The loop of an untraced process with `SIGKILL` pending ends at a signal not beyond it.  The
bound on `n` tells that the rounds suffice, `SIGKILL` included. -/
theorem nextAction_of_untraced (hkill : has p.signals.pending sigkill = true)
    (huntraced : p.trace.isTraced = false)
    (hn : ∀ s, has p.signals.deliverable s = true → 9 < s.val + n) :
    ∃ s c, LoopEnds p s ∧
      nextAction n p = (p.action s ((p.signals.siginfo s).expand s), { p with signals := c }) := by
  induction n generalizing p with
  | zero => exact absurd (hn sigkill (has_deliverable_sigkill hkill)) (by decide)
  | succ n ih =>
    obtain ⟨s, hle, hlow⟩ := exists_lowest hkill
    obtain ⟨hs, hbelow⟩ := lowest_eq_some_iff.1 hlow
    have hignored (t : Signo) (ht : t < s) (hdel : has p.signals.deliverable t = true) :
        (p.sigactions t).handler = 1 := absurd hdel (by simp [hbelow t ht])
    rcases hle.lt_or_eq with hlt | rfl
    · by_cases h1 : (p.sigactions s).handler = 1
      · -- the signal is ignored, and the next round begins above it
        set q : Running := { p with signals := (p.signals.dequeueSignal s).2 } with hq
        have hround : nextAction (n + 1) p = nextAction n q := by
          grind [Running.action, forceDefault_of_lt, nextAction]
        rw [hround]
        have hdel (t : Signo) : has q.signals.deliverable t =
            (has p.signals.deliverable t && decide (t ≠ s)) := by
          rw [has_deliverable, hq, blocked_dequeueSignal,
            has_pending_dequeueSignal _ (isRtSignal_of_le hle),
            has_deliverable, Bool.and_right_comm]
        have hkill' : has q.signals.pending sigkill = true := by
          grind [has_pending_dequeueSignal, isRtSignal_of_le]
        have hrounds (t : Signo) (ht : has q.signals.deliverable t = true) : 9 < t.val + n := by
          rw [hdel] at ht
          obtain ⟨ht, hne⟩ := Bool.and_eq_true_iff.1 ht
          have hst : s < t := by
            refine lt_of_le_of_ne (le_of_not_gt fun hts => ?_) (Ne.symm (of_decide_eq_true hne))
            exact absurd ht (by simp [hbelow t hts])
          have hs' := hn s hs
          rw [Fin.lt_def] at hst
          omega
        obtain ⟨u, c, hends, hnext⟩ := ih hkill' huntraced hrounds
        obtain ⟨hu, hus⟩ := Bool.and_eq_true_iff.1 (hdel u ▸ hends.deliverable)
        refine ⟨u, c, ⟨hends.le, hu, hends.handler, fun t ht htd => ?_⟩, ?_⟩
        · rcases eq_or_ne t s with rfl | hne
          · exact h1
          · grind [hends.ignored]
        · rw [hnext, hq]
          simp [Running.action, siginfo_dequeueSignal _ (of_decide_eq_true hus)]
      · refine ⟨s, _, ⟨hle, hs, fun _ => h1, hignored⟩, nextAction_of_action hlow rfl ?_ ?_⟩
        all_goals
          by_cases h0 : (p.sigactions s).handler = 0
          · simp_all [action_of_default]
          · simp_all [action_of_handler]
    · refine ⟨sigkill, _, ⟨le_rfl, hs, fun h => absurd h (lt_irrefl _), hignored⟩,
        nextAction_of_action hlow rfl ?_ ?_⟩
      all_goals
        rw [action_sigkill]
        exact Action.noConfusion

end

/-! ### The checkpoint of a system call -/

section

variable {p : Running} {s : Signo} (resumed : ℕ → Running → Running)

theorem forwardSignalToTracerIfAny_of_untraced (h : p.trace.isTraced = false) :
    forwardSignalToTracerIfAny resumed p = p := by
  have hattach : stopForAttach (resumed nsig) p = p := by simp [stopForAttach, h]
  have hnone : p.nextStop = none := by simp [Running.nextStop, h]
  rw [forwardSignalToTracerIfAny, hattach, nsig, forwardSignals, hnone]

section

variable (hkill : has p.signals.pending sigkill = true)

include hkill

/-- A traced process ends. -/
theorem ends_of_traced
    (htraced : p.trace.isTraced = true) : Ends (deliverPendingSignals resumed p) := by
  have hattach : stopForAttach (resumed nsig) p = p := by simp [stopForAttach, hkill]
  have hlow := forwardSignals_of_traced (n := nsig) resumed hkill htraced fun s _ => by
    rw [nsig]
    omega
  rw [deliverPendingSignals, forwardSignalToTracerIfAny, hattach]
  have hnext := nextAction_of_action (n := 63) hlow (action_sigkill _ _) nofun nofun
  rw [nsig] at hnext ⊢
  rw [hnext]
  trivial

/-- An untraced process ends exactly if the signal at which the loop ends makes it end. -/
theorem ends_iff_of_loopEnds (huntraced : p.trace.isTraced = false) :
    ∃ s, LoopEnds p s ∧ (Ends (deliverPendingSignals resumed p) ↔
      (s < sigkill → (p.sigactions s).handler = 0 ∨ NoFrame p s)) := by
  obtain ⟨s, c, hends, hnext⟩ := nextAction_of_untraced (n := nsig) hkill huntraced fun s _ => by
    rw [nsig]
    omega
  refine ⟨s, hends, ?_⟩
  rw [deliverPendingSignals, forwardSignalToTracerIfAny_of_untraced resumed huntraced, hnext]
  rcases hends.le.lt_or_eq with hlt | rfl
  · by_cases h0 : (p.sigactions s).handler = 0
    · rw [action_of_default _ hlt h0]
      exact iff_of_true trivial fun _ => .inl h0
    rw [action_of_handler _ hlt h0 (hends.handler hlt)]
    have hclear : (s < sigkill → (p.sigactions s).handler = 0 ∨ NoFrame p s) ↔ NoFrame p s :=
      ⟨fun h => (h hlt).resolve_left h0, fun h _ => .inr h⟩
    rw [hclear, Running.perform, NoFrame]
    -- the process ends only when the copies to its stack fail
    cases hdeliver : deliverToHandler p.tf p.mem s (p.sigactions s) p.signals.blocked
        ((p.signals.siginfo s).expand s) p.signals.altstack with
    | error e => exact iff_of_false id fun ⟨d, hd, _⟩ => by cases hd
    | ok d =>
      rw [ok_bind]
      cases hresult : d.result with
      | none => exact iff_of_true trivial ⟨d, rfl, hresult⟩
      | some blocked =>
        refine iff_of_false id ?_
        rintro ⟨d', hd', hnone⟩
        cases hd'
        exact absurd (hresult.symm.trans hnone) (Option.some_ne_none _)
  · rw [action_sigkill]
    exact iff_of_true trivial fun h => absurd h (lt_irrefl _)

theorem syscall_ends_iff :
    Ends ((Checkpoint.syscall resumed).run p) ↔ (Checkpoint.syscall resumed).Clear p := by
  by_cases htraced : p.trace.isTraced = true
  · refine iff_of_true (ends_of_traced resumed hkill htraced) fun h => ?_
    exact absurd htraced (by simp [h])
  have huntraced : p.trace.isTraced = false := by simpa using htraced
  obtain ⟨s, hends, hiff⟩ := ends_iff_of_loopEnds resumed hkill huntraced
  rw [Checkpoint.run, hiff]
  constructor
  · intro h _ t ht hfirst
    -- the first signal that is not ignored is the one at which the loop ends
    grind [hends.ignored, hfirst.deliverable, hfirst.handler, hfirst.ignored, hends.deliverable,
      hends.handler]
  · intro h hlt
    exact h huntraced s hlt ⟨hends.deliverable, hends.handler hlt, hends.ignored⟩

end

end

/-- **SIGKILL.**  A checkpoint of a process with `SIGKILL` pending ends the process exactly if
nothing comes before that lets it go on. -/
theorem checkpoint_ends_iff (c : Checkpoint) {p : Running}
    (hkill : has p.signals.pending sigkill = true) : Ends (c.run p) ↔ c.Clear p := by
  cases c with
  | irq => exact irq_ends_iff hkill
  | syscall resumed => exact syscall_ends_iff resumed hkill

/-- A process in a system call with the pending signals `mask`, which has a handler for `SIGHUP`. -/
def pendingProcess (mask : UInt64) : Running where
  signals := { new with pending := mask }
  sigactions := Function.update (fun _ => .default) 1 (handlerAt 0)
  trace := .untraced
  tf := syscallEntry thread
  mem := openMemory

/-- With `SIGKILL` and a lower signal that has its default action the process ends at both
checkpoints. -/
theorem sigint_and_sigkill_end :
    Ends (Checkpoint.irq.run (pendingProcess (bit 2 ||| bit sigkill))) ∧
      Ends ((Checkpoint.syscall fun _ => id).run (pendingProcess (bit 2 ||| bit sigkill))) := by
  have hkill : has (pendingProcess (bit 2 ||| bit sigkill)).signals.pending sigkill = true := by
    decide +kernel
  have hhandler : ∀ s < sigkill, has (pendingProcess (bit 2 ||| bit sigkill)).signals.deliverable s =
      true → ((pendingProcess (bit 2 ||| bit sigkill)).sigactions s).handler = 0 := by
    decide +kernel
  constructor
  · refine (checkpoint_ends_iff .irq hkill).2 fun s hlt hlow => ⟨rfl, hhandler s hlt ?_⟩
    exact (lowest_eq_some_iff.1 hlow).1
  · refine (checkpoint_ends_iff (.syscall fun _ => id) hkill).2 fun _ s hlt hfirst => .inl ?_
    exact hhandler s hlt hfirst.deliverable

/-- With `SIGHUP` before `SIGKILL` the process goes on in user mode after an interrupt, and to its
handler after a system call. -/
theorem sighup_before_sigkill :
    ¬ Ends (Checkpoint.irq.run (pendingProcess (bit 1 ||| bit sigkill))) ∧
      ¬ Ends ((Checkpoint.syscall fun _ => id).run (pendingProcess (bit 1 ||| bit sigkill))) := by
  have hkill : has (pendingProcess (bit 1 ||| bit sigkill)).signals.pending sigkill = true := by
    decide +kernel
  have hhandler : ((pendingProcess (bit 1 ||| bit sigkill)).sigactions 1).handler ≠ 0 := by
    decide +kernel
  constructor
  · rw [irq_ends_iff hkill]
    intro hclear
    exact hhandler (hclear 1 (by decide) (by decide +kernel)).2
  rw [syscall_ends_iff (fun _ => id) hkill]
  intro hclear
  have hfirst : First (pendingProcess (bit 1 ||| bit sigkill)) 1 := by
    refine ⟨by decide +kernel, by decide +kernel, fun t ht hdel => ?_⟩
    obtain rfl : t = 0 := (Fin.lt_one_iff t).1 ht
    exact absurd hdel (by decide +kernel)
  rcases hclear rfl 1 (by decide) hfirst with h0 | ⟨d, hd, hnone⟩
  · exact hhandler h0
  obtain ⟨d', hd', hsome⟩ := exists_ok
    (x := deliverToHandler (syscallEntry thread) openMemory 1 (handlerAt 0) 0
      (PendingSigInfo.zero.expand 1) AltStack.disabled)
    (f := fun d => d.result.isSome) (b := true) (by decide +kernel)
  cases hd'.symm.trans hd
  rw [hnone] at hsome
  cases hsome

end CypheraKernel.Signal
