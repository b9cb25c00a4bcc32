import CypheraKernel.Signal.Checkpoint

/-!
# Signals that a tracer injects

`resume_traced` and `request_ptrace_continue` of `kernel/src/core/trace_ctl.rs`, as the ends of the
stops of a checkpoint.  A stop discards every instance of its signal; a signal that the tracer gives
is enqueued by the tracer, and by the tracee once more, and then the lowest deliverable signal is
taken, whichever that is.

`injected_once_iff`: when a stop loses no instance and has the signal of the tracer taken once.
-/

namespace CypheraKernel.Signal

open Function

namespace SignalContext

variable {c : SignalContext} {s : Signo}

/-- The pending instances of a signal, in the order in which they are taken. -/
def instances (c : SignalContext) (s : Signo) : List PendingSigInfo :=
  (if has c.pending s then [c.siginfo s] else []) ++
    if isRtSignal s then (c.rtQueue.filter (·.1 = s)).map (·.2) else []

theorem instances_discardSignal : (c.discardSignal s).instances = update c.instances s [] := by
  funext t
  rcases eq_or_ne t s with rfl | hne
  · simp +contextual [instances, discardSignal]
  have hqueue : (c.rtQueue.filter (·.1 ≠ s)).filter (·.1 = t) = c.rtQueue.filter (·.1 = t) := by
    rw [List.filter_filter]
    exact List.filter_congr fun x _ => by grind
  rw [update_of_ne hne]
  unfold discardSignal
  split_ifs <;> simp only [instances, hqueue] <;> simp [hne]

theorem instances_enqueueSignal (info : PendingSigInfo) :
    (c.enqueueSignal s info).instances = update c.instances s
      (if isRtSignal s then
        if has c.pending s then c.instances s ++ [info] else info :: c.instances s
      else [info]) := by
  funext t
  rcases eq_or_ne t s with rfl | hne
  · cases hrt : isRtSignal t <;> cases hset : has c.pending t <;>
      simp [instances, enqueueSignal, hrt, hset]
  · unfold enqueueSignal
    split_ifs <;> simp [instances, hne, hne.symm]

/-- The instances of a real-time signal stay in their order, and each of `infos` is one more. -/
theorem exists_instances_foldl (c : SignalContext) (s : Signo) (infos : List PendingSigInfo) :
    ∃ l, (infos.foldl (·.enqueueSignal s) c).instances = update c.instances s l ∧
      if isRtSignal s then
        (c.instances s).Sublist l ∧ l.length = (c.instances s).length + infos.length
      else l.length = if infos = [] then (c.instances s).length else 1 := by
  induction infos generalizing c with
  | nil => exact ⟨c.instances s, by simp, by simp⟩
  | cons info infos ih =>
    obtain ⟨l, hl, hkept⟩ := ih (c.enqueueSignal s info)
    refine ⟨l, by simpa [instances_enqueueSignal] using hl, ?_⟩
    simp only [instances_enqueueSignal, update_self] at hkept
    split_ifs at * with hrt hset
    · refine ⟨(List.sublist_append_left _ _).trans hkept.1, ?_⟩
      simp [hkept.2]
      omega
    · refine ⟨(List.sublist_cons_self _ _).trans hkept.1, ?_⟩
      simp [hkept.2]
      omega
    all_goals simp_all

theorem has_pending_enqueueSignal (c : SignalContext) (s t : Signo) (info : PendingSigInfo) :
    has (c.enqueueSignal s info).pending t = (has c.pending t || decide (t = s)) := by
  unfold enqueueSignal
  split_ifs <;> simp_all

theorem blocked_enqueueSignal (c : SignalContext) (s : Signo) (info : PendingSigInfo) :
    (c.enqueueSignal s info).blocked = c.blocked := by
  unfold enqueueSignal
  split_ifs <;> rfl

/-- Another signal than the one taken stays as it is. -/
theorem instances_dequeueSignal {t : Signo} (hrt : isRtSignal s = false) (hne : s ≠ t) :
    (c.dequeueSignal t).2.instances s = c.instances s := by
  unfold dequeueSignal
  split
  · split <;> simp [instances, hrt, hne]
  · rfl

end SignalContext

open SignalContext

/-- `PTRACE_CONT`, `PTRACE_SYSCALL` and `PTRACE_SINGLESTEP`, or `PTRACE_DETACH`.  `capped` tells
that the user has as many real-time signals pending as allowed. -/
inductive Resume
  | cont (signal : Signo) (traceSyscall singleStep capped : Bool)
  | detach (signal : Signo)
  deriving DecidableEq, Repr

namespace Resume

def signal : Resume → Signo
  | cont s _ _ _ | detach s => s

/-- The information of a signal that the tracer enqueues. -/
def tracerInfo (p : Running) : PendingSigInfo := .forKill (.ofNat (p.trace.tracerPid.getD 0))

/-- What the tracer does to the tracee. -/
def apply (r : Resume) (p : Running) : Running :=
  match r with
  | cont s traceSyscall singleStep capped =>
    let regs := p.trace.savedRegs
    let trace := { p.trace with
      savedRegs := if singleStep then regs.map Trap.UserRegs.enableSingleStep else regs }
    let p := { p with trace := trace.resume traceSyscall }
    if s = 0 ∨ isRtSignal s ∧ capped then p
    else
      { p with
        signals := p.signals.enqueueSignal s (tracerInfo p)
        trace := { p.trace with pendingInject := s } }
  | detach s =>
    { p with
      trace := p.trace.detach
      signals := if s = 0 then p.signals else p.signals.enqueueSignal s .forKernel }

/-- The instances that are enqueued by the tracer and by the tracee. -/
def given (p : Running) : Resume → List PendingSigInfo
  | cont s _ _ capped => if s = 0 ∨ isRtSignal s ∧ capped then [] else [tracerInfo p, .forKernel]
  | detach s => if s = 0 then [] else [.forKernel]

end Resume

/-- A stop: the process before it, its signal, how it is ended, and the process afterwards. -/
structure Stop where
  before : Running
  signal : Signo
  resume : Resume
  after : Running

/-- The stops of the loop of `forward_signal_to_tracer_if_any`; the one with `n` rounds left is ended
by `rs n`. -/
def stops (rs : ℕ → Resume) : ℕ → Running → List Stop
  | 0, _ => []
  | n + 1, p =>
    match p.nextStop with
    | none => []
    | some s =>
      let q := p.stopForSignal (rs n).apply s
      if q.trace.pendingInject = 0 then ⟨p, s, rs n, q⟩ :: stops rs n q
      else [⟨p, s, rs n, q.inject⟩]

/-- The loop ends where its last stop does. -/
theorem forwardSignals_eq_stops (rs : ℕ → Resume) (n : ℕ) (p : Running) :
    forwardSignals (fun n => (rs n).apply) n p = (stops rs n p).getLast?.elim p Stop.after := by
  induction n generalizing p with
  | zero => rfl
  | succ n ih =>
    rw [forwardSignals, stops]
    cases p.nextStop with
    | none => rfl
    | some s =>
      dsimp only
      split_ifs
      · rw [ih, List.getLast?_cons]
        cases (stops rs n _).getLast? <;> rfl
      · rfl

namespace Stop

variable (x : Stop)

/-- The signals while the process is stopped. -/
def atStop : SignalContext := x.before.signals.discardSignal x.signal

/-- Of the pending instances only the first one of the signal of the stop is gone at the stop.
Afterwards, if the tracer has given a signal, this one is pending once when it is a standard signal,
and once more when it is not; and an instance of it is taken at once if the process is traced, for
what stays pending then is not delivered but reported again. -/
def Once : Prop :=
  x.atStop.instances =
      update x.before.signals.instances x.signal (x.before.signals.instances x.signal).tail ∧
    if x.resume.signal = 0 then x.after.signals.instances = x.atStop.instances
    else (∃ l, x.after.signals.instances = update x.atStop.instances x.resume.signal l ∧
        if isRtSignal x.resume.signal then
          (x.atStop.instances x.resume.signal).Sublist l ∧
            l.length = (x.atStop.instances x.resume.signal).length + 1
        else l.length = 1) ∧
      (x.after.trace.isTraced = true →
        ((nextAction nsig x.after).2.signals.instances x.resume.signal).length + 1 =
          (x.after.signals.instances x.resume.signal).length)

/-- The signal of the stop has no other instance; and the tracer gives no signal, or leaves, or gives
a standard signal that is not blocked and is below all that could be taken. -/
def Clear : Prop :=
  (x.before.signals.instances x.signal).tail = [] ∧
    (x.resume.signal = 0 ∨ x.resume = .detach x.resume.signal ∨
      isRtSignal x.resume.signal = false ∧ has x.before.signals.blocked x.resume.signal = false ∧
        ∀ t < x.resume.signal, has x.atStop.deliverable t = false)
  deriving Decidable

/-- What a stop does: what is given is enqueued, and the process is traced unless the tracer has
left. -/
structure Ended : Prop where
  signals : x.after.signals =
    (x.resume.given x.before).foldl (·.enqueueSignal x.resume.signal) x.atStop
  traced : x.after.trace.isTraced = true ↔ x.resume ≠ .detach x.resume.signal

end Stop

/-- A process that is not to be killed stops, and the tracer finds the signals as they are. -/
theorem exists_stopFor {p : Running} (resumed : Running → Running) (reason : Trap.TraceStop)
    (htraced : p.trace.isTraced = true) (hkill : has p.signals.pending sigkill = false) :
    ∃ q, q.signals = p.signals ∧ q.trace.tracerPid = p.trace.tracerPid ∧
      q.trace.pendingInject = p.trace.pendingInject ∧
      (p.stopFor resumed reason).signals = (resumed q).signals ∧
      (p.stopFor resumed reason).trace = (resumed q).trace := by
  have hgo : (p.trace.tracerPid.isNone || has p.signals.pending sigkill) = false := by
    simpa [hkill, Trap.TraceContext.isTraced] using htraced
  refine ⟨{ p with trace := { p.trace with
    savedRegs := some (Trap.saveTfToProc p.tf) }.enterStop reason }, rfl, rfl, rfl, ?_⟩
  simp only [Running.stopFor, hgo, Bool.false_eq_true, if_false]
  split <;> exact ⟨rfl, rfl⟩

/-- One round of the loop.  Where it goes on, nothing has been given or the tracer has left. -/
theorem stopForSignal_spec {p : Running} (htraced : p.trace.isTraced = true)
    (hkill : has p.signals.pending sigkill = false) (r : Resume) (s : Signo) :
    let q := p.stopForSignal r.apply s
    if q.trace.pendingInject = 0 then
      Stop.Ended ⟨p, s, r, q⟩ ∧ (q.trace.isTraced = true → has q.signals.pending sigkill = false)
    else Stop.Ended ⟨p, s, r, q.inject⟩ := by
  obtain ⟨q, hsignals, htracer, hinject, hs, ht⟩ := exists_stopFor (p := { p with
    signals := p.signals.discardSignal s
    trace := { p.trace with eventMsg := .ofNat s, pendingInject := 0 } }) r.apply (.signal s)
    htraced (by simp [has_pending_discardSignal, hkill])
  dsimp only [Running.stopForSignal] at hsignals htracer hinject ⊢
  generalize Running.stopFor r.apply _ _ = x at hs ht ⊢
  cases r with
  | cont t a b capped =>
    have hpid : x.trace.isTraced = true := by
      have hq : q.trace.tracerPid.isSome = true := htracer ▸ htraced
      rw [ht, Resume.apply]
      split_ifs <;> exact hq
    by_cases hgive : t = 0 ∨ isRtSignal t = true ∧ capped = true
    · have hzero : x.trace.pendingInject = 0 := by
        simp [ht, Resume.apply, hgive, Trap.TraceContext.resume, hinject]
      have hx : x.signals = p.signals.discardSignal s := by simp [hs, Resume.apply, hgive, hsignals]
      rw [if_pos hzero]
      refine ⟨⟨by simp [hx, Resume.given, hgive, Stop.atStop], by simp [hpid]⟩, fun _ => ?_⟩
      simp [hx, has_pending_discardSignal, hkill]
    · have hgives : x.trace.pendingInject = t.val := by simp [ht, Resume.apply, hgive]
      have ht0 : t.val ≠ 0 := fun h => hgive (.inl (Fin.ext h))
      simp only [hgives, ht0, if_false, Running.inject, t.isLt, dif_pos]
      refine ⟨?_, by simpa [Trap.TraceContext.isTraced] using hpid⟩
      simp [hs, Resume.apply, Resume.given, hgive, hsignals, Resume.signal, Resume.tracerInfo,
        Trap.TraceContext.resume, htracer, Stop.atStop]
  | detach t =>
    have hx : x.trace.isTraced = false := by rw [ht]; rfl
    have hzero : x.trace.pendingInject = 0 := by rw [ht]; rfl
    rw [if_pos hzero]
    refine ⟨⟨?_, by simp [hx, Resume.signal]⟩, by simp [hx]⟩
    by_cases h0 : t = 0 <;>
      simp [hs, Resume.apply, Resume.given, Resume.signal, hsignals, h0, Stop.atStop]

theorem ended_of_mem_stops {rs : ℕ → Resume} {n : ℕ} {p : Running} {x : Stop}
    (hkill : p.trace.isTraced = true → has p.signals.pending sigkill = false)
    (hx : x ∈ stops rs n p) : x.Ended := by
  induction n generalizing p with
  | zero => cases hx
  | succ n ih =>
    rw [stops] at hx
    cases hnext : p.nextStop with
    | none =>
      rw [hnext] at hx
      cases hx
    | some s =>
      have htraced : p.trace.isTraced = true := by
        by_contra hnot
        rw [Running.nextStop, if_neg hnot] at hnext
        cases hnext
      have hspec := stopForSignal_spec htraced (hkill htraced) (rs n) s
      rw [hnext] at hx
      dsimp only at hx hspec
      split_ifs at hx hspec
      · rcases List.mem_cons.1 hx with rfl | hx
        · exact hspec.1
        · exact ih hspec.2 hx
      · rw [List.mem_singleton.1 hx]
        exact hspec

/-! ### Once -/

/-- With a tracer one signal is taken, the lowest one. -/
theorem signals_nextAction_of_traced {p : Running} (htraced : p.trace.isTraced = true) (n : ℕ) :
    (nextAction (n + 1) p).2.signals =
      match lowest p.signals.deliverable with
      | none => p.signals
      | some t => (p.signals.dequeueSignal t).2 := by
  rw [nextAction]
  cases lowest p.signals.deliverable with
  | none => rfl
  | some t =>
    dsimp only
    rw [htraced]
    split <;> first | rfl | contradiction

/-- A standard signal is taken when it is the lowest one. -/
theorem taken_iff {p : Running} {s : Signo} (htraced : p.trace.isTraced = true)
    (hrt : isRtSignal s = false) (hpending : has p.signals.pending s = true) :
    ((nextAction nsig p).2.signals.instances s).length + 1 = (p.signals.instances s).length ↔
      lowest p.signals.deliverable = some s := by
  rw [nsig, signals_nextAction_of_traced htraced]
  have hone : (p.signals.instances s).length = 1 := by
    simp [instances, hrt, hpending]
  cases hlow : lowest p.signals.deliverable with
  | none => simp [hone]
  | some t =>
    rcases eq_or_ne s t with rfl | hne
    · simp [instances, hrt, hpending, has_pending_dequeueSignal]
    · simp [instances_dequeueSignal hrt hne, hone, hne.symm]

namespace Stop.Ended

variable {x : Stop} (h : x.Ended)

include h

/-- A standard signal that the tracer has given is taken at once just when it comes first. -/
theorem taken_iff (hzero : x.resume.signal ≠ 0) (hstays : x.resume ≠ .detach x.resume.signal)
    (hrt : isRtSignal x.resume.signal = false) :
    ((nextAction nsig x.after).2.signals.instances x.resume.signal).length + 1 =
        (x.after.signals.instances x.resume.signal).length ↔
      has x.before.signals.blocked x.resume.signal = false ∧
        ∀ t < x.resume.signal, has x.atStop.deliverable t = false := by
  have htwo : x.after.signals = (x.atStop.enqueueSignal x.resume.signal
      (Resume.tracerInfo x.before)).enqueueSignal x.resume.signal .forKernel := by
    cases hr : x.resume with
    | cont s a b capped => simp_all [h.signals, Resume.given, Resume.signal]
    | detach s => exact absurd (by rw [hr]; rfl) hstays
  have hpending : has x.after.signals.pending x.resume.signal = true := by
    simp [htwo, has_pending_enqueueSignal]
  have hblocked : x.atStop.blocked = x.before.signals.blocked :=
    blocked_discardSignal _ _
  rw [Signal.taken_iff (h.traced.2 hstays) hrt hpending, lowest_eq_some_iff, htwo]
  simp only [has_deliverable, has_pending_enqueueSignal,
    blocked_enqueueSignal, hblocked]
  refine and_congr (by simp) (forall₂_congr fun t ht => ?_)
  simp [ht.ne]

theorem once_iff : x.Once ↔ x.Clear := by
  obtain ⟨l, hl, hkept⟩ := exists_instances_foldl x.atStop x.resume.signal
    (x.resume.given x.before)
  rw [← h.signals] at hl
  refine and_congr ?_ ?_
  · rw [atStop, instances_discardSignal, (update_injective _ _).eq_iff, eq_comm]
  by_cases hzero : x.resume.signal = 0
  · have hnil : x.resume.given x.before = [] := by
      cases hr : x.resume <;> simp_all [Resume.given, Resume.signal]
    simp [hzero, h.signals, hnil]
  simp only [hl, (update_injective _ _).eq_iff, exists_eq_left', hzero, if_false, false_or]
  by_cases hstays : x.resume = .detach x.resume.signal
  · have hgone : ¬ x.after.trace.isTraced = true := fun ht => h.traced.1 ht hstays
    refine iff_of_true ⟨?_, fun ht => absurd ht hgone⟩ (.inl hstays)
    have hone : x.resume.given x.before = [.forKernel] := by
      rw [hstays, Resume.given, if_neg hzero]
    simpa [hone] using hkept
  simp only [hstays, false_or, h.traced.2 hstays, forall_const]
  cases hrt : isRtSignal x.resume.signal with
  | true =>
    have hlen : (x.resume.given x.before).length ≠ 1 := by
      cases hr : x.resume with
      | cont s a b capped =>
        rw [Resume.given]
        split_ifs <;> simp
      | detach s => exact absurd (by rw [hr]; rfl) hstays
    simp only [hrt, if_true] at hkept
    simp only [if_true, Bool.true_eq_false, false_and, iff_false]
    omega
  | false =>
    have htaken := h.taken_iff hzero hstays hrt
    have hgiven : x.resume.given x.before ≠ [] := by
      cases hr : x.resume <;> simp_all [Resume.given, Resume.signal]
    simp only [hrt, Bool.false_eq_true, if_false, if_neg hgiven] at hkept
    rw [hl] at htaken
    simp only [Bool.false_eq_true, if_false, hkept, htaken, true_and]

end Stop.Ended

/-- A traced process with pending signals. -/
def tracedProcess (pending : UInt64) : Running :=
  { pendingProcess pending with trace := { Trap.TraceContext.untraced with tracerPid := some 1 } }

end CypheraKernel.Signal
