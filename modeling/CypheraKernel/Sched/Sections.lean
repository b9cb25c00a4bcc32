import CypheraKernel.Sched.Ownership

/-!
# Every section keeps the invariant

One lemma for each section of `CypheraKernel.Sched.Machine`: started in a state with the invariant,
it returns (`Keeps`), that is, none of its checks panics, and the invariant holds again.  A section
that continues an operation in flight is given the process that the operation holds as a loose one.

Three sections need more than the invariant.  `dlCheck` and the changes of a scheduling class queue
a process that they find runnable; they have to know that it is theirs, or that it stands in the
queue that they have locked.
-/

namespace CypheraKernel.Sched

open Occupancy Rust List Process Machine Owned RunQueues

/-! ### The checks -/

theorem AtRest.isOff {p : Process} (h : AtRest p) : p.owner.IsOff := by
  by_cases hstop : p.state = .stopped
  · exact .inr (.inl (h.stopped hstop))
  by_cases htrace : p.state = .traced
  · exact .inr (.inr (h.traced htrace))
  · exact .inl (h.parked hstop htrace)

namespace Process

variable {p : Process} {site : String}

theorem setState_ok {st new : ProcessState} {ow : SchedOwner} (hs : p.state = st)
    (ho : p.owner = ow) (ht : stateTransitionOk st new = true)
    (hc : stateOwnerConsistent new ow = true) :
    p.setState new site = .ok { p with state := new } := by
  rw [setState, hs, ho, ht, hc]
  rfl

theorem setSchedOwner_ok {st : ProcessState} {ow new : SchedOwner} (hs : p.state = st)
    (ho : p.owner = ow) (ht : schedOwnerTransitionOk ow new = true)
    (hc : stateOwnerConsistent st new = true) :
    p.setSchedOwner new site = .ok (p.withOwner new) := by
  rw [setSchedOwner, hs, ho, ht, hc]
  rfl

/-- A process that is runnable and off its CPU, in a queue, or new, may be given to a queue. -/
theorem setSchedOwner_runnable {c : ℕ} (hs : p.state = .runnable)
    (ho : p.owner = .none ∨ p.owner.IsOff ∨ ∃ d, p.owner = .runnable d) :
    p.setSchedOwner (.runnable c) site = .ok (p.withOwner (.runnable c)) := by
  rcases ho with ho | (⟨a, ho⟩ | ho | ho) | ⟨d, ho⟩ <;> exact setSchedOwner_ok hs ho rfl rfl

/-- A process that waits may be made runnable. -/
theorem setState_runnable (h : AtRest p) :
    p.setState .runnable site = .ok { p with state := .runnable } := by
  by_cases hstop : p.state = .stopped
  · exact setState_ok hstop (h.stopped hstop) rfl rfl
  by_cases htrace : p.state = .traced
  · exact setState_ok htrace (h.traced htrace) rfl rfl
  obtain ⟨a, ho⟩ := h.parked hstop htrace
  rcases h.state with hs | hs | hs | hs | hs
  · exact setState_ok hs ho rfl rfl
  · exact absurd hs hstop
  · exact absurd hs htrace
  · exact setState_ok hs ho rfl rfl
  · exact setState_ok hs ho rfl rfl

/-- The running process of a CPU starts to run. -/
theorem start_running {c : ℕ} {stateSite : String} (hs : p.state = .runnable)
    (ho : p.owner = .runnable c) :
    (do let p ← p.setState .running stateSite
        p.setSchedOwner (.running c) site) =
      .ok ({ p with state := .running }.withOwner (.running c)) := by
  have ht : schedOwnerTransitionOk (.runnable c) (.running c) = true := beq_self_eq_true c
  rw [setState_ok hs ho rfl rfl, ok_bind,
    setSchedOwner_ok (p := { p with state := .running }) rfl ho ht rfl]

end Process

namespace Machine

/-- The section returns, and the invariant holds afterwards. -/
def Keeps (x : Except Panic Machine) (loose : List Pid) : Prop :=
  ∃ m', x = .ok m' ∧ m'.Owned loose

variable {m : Machine} {pid : Pid} {p : Process}

variable {loose : List Pid} {c : ℕ} {cpu home : ℕ} {phase : LoopPhase} {target : Pid}

theorem Owned.keeps (h : m.Owned loose) : Keeps (.ok m) loose := ⟨m, rfl, h⟩

/-! ### Placing processes -/

theorem Owned.effectiveHomeCpu (h : m.Owned loose) (p : Process) :
    (m.effectiveHomeCpu p).2.1.Owned loose := by
  unfold Machine.effectiveHomeCpu
  split_ifs
  · exact h
  · exact h.congr rfl rfl h.looping

theorem effectiveHomeCpu_process (m : Machine) (p : Process) :
    (m.effectiveHomeCpu p).2.2.state = p.state ∧ (m.effectiveHomeCpu p).2.2.owner = p.owner := by
  unfold effectiveHomeCpu
  split_ifs <;> exact ⟨rfl, rfl⟩

/-- A process that waits is in no place, and its owner says so. -/
theorem Owned.atRest (h : m.Owned []) (hp : m.proc? pid = some p) (hr : p.state ≠ .runnable)
    (hx : p.state ≠ .running) : m.Owned [pid] ∧ AtRest p := by
  have hfree := h.free_of_state hp hr hx
  exact ⟨h.loosen hfree, h.rest pid p hp not_mem_nil hfree⟩

/-- An operation that holds the process it has changed goes on later. -/
theorem Owned.setProc_start (h : m.Owned [pid]) {f : InFlight} (hf : f.holds = some pid)
    (hfits : f.Fits p) : ((m.setProc pid p).start f).Owned [] :=
  (h.setProc mem_cons_self p).start_holds not_mem_nil hf (proc?_setProc_self _ _ _) hfits

/-! ### New processes -/

theorem Owned.spawn (h : m.Owned []) (pid : Pid) (sched : SchedEntity) (cgroup : Option Cgroup.Path)
    (vfork : Bool) : (m.spawn pid sched cgroup vfork).Owned [] := by
  unfold Machine.spawn
  cases hp : m.proc? pid with
  | some p => exact h
  | none =>
    have hfree : Free m.occupants pid := by
      intro s hs
      obtain ⟨p, hp', -⟩ := h.fits s pid hs
      rw [hp] at hp'
      cases hp'
    cases vfork with
    | false | true => exact (h.loosen hfree).setProc_start rfl ⟨rfl, rfl⟩

/-! ### Waking -/

/-- A section about a process that waits in the state `old`. -/
theorem Owned.keeps_waiting (h : m.Owned []) {old : ProcessState}
    (hold : old ≠ .runnable ∧ old ≠ .running) {f : Process → Except Panic Machine}
    (hf : ∀ p, p.state = old → m.Owned [pid] → AtRest p → Keeps (f p) []) :
    Keeps (match m.proc? pid with
      | none => .ok m
      | some p => if p.state ≠ old then .ok m else f p) [] := by
  cases hp : m.proc? pid with
  | none => exact h.keeps
  | some p =>
    dsimp only
    split_ifs with hs
    · exact h.keeps
    · obtain rfl := not_not.1 hs
      obtain ⟨hloose, hrest⟩ := h.atRest hp hold.1 hold.2
      exact hf p rfl hloose hrest

theorem keeps_wakePid (h : m.Owned []) (pid : Pid) : Keeps (m.wakePid pid) [] := by
  refine h.keeps_waiting (by simp) fun p _ hloose hrest => ?_
  rw [setState_runnable hrest, ok_bind]
  generalize hr : m.effectiveHomeCpu { p with state := .runnable } = r
  have hown : r.2.1.Owned [pid] := hr ▸ hloose.effectiveHomeCpu _
  have hproc := hr ▸ effectiveHomeCpu_process m { p with state := .runnable }
  dsimp only
  rw [setSchedOwner_runnable hproc.1 (.inr (.inl (hproc.2 ▸ hrest.isOff))), ok_bind]
  refine keeps ?_
  exact hown.setProc_start rfl ⟨hproc.1, rfl⟩

theorem keeps_finishWake (h : m.Owned [pid]) (hp : m.proc? pid = some p)
    (hs : p.state = .runnable) (ho : p.owner = .runnable home) :
    Keeps (m.finishWake pid home) [] := by simp_all [finishWake, keeps, h.enqueue_owned]

theorem keeps_resumeFrom (h : m.Owned []) (pid : Pid) {old : ProcessState}
    (hold : old ≠ .runnable ∧ old ≠ .running) (stateSite site : String) :
    Keeps (m.resumeFrom pid old stateSite site) [] := by
  refine h.keeps_waiting hold fun p _ hloose hrest => ?_
  rw [setState_runnable hrest, ok_bind]
  refine keeps ?_
  exact hloose.setProc_start rfl ⟨rfl, hrest.isOff⟩

theorem keeps_resumeTraced (h : m.Owned []) (pid : Pid) : Keeps (m.resumeTraced pid) [] := by
  refine h.keeps_waiting (by simp) fun p hs hloose hrest => ?_
  rw [setState_runnable hrest, ok_bind]
  refine keeps ?_
  exact hloose.setProc_start rfl ⟨rfl, hrest.traced hs⟩

section

variable (h : m.Owned [pid]) (hp : m.proc? pid = some p) (hs : p.state = .runnable)
include h hp hs

theorem keeps_admitRunnable (ho : p.owner = .none) (home : ℕ) (site : String) :
    Keeps (m.admitRunnable pid home site) [] := by
  unfold admitRunnable
  rw [hp]
  dsimp only
  rw [setSchedOwner_runnable (p := (m.enqueue home pid p .new).2) hs (.inl ho), ok_bind]
  refine keeps ?_
  exact h.enqueue not_mem_nil p .new hs rfl

theorem keeps_admitVforkChild (ho : p.owner = .none) (cpu : ℕ) :
    Keeps (m.admitVforkChild cpu pid) [] := by simp_all [admitVforkChild, keeps_admitRunnable]

theorem Owned.reenqueueRunnable (ho : p.owner = .traced) : (m.reenqueueRunnable pid).Owned [] := by
  unfold Machine.reenqueueRunnable
  rw [hp]
  dsimp only
  rw [if_pos hs]
  have hproc := effectiveHomeCpu_process m p
  refine (h.effectiveHomeCpu p).setProc_start rfl ?_
  exact ⟨hproc.1.trans hs, .inr (.inr (hproc.2.trans ho))⟩

theorem keeps_finishResume (ho : p.owner.IsOff) (home : ℕ) (site : String) :
    Keeps (m.finishResume pid home site) [] := by
  unfold finishResume
  rw [hp]
  dsimp only
  rw [setSchedOwner_runnable (p := (m.enqueue home pid p .wake).2) hs (.inr (.inl ho)),
    ok_bind]
  refine keeps ?_
  exact h.enqueue not_mem_nil p .wake hs rfl

end

/-! ### The current process -/

/-- The running process of a CPU is taken up. -/
theorem Owned.takeCurrent (h : m.Owned []) (hcur : (m.cpus c).current = some pid) :
    (m.setCurrent c none).Owned [pid] ∧
      ∃ p, m.proc? pid = some p ∧ p.state = .running ∧ p.owner = .running c := by
  have ha : Adds (m.setCurrent c none).occupants m.occupants (.cpu c) pid := by
    refine ⟨?_, fun t ht => by rw [occupants_setCurrent, if_neg ht]⟩
    rw [occupants_setCurrent, if_pos rfl, occupants, hcur]
    exact .refl _
  exact ⟨h.take ha rfl (h.looping.setCurrent_none c), h.exists_of_adds ha⟩

theorem ParkDest.atRest {dest : ParkDest} (hs : p.state = dest.state)
    (ho : p.owner = dest.owner) : AtRest p := by
  cases dest with
  | sleep a => exact .of_parked (.inl hs) ho
  | stopped =>
    refine ⟨.inr (.inl hs), fun _ => ho, fun h => ?_, fun h => (h hs).elim⟩
    rw [hs] at h
    cases h
  | traced =>
    refine ⟨.inr (.inr (.inl hs)), fun h => ?_, fun _ => ho, fun _ h => (h hs).elim⟩
    rw [hs] at h
    cases h

theorem keeps_parkCurrent (h : m.Owned []) (cpu : ℕ) (dest : ParkDest) (site : String) (now : ℕ) :
    Keeps (m.parkCurrent cpu dest site now) [] := by
  unfold parkCurrent
  cases hcur : (m.cpus cpu).current with
  | none => exact h.keeps
  | some cur =>
    obtain ⟨htake, p, hp, hs, ho⟩ := h.takeCurrent hcur
    dsimp only
    rw [hp]
    dsimp only
    rw [setState_ok (p := p.withLastRun now) hs ho (by cases dest <;> rfl) (by cases dest <;> rfl),
      ok_bind, setSchedOwner_ok (p := { p.withLastRun now with state := dest.state }) rfl ho
        (by cases dest <;> rfl) (by cases dest <;> rfl), ok_bind]
    refine keeps ?_
    refine (htake.setProc mem_cons_self _).settle fun q hq => ?_
    rw [proc?_setProc_self] at hq
    cases hq
    exact dest.atRest rfl rfl

theorem Owned.chargeRuntime (h : m.Owned loose) (p : Process) (delta now : ℕ) :
    (m.chargeRuntime p delta now).1.Owned loose := by
  unfold Machine.chargeRuntime
  split
  · exact h
  · exact h.congr rfl rfl h.looping

theorem chargeRuntime_process (m : Machine) (p : Process) (delta now : ℕ) :
    (m.chargeRuntime p delta now).2.state = p.state ∧
      (m.chargeRuntime p delta now).2.owner = p.owner ∧
      (m.chargeRuntime p delta now).2.sched.schedClass = p.sched.schedClass := by
  unfold chargeRuntime
  split <;> exact ⟨rfl, rfl, rfl⟩

/-- The checks of a process that leaves its CPU for the queue. -/
theorem leave_running {site stateSite : String} (hs : p.state = .running)
    (ho : p.owner = .running c) :
    (do let p ← p.setState .runnable stateSite
        p.setSchedOwner (.runnable c) site) =
      .ok ({ p with state := .runnable }.withOwner (.runnable c)) := by
  have ht : schedOwnerTransitionOk (.running c) (.runnable c) = true := beq_self_eq_true c
  rw [setState_ok hs ho rfl rfl, ok_bind,
    setSchedOwner_ok (p := { p with state := .runnable }) rfl ho ht rfl]

theorem keeps_yieldCurrent (h : m.Owned []) (hcur : (m.cpus cpu).current = some pid)
    (now : ℕ) : Keeps (m.yieldCurrent cpu now) [] := by
  obtain ⟨htake, p, hp, hs, ho⟩ := h.takeCurrent hcur
  unfold yieldCurrent
  rw [hcur]
  dsimp only
  rw [hp]
  dsimp only
  rw [← bind_assoc, leave_running hs ho, ok_bind]
  refine keeps ?_
  have hq := chargeRuntime_process (m.setCurrent cpu none)
    ({ p with state := .runnable }.withOwner (.runnable cpu)).unsaved (now - p.sched.lastRunNs) now
  exact (htake.chargeRuntime _ _ _).enqueue_owned not_mem_nil .continuing hq.1 hq.2.1

/-! ### Dispatching -/

theorem Owned.loopPick (h : m.Owned []) (hidle : (m.cpus cpu).phase = .idle)
    (hcur : (m.cpus cpu).current = none) : (m.loopPick cpu).Owned [] := by
  unfold Machine.loopPick
  split
  · exact h
  next pid rq hpick =>
  obtain ⟨htake, p, hp, hs, ho⟩ := h.pickNext hpick
  have hidle' : ((m.setRunnable cpu rq).cpus cpu).phase = .idle := by simpa [setRunnable] using hidle
  have hcur' : ((m.setRunnable cpu rq).cpus cpu).current = none := by
    simpa [setRunnable] using hcur
  exact htake.put not_mem_nil (adds_phase hidle' rfl) rfl
    (htake.looping.setPhase fun _ => hcur') hp ⟨hs, ho⟩

theorem keeps_moveTo (h : m.Owned [pid]) (hs : p.state = .runnable)
    (ho : ∃ d, p.owner = .runnable d) (cpu srcMinVr : ℕ) (site : String) :
    Keeps (m.moveTo pid p cpu srcMinVr site) [] := by
  unfold moveTo
  rw [setSchedOwner_runnable (p := p.withHome cpu) hs (.inr (.inr ho)), ok_bind]
  refine keeps ?_
  unfold rebase
  split_ifs <;> exact h.enqueue_owned not_mem_nil .continuing hs rfl

theorem keeps_migrateDispatchedTo (h : m.Owned [pid]) (hp : m.proc? pid = some p)
    (hs : p.state = .runnable) (ho : ∃ d, p.owner = .runnable d) (target srcMinVr : ℕ) :
    Keeps (m.migrateDispatchedTo pid target srcMinVr) [] := by
  simp_all [migrateDispatchedTo, stateIsTerminal, keeps_moveTo]

section

variable (h : m.Owned [pid]) (hidle : (m.cpus cpu).phase = .idle)
  (hcur : (m.cpus cpu).current = none)

include h hidle hcur

/-- The scheduler loop goes on with the process that it has. -/
theorem Owned.setPhase (hph : phase.holds = some pid) (hp : m.proc? pid = some p)
    (hfits : (Slot.loop cpu phase).Fits p) : (m.setPhase cpu phase).Owned [] :=
  h.put not_mem_nil (adds_phase hidle hph) rfl (h.looping.setPhase fun _ => hcur) hp hfits

theorem Owned.loopCheckAffinity (hp : m.proc? pid = some p) (hs : p.state = .runnable)
    (ho : p.owner = .runnable cpu) (srcMinVr : ℕ) :
    (m.loopCheckAffinity cpu pid srcMinVr).Owned [] := by
  unfold Machine.loopCheckAffinity
  rw [hp]
  dsimp only
  have hnext : (m.pickHomeCpuIn p.sched.cpuAffinity).2.Owned [pid] := h.congr rfl rfl h.looping
  split_ifs
  · exact h.setPhase hidle hcur rfl hp ⟨hs, ho⟩
  · exact hnext.setPhase hidle hcur rfl hp ⟨hs, ho⟩
  · exact hnext.setPhase hidle hcur rfl hp ⟨hs, ho⟩

theorem keeps_switchToPid (hp : m.proc? pid = some p) (hs : p.state = .runnable)
    (ho : p.owner = .runnable cpu) (now : ℕ) : Keeps (m.switchToPid cpu pid now) [] := by
  unfold switchToPid
  rw [hp]
  dsimp only
  rw [if_neg (by simp [hs, stateIsTerminal]), ← bind_assoc, start_running hs ho, ok_bind]
  refine keeps ?_
  exact (h.setProc mem_cons_self _).setPhase hidle hcur rfl (proc?_setProc_self _ _ _) ⟨rfl, rfl⟩

end

/-- The scheduler loop has its process in hand. -/
theorem Owned.takePhase (h : m.Owned [])
    (hphase : (m.cpus cpu).phase = phase) (hph : phase.holds = some pid) :
    (m.setPhase cpu .idle).Owned [pid] ∧
      ∃ p, m.proc? pid = some p ∧ (Slot.loop cpu phase).Fits p := by
  have ha := adds_of_phase hphase hph
  exact ⟨h.take ha rfl (h.looping.setPhase fun hne => (hne rfl).elim), h.exists_of_adds ha⟩

theorem keeps_schedulerLoop (h : m.Owned []) (cpu now : ℕ) :
    Keeps (m.schedulerLoop cpu now) [] := by
  unfold schedulerLoop
  split_ifs with hsome
  · exact h.keeps
  have hcur : (m.cpus cpu).current = none := by simpa using hsome
  have hidle' : ((m.setPhase cpu .idle).cpus cpu).phase = .idle := by simp [setPhase]
  have hcur' : ((m.setPhase cpu .idle).cpus cpu).current = none := by
    simpa [setPhase] using hcur
  cases hphase : (m.cpus cpu).phase with
  | idle => exact (h.loopPick hphase hcur).keeps
  | picked pid srcMinVr =>
    obtain ⟨htake, p, hp, hs, ho⟩ := h.takePhase hphase rfl
    exact (htake.loopCheckAffinity hidle' hcur' hp hs ho srcMinVr).keeps
  | migrating pid target srcMinVr =>
    obtain ⟨htake, p, hp, hs, ho⟩ := h.takePhase hphase rfl
    exact keeps_migrateDispatchedTo htake hp hs ⟨cpu, ho⟩ target srcMinVr
  | dispatching pid =>
    obtain ⟨htake, p, hp, hs, ho⟩ := h.takePhase hphase rfl
    exact keeps_switchToPid htake hidle' hcur' hp hs ho now
  | switching pid =>
    obtain ⟨htake, p, hp, hfits⟩ := h.takePhase hphase rfl
    exact (htake.put not_mem_nil (adds_current hcur') rfl
      (htake.looping.setCurrent hidle' _) hp hfits).keeps

/-! ### Stealing -/

theorem Owned.stealFrom (h : m.Owned []) (cpu off : ℕ) : (m.stealFrom cpu off).Owned [] := by
  unfold Machine.stealFrom
  split_ifs
  · dsimp only
    split
    · exact h.start rfl
    next pid rq hpick =>
    obtain ⟨htake, p, hp, hs, ho⟩ := h.pickNext hpick
    have hstolen : ((m.setRunnable ((cpu + off) % m.maxCpus) rq).start
        (.stolen cpu pid (m.cpus ((cpu + off) % m.maxCpus)).runnable.cfsMinVruntime)).Owned [] :=
      htake.start_holds not_mem_nil rfl hp ⟨hs, _, ho⟩
    rw [hp]
    dsimp only
    split_ifs
    · refine start ?_ rfl
      exact htake.enqueue_owned not_mem_nil .continuing hs ho
    · exact hstolen
  · exact h

theorem keeps_finishSteal (h : m.Owned [pid]) (hp : m.proc? pid = some p) (hs : p.state = .runnable)
    (ho : ∃ d, p.owner = .runnable d) (cpu peerMinVr : ℕ) :
    Keeps (m.finishSteal cpu pid peerMinVr) [] := by
  simp_all [finishSteal, stateIsTerminal, keeps_moveTo]

theorem Owned.stealIfIdle (h : m.Owned []) (cpu : ℕ) : (m.stealIfIdle cpu).Owned [] := by
  unfold Machine.stealIfIdle
  split_ifs
  · exact h.start rfl
  · exact h

/-! ### Replenishing -/

theorem keeps_dlReplenishCallback (h : m.Owned []) (pid : Pid) :
    Keeps (m.dlReplenishCallback pid) [] := by
  unfold dlReplenishCallback
  cases hp : m.proc? pid with
  | none => exact h.keeps
  | some p =>
    dsimp only
    cases hclass : p.sched.schedClass with
    | cfs | rt => exact h.keeps
    | deadline runtimeNs deadlineNs periodNs =>
      dsimp only
      by_cases hs : p.state = .dlThrottled
      · obtain ⟨hloose, hrest⟩ := h.atRest hp (by simp [hs]) (by simp [hs])
        have hparked := hrest.parked (by simp [hs]) (by simp [hs])
        have hrest' : AtRest (p.replenished runtimeNs periodNs) := hrest.congr rfl rfl
        rw [decide_eq_true hs, if_pos rfl, setState_runnable hrest', ok_bind]
        refine keeps (hloose.setProc_start rfl ?_)
        exact ⟨rfl, hparked, congrArg SchedClass.isDeadline hclass⟩
      · rw [decide_eq_false hs, if_neg Bool.false_ne_true, ok_bind]
        refine keeps ?_
        refine Owned.start ?_ rfl
        exact h.setProc_same hp rfl rfl rfl

/-- The callback that has ended the throttling is going to queue the process. -/
theorem Owned.dlCheck (h : m.Owned [pid]) (hp : m.proc? pid = some p)
    (hfits : (InFlight.dlReplenished pid true).Fits p) : (m.dlCheck pid).Owned [] := by
  obtain ⟨hs, ho, hclass⟩ := hfits
  unfold Machine.dlCheck
  rw [hp]
  dsimp only
  rw [decide_eq_true hs, hclass, Bool.and_self, if_pos rfl]
  exact h.start_holds not_mem_nil rfl hp ⟨hs, ho⟩

/-- Another callback leaves the process alone if it does not find it runnable. -/
theorem dlCheck_eq_self
    (hc : ∀ p, m.proc? pid = some p → p.sched.schedClass.isDeadline = true → p.state ≠ .runnable) :
    m.dlCheck pid = m := by
  unfold dlCheck
  cases hp : m.proc? pid with
  | none => rfl
  | some p =>
    dsimp only
    rw [if_neg]
    rw [Bool.and_eq_true, decide_eq_true_iff]
    exact fun hand => hc p hp hand.2 hand.1

theorem keeps_dlEnqueue (h : m.Owned [pid]) (hp : m.proc? pid = some p) (hs : p.state = .runnable)
    (ho : ∃ a, p.owner = .parked a) (home : ℕ) : Keeps (m.dlEnqueue pid home) [] := by
  unfold dlEnqueue
  rw [hp]
  dsimp only
  rw [if_pos hs, setSchedOwner_runnable hs (.inr (.inl (.inl ho))), ok_bind]
  refine keeps ?_
  exact h.enqueue_owned not_mem_nil .continuing hs rfl

section

variable (h : m.Owned [])

include h

theorem keeps_releaseThrottled (pid : Pid) (home : ℕ) : Keeps (m.releaseThrottled pid home) [] := by
  unfold releaseThrottled
  cases hp : m.proc? pid with
  | none => exact h.keeps
  | some p =>
    dsimp only
    split_ifs with hs
    · obtain ⟨hloose, hrest⟩ := h.atRest hp (by simp [hs]) (by simp [hs])
      rw [setState_runnable hrest, ok_bind,
        setSchedOwner_runnable (p := { p with state := .runnable }) rfl
          (.inr (.inl hrest.isOff)), ok_bind]
      refine keeps ?_
      exact hloose.enqueue_owned not_mem_nil .wake rfl rfl
    · exact h.keeps

theorem Owned.replenishNext (now : ℕ) (candidates : List Pid) :
    (m.replenishNext now candidates).Owned [] := by
  cases candidates with
  | nil => exact h
  | cons pid rest =>
    unfold Machine.replenishNext
    dsimp only
    split <;> exact h.start rfl

section

variable (now : ℕ) (pid : Pid) (rest : List Pid)

theorem Owned.replenishCheck (cg : Cgroup.Path) : (m.replenishCheck now pid cg rest).Owned [] := by
  unfold Machine.replenishCheck
  split_ifs <;> exact h.start rfl

theorem Owned.replenishReset (cg : Cgroup.Path) : (m.replenishReset now pid cg rest).Owned [] := by
  refine start ?_ rfl
  exact h.congr rfl rfl h.looping

theorem Owned.replenishHome : (m.replenishHome now pid rest).Owned [] := by
  unfold Machine.replenishHome
  split <;> exact h.start rfl

theorem keeps_replenishEnqueue (home : ℕ) : Keeps (m.replenishEnqueue now pid home rest) [] := by
  obtain ⟨m', hm', hown⟩ := keeps_releaseThrottled h pid home
  unfold replenishEnqueue
  rw [hm', ok_bind]
  exact (hown.start rfl).keeps

end

end

/-! ### Scheduling classes -/

theorem Owned.setSchedClass (h : m.Owned []) (target : Pid) (newClass : SchedClass) :
    (m.setSchedClass target newClass).Owned [] := by
  unfold Machine.setSchedClass
  split
  · exact h
  · exact h.start rfl

theorem Owned.setDeadlineClass (h : m.Owned []) (target : Pid) (runtimeNs deadlineNs periodNs : ℕ) :
    (m.setDeadlineClass target runtimeNs deadlineNs periodNs).Owned [] := by
  unfold Machine.setDeadlineClass
  split
  · exact h
  · exact h.start rfl

/-- The queue of a CPU changes, but not the processes in it. -/
theorem Owned.setRunnable_same (h : m.Owned loose) {rq : RunQueues}
    (hrq : rq.pids = (m.cpus c).runnable.pids) : (m.setRunnable c rq).Owned loose := by
  refine h.congr ?_ rfl (h.looping.setRunnable c rq)
  funext s
  rw [occupants_setRunnable]
  split_ifs with hs
  · rw [hs]
    exact hrq
  · rfl

/-- A process that stands in the queue is taken up. -/
theorem Owned.dequeue (h : m.Owned loose) (hmem : pid ∈ (m.cpus c).runnable.pids) :
    (m.setRunnable c ((m.cpus c).runnable.removePid pid).1).Owned (pid :: loose) := by
  have hnodup : (m.cpus c).runnable.pids.Nodup := h.exclusive.nodup (.queue c)
  refine h.take (adds_of_picked ?_) rfl (h.looping.setRunnable c _)
  grind [pids_removePid]

/-- A process that stands in the queue of `c` is runnable there. -/
theorem Owned.of_mem_queue (h : m.Owned loose) (hmem : pid ∈ (m.cpus c).runnable.pids)
    (hp : m.proc? pid = some p) : p.state = .runnable ∧ p.owner = .runnable c := by
  obtain ⟨p', hp', hfit⟩ := h.fits (.queue c) pid hmem
  cases hp'.symm.trans hp
  exact hfit

section

variable (p : Process) (home : ℕ) (newClass : SchedClass)

theorem Owned.leaveDeadline (h : m.Owned loose) :
    (m.leaveDeadline p home newClass).1.Owned loose := by
  grind [leaveDeadline, h.setRunnable_same, pids_releaseDlBandwidth]

theorem leaveDeadline_process (m : Machine) :
    (m.leaveDeadline p home newClass).2.state = p.state ∧
      (m.leaveDeadline p home newClass).2.owner = p.owner := by grind [leaveDeadline]

theorem proc?_leaveDeadline (m : Machine) (x : Pid) :
    (m.leaveDeadline p home newClass).1.proc? x = m.proc? x := by
  unfold leaveDeadline
  split
  · split_ifs <;> rfl
  · rfl

end

/-- The class of a process that is not runnable changes. -/
theorem Owned.setProc_class (h : m.Owned []) {q : Process} (hp : m.proc? pid = some p)
    (hstate : q.state = p.state) (howner : q.owner = p.owner) (hs : p.state ≠ .runnable) :
    (m.setProc pid q).Owned [] := by
  refine h.setProc_of_fits hp (fun s _ hfit => ?_) fun hrest => hrest.congr hstate howner
  cases s with
  | queue c => exact absurd hfit.1 hs
  | cpu c => exact ⟨hstate.trans hfit.1, howner.trans hfit.2⟩
  | loop c phase => cases phase <;>
      exact ⟨hstate.trans (And.left hfit), howner.trans (And.right hfit)⟩
  | flight f => cases f <;> first | exact absurd (And.left hfit) hs | exact False.elim hfit

theorem keeps_changeClass (h : m.Owned [])
    (hc : ∀ p, m.proc? target = some p → p.state = .runnable → target ∈ (m.cpus home).runnable.pids)
    (newClass : SchedClass) : Keeps (m.changeClass target home newClass) [] := by
  unfold changeClass
  cases hp : m.proc? target with
  | none => exact h.keeps
  | some p =>
    dsimp only
    unfold dequeueIfRunnable
    by_cases hs : p.state = .runnable
    · -- the process stands in the queue and goes back into it
      have hmem := hc p hp hs
      have ho := (h.of_mem_queue hmem hp).2
      have htake := h.dequeue hmem
      have hthrottled : (p.sched.schedClass.isDeadline && !newClass.isDeadline &&
          decide (p.state = .dlThrottled)) = false := by
        simp [hs]
      rw [if_pos hs, hthrottled, if_neg Bool.false_ne_true, ok_bind, if_neg Bool.false_ne_true,
        if_pos (decide_eq_true hs)]
      refine keeps ?_
      have hq := leaveDeadline_process p home newClass
        (m.setRunnable home ((m.cpus home).runnable.removePid target).1)
      exact (htake.leaveDeadline p home newClass).enqueue_owned not_mem_nil .continuing
        (hq.1.trans hs) (hq.2.trans ho)
    · rw [if_neg hs]
      have hq := leaveDeadline_process p home newClass m
      cases hthrottled : (p.sched.schedClass.isDeadline && !newClass.isDeadline &&
          decide (p.state = .dlThrottled)) with
      | true =>
        -- a throttled process leaves its class and is queued
        have hs' : p.state = .dlThrottled := by simp_all
        obtain ⟨hloose, hrest⟩ := h.atRest hp hs (by simp [hs'])
        rw [if_pos rfl, setState_runnable (hrest.congr hq.1 hq.2), ok_bind, if_pos rfl]
        rw [setSchedOwner_runnable (p := (m.leaveDeadline p home newClass).1.withClass _ home
          newClass) rfl (.inr (.inl (show SchedOwner.IsOff _ from hq.2 ▸ hrest.isOff))), ok_bind]
        refine keeps ?_
        exact (hloose.leaveDeadline p home newClass).enqueue_owned not_mem_nil .wake rfl rfl
      | false =>
        rw [if_neg Bool.false_ne_true, ok_bind, if_neg Bool.false_ne_true,
          if_neg (by simpa using hs)]
        refine keeps ?_
        exact (h.leaveDeadline p home newClass).setProc_class
          ((proc?_leaveDeadline p home newClass m target).trans hp) hq.1 hq.2 hs

theorem pids_exchangeBandwidth {rq rq' : RunQueues} {runtimeNs periodNs : ℕ}
    (h : exchangeBandwidth rq p runtimeNs periodNs = some rq') : rq'.pids = rq.pids := by
  grind [exchangeBandwidth, pids_admitDlBandwidth, pids_releaseDlBandwidth]

theorem pids_restoreBandwidth (rq : RunQueues) (p : Process) :
    (restoreBandwidth rq p).pids = rq.pids := by
  unfold restoreBandwidth
  split
  · next rt dl pe _ =>
    dsimp only
    cases hadmit : (rq.releaseDlBandwidth rt pe).admitDlBandwidth rt pe with
    | none => exact pids_releaseDlBandwidth _ _ _
    | some rq' =>
      exact (pids_admitDlBandwidth hadmit).trans (pids_releaseDlBandwidth _ _ _)
  · rfl

section

variable (h : m.Owned [])

include h

theorem Owned.changeDeadlineClass
    (hc : ∀ p, m.proc? target = some p → p.state = .runnable → target ∈ (m.cpus home).runnable.pids)
    (runtimeNs deadlineNs periodNs now : ℕ) :
    (m.changeDeadlineClass target home runtimeNs deadlineNs periodNs now).Owned [] := by
  unfold Machine.changeDeadlineClass
  cases hp : m.proc? target with
  | none => exact h
  | some p =>
    dsimp only
    split
    · exact h.setRunnable_same (pids_restoreBandwidth _ _)
    next rq hex =>
    have hsame := h.setRunnable_same (pids_exchangeBandwidth hex)
    unfold dequeueIfRunnable
    by_cases hs : p.state = .runnable
    · have hmem := hc p hp hs
      have ho := (h.of_mem_queue hmem hp).2
      have hmem' : target ∈ ((m.setRunnable home rq).cpus home).runnable.pids := by
        simpa [setRunnable, pids_exchangeBandwidth hex] using hmem
      rw [if_pos hs, if_pos (decide_eq_true hs)]
      exact (hsame.dequeue hmem').enqueue_owned not_mem_nil .continuing hs ho
    · rw [if_neg hs, if_neg (by simpa using hs)]
      exact hsame.setProc_class hp rfl rfl hs

theorem Owned.piBoost (holder : Pid) (targetPrio : UInt8) :
    (m.piBoost holder targetPrio).Owned [] := by
  unfold Machine.piBoost
  cases hp : m.proc? holder with
  | none => exact h
  | some p =>
    dsimp only
    split_ifs
    · exact h
    · refine start ?_ rfl
      exact h.setProc_same hp rfl rfl rfl

theorem Owned.piRefresh (holder : Pid) (topWaiterPrio : UInt8) :
    (m.piRefresh holder topWaiterPrio).Owned [] := by
  unfold Machine.piRefresh
  cases hp : m.proc? holder with
  | none => exact h
  | some p =>
    dsimp only
    split_ifs
    · split
      · refine start ?_ rfl
        exact h.setProc_same hp rfl rfl rfl
      · exact h
    · exact h
    · exact h.start rfl

/-! ### Parameters -/

theorem Owned.setCpuAffinity (pid : Pid) (mask : UInt64) :
    (m.setCpuAffinity pid mask).Owned [] := by grind [setCpuAffinity, h.setProc_same]

theorem Owned.setNice (pid : Pid) (value : ℤ) : (m.setNice pid value).Owned [] := by
  grind [setNice, h.setProc_same]

theorem Owned.setProcessCgroup (pid : Pid) (cg : Cgroup.Path) :
    (m.setProcessCgroup pid cg).Owned [] := by grind [setProcessCgroup, h.setProc_same]

theorem Owned.writeCpuCtl (cg : Cgroup.Path)
    (write : Cgroup.CpuController → Except Errno Cgroup.CpuController) :
    (m.writeCpuCtl cg write).Owned [] := by
  unfold Machine.writeCpuCtl
  split
  · exact h.congr rfl rfl h.looping
  · exact h

end

end Machine

end CypheraKernel.Sched
