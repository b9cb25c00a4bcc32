import CypheraKernel.Sched.Sections

/-!
# The tick and the invariant

Two things can go wrong in a tick.  The process picked may belong to a throttled control group: the
tick then asks for a change of owner, from a run queue to parked, that is not allowed.  And the
process picked may not be allowed on this CPU: the tick then goes back to the running process
although it has just put it into a throttled state.

`onTick_outcome`: apart from the second case, the tick keeps the invariant or panics, and it
panics in the first case only.
-/

namespace CypheraKernel.Sched.Machine

open Rust Cgroup List Process

variable {m : Machine} {cpu now : ℕ} {cur next : Pid} {p q : Process} {rq : RunQueues}

/-! ### What the tick charges -/

/-- The tick uses up the quota of the running process's control group, or its deadline runtime. -/
def usesUp (m : Machine) (p : Process) (now : ℕ) : Bool :=
  match p.sched.schedClass with
  | .cfs =>
    p.cgroup.any fun cg => ((m.cpuCtl cg).chargeCpuRuntime (now - p.sched.lastRunNs) now).1
  | .rt _ _ => false
  | .deadline _ _ _ => p.sched.dlRuntimeRemaining ≤ now - p.sched.lastRunNs

/-- The control group is throttled, or becomes so by the tick that charges `p`. -/
def throttledAfter (m : Machine) (p : Process) (now : ℕ) (cg : Path) : Bool :=
  (m.cpuCtl cg).throttled ||
    (p.sched.schedClass = .cfs && p.cgroup = some cg &&
      ((m.cpuCtl cg).chargeCpuRuntime (now - p.sched.lastRunNs) now).1)

theorem throttled_chargeCgroup (m : Machine) (p : Process) (now : ℕ)
    (hclass : p.sched.schedClass = .cfs) (cg : Path) :
    ((m.chargeCgroup p (now - p.sched.lastRunNs) now).2.cpuCtl cg).throttled =
      m.throttledAfter p now cg := by
  unfold chargeCgroup throttledAfter
  cases hcg : p.cgroup with
  | none => simp
  | some g =>
    by_cases hg : cg = g
    · simp only [setCpuCtl, hclass]
      grind [CpuController.chargeCpuRuntime]
    · simp [setCpuCtl, hg, Ne.symm hg]

/-- What the charge of the running process does: it changes CPU controllers and the process itself,
and decides to throttle the process only when it uses something up. -/
structure Charged (m : Machine) (p : Process) (now : ℕ) (c : Verdict × Machine × Process) : Prop where
  machine : ∃ ctl, c.2.1 = { m with cpuCtl := ctl }
  throttled : ∀ cg, (c.2.1.cpuCtl cg).throttled = m.throttledAfter p now cg
  state : c.2.2.state = p.state
  owner : c.2.2.owner = p.owner
  schedClass : c.2.2.sched.schedClass = p.sched.schedClass
  verdict : ∀ st, c.1 = .throttle st →
    m.usesUp p now = true ∧ (st = .cgroupThrottled ∨ st = .dlThrottled)

section

variable (m : Machine) (cpu : ℕ) (p : Process) (now : ℕ)

theorem charged_cfs
    (hclass : p.sched.schedClass = .cfs) : Charged m p now (m.chargeCurrent cpu p now) := by
  have hmachine : ∃ ctl, (m.chargeCgroup p (now - p.sched.lastRunNs) now).2 =
      { m with cpuCtl := ctl } := by
    unfold chargeCgroup
    split <;> exact ⟨_, rfl⟩
  have hthrottled := throttled_chargeCgroup m p now hclass
  have huses : m.usesUp p now = (m.chargeCgroup p (now - p.sched.lastRunNs) now).1 := by
    unfold usesUp chargeCgroup
    rw [hclass]
    cases p.cgroup <;> rfl
  unfold chargeCurrent
  rw [hclass]
  dsimp only
  generalize m.chargeCgroup p (now - p.sched.lastRunNs) now = c at *
  have hruntime : (c.2.chargeRuntime p (now - p.sched.lastRunNs) now).1 = c.2 := by
    simp [chargeRuntime, hclass]
  have hproc := chargeRuntime_process c.2 p (now - p.sched.lastRunNs) now
  split_ifs with hc
  · refine ⟨hmachine, hthrottled, rfl, rfl, rfl, fun st hst => ⟨huses.trans hc, ?_⟩⟩
    exact .inl (Verdict.throttle.inj hst).symm
  all_goals
    rw [hruntime]
    exact ⟨hmachine, hthrottled, hproc.1, hproc.2.1, hproc.2.2, nofun⟩

theorem charged_of_ne_cfs
    (hclass : p.sched.schedClass ≠ .cfs) : Charged m p now (m.chargeCurrent cpu p now) := by
  have hthrottled (cg : Path) : (m.cpuCtl cg).throttled = m.throttledAfter p now cg := by
    simp [throttledAfter, hclass]
  unfold chargeCurrent
  cases hc : p.sched.schedClass with
  | cfs => exact absurd hc hclass
  | rt priority roundRobin =>
    dsimp only
    split_ifs
    all_goals exact ⟨⟨m.cpuCtl, rfl⟩, hthrottled, rfl, rfl, rfl, nofun⟩
  | deadline runtimeNs deadlineNs periodNs =>
    dsimp only
    split_ifs with hzero
    · refine ⟨⟨m.cpuCtl, rfl⟩, hthrottled, rfl, rfl, rfl, fun st hst => ⟨?_, ?_⟩⟩
      · grind [usesUp]
      · exact .inr (Verdict.throttle.inj hst).symm
    all_goals exact ⟨⟨m.cpuCtl, rfl⟩, hthrottled, rfl, rfl, rfl, nofun⟩

theorem charged : Charged m p now (m.chargeCurrent cpu p now) := by
  by_cases hclass : p.sched.schedClass = .cfs
  · exact charged_cfs m cpu p now hclass
  · exact charged_of_ne_cfs m cpu p now hclass

end

/-! ### The end of the tick -/

/-- The first turn of the loop is the last one: it finds no process, or a process that may run, or
it panics at a process of a throttled control group. -/
theorem pickRunnable_none (fuel : ℕ)
    (hpick : (m.cpus cpu).runnable.pickNext (!m.rt.throttled) = none) :
    pickRunnable cpu (fuel + 1) m = .ok (none, m) := by
  unfold pickRunnable
  rw [hpick]

section

variable (fuel : ℕ) (hpick : (m.cpus cpu).runnable.pickNext (!m.rt.throttled) = some (next, rq))
  (hq : m.proc? next = some q)

include fuel hpick hq

theorem pickRunnable_some (hthrottled : m.cgroupIsThrottled q = false) :
    pickRunnable cpu (fuel + 1) m = .ok (some next, m.setRunnable cpu rq) := by
  have hq' : (m.setRunnable cpu rq).proc? next = some q := hq
  have hthrottled' : (m.setRunnable cpu rq).cgroupIsThrottled q = false := hthrottled
  simp_all [pickRunnable]

theorem pickRunnable_panics (hs : q.state = .runnable) (ho : q.owner = .runnable cpu)
    (hthrottled : m.cgroupIsThrottled q = true) :
    pickRunnable cpu (fuel + 1) m =
      .error (.badTransition "on_tick/throttle_peer" q.pid (.runnable cpu) (.parked 0)) := by
  have hq' : (m.setRunnable cpu rq).proc? next = some q := hq
  have hthrottled' : (m.setRunnable cpu rq).cgroupIsThrottled q = true := hthrottled
  have hpanic : ({ q with state := .cgroupThrottled } : Process).setSchedOwner (.parked 0)
      "on_tick/throttle_peer" =
        .error (.badTransition "on_tick/throttle_peer" q.pid (.runnable cpu) (.parked 0)) := by
    rw [setSchedOwner, show ({ q with state := .cgroupThrottled } : Process).owner =
      .runnable cpu from ho]
    rfl
  unfold pickRunnable
  rw [hpick]
  dsimp only
  rw [hq']
  dsimp only
  rw [hthrottled', if_pos rfl, setState_ok hs ho rfl rfl, ok_bind, hpanic]
  rfl

end

/-- The running process, with what the tick has made of it. -/
structure Leaving (m : Machine) (cpu : ℕ) (cur : Pid) (p : Process) (throttled : Bool) : Prop where
  owned : (m.setCurrent cpu none).Owned [cur]
  current : (m.cpus cpu).current = some cur
  phase : (m.cpus cpu).phase = .idle
  proc : m.proc? cur = some p
  owner : p.owner = .running cpu
  running : throttled = false → p.state = .running
  throttled : throttled = true → p.state = .cgroupThrottled ∨ p.state = .dlThrottled

namespace Leaving

variable {throttled : Bool}

/-- A process that is still running stays. -/
theorem stay (h : Leaving m cpu cur p false) : m.Owned [] := by
  have hnone : ((m.setCurrent cpu none).cpus cpu).current = none := by simp [setCurrent]
  have hput := h.owned.put not_mem_nil (adds_current hnone) rfl
    (h.owned.looping.setCurrent (by simpa [setCurrent] using h.phase) (some cur)) h.proc
    (show (Slot.cpu cpu).Fits p from ⟨h.running rfl, h.owner⟩)
  rwa [setCurrent_setCurrent, setCurrent_eq_self h.current] at hput

/-- The owner of a throttled process becomes parked. -/
theorem park (h : Leaving m cpu cur p true) (site : String) :
    p.setSchedOwner (.parked 0) site = .ok (p.withOwner (.parked 0)) ∧
      AtRest (p.withOwner (.parked 0)) := by
  rcases h.throttled rfl with hs | hs
  · exact ⟨setSchedOwner_ok hs h.owner rfl rfl, .of_parked (.inr (.inr hs)) rfl⟩
  · exact ⟨setSchedOwner_ok hs h.owner rfl rfl, .of_parked (.inr (.inl hs)) rfl⟩

section

variable (h : Leaving m cpu cur p throttled)

include h

theorem keeps_tickIdle : Keeps (m.tickIdle cpu cur throttled) [] := by
  unfold tickIdle
  cases throttled with
  | false => exact h.stay.keeps
  | true =>
    obtain ⟨hpark, hrest⟩ := h.park "on_tick/throttle_idle"
    rw [if_pos rfl, h.proc]
    dsimp only
    rw [hpark, ok_bind]
    refine Owned.keeps ((h.owned.setProc mem_cons_self _).settle fun q hq => ?_)
    rw [proc?_setProc_self] at hq
    exact Option.some.inj hq ▸ hrest

section

variable (hpick : (m.cpus cpu).runnable.pickNext (!m.rt.throttled) = some (next, rq))

include hpick

/-- The process picked is another one. -/
theorem ne_of_picked : next ≠ cur := by
  rintro rfl
  have hmem : next ∈ (m.setCurrent cpu none).occupants (.queue cpu) := by
    show next ∈ ((m.setCurrent cpu none).cpus cpu).runnable.pids
    rw [runnable_setCurrent]
    exact (RunQueues.perm_pickNext hpick).mem_iff.2 mem_cons_self
  exact h.owned.free next mem_cons_self (.queue cpu) hmem

/-- The process picked is in hand, like the one that leaves. -/
theorem picked :
    ((m.setRunnable cpu rq).setCurrent cpu none).Owned [next, cur] ∧
      ∃ q, m.proc? next = some q ∧ q.state = .runnable ∧ q.owner = .runnable cpu := by
  have hpick' : ((m.setCurrent cpu none).cpus cpu).runnable.pickNext (!m.rt.throttled) =
      some (next, rq) := by
    rw [runnable_setCurrent]
    exact hpick
  obtain ⟨htake, q, hq, hs, ho⟩ := h.owned.pickNext hpick'
  rw [setRunnable_setCurrent] at htake
  exact ⟨htake, q, hq, hs, ho⟩

end

end

end Leaving

/-- The process that leaves is queued, or waits in its throttled state; the one that comes is still
in hand. -/
theorem tickLeave_spec {throttled : Bool} (hown : (m.setCurrent cpu none).Owned [cur, next])
    (hne : next ≠ cur) (hp : m.proc? cur = some p) (ho : p.owner = .running cpu)
    (hrun : throttled = false → p.state = .running)
    (hrest : throttled = true → p.setSchedOwner (.parked 0) "on_tick/throttle_preempt" =
      .ok (p.withOwner (.parked 0)) ∧ AtRest (p.withOwner (.parked 0))) :
    ∃ m', m.tickLeave cpu cur throttled = .ok m' ∧ (m'.setCurrent cpu none).Owned [next] ∧
      m'.proc? next = m.proc? next ∧ (m'.cpus cpu).current = (m.cpus cpu).current ∧
      (m'.cpus cpu).phase = (m.cpus cpu).phase := by
  have hnot : cur ∉ [next] := fun hmem => hne (mem_singleton.1 hmem).symm
  unfold tickLeave
  rw [hp]
  dsimp only
  cases throttled with
  | true =>
    obtain ⟨hpark, hatRest⟩ := hrest rfl
    rw [if_pos rfl, hpark, ok_bind]
    refine ⟨_, rfl, ?_, proc?_setProc_of_ne m hne _, rfl, rfl⟩
    refine (hown.setProc mem_cons_self (p.withOwner (.parked 0))).settle fun q hq => ?_
    rw [proc?_setProc_self] at hq
    exact Option.some.inj hq ▸ hatRest
  | false =>
    rw [if_neg Bool.false_ne_true, ← bind_assoc, leave_running (hrun rfl) ho, ok_bind]
    refine ⟨_, rfl, ?_, proc?_setProc_of_ne _ hne _, ?_, ?_⟩
    · have henq := hown.enqueue_owned (c := cpu) hnot .continuing
        (p := ({ p with state := .runnable }.withOwner (.runnable cpu)).unsaved) rfl rfl
      rw [enqueue_setCurrent] at henq
      exact henq
    · simp [enqueue, setRunnable, setProc]
    · simp [enqueue, setRunnable, setProc]

theorem keeps_tickEnter (hown : (m.setCurrent cpu none).Owned [next])
    (hcur : (m.cpus cpu).current = some next) (hphase : (m.cpus cpu).phase = .idle)
    (hq : m.proc? next = some q) (hs : q.state = .runnable) (ho : q.owner = .runnable cpu) (now : ℕ) :
    Keeps (m.tickEnter cpu next now) [] := by
  unfold tickEnter
  rw [hq]
  dsimp only
  rw [if_neg (by simp [hs, stateIsTerminal]), ← bind_assoc, start_running hs ho, ok_bind]
  refine Owned.keeps ?_
  generalize hq' : ({ q with state := .running }.withOwner (.running cpu)).withLastRun now = q'
  have hset := hown.setProc mem_cons_self q'
  have hnone : (((m.setCurrent cpu none).setProc next q').cpus cpu).current = none := by
    simp [setCurrent, setProc]
  have hidle : (((m.setCurrent cpu none).setProc next q').cpus cpu).phase = .idle := by
    simpa [setCurrent, setProc] using hphase
  have hput := hset.put not_mem_nil (adds_current hnone) rfl (hset.looping.setCurrent hidle _)
    (proc?_setProc_self _ _ _) (show (Slot.cpu cpu).Fits q' from hq' ▸ ⟨rfl, rfl⟩)
  have hback : ((m.setCurrent cpu none).setProc next q').setCurrent cpu (some next) =
      m.setProc next q' := by
    show ((m.setCurrent cpu none).setCurrent cpu (some next)).setProc next q' = _
    rw [setCurrent_setCurrent, setCurrent_eq_self hcur]
  rwa [hback] at hput

namespace Leaving

variable {throttled : Bool}

/-- The process picked is started, if it may run here; a running process stays if it may not. -/
theorem keeps_tickSwitch (h : Leaving m cpu cur p throttled)
    (hpick : (m.cpus cpu).runnable.pickNext (!m.rt.throttled) = some (next, rq))
    (hallowed : throttled = true → ∀ q, m.proc? next = some q →
      affinityAllows q.sched.cpuAffinity cpu = true) :
    Keeps ((m.setRunnable cpu rq).tickSwitch cpu cur next throttled now) [] := by
  have hne := h.ne_of_picked hpick
  obtain ⟨hown, q, hq, hs, ho⟩ := h.picked hpick
  have hq' : (m.setRunnable cpu rq).proc? next = some q := hq
  unfold tickSwitch
  rw [hq']
  dsimp only
  split_ifs with hmay
  · -- the process that leaves, then the one that comes
    unfold tickSwitch.go
    rw [if_neg hne]
    have hown' : (((m.setRunnable cpu rq).setCurrent cpu (some next)).setCurrent cpu none).Owned
        [cur, next] := by
      rw [setCurrent_setCurrent]
      exact hown.perm (.swap _ _ _)
    obtain ⟨m', hleave, hown'', hnext, hcur', hphase'⟩ := tickLeave_spec hown' hne
      (show ((m.setRunnable cpu rq).setCurrent cpu (some next)).proc? cur = some p from h.proc) h.owner
      h.running (fun ht => by subst ht; exact h.park _)
    rw [hleave, ok_bind]
    refine keeps_tickEnter hown'' (hcur'.trans ?_) (hphase'.trans ?_) (hnext.trans hq) hs ho now
    · simp [setCurrent]
    · simpa [setCurrent, setRunnable] using h.phase
  · cases throttled with
    | true => exact absurd (hallowed rfl q hq) hmay
    | false =>
      obtain ⟨htake, -⟩ := h.stay.pickNext hpick
      exact (htake.enqueue_owned not_mem_nil .continuing hs ho).keeps

/-- **The rest of the tick** keeps the invariant, or panics at a process of a throttled control
group. -/
theorem tickResched_outcome (h : Leaving m cpu cur p throttled)
    (hallowed : throttled = true → ∀ next rq q,
      (m.cpus cpu).runnable.pickNext (!m.rt.throttled) = some (next, rq) → m.proc? next = some q →
      affinityAllows q.sched.cpuAffinity cpu = true) :
    Keeps (m.tickResched cpu cur throttled now) [] ∨
      ((∃ next rq q, (m.cpus cpu).runnable.pickNext (!m.rt.throttled) = some (next, rq) ∧
        m.proc? next = some q ∧ m.cgroupIsThrottled q = true) ∧
        ∃ e, m.tickResched cpu cur throttled now = .error e) := by
  unfold tickResched
  cases hpick : (m.cpus cpu).runnable.pickNext (!m.rt.throttled) with
  | none =>
    rw [pickRunnable_none _ hpick, ok_bind]
    exact .inl h.keeps_tickIdle
  | some r =>
    obtain ⟨next, rq⟩ := r
    obtain ⟨-, q, hq, hs, ho⟩ := h.picked hpick
    cases hthrottled : m.cgroupIsThrottled q with
    | false =>
      rw [pickRunnable_some _ hpick hq hthrottled, ok_bind]
      exact .inl (h.keeps_tickSwitch hpick fun ht q' hq' => hallowed ht next rq q' hpick hq')
    | true =>
      rw [pickRunnable_panics _ hpick hq hs ho hthrottled]
      exact .inr ⟨⟨next, rq, q, rfl, hq, hthrottled⟩, _, rfl⟩

end Leaving

/-! ### The tick -/

/-- The tick is going to look at a process of a throttled control group. -/
def peerThrottled (m : Machine) (cpu now : ℕ) : Bool :=
  (m.cpus cpu).current.any fun cur => (m.proc? cur).any fun p =>
    ((m.cpus cpu).runnable.pickNext (!m.rt.throttled)).any fun r => (m.proc? r.1).any fun q =>
      q.sched.schedClass = .cfs && q.cgroup.any fun cg => m.throttledAfter p now cg

/-- The tick is going to throttle the running process, and to pick a process that may not run on
this CPU. -/
def returnsThrottled (m : Machine) (cpu now : ℕ) : Bool :=
  (m.cpus cpu).current.any fun cur => (m.proc? cur).any fun p =>
    m.usesUp p now && ((m.cpus cpu).runnable.pickNext (!m.rt.throttled)).any fun r =>
      (m.proc? r.1).any fun q => !affinityAllows q.sched.cpuAffinity cpu

/-- The running process after the charge. -/
theorem leaving_of_charged (h : m.Owned []) (hcur : (m.cpus cpu).current = some cur)
    (ctl : Path → CpuController) (throttled : Bool) (ho : p.owner = .running cpu)
    (hrun : throttled = false → p.state = .running)
    (hthrottled : throttled = true → p.state = .cgroupThrottled ∨ p.state = .dlThrottled) :
    Leaving ({ m with cpuCtl := ctl }.setProc cur p) cpu cur p throttled where
  owned := by
    have htake := (h.takeCurrent hcur).1
    have hctl : ({ m with cpuCtl := ctl }.setCurrent cpu none).Owned [cur] :=
      htake.congr rfl rfl htake.looping
    exact hctl.setProc mem_cons_self p
  current := hcur
  phase := by
    by_contra hphase
    have := h.looping cpu hphase
    rw [hcur] at this
    cases this
  proc := proc?_setProc_self _ _ _
  owner := ho
  running := hrun
  throttled := hthrottled

/-- **The tick** keeps the invariant, unless it returns to a process that it has throttled; it
panics only at a process of a throttled control group. -/
theorem onTick_outcome (h : m.Owned []) (hret : m.returnsThrottled cpu now = false) :
    Keeps (m.onTick cpu now) [] ∨
      (m.peerThrottled cpu now = true ∧ ∃ e, m.onTick cpu now = .error e) := by
  unfold onTick
  cases hcur : (m.cpus cpu).current with
  | none => exact .inl h.keeps
  | some cur =>
    obtain ⟨htake, p, hp, hs, ho⟩ := h.takeCurrent hcur
    have hc := charged m cpu p now
    dsimp only
    rw [hp]
    dsimp only
    generalize m.chargeCurrent cpu p now = c at hc ⊢
    obtain ⟨ctl, hm⟩ := hc.machine
    have hctl (cg : Path) : (ctl cg).throttled = m.throttledAfter p now cg := by
      rw [← hc.throttled cg, hm]
    -- the process picked is not the running one, so the charge has not changed it
    have hpeer {p' : Process} {throttled : Bool}
        (hleave : Leaving ({ m with cpuCtl := ctl }.setProc cur p') cpu cur p' throttled)
        (hex : ∃ next rq q, (m.cpus cpu).runnable.pickNext (!m.rt.throttled) = some (next, rq) ∧
          ({ m with cpuCtl := ctl }.setProc cur p').proc? next = some q ∧
          { m with cpuCtl := ctl }.cgroupIsThrottled q = true) :
        m.peerThrottled cpu now = true := by
      obtain ⟨next, rq, q, hpick, hq, hthrottled⟩ := hex
      rw [proc?_setProc_of_ne _ (hleave.ne_of_picked hpick)] at hq
      have hq' : m.proc? next = some q := hq
      grind [cgroupIsThrottled, peerThrottled]
    have hstay := leaving_of_charged h hcur ctl false (hc.owner.trans ho)
      (fun _ => hc.state.trans hs) nofun
    cases hverdict : c.1 with
    | stay =>
      rw [hm]
      exact .inl hstay.stay.keeps
    | reschedule =>
      rw [hm]
      refine (hstay.tickResched_outcome nofun).imp_right fun hr => ?_
      exact ⟨hpeer hstay hr.1, hr.2⟩
    | throttle st =>
      obtain ⟨huses, hst⟩ := hc.verdict st hverdict
      have hset : c.2.2.setState st "dispatch" = .ok { c.2.2 with state := st } := by
        rcases hst with rfl | rfl <;>
          exact setState_ok (hc.state.trans hs) (hc.owner.trans ho) rfl rfl
      have hleave := leaving_of_charged h hcur ctl true
        (p := { c.2.2 with state := st }) (hc.owner.trans ho) nofun fun _ => hst
      dsimp only
      rw [hset, ok_bind, hm]
      refine (hleave.tickResched_outcome fun _ next rq q hpick hq => ?_).imp_right fun hr => ?_
      · rw [proc?_setProc_of_ne _ (hleave.ne_of_picked hpick)] at hq
        have hpick' : (m.cpus cpu).runnable.pickNext (!m.rt.throttled) = some (next, rq) := hpick
        have hq' : m.proc? next = some q := hq
        simpa [returnsThrottled, hcur, hp, hpick', hq', huses] using hret
      · exact ⟨hpeer hleave hr.1, hr.2⟩

end CypheraKernel.Sched.Machine
