import CypheraKernel.Sched.Runs

/-!
# Replenishing throttled control groups

`cgroup_replenish_throttled` of `kernel/src/core/dispatch.rs`.  The pass goes through the processes
that were throttled when it began, in the order of their pids, and asks for each of them whether the
period of its own control group is over.  The first process of a group that is told yes begins the
next period of the group, so that the others are told no.

`exists_pass`: in every state of an orderly run a pass, section by section, returns.
`neverStuck_iff`: over whole runs, no process stays throttled without a reason just when at each
pass every process that is due has a limit of its own group that has come to the end of its
period, and is the first one of the group.
-/

namespace CypheraKernel.Cgroup.CpuController

open Rust

/-- The controller has a limit and its period is over. -/
def PeriodOver (c : CpuController) (now : ℕ) : Prop :=
  ∃ limit ∈ c.max, saturatingMulU64 limit.2 1000 ≤ now - c.periodStartNs
  deriving Decidable

/-- Nothing holds back the processes of the group: there is no limit, or its period is over. -/
def Open (c : CpuController) (now : ℕ) : Prop := c.max = none ∨ c.PeriodOver now
  deriving Decidable

/-- A new period is not over at once. -/
theorem periodElapsed_replenish {c : CpuController} {now : ℕ} :
    (c.replenish now).periodElapsed now = false := by grind [periodElapsed, replenish]

end CypheraKernel.Cgroup.CpuController

namespace CypheraKernel.Sched.Machine

open Rust Cgroup

/-! ### The pass -/

def cgroupOf (m : Machine) (pid : Pid) : Option Path := (m.proc? pid).bind Process.cgroup

/-- The body of the loop. -/
def replenishOne (m : Machine) (now : ℕ) (pid : Pid) : Except Panic Machine :=
  match m.cgroupOf pid with
  | none => .ok m
  | some cg =>
    if (m.cpuCtl cg).periodElapsed now then
      let m := m.setCpuCtl cg ((m.cpuCtl cg).replenish now)
      match m.proc? pid with
      | none => .ok m
      | some p => m.releaseThrottled pid p.sched.homeCpu
    else .ok m

def replenishEach (now : ℕ) : List Pid → Machine → Except Panic Machine
  | [], m => .ok m
  | pid :: rest, m => do
    let m ← m.replenishOne now pid
    replenishEach now rest m

def cgroupReplenishThrottled (m : Machine) (now : ℕ) : Except Panic Machine :=
  replenishEach now m.throttledPids m

/-! ### The pass as a run of sections -/

variable {m m' : Machine} {now : ℕ} {pid : Pid}

@[simp] theorem finish_start (m : Machine) (f : InFlight) : (m.start f).finish f = m := by
  unfold finish start
  rw [List.erase_cons_head]

/-- The operation begun last takes its next section. -/
theorem exec_resume_start (m : Machine) (f : InFlight) (t : ℕ) (es : List Event) :
    exec (.resume f t :: es) (m.start f) = m.advance t f >>= exec es := by
  have hmem : f ∈ (m.start f).inFlight := List.mem_cons_self
  rw [exec, step, if_pos hmem, finish_start]

/-- One candidate: the sections for it lead on to the rest of the pass. -/
theorem exists_sections_one (m : Machine) (now : ℕ) (pid : Pid) (rest : List Pid) (es : List Event) :
    ∃ es', exec es' (m.start (.replenishing now (pid :: rest))) =
      m.replenishOne now pid >>= fun m' => exec es (m'.start (.replenishing now rest)) := by
  unfold replenishOne
  cases hcg : m.cgroupOf pid with
  | none =>
    refine ⟨.resume (.replenishing now (pid :: rest)) now :: es, ?_⟩
    rw [exec_resume_start, advance, replenishNext, show (m.proc? pid).bind _ = none from hcg]
    rfl
  | some cg =>
    dsimp only
    -- the sections up to the question whether the period is over
    have hask (es : List Event) : exec (.resume (.replenishing now (pid :: rest)) now ::
        .resume (.replenishCheck now pid cg rest) now :: es)
          (m.start (.replenishing now (pid :: rest))) =
        exec es (m.replenishCheck now pid cg rest) := by
      rw [exec_resume_start, advance, replenishNext, show (m.proc? pid).bind _ = some cg from hcg,
        ok_bind, exec_resume_start, advance, ok_bind]
    split_ifs with helapsed
    · generalize hm₁ : m.setCpuCtl cg ((m.cpuCtl cg).replenish now) = m₁
      have hreset (es : List Event) : exec (.resume (.replenishReset now pid cg rest) now ::
          .resume (.replenishHome now pid rest) now :: es) (m.replenishCheck now pid cg rest) =
          exec es (m₁.replenishHome now pid rest) := by
        rw [replenishCheck, if_pos helapsed, exec_resume_start, advance, ok_bind, replenishReset, hm₁,
          exec_resume_start, advance, ok_bind]
      cases hp : m₁.proc? pid with
      | none =>
        refine ⟨_ :: _ :: _ :: _ :: es, (hask _).trans ((hreset _).trans ?_)⟩
        rw [replenishHome, hp]
        rfl
      | some p =>
        refine ⟨_ :: _ :: _ :: _ :: .resume (.replenishEnqueue now pid p.sched.homeCpu rest) now :: es,
          (hask _).trans ((hreset _).trans ?_)⟩
        rw [replenishHome, hp, exec_resume_start, advance, replenishEnqueue, bind_assoc]
        rfl
    · refine ⟨_ :: _ :: es, (hask _).trans ?_⟩
      rw [replenishCheck, if_neg helapsed]
      rfl

theorem exists_sections_each (now : ℕ) (l : List Pid) (m : Machine) :
    ∃ es, exec es (m.start (.replenishing now l)) = replenishEach now l m := by
  induction l generalizing m with
  | nil =>
    refine ⟨[.resume (.replenishing now []) now], ?_⟩
    rw [exec_resume_start, advance, ok_bind]
    rfl
  | cons pid rest ih =>
    cases hone : m.replenishOne now pid with
    | error err =>
      obtain ⟨es', hes'⟩ := exists_sections_one m now pid rest []
      refine ⟨es', ?_⟩
      rw [hes', replenishEach, hone]
      rfl
    | ok m' =>
      obtain ⟨es, hes⟩ := ih m'
      obtain ⟨es', hes'⟩ := exists_sections_one m now pid rest es
      refine ⟨es', ?_⟩
      rw [hes', replenishEach, hone, ok_bind, ok_bind, hes]

/-- The pass is what its sections do when no other section comes in between. -/
theorem exists_sections (m : Machine) (now : ℕ) :
    ∃ es, exec (.cgroupReplenish now :: es) m = m.cgroupReplenishThrottled now := by
  obtain ⟨es, hes⟩ := exists_sections_each now m.throttledPids m
  refine ⟨es, ?_⟩
  rw [exec, step, ok_bind, hes]
  rfl

/-- The pass returns. -/
theorem keeps_cgroupReplenishThrottled (h : m.Owned []) (now : ℕ) :
    Keeps (m.cgroupReplenishThrottled now) [] := by
  have heach (l : List Pid) {m : Machine} (h : m.Owned []) : Keeps (replenishEach now l m) [] := by
    induction l generalizing m with
    | nil => exact h.keeps
    | cons pid rest ih =>
      have hone : Keeps (m.replenishOne now pid) [] := by
        unfold replenishOne
        cases hcg : m.cgroupOf pid with
        | none => exact h.keeps
        | some cg =>
          dsimp only
          split_ifs
          · have hown : (m.setCpuCtl cg ((m.cpuCtl cg).replenish now)).Owned [] :=
              h.congr rfl rfl h.looping
            split
            · exact hown.keeps
            · exact keeps_releaseThrottled hown pid _
          · exact h.keeps
      obtain ⟨m₁, hm₁, hown⟩ := hone
      rw [replenishEach, hm₁, ok_bind]
      exact ih hown
  exact heach _ h

/-! ### Who stays throttled -/

theorem mem_throttledPids :
    pid ∈ m.throttledPids ↔ ∃ p, m.proc? pid = some p ∧ p.state = .cgroupThrottled := by
  constructor
  · intro h
    obtain ⟨e, he, rfl⟩ := List.mem_map.1 h
    obtain ⟨he, hs⟩ := List.mem_filter.1 he
    exact ⟨e.2, SortedMap.get?_of_mem_entries he, of_decide_eq_true hs⟩
  · rintro ⟨p, hp, hs⟩
    exact List.mem_map.2
      ⟨(pid, p), List.mem_filter.2 ⟨SortedMap.mem_entries_of_get? hp, decide_eq_true hs⟩, rfl⟩

theorem sorted_throttledPids (m : Machine) : m.throttledPids.Pairwise (· < ·) :=
  List.pairwise_map.2 (m.processes.sorted.filter _)

theorem mem_throttledPids_setProc {q : Pid} {p : Process} (hs : p.state ≠ .cgroupThrottled) :
    q ∈ (m.setProc pid p).throttledPids ↔ q ∈ m.throttledPids ∧ q ≠ pid := by
  rw [mem_throttledPids, mem_throttledPids]
  by_cases hq : q = pid
  · subst hq
    simp [hs]
  · simp [proc?_setProc_of_ne m hq, hq]

/-- What the last section does when it succeeds. -/
theorem releaseThrottled_spec {home : ℕ} (h : m.releaseThrottled pid home = .ok m') :
    m'.cpuCtl = m.cpuCtl ∧ (∀ q, m'.cgroupOf q = m.cgroupOf q) ∧
      ∀ q, q ∈ m'.throttledPids ↔ q ∈ m.throttledPids ∧ q ≠ pid := by
  unfold releaseThrottled at h
  cases hp : m.proc? pid with
  | none =>
    rw [hp] at h
    cases h
    refine ⟨rfl, fun q => rfl, fun q => ⟨fun hq => ⟨hq, ?_⟩, And.left⟩⟩
    rintro rfl
    obtain ⟨p, hp', -⟩ := mem_throttledPids.1 hq
    rw [hp] at hp'
    cases hp'
  | some p =>
    rw [hp] at h
    dsimp only at h
    split_ifs at h with hs
    · obtain ⟨p₁, hp₁, h⟩ := bind_eq_ok.1 h
      obtain ⟨p₂, hp₂, h⟩ := bind_eq_ok.1 h
      cases h
      have h₁ : p₁ = { p with state := .runnable } := by grind [Process.setState]
      have h₂ : p₂ = p₁.withOwner (.runnable home) := by grind [Process.setSchedOwner]
      subst h₁ h₂
      have hrunnable : (m.enqueue home pid (Process.withOwner { p with state := .runnable }
        (.runnable home)) .wake).2.state ≠ .cgroupThrottled := by rintro ⟨⟩
      refine ⟨rfl, fun q => ?_, fun q => mem_throttledPids_setProc hrunnable⟩
      by_cases hq : q = pid
      · subst hq
        simp [cgroupOf, hp, enqueue, Process.withVruntime, Process.withOwner]
      · simp only [cgroupOf, proc?_setProc_of_ne _ hq]
        rfl
    · cases h
      refine ⟨rfl, fun q => rfl, fun q => ⟨fun hq => ⟨hq, ?_⟩, And.left⟩⟩
      rintro rfl
      obtain ⟨p', hp', hs'⟩ := mem_throttledPids.1 hq
      rw [hp] at hp'
      cases hp'
      exact hs hs'

/-- The process is released by its own turn of the loop. -/
def ReleasedAlone (m : Machine) (now : ℕ) (pid : Pid) : Prop :=
  ∃ cg ∈ m.cgroupOf pid, (m.cpuCtl cg).periodElapsed now = true

/-- One turn of the loop, if it succeeds. -/
theorem replenishOne_spec (h : m.replenishOne now pid = .ok m') :
    (∀ q, m'.cgroupOf q = m.cgroupOf q) ∧
      (∀ cg, (m'.cpuCtl cg).periodElapsed now = true ↔
        (m.cpuCtl cg).periodElapsed now = true ∧ m.cgroupOf pid ≠ some cg) ∧
      ∀ q, q ∈ m'.throttledPids ↔ q ∈ m.throttledPids ∧ ¬ (q = pid ∧ m.ReleasedAlone now pid) := by
  unfold replenishOne at h
  cases hcg : m.cgroupOf pid with
  | none =>
    rw [hcg] at h
    cases h
    simp [ReleasedAlone, hcg]
  | some cg =>
    rw [hcg] at h
    dsimp only at h
    split_ifs at h with helapsed
    · obtain ⟨p, hp, -⟩ := Option.bind_eq_some_iff.1 hcg
      rw [show (m.setCpuCtl cg _).proc? pid = some p from hp] at h
      obtain ⟨hctl, hcgroup, hthrottled⟩ := releaseThrottled_spec h
      refine ⟨hcgroup, fun g => ?_, fun q => ?_⟩
      · rw [hctl, setCpuCtl]
        by_cases hg : g = cg
        · subst hg
          simp [CpuController.periodElapsed_replenish]
        · simp [Function.update_of_ne hg, Ne.symm hg]
      · rw [hthrottled]
        simp only [ReleasedAlone, hcg, Option.mem_some_iff, exists_eq_left', helapsed, and_true]
        rfl
    · cases h
      refine ⟨fun q => rfl, fun g => ⟨fun hg => ⟨hg, ?_⟩, And.left⟩, fun q => ?_⟩
      · grind
      · simp [ReleasedAlone, hcg, helapsed]

/-- The pass over `l` releases the process: it is the first one of its group in `l`, and the period
of the group is over. -/
def Released (m : Machine) (now : ℕ) (l : List Pid) (pid : Pid) : Prop :=
  pid ∈ l ∧ ∃ cg ∈ m.cgroupOf pid, (m.cpuCtl cg).periodElapsed now = true ∧
    ∀ q ∈ l, q < pid → m.cgroupOf q ≠ some cg

theorem throttledPids_replenishEach {l : List Pid} (hl : l.Pairwise (· < ·))
    (h : replenishEach now l m = .ok m') :
    (∀ q, m'.cgroupOf q = m.cgroupOf q) ∧
      ∀ q, q ∈ m'.throttledPids ↔ q ∈ m.throttledPids ∧ ¬ m.Released now l q := by
  induction l generalizing m with
  | nil =>
    cases h
    simp [Released]
  | cons x l ih =>
    obtain ⟨hx, hl⟩ := List.pairwise_cons.1 hl
    obtain ⟨m₁, hm₁, h⟩ := bind_eq_ok.1 h
    obtain ⟨hcgroup, helapsed, hthrottled⟩ := replenishOne_spec hm₁
    obtain ⟨hcgroup', hthrottled'⟩ := ih hl h
    refine ⟨fun q => (hcgroup' q).trans (hcgroup q), fun q => ?_⟩
    have hreleased : m.Released now (x :: l) q ↔
        (q = x ∧ m.ReleasedAlone now x) ∨ m₁.Released now l q := by
      -- what the first turn does to the question that the others ask
      simp only [Released, ReleasedAlone, hcgroup, helapsed, List.mem_cons]
      constructor
      · grind
      · grind
    rw [hthrottled', hthrottled, hreleased, not_or, and_assoc]

/-- The process of group 1 runs and is throttled. -/
def throttleOne : List Event :=
  [.spawn 1 newEntity (some [1]) false, .resume (.admitting 1 0) 0, .schedulerLoop 0 0,
    .schedulerLoop 0 0, .schedulerLoop 0 0, .schedulerLoop 0 0, .tick 0 4000000]

/-- The processes of the group are due: nothing holds back the group or a group above it, or the
period of the group itself is over. -/
def Due (m : Machine) (cg : Path) (now : ℕ) : Prop :=
  (∀ g ∈ ancestorChain cg, (m.cpuCtl g).Open now) ∨ (m.cpuCtl cg).PeriodOver now
  deriving Decidable

/-- No process is throttled in `m'` that was due in `m`. -/
def NoneStuck (m m' : Machine) (now : ℕ) : Prop :=
  ∀ pid ∈ m'.throttledPids, ∀ cg ∈ m'.cgroupOf pid, ¬ m.Due cg now
  deriving Decidable

/-- The condition on a pass: a throttled process that is due has a limit in its own group, with a
period that is not zero and is over, and no throttled process before it is in the group. -/
def PassClear (m : Machine) (now : ℕ) : Prop :=
  ∀ pid ∈ m.throttledPids, ∀ cg ∈ m.cgroupOf pid, m.Due cg now →
    (m.cpuCtl cg).periodElapsed now = true ∧
      ∀ q ∈ m.throttledPids, q < pid → m.cgroupOf q ≠ some cg

/-- **One pass** leaves no process behind that was due just when it meets the condition. -/
theorem noneStuck_iff (h : m.cgroupReplenishThrottled now = .ok m') :
    m.NoneStuck m' now ↔ m.PassClear now := by
  obtain ⟨hcgroup, hthrottled⟩ := throttledPids_replenishEach m.sorted_throttledPids h
  constructor
  · intro hnone pid hpid cg hcg hdue
    by_contra hnot
    refine hnone pid ((hthrottled pid).2 ⟨hpid, ?_⟩) cg ((hcgroup pid).trans hcg) hdue
    rintro ⟨-, cg', hcg', hover, hfirst⟩
    cases hcg'.symm.trans hcg
    exact hnot ⟨hover, hfirst⟩
  intro hclear pid hpid cg hcg hdue
  obtain ⟨hpid, hstays⟩ := (hthrottled pid).1 hpid
  rw [hcgroup] at hcg
  obtain ⟨hover, hfirst⟩ := hclear pid hpid cg hcg hdue
  exact hstays ⟨hpid, cg, hcg, hover, hfirst⟩

/-- A run goes on with a pass or with any other section. -/
inductive Op
  | pass (now : ℕ)
  | other (e : Event)
  deriving DecidableEq, Repr

def Op.run (m : Machine) : Op → Except Panic Machine
  | .pass now => m.cgroupReplenishThrottled now
  | .other e => m.step e

/-- If it is a pass, it leaves no process behind that was due. -/
def Op.NoneStuck (m m' : Machine) : Op → Prop
  | .pass now => m.NoneStuck m' now
  | .other _ => True

/-- If it is a pass, it meets the condition. -/
def Op.Clear (m : Machine) : Op → Prop
  | .pass now => m.PassClear now
  | .other _ => True

/-- No pass of the run leaves a process behind that was due. -/
def NeverStuck : List Op → Machine → Prop
  | [], _ => True
  | op :: ops, m =>
    match op.run m with
    | .ok m' => op.NoneStuck m m' ∧ NeverStuck ops m'
    | .error _ => True

/-- Every pass of the run meets the condition. -/
def PassesClear : List Op → Machine → Prop
  | [], _ => True
  | op :: ops, m =>
    match op.run m with
    | .ok m' => op.Clear m ∧ PassesClear ops m'
    | .error _ => True

/-- **Never stuck.**  In a run of ticks, writes to `cpu.max`, migrations, passes and any other
sections, from any state, no pass leaves a process throttled that was due, just when every pass
meets the condition. -/
theorem neverStuck_iff (ops : List Op) (m : Machine) : NeverStuck ops m ↔ PassesClear ops m := by
  induction ops generalizing m with
  | nil => exact Iff.rfl
  | cons op ops ih =>
    rw [NeverStuck, PassesClear]
    cases hrun : op.run m with
    | error err => exact Iff.rfl
    | ok m' =>
      refine and_congr ?_ (ih m')
      cases op with
      | pass now => exact noneStuck_iff hrun
      | other e => exact Iff.rfl

instance (m m' : Machine) (op : Op) : Decidable (op.NoneStuck m m') := by
  unfold Op.NoneStuck
  split <;> infer_instance

instance decidableNeverStuck : (ops : List Op) → (m : Machine) → Decidable (NeverStuck ops m)
  | [], _ => isTrue trivial
  | op :: ops, m => by
    have := decidableNeverStuck ops
    unfold NeverStuck
    split <;> infer_instance

/-- The only process of a group with a limit is throttled, then the limit is taken away. -/
def limitRemoved : List Op :=
  throttleOne.map .other ++ [.other (.writeCpuMax [1] "max".toList), .pass 1000000000]

/-- Two processes are throttled, each in its group, and the first one moves to the group of the
second. -/
def memberMoved : List Op :=
  [.other (.writeCpuMax [2] "1".toList), .other (.spawn 1 newEntity (some [1]) false),
    .other (.spawn 2 newEntity (some [2]) false), .other (.resume (.admitting 1 0) 0),
    .other (.resume (.admitting 2 0) 0), .other (.schedulerLoop 0 0), .other (.schedulerLoop 0 0),
    .other (.schedulerLoop 0 0), .other (.schedulerLoop 0 0), .other (.tick 0 4000000),
    .other (.tick 0 8000000), .other (.setProcessCgroup 1 [2]), .pass 1000000000]

/-- A process of a group without a limit is never released, and of two processes of one group the
second stays throttled when the first is released. -/
theorem stuck_after_pass :
    ¬ NeverStuck limitRemoved smallBoot ∧ ¬ NeverStuck memberMoved smallBoot := by
  decide +kernel

end CypheraKernel.Sched.Machine
