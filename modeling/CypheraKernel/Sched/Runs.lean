import CypheraKernel.Sched.TickOwned

/-!
# Run queues and scheduler assertions over whole runs

A run is a list of locked sections from the first process on, on any number of CPUs.

* `unique_of_run`: after orderly sections every process is in one run queue at most, and the current
  processes of the CPUs are in none;
* `exec_ok`: if moreover no tick comes to a process of a throttled control group, no check of the
  scheduler fails.
-/

namespace CypheraKernel.Sched.Machine

open Occupancy Rust Cgroup

/-! ### The condition -/

/-- A runnable process stands in the queue of the CPU. -/
def QueuedIfRunnable (m : Machine) (pid : Pid) (cpu : ℕ) : Prop :=
  ∀ p ∈ m.proc? pid, p.state = .runnable → pid ∈ (m.cpus cpu).runnable.pids
  deriving Decidable

/-- The condition on a section.  A tick that throttles the running process picks a process that may
run on its CPU; a deadline callback that has not ended a throttling does not find its process
runnable; and a change of class that finds its process runnable has locked the queue with it. -/
def Orderly (m : Machine) : Event → Prop
  | .tick cpu now => m.returnsThrottled cpu now = false
  | .resume (.dlReplenished pid false) _ =>
    ∀ p ∈ m.proc? pid, p.sched.schedClass.isDeadline = true → p.state ≠ .runnable
  | .resume (.changing target home _) _ => m.QueuedIfRunnable target home
  | .resume (.changingDeadline target home _ _ _) _ => m.QueuedIfRunnable target home
  | _ => True

/-- The section is a tick that comes to a process of a throttled control group. -/
def MeetsThrottled (m : Machine) : Event → Prop
  | .tick cpu now => m.peerThrottled cpu now = true
  | _ => False

instance (m : Machine) : DecidablePred m.Orderly := fun e => by
  unfold Orderly
  split <;> infer_instance

instance (m : Machine) : DecidablePred m.MeetsThrottled := fun e => by
  unfold MeetsThrottled
  split <;> infer_instance

/-- Every section of the run is orderly. -/
def OrderlyRun : List Event → Machine → Prop
  | [], _ => True
  | e :: es, m =>
    m.Orderly e ∧ match m.step e with
      | .ok m' => OrderlyRun es m'
      | .error _ => True

/-- Every section of the run is orderly, and no tick comes to a process of a throttled control
group. -/
def ClearRun : List Event → Machine → Prop
  | [], _ => True
  | e :: es, m =>
    (m.Orderly e ∧ ¬ m.MeetsThrottled e) ∧ match m.step e with
      | .ok m' => ClearRun es m'
      | .error _ => True

instance decidableOrderlyRun : (es : List Event) → (m : Machine) → Decidable (OrderlyRun es m)
  | [], _ => isTrue trivial
  | e :: es, m => by
    have := decidableOrderlyRun es
    unfold OrderlyRun
    split <;> infer_instance

instance decidableClearRun : (es : List Event) → (m : Machine) → Decidable (ClearRun es m)
  | [], _ => isTrue trivial
  | e :: es, m => by
    have := decidableClearRun es
    unfold ClearRun
    split <;> infer_instance

/-! ### One section -/

variable {m : Machine} {f : InFlight} {es : List Event}

/-- An operation in flight has its process in hand again. -/
theorem Owned.finish_holds (h : m.Owned []) (hf : f ∈ m.inFlight) {pid : Pid}
    (hh : f.holds = some pid) :
    (m.finish f).Owned [pid] ∧ ∃ p, m.proc? pid = some p ∧ f.Fits p := by
  have ha := adds_finish hf hh
  exact ⟨h.take ha rfl h.looping, h.exists_of_adds ha⟩

theorem Owned.finish (h : m.Owned []) (hh : f.holds = none) : (m.finish f).Owned [] :=
  h.congr (occupants_finish hh) rfl h.looping

theorem keeps_advance (h : m.Owned []) (hf : f ∈ m.inFlight) (now : ℕ)
    (hc : m.Orderly (.resume f now)) : Keeps ((m.finish f).advance now f) [] := by
  cases f with
  | admitting pid home =>
    obtain ⟨hown, p, hp, hs, ho⟩ := h.finish_holds hf rfl
    exact keeps_admitRunnable hown hp hs ho home _
  | vforkChild pid =>
    obtain ⟨hown, p, hp, hfits⟩ := h.finish_holds hf rfl
    exact (hown.start_holds List.not_mem_nil rfl hp hfits).keeps
  | waking pid home =>
    obtain ⟨hown, p, hp, hs, ho⟩ := h.finish_holds hf rfl
    exact keeps_finishWake hown hp hs ho
  | resuming pid home site =>
    obtain ⟨hown, p, hp, hs, ho⟩ := h.finish_holds hf rfl
    exact keeps_finishResume hown hp hs ho home site
  | resumed pid =>
    obtain ⟨hown, p, hp, hs, ho⟩ := h.finish_holds hf rfl
    exact (hown.reenqueueRunnable hp hs ho).keeps
  | stealing cpu off => exact ((h.finish rfl).stealFrom cpu off).keeps
  | stolen cpu pid peerMinVr =>
    obtain ⟨hown, p, hp, hs, ho⟩ := h.finish_holds hf rfl
    exact keeps_finishSteal hown hp hs ho cpu peerMinVr
  | dlReplenished pid released =>
    cases released with
    | true =>
      obtain ⟨hown, p, hp, hfits⟩ := h.finish_holds hf rfl
      exact (hown.dlCheck hp hfits).keeps
    | false =>
      have hself : (m.finish (.dlReplenished pid false)).dlCheck pid = m.finish _ :=
        dlCheck_eq_self fun p hp => hc p hp
      show Keeps (.ok ((m.finish (.dlReplenished pid false)).dlCheck pid)) []
      rw [hself]
      exact (h.finish rfl).keeps
  | dlEnqueue pid home =>
    obtain ⟨hown, p, hp, hs, ho⟩ := h.finish_holds hf rfl
    exact keeps_dlEnqueue hown hp hs ho home
  | replenishing t candidates => exact ((h.finish rfl).replenishNext t candidates).keeps
  | replenishCheck t pid cg rest => exact ((h.finish rfl).replenishCheck t pid rest cg).keeps
  | replenishReset t pid cg rest => exact ((h.finish rfl).replenishReset t pid rest cg).keeps
  | replenishHome t pid rest => exact ((h.finish rfl).replenishHome t pid rest).keeps
  | replenishEnqueue t pid home rest => exact keeps_replenishEnqueue (h.finish rfl) t pid rest home
  | changing target home newClass =>
    exact keeps_changeClass (h.finish rfl) (fun p hp => hc p hp) newClass
  | changingDeadline target home runtimeNs deadlineNs periodNs =>
    exact ((h.finish rfl).changeDeadlineClass (fun p hp => hc p hp) _ _ _ now).keeps
  | boosting holder newClass => exact ((h.finish rfl).setSchedClass holder newClass).keeps

/-- **One section** that is orderly keeps the invariant, or is a tick that panics at a process of a
throttled control group. -/
theorem step_outcome (h : m.Owned []) (e : Event) (hc : m.Orderly e) :
    Keeps (m.step e) [] ∨ (m.MeetsThrottled e ∧ ∃ err, m.step e = .error err) := by
  cases e with
  | tick cpu now => exact onTick_outcome h hc
  | spawn pid sched cgroup vfork => exact .inl (h.spawn pid sched cgroup vfork).keeps
  | parkOnVforkDone cpu child =>
    refine .inl ?_
    unfold step
    dsimp only
    split_ifs with hf
    · obtain ⟨hown, p, hp, hs, ho⟩ := h.finish_holds hf rfl
      exact keeps_admitVforkChild hown hp hs ho cpu
    · exact h.keeps
  | wake pid => exact .inl (keeps_wakePid h pid)
  | sigkillParked pid | signalWakeParked pid | requestContinue pid =>
    exact .inl (keeps_resumeFrom h pid (by decide) _ _)
  | resumeTraced pid => exact .inl (keeps_resumeTraced h pid)
  | park cpu dest site now => exact .inl (keeps_parkCurrent h cpu dest site now)
  | yield cpu now =>
    refine .inl ?_
    unfold step
    dsimp only
    split_ifs with hcur
    · grind [Option.isSome_iff_exists, keeps_yieldCurrent]
    · exact h.keeps
  | schedulerLoop cpu now => exact .inl (keeps_schedulerLoop h cpu now)
  | stealIfIdle cpu => exact .inl (h.stealIfIdle cpu).keeps
  | dlReplenish pid => exact .inl (keeps_dlReplenishCallback h pid)
  | cgroupReplenish now => exact .inl (h.start rfl).keeps
  | setSchedClass target newClass => exact .inl (h.setSchedClass target newClass).keeps
  | setDeadlineClass target runtimeNs deadlineNs periodNs =>
    exact .inl (h.setDeadlineClass target runtimeNs deadlineNs periodNs).keeps
  | piBoost holder targetPrio => exact .inl (h.piBoost holder targetPrio).keeps
  | piRefresh holder topWaiterPrio => exact .inl (h.piRefresh holder topWaiterPrio).keeps
  | setCpuAffinity pid mask => exact .inl (h.setCpuAffinity pid mask).keeps
  | setNice pid value => exact .inl (h.setNice pid value).keeps
  | setProcessCgroup pid cg => exact .inl (h.setProcessCgroup pid cg).keeps
  | writeCpuMax cg text | writeCpuWeight cg text => exact .inl (h.writeCpuCtl cg _).keeps
  | rtBandwidthTick | setRtRuntime =>
    refine .inl (Owned.keeps ?_)
    exact h.congr rfl rfl h.looping
  | setRtPeriod periodNs =>
    refine .inl (Owned.keeps ?_)
    unfold setRtPeriodNs
    split_ifs
    · exact h
    · exact h.congr rfl rfl h.looping
  | resume f now =>
    refine .inl ?_
    unfold step
    dsimp only
    split_ifs with hf
    · exact keeps_advance h hf now hc
    · exact h.keeps

/-! ### Runs -/

theorem owned_boot (maxCpus : ℕ) (online : { mask : UInt64 // mask ≠ 0 })
    (cpuCtl : Path → CpuController) (rt : RtBandwidth) :
    (boot maxCpus online cpuCtl rt).Owned [] := by
  have hocc (s : Slot) : (boot maxCpus online cpuCtl rt).occupants s = [] := by
    cases s with
    | queue c => exact RunQueues.pids_new
    | cpu c => rfl
    | loop c phase =>
      by_cases hph : LoopPhase.idle = phase
      · subst hph
        rfl
      · simp [occupants, boot, hph]
    | flight f =>
      unfold occupants
      dsimp only
      split <;> rfl
  refine ⟨⟨fun s => ?_, fun hx => ?_⟩, fun x hx => ?_, fun s x hx => ?_, fun x p hp => ?_, ?_⟩
  · rw [hocc]
    exact List.nodup_nil
  · rw [hocc] at hx
    cases hx
  · cases hx
  · rw [hocc] at hx
    cases hx
  · cases hp
  · intro c hphase
    exact (hphase rfl).elim

theorem owned_of_run {m' : Machine} (h : m.Owned []) (hc : OrderlyRun es m)
    (hr : exec es m = .ok m') : m'.Owned [] := by
  induction es generalizing m with
  | nil =>
    cases hr
    exact h
  | cons e es ih =>
    obtain ⟨m₁, hm₁, hr⟩ := bind_eq_ok.1 hr
    rw [OrderlyRun, hm₁] at hc
    rcases step_outcome h e hc.1 with ⟨m₂, hm₂, hown⟩ | ⟨-, err, herr⟩
    · grind
    · rw [hm₁] at herr
      cases herr

/-- Each process occurs at most once in the union of the run queues, and a process that is current
on a CPU occurs in none. -/
structure RunQueueUnique (m : Machine) : Prop where
  nodup : ∀ c, (m.cpus c).runnable.pids.Nodup
  one : ∀ c d pid, pid ∈ (m.cpus c).runnable.pids → pid ∈ (m.cpus d).runnable.pids → c = d
  current : ∀ c d pid, (m.cpus c).current = some pid → pid ∉ (m.cpus d).runnable.pids

theorem Owned.runQueueUnique {loose : List Pid} (h : m.Owned loose) : m.RunQueueUnique where
  nodup c := h.exclusive.nodup (.queue c)
  one c d pid hc hd := Slot.queue.inj (h.exclusive.unique (s := .queue c) (t := .queue d) hc hd)
  current c d pid hcur hd := by
    have hmem : pid ∈ m.occupants (.cpu c) := by grind [occupants]
    cases h.exclusive.unique hmem (show pid ∈ m.occupants (.queue d) from hd)

/-- **Run-queue uniqueness.**  In every run of orderly sections, on any number of CPUs, every
process is in one run queue at most and the current processes are in none. -/
theorem unique_of_run (maxCpus : ℕ) (online : { mask : UInt64 // mask ≠ 0 })
    (cpuCtl : Path → CpuController) (rt : RtBandwidth) {es : List Event}
    (hc : OrderlyRun es (boot maxCpus online cpuCtl rt)) {m : Machine}
    (hr : exec es (boot maxCpus online cpuCtl rt) = .ok m) : m.RunQueueUnique :=
  (owned_of_run (owned_boot maxCpus online cpuCtl rt) hc hr).runQueueUnique

theorem firstCpu_ne_zero : (1 : UInt64) ≠ 0 := by decide

/-- One CPU, and a control group with a quota of one microsecond. -/
def smallBoot : Machine :=
  boot 1 ⟨1, firstCpu_ne_zero⟩
    (fun cg => if cg = [1] then ⟨some (1, 100000), 100, 0, 0, false⟩ else default)
    ⟨1000000000, 950000000, 0, 0, false⟩

/-- A process that may run anywhere. -/
def newEntity : SchedEntity :=
  ⟨0, 0xffffffffffffffff, false, 0, .cfs, 0, nice0Load, 0, 0, 0, 0, false, none⟩

/-- A process is started, and a second one waits in the queue. -/
def startTwo (cgroup : Option Path) : List Event :=
  [.spawn 1 newEntity cgroup false, .spawn 2 newEntity cgroup false, .resume (.admitting 1 0) 0,
    .resume (.admitting 2 0) 0, .schedulerLoop 0 0, .schedulerLoop 0 0, .schedulerLoop 0 0,
    .schedulerLoop 0 0]

/-- Then a tick starts the second one, and the first one gets another class while it waits. -/
def tickAndChange : List Event :=
  startTwo none ++ [.tick 0 4000000, .setSchedClass 1 (.rt 10 false),
    .resume (.changing 1 0 (.rt 10 false)) 5000000]

theorem unique_startTwo : ∃ m, exec tickAndChange smallBoot = .ok m ∧ m.RunQueueUnique := by
  obtain ⟨m, hm, -⟩ := exists_ok (f := fun m => (m.cpus 0).runnable.pids) (b := [1])
    (show (exec tickAndChange smallBoot).toOption.map _ = _ by decide +kernel)
  exact ⟨m, hm, unique_of_run _ _ _ _ (by decide +kernel) hm⟩

/-- A deadline process waits in its queue when its callback comes. -/
def callbackRun : List Event :=
  [.spawn 1 newEntity none false, .resume (.admitting 1 0) 0, .setDeadlineClass 1 10 100 100,
    .resume (.changingDeadline 1 0 10 100 100) 0, .dlReplenish 1, .resume (.dlReplenished 1 false) 0,
    .resume (.dlEnqueue 1 0) 0]

/-- The callback takes the process for one whose throttling has just ended, and queues it once more
under the next deadline. -/
theorem queued_twice : ∃ m, exec callbackRun smallBoot = .ok m ∧ ¬ m.RunQueueUnique := by
  obtain ⟨m, hm, hpids⟩ := exists_ok (f := fun m => (m.cpus 0).runnable.pids) (b := [1, 1])
    (show (exec callbackRun smallBoot).toOption.map _ = _ by decide +kernel)
  refine ⟨m, hm, fun hunique => ?_⟩
  have hnodup := hunique.nodup 0
  rw [hpids] at hnodup
  exact absurd hnodup (by decide)

theorem exec_ok_of_owned (h : m.Owned []) (hc : ClearRun es m) : ∃ m', exec es m = .ok m' := by
  induction es generalizing m with
  | nil => exact ⟨m, rfl⟩
  | cons e es ih =>
    obtain ⟨⟨horderly, hclear⟩, hc⟩ := hc
    rcases step_outcome h e horderly with ⟨m₁, hm₁, hown⟩ | ⟨hmeets, -⟩
    · rw [hm₁] at hc
      obtain ⟨m', hm'⟩ := ih hown hc
      exact ⟨m', bind_eq_ok.2 ⟨m₁, hm₁, hm'⟩⟩
    · exact absurd hmeets hclear

/-- **The scheduler assertions hold.**  In every run of orderly sections in which no tick comes to a
process of a throttled control group, every check of a state and of an owner succeeds. -/
theorem exec_ok (maxCpus : ℕ) (online : { mask : UInt64 // mask ≠ 0 })
    (cpuCtl : Path → CpuController) (rt : RtBandwidth) {es : List Event}
    (hc : ClearRun es (boot maxCpus online cpuCtl rt)) :
    ∃ m, exec es (boot maxCpus online cpuCtl rt) = .ok m :=
  exec_ok_of_owned (owned_boot maxCpus online cpuCtl rt) hc

theorem exec_ok_startTwo :
    ∃ m, exec (startTwo none ++ [.tick 0 4000000, .yield 0 5000000]) smallBoot = .ok m :=
  exec_ok _ _ _ _ (by decide +kernel)

/-- The tick throttles the running process, and with it its control group; the process that it picks
belongs to the same group and cannot be given back. -/
theorem tick_panics :
    exec (startTwo (some [1]) ++ [.tick 0 4000000]) smallBoot =
      .error (.badTransition "on_tick/throttle_peer" 2 (.runnable 0) (.parked 0)) :=
  eq_error (by decide +kernel)

/-- A process is in one slot, which its state and owner fit, or it is in none and waits. -/
def Placed (m : Machine) : Prop :=
  ∀ pid p, m.proc? pid = some p →
    (∃ s : Slot, s.Fits p ∧ ∀ t, pid ∈ m.occupants t ↔ t = s) ∨ Free m.occupants pid ∧ AtRest p

theorem Owned.placed {m : Machine} (h : m.Owned []) : m.Placed := by
  intro pid p hp
  by_cases hfree : Free m.occupants pid
  · exact .inr ⟨hfree, h.rest pid p hp List.not_mem_nil hfree⟩
  obtain ⟨s, hs⟩ := not_forall_not.1 hfree
  obtain ⟨p', hp', hfits⟩ := h.fits s pid hs
  cases hp.symm.trans hp'
  exact .inl ⟨s, hfits, fun t => ⟨fun ht => h.exclusive.unique ht hs, fun ht => ht ▸ hs⟩⟩

/-- **No process is lost** in a run of orderly sections. -/
theorem placed_of_run (maxCpus : ℕ) (online : { mask : UInt64 // mask ≠ 0 })
    (cpuCtl : Path → CpuController) (rt : RtBandwidth) {es : List Event}
    (hc : OrderlyRun es (boot maxCpus online cpuCtl rt)) {m : Machine}
    (hr : exec es (boot maxCpus online cpuCtl rt) = .ok m) : m.Placed :=
  (owned_of_run (owned_boot maxCpus online cpuCtl rt) hc hr).placed

theorem placed_startTwo : ∃ m, exec tickAndChange smallBoot = .ok m ∧ m.Placed := by
  obtain ⟨m, hm, -⟩ := exists_ok (f := fun m => m.inFlight) (b := [])
    (show (exec tickAndChange smallBoot).toOption.map _ = _ by decide +kernel)
  exact ⟨m, hm, placed_of_run _ _ _ _ (by decide +kernel) hm⟩

end CypheraKernel.Sched.Machine
