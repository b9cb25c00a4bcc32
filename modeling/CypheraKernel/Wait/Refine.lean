import CypheraKernel.Wait.Tree

/-!
# The process table as a family

Every event of the process table is a step of the family that the table describes, and keeps what
the table needs beside it.

`Tree.Inv`: the invariant of the table: that of the family, and that only processes that run or are
to run are queued.
-/

namespace CypheraKernel.Wait

open Function Option Process Tree

open Sched (Pid ProcessState stateIsTerminal stateTransitionOk)
open Core (TerminalState)
open Trap (TraceContext)
open Lists
open Family (Step welcome kin_born_eq bereaved)

/-! ### The family of a table -/

def Process.kin (m : Process) : Kin where
  tgid := m.tgid
  parent := m.parent
  children := m.children
  ended := m.ended
  tracer := m.trace.tracerPid
  tracees := m.trace.tracees

/-- The state and the process group. -/
def Process.post (m : Process) : ProcessState × Pid := (m.state, m.pgid)

def Phase.duty : Phase → Duty
  | .user | .waiting _ _ _ => .free
  | .reaping c _ => .reaping c
  | .leaving reaper orphans => .leaving reaper orphans
  | .corpse => .corpse

/-- The call asks for the child. -/
def Wanted.selects (w : Wanted) (c pgid callerPgid : Pid) : Bool :=
  match w with
  | .any => true
  | .ownGroup => pgid = callerPgid
  | .pid host => host = some c
  | .group host => host = some pgid

/-- The number that `wait4_current` gets stands for everything that the call asks for. -/
def Covers (w : Wanted) (target : ℤ) : Prop :=
  target ≠ i64Min → ∀ c pgid callerPgid, 0 < c → 0 < pgid →
    w.selects c pgid callerPgid = true →
      waitSelectorMatches target c pgid callerPgid = .ok true

/-- The report is to the parent, and about the given stop of the given child. -/
def StopReport.tells (r : StopReport) (c : Pid) (n : ℕ) : Bool :=
  r.child = c && r.stop = n && r.parent = some r.caller

namespace Tree

def family (s : Tree) : Family where
  kin q := (s.processes q).map kin
  next := s.nextPid
  duty q := (s.phase q).duty
  deaths := s.deaths
  terminations := s.terminations

/-- The state of a process fits to its phase and to the run queues. -/
structure Sound (s : Tree) (q : Pid) : Prop where
  queued : s.queued q = true → (s.phase q).left = false ∧
    ∃ m, s.processes q = some m ∧ (m.state = .running ∨ m.state = .runnable)
  left : ∀ m, s.processes q = some m → (s.phase q).left = true →
    m.state = .running ∨ s.phase q = .corpse ∧ m.ended = true
  group : ∀ m, s.processes q = some m → 0 < m.pgid

structure Inv (s : Tree) : Prop where
  family : s.family.Inv
  pids : s.nextPid ≤ 2 ^ 32
  idle : ∀ q, s.nextPid ≤ q → s.phase q = .user
  sound : ∀ q, s.Sound q
  asked : ∀ p w target options, s.phase p = .waiting w target options → Covers w target
  stopsOnce : ∀ c n, (s.stopReports.filter (·.tells c n)).length ≤ 1

variable {s s' : Tree} {p q c t : Pid} {m m' : Process} {f : Process → Process}

theorem inv_boot : boot.Inv where
  family := Family.inv_nobody
  pids := by simp [boot]
  idle := by simp [boot]
  sound := fun q => ⟨by simp [boot], by simp [boot], by simp [boot]⟩
  asked := by simp [boot]
  stopsOnce := by simp [boot]

/-! ### The table after a change -/

theorem processes_onProc :
    (s.onProc p f).processes q = if q = p then (s.processes q).map f else s.processes q := by
  simp only [onProc, update_apply]
  split_ifs with hq <;> simp [hq]

theorem processes_onProc_map :
    (s.onProc p f).processes q = (s.processes q).map fun x => if q = p then f x else x := by
  rw [processes_onProc]
  split_ifs
  · rfl
  · exact map_id'.symm

theorem processes_setProc : (s.setProc p m).processes q = if q = p then some m else s.processes q :=
  update_apply ..

variable {ph : Phase} {vfork : Bool} {st : ProcessState} {tracer : Option Pid}

theorem phase_setPhase : (s.setPhase p ph).phase q = if q = p then ph else s.phase q :=
  update_apply ..

theorem queued_setQueued {b : Bool} :
    (s.setQueued p b).queued q = if q = p then b else s.queued q :=
  update_apply ..

theorem duty_family (h : s.phase p = ph) : s.family.duty p = ph.duty := by
  simp [family, h]

theorem duty_setPhase (q : Pid) :
    ((s.setPhase p ph).phase q).duty = (s.family.setDuty p ph.duty).duty q := by
  simp only [setPhase, Family.setDuty, update_apply, apply_ite Phase.duty]
  rfl

theorem kin_family (h : s.processes q = some m) : s.family.kin q = some m.kin := by
  simp [family, h]

theorem exists_of_kin {k : Kin} (h : s.family.kin q = some k) :
    ∃ m, s.processes q = some m ∧ m.kin = k := by
  simpa [family] using h

theorem family_eq {F : Family} (hproc : ∀ q, (s.processes q).map kin = F.kin q)
    (hnext : s.nextPid = F.next) (hduty : ∀ q, (s.phase q).duty = F.duty q)
    (hdeaths : s.deaths = F.deaths) (hterm : s.terminations = F.terminations) : s.family = F := by
  simp_all [family]

/-- A step of the family is one of the table if the table ends in the right family. -/
theorem step_family {F : Family} (hstep : Step s.family F)
    (hproc : ∀ q, (s'.processes q).map kin = F.kin q) (hnext : s'.nextPid = F.next)
    (hduty : ∀ q, (s'.phase q).duty = F.duty q) (hdeaths : s'.deaths = F.deaths)
    (hterm : s'.terminations = F.terminations) : Step s.family s'.family := by
  rw [family_eq hproc hnext hduty hdeaths hterm]
  exact hstep

/-- What the change of a process does not concern. -/
theorem map_onProc {α : Type} {g : Process → α} (hf : ∀ m, g (f m) = g m) :
    ((s.onProc p f).processes q).map g = (s.processes q).map g := by
  grind [processes_onProc, Option.map_map, Option.map_congr]

theorem map_kin_setProc (hp : s.processes p = some m) (hm : m'.kin = m.kin) :
    ((s.setProc p m').processes q).map kin = (s.processes q).map kin := by
  grind [processes_setProc]

/-! ### Changes of one process -/

/-- `Sound` of what it looks at. -/
def Fits (queued : Bool) (ph : Phase) (post : Option (ProcessState × Pid)) : Prop :=
  (queued = true → ph.left = false ∧ ∃ x ∈ post, x.1 = .running ∨ x.1 = .runnable) ∧
    ∀ x ∈ post, 0 < x.2 ∧
      (ph.left = true → x.1 = .running ∨ ph = .corpse ∧ stateIsTerminal x.1 = true)

theorem sound_iff : s.Sound q ↔ Fits (s.queued q) (s.phase q) ((s.processes q).map post) := by
  refine ⟨fun h => ⟨fun hq => ?_, ?_⟩, fun h => ⟨fun hq => ?_, ?_, ?_⟩⟩
  · simpa [post] using h.queued hq
  · simpa [post] using fun m hm => ⟨h.group m hm, h.left m hm⟩
  · simpa [post] using h.1 hq
  · intro m hm
    exact (h.2 m.post (by simp [hm])).2
  · intro m hm
    exact (h.2 m.post (by simp [hm])).1

theorem Sound.congr (h : s.Sound q) (hphase : s'.phase q = s.phase q)
    (hqueued : s'.queued q = s.queued q)
    (hpost : (s'.processes q).map post = (s.processes q).map post) : s'.Sound q := by
  rw [sound_iff, hphase, hqueued, hpost]
  exact sound_iff.1 h

/-- The state stays, or a process goes on that was stopped for its tracer. -/
theorem Sound.map (h : s.Sound q) (hf : ∀ m, s.processes q = some m → 0 < (f m).pgid ∧
      ((f m).state = m.state ∨ m.state = .traced ∧ (f m).state = .runnable))
    (hphase : s'.phase q = s.phase q) (hqueued : s'.queued q = s.queued q)
    (hproc : s'.processes q = (s.processes q).map f) : s'.Sound q := by
  rw [sound_iff] at h
  rw [sound_iff, hphase, hqueued, hproc]
  cases hm : s.processes q with
  | none => simpa [hm] using h
  | some m =>
    obtain ⟨hpos, hst | ⟨htraced, hst⟩⟩ := hf m hm <;>
      simp_all [Fits, post, stateIsTerminal]

/-- A process that does not leave stays sound if its state does not change. -/
theorem Sound.stay (h : s.Sound q) (hl : (s'.phase q).left = false)
    (hqueued : s'.queued q = s.queued q)
    (hpost : (s'.processes q).map post = (s.processes q).map post) : s'.Sound q := by
  have hsame : ({ s' with phase := s.phase } : Tree).Sound q := h.congr rfl hqueued hpost
  refine ⟨fun hq => ⟨hl, (hsame.queued hq).2⟩, fun m _ hl' => ?_, hsame.group⟩
  exact absurd (hl.symm.trans hl') (by decide)

/-- A process that has not begun to leave is sound if it is in the right state for its queue. -/
theorem sound_of_stays (hp : s.processes p = some m) (hl : (s.phase p).left = false)
    (hqueued : s.queued p = true → m.state = .running ∨ m.state = .runnable) (hpgid : 0 < m.pgid) :
    s.Sound p := by
  rw [sound_iff, hp]
  simpa [Fits, post, hl, hpgid] using hqueued

/-- A change that is a step for the relatives and concerns no phase. -/
theorem Inv.steady (h : s.Inv) {k : Pid → Option Kin}
    (hstep : Step s.family { s.family with kin := k })
    (hproc : ∀ q, (s'.processes q).map kin = k q)
    (hrest : s' = { s with
      processes := s'.processes, namespaces := s'.namespaces, queued := s'.queued })
    (hsound : ∀ q, s'.Sound q) : s'.Inv := by
  have hfamily : s'.family = { s.family with kin := k } :=
    family_eq hproc (by rw [hrest]; rfl) (by rw [hrest]; exact fun _ => rfl) (by rw [hrest]; rfl)
      (by rw [hrest]; rfl)
  refine ⟨hfamily ▸ hstep.inv h.family, ?_, ?_, hsound, ?_, ?_⟩ <;> rw [hrest]
  exacts [h.pids, h.idle, h.asked, h.stopsOnce]

/-- A change of a process that concerns neither its relatives nor its state. -/
theorem Inv.onProc (h : s.Inv) (hkin : ∀ m, (f m).kin = m.kin) (hstate : ∀ m, (f m).state = m.state)
    (hpgid : ∀ m, s.processes p = some m → 0 < (f m).pgid) : (s.onProc p f).Inv := by
  refine h.steady (.quiet _) (fun q => map_onProc hkin) rfl fun q => ?_
  rcases eq_or_ne q p with rfl | hne
  · exact (h.sound q).map (fun m hm => ⟨hpgid m hm, .inl (hstate m)⟩) rfl rfl
      (processes_onProc.trans (if_pos rfl))
  · exact (h.sound q).congr rfl rfl (by rw [processes_onProc, if_neg hne])

section

variable (h : s.Inv) (hp : s.processes p = some m)

include h hp

/-- The process gets a state in which it may be queued. -/
theorem Inv.wake (hkin : m'.kin = m.kin) (hpgid : m'.pgid = m.pgid) (hl : (s.phase p).left = false)
    (hstate : m'.state = .running ∨ m'.state = .runnable) : (s.setProc p m').Inv := by
  refine h.steady (.quiet _) (fun q => map_kin_setProc hp hkin) rfl fun q => ?_
  rcases eq_or_ne q p with rfl | hne
  · exact sound_of_stays (processes_setProc.trans (if_pos rfl)) hl (fun _ => hstate)
      (hpgid ▸ (h.sound q).group m hp)
  · exact (h.sound q).congr rfl rfl (by rw [processes_setProc, if_neg hne])

/-- The process gets any state, and no CPU has it. -/
theorem Inv.suspend (hkin : m'.kin = m.kin) (hpgid : m'.pgid = m.pgid)
    (hl : (s.phase p).left = false) : ((s.setProc p m').setQueued p false).Inv := by
  refine h.steady (.quiet _) (fun q => map_kin_setProc hp hkin) rfl fun q => ?_
  rcases eq_or_ne q p with rfl | hne
  · refine sound_of_stays (processes_setProc.trans (if_pos rfl)) hl (fun hq => ?_)
      (hpgid ▸ (h.sound q).group m hp)
    rw [queued_setQueued, if_pos rfl] at hq
    cases hq
  · refine (h.sound q).congr rfl (queued_setQueued.trans (if_neg hne)) ?_
    exact congrArg _ (processes_setProc.trans (if_neg hne))

/-- A process goes on to another phase. -/
theorem Inv.moves (hfamily : Step s.family s'.family)
    (hnext : s'.nextPid = s.nextPid) (hphase : s'.phase = (s.setPhase p ph).phase)
    (hasked : ∀ w target options, ph = .waiting w target options → Covers w target)
    (hstops : s'.stopReports = s.stopReports) (hsound : ∀ q, s'.Sound q) : s'.Inv where
  family := hfamily.inv h.family
  pids := hnext ▸ h.pids
  idle q hq := by
    have hlt : p < s.nextPid := (h.family.known p m.kin (kin_family hp)).2.1
    rw [hnext] at hq
    rw [hphase, phase_setPhase, if_neg (lt_of_lt_of_le hlt hq).ne']
    exact h.idle q hq
  sound := hsound
  asked q w target options hq := by
    rw [hphase, phase_setPhase] at hq
    split_ifs at hq
    · exact hasked w target options hq
    · exact h.asked q w target options hq
  stopsOnce := by
    rw [hstops]
    exact h.stopsOnce

/-- A process begins or ends a wait call that has chosen no child. -/
theorem Inv.setPhase
    (hfree : (s.phase p).duty = .free) (hduty : ph.duty = .free) (hl : ph.left = false)
    (hasked : ∀ w target options, ph = .waiting w target options → Covers w target) :
    (s.setPhase p ph).Inv := by
  refine h.moves hp (step_family (.quiet _) (fun _ => rfl) rfl (fun q => ?_) rfl rfl) rfl rfl hasked
    rfl fun q => ?_
  · change _ = (s.phase q).duty
    grind [phase_setPhase]
  · rcases eq_or_ne q p with rfl | hne
    · exact (h.sound q).stay (by rwa [phase_setPhase, if_pos rfl]) rfl rfl
    · exact (h.sound q).congr (phase_setPhase.trans (if_neg hne)) rfl rfl

end

/-! ### Births -/

theorem freshPid_eq (h : s.nextPid < 2 ^ 32) : s.freshPid = s.nextPid := Nat.mod_eq_of_lt h

theorem processes_tellTracer : (s.tellTracer tracer c).processes q =
    if tracer = some q then (s.processes q).map fun m => { m with trace := m.trace.addTracee c }
    else s.processes q := by
  cases tracer with
  | none => rfl
  | some t =>
    rw [tellTracer, processes_onProc]
    simp only [some.injEq, eq_comm]

section

variable (m : Process) (option : UInt64) (event : ℕ) (child : Pid)

theorem tracerPid_childTrace : (childTrace m option).tracerPid = inheritedTracer m option := by
  unfold childTrace
  split <;> simp_all [TraceContext.inheritTrace, TraceContext.untraced]

theorem tracees_childTrace : (childTrace m option).tracees = [] := by
  unfold childTrace
  split <;> rfl

theorem tracerPid_postEvent : (postEvent m option event child).tracerPid = m.trace.tracerPid := by
  unfold postEvent
  split_ifs <;> rfl

theorem tracees_postEvent : (postEvent m option event child).tracees = m.trace.tracees := by
  unfold postEvent
  split_ifs <;> rfl

theorem inheritedTracer_eq :
    inheritedTracer m option = none ∨ inheritedTracer m option = m.kin.tracer := by
  unfold inheritedTracer
  split_ifs
  · exact .inr rfl
  · exact .inl rfl

end

theorem map_post_tellTracer :
    ((s.tellTracer tracer c).processes q).map post = (s.processes q).map post := by
  cases tracer with
  | none => rfl
  | some t => exact map_onProc fun _ => rfl

theorem map_post_setProc : ((s.setProc p m).processes q).map post =
    if q = p then some m.post else (s.processes q).map post := by
  rw [processes_setProc]
  split_ifs <;> rfl

section

variable (h : s.Inv)

include h

theorem Inv.ne_nextPid (hp : s.processes p = some m) : p ≠ s.nextPid :=
  (h.family.known p m.kin (kin_family hp)).2.1.ne

theorem none_nextPid : s.processes s.nextPid = none :=
  eq_none_iff_forall_ne_some.2 fun _ hm => h.ne_nextPid hm rfl

/-- The new process fits to its phase: nobody had its pid before. -/
theorem Inv.sound_born (hphase : s'.phase = s.phase) (hqueued : s'.queued = s.queued) {pgid : Pid}
    (hpgid : 0 < pgid)
    (hpost : ∀ q, (s'.processes q).map post = if q =
      s.nextPid then some (.runnable, pgid) else (s.processes q).map post) (q : Pid) :
    s'.Sound q := by
  rcases eq_or_ne q s.nextPid with rfl | hne
  · have hfree : s.queued s.nextPid = false := by
      refine Bool.eq_false_iff.2 fun hq => ?_
      obtain ⟨-, m, hm, -⟩ := (h.sound _).queued hq
      exact h.ne_nextPid hm rfl
    rw [sound_iff, hphase, hqueued, hpost, if_pos rfl, hfree, h.idle _ le_rfl]
    simpa [Fits, Phase.left] using hpgid
  · refine (h.sound q).congr (by rw [hphase]) (by rw [hqueued]) ?_
    rw [hpost, if_neg hne]

theorem Inv.inheritedTracer_ne (hp : s.processes p = some m) (option : UInt64) :
    inheritedTracer m option ≠ some s.nextPid := by
  intro htracer
  rcases inheritedTracer_eq m option with hnone | hsome
  · cases hnone.symm.trans htracer
  · have hlt := (h.family.known p m.kin (kin_family hp)).2.2.tracer _ (hsome.symm.trans htracer)
    exact lt_irrefl _ hlt

section

variable (hlt : s.nextPid < 2 ^ 32)

include hlt

/-- The birth of a process whose relatives welcome it. -/
theorem Inv.born (hfamily : Step s.family s'.family)
    (hnext : s'.nextPid = s.nextPid + 1) (hphase : s'.phase = s.phase)
    (hstops : s'.stopReports = s.stopReports) (hsound : ∀ q, s'.Sound q) : s'.Inv where
  family := hfamily.inv h.family
  pids := hnext ▸ hlt
  idle q hq := by simp_all [h.idle, Nat.le_of_succ_le]
  sound := hsound
  asked := by
    rw [hphase]
    exact h.asked
  stopsOnce := by
    rw [hstops]
    exact h.stopsOnce

theorem Inv.register (isKernel : Bool) : (s.register isKernel).Inv := by
  refine h.born hlt ?_ rfl rfl rfl ?_
  · refine step_family (.register _) (fun q => ?_) rfl (fun _ => rfl) rfl rfl
    rw [kin_born_eq]
    change ((s.setProc s.freshPid _).processes q).map _ = if q = s.nextPid then _ else _
    rw [processes_setProc, freshPid_eq hlt]
    split_ifs
    · rfl
    · exact (map_id' ..).symm
  · refine h.sound_born rfl rfl h.family.positive fun q => ?_
    refine map_post_setProc.trans ?_
    rw [freshPid_eq hlt]
    rfl

/-- A pid is used up, and at most a tracer has heard of it. -/
theorem Inv.spoilt (tracer : Option Pid)
    (hproc : ∀ q, (s'.processes q).map kin =
      ((s.processes q).map kin).map (welcome s.nextPid none tracer q))
    (hpost : ∀ q, (s'.processes q).map post = (s.processes q).map post)
    (hnext : s'.nextPid = s.nextPid + 1) (hphase : s'.phase = s.phase)
    (hqueued : s'.queued = s.queued) (hdeaths : s'.deaths = s.deaths)
    (hterm : s'.terminations = s.terminations) (hstops : s'.stopReports = s.stopReports) :
    s'.Inv := by
  refine h.born hlt ?_ hnext hphase hstops fun q => ?_
  · refine step_family (.spoilt _ tracer) hproc hnext (fun q => ?_) hdeaths hterm
    rw [hphase]
    rfl
  · exact (h.sound q).congr (by rw [hphase]) (by rw [hqueued]) (hpost q)

theorem Inv.usePid : s.usePid.Inv := by
  refine h.spoilt hlt none (fun q => ?_) (fun _ => rfl) rfl rfl rfl rfl rfl rfl
  exact (map_id' ..).symm

end

end

/-- Taking a pid off a list that it was put on, and that did not have it before. -/
theorem filter_append_fresh {l : List Pid} {n : Pid} (h : n ∉ l) :
    (l ++ [n]).filter (· ≠ n) = l := by
  have hl : l.filter (· ≠ n) = l := by
    refine List.filter_eq_self.2 fun a ha => ?_
    rw [decide_eq_true_eq]
    rintro rfl
    exact h ha
  rw [List.filter_append, hl]
  simp

/-- The new process is put into the table, the caller is changed by `f`, and the tracer hears of
it. -/
def enter (s : Tree) (p : Pid) (child : Process) (f : Process → Process) (tracer : Option Pid) :
    Tree :=
  ((s.setProc s.freshPid child).onProc p f).tellTracer tracer s.freshPid

/-- What a fork and the start of a thread have in common: `m` with pid `p` is the caller, and `heir`
the process that gets a new child. -/
structure Birth (s : Tree) (p : Pid) (m child : Process) (f : Process → Process)
    (heir tracer : Option Pid) : Prop where
  inv : s.Inv
  room : s.nextPid < 2 ^ 32
  caller : s.processes p = some m
  heirs : heir = none ∨ heir = some p
  inherits : ∃ option, tracer = inheritedTracer m option
  kin : child.kin = ⟨child.tgid, child.parent, [], false, tracer, []⟩
  post : child.post = (.runnable, m.pgid)
  kin_caller : ∀ x, (f x).kin = welcome s.nextPid heir none p x.kin
  post_caller : ∀ x, (f x).post = x.post

section Birth

variable {child : Process} {heir tracer : Option Pid}

theorem enter_eq : s.enter p child f tracer =
    { s with processes := (s.enter p child f tracer).processes } := by
  cases tracer <;> rfl

section

variable (b : s.Birth p m child f heir tracer)

include b

/-- A child that is inserted is welcomed by its parent and its tracer. -/
theorem Birth.map_kin_enter (q : Pid) :
    ((s.enter p child f tracer).processes q).map Process.kin =
      (s.family.born child.tgid child.parent heir tracer).kin q := by
  have hne : s.nextPid ≠ p := (b.inv.ne_nextPid b.caller).symm
  have ht : tracer ≠ some s.nextPid := by
    obtain ⟨option, rfl⟩ := b.inherits
    exact b.inv.inheritedTracer_ne b.caller option
  rw [kin_born_eq]
  change _ = if q = s.nextPid then _ else ((s.processes q).map Process.kin).map
    (welcome s.nextPid heir tracer q)
  simp only [enter, processes_tellTracer, processes_onProc, processes_setProc, freshPid_eq b.room]
  rcases eq_or_ne q s.nextPid with rfl | hq
  · rw [if_neg ht, if_neg hne, if_pos rfl, if_pos rfl, map_some, b.kin]
  rw [if_neg hq, if_neg hq]
  cases s.processes q with
  | none => simp
  | some x =>
    rcases eq_or_ne q p with rfl | hqp
    · have hkin := b.kin_caller x
      by_cases hqt : tracer = some q <;>
        simp_all [welcome, Process.kin, Process.ended, TraceContext.addTracee]
    have hheir : heir ≠ some q := by
      rcases b.heirs with rfl | rfl <;> simp [hqp.symm]
    by_cases hqt : tracer = some q <;>
      simp [hqp, hheir, hqt, welcome, Process.kin, Process.ended,
        TraceContext.addTracee]

theorem Birth.map_post_enter (q : Pid) :
    ((s.enter p child f tracer).processes q).map Process.post =
      if q = s.nextPid then some (.runnable, m.pgid) else (s.processes q).map Process.post := by
  refine map_post_tellTracer.trans ((map_onProc b.post_caller).trans ?_)
  rw [map_post_setProc, freshPid_eq b.room, b.post]

theorem Birth.made
    (hstep : Step s.family (s.family.born child.tgid child.parent heir tracer)) (namespaces : _) :
    ({ s.enter p child f tracer with namespaces := namespaces } : Tree).usePid.Inv := by
  have hkin := b.map_kin_enter
  have hpost := b.map_post_enter
  rw [enter_eq]
  refine b.inv.born b.room ?_ rfl rfl rfl
    (b.inv.sound_born rfl rfl ((b.inv.sound p).group m b.caller) hpost)
  exact step_family hstep hkin rfl (fun _ => rfl) rfl rfl

/-- The new process is taken out of the table again, and out of the children of its parent. -/
theorem Birth.refused {g : Process → Process}
    (hkin : ∀ x, (g x).kin = { x.kin with
      children := if heir = some p then x.children.filter (· ≠ s.freshPid) else x.children })
    (hpost : ∀ x, (g x).post = x.post)
    (hproc : ∀ q, s'.processes q = (Function.update (s.enter p child f tracer).processes s.freshPid
      none q).map fun x => if q = p then g x else x)
    (hrest : s' = { s with
      processes := s'.processes, namespaces := s'.namespaces, nextPid := s.nextPid + 1 }) :
    s'.Inv := by
  rw [freshPid_eq b.room] at hkin hproc
  refine b.inv.spoilt b.room tracer (fun q => ?_) (fun q => ?_) ?_ ?_ ?_ ?_ ?_ ?_
  · have hold := b.map_kin_enter q
    rw [kin_born_eq] at hold
    rw [hproc]
    rcases eq_or_ne q s.nextPid with rfl | hq
    · rw [update_self, none_nextPid b.inv]
      rfl
    change _ = if q = s.nextPid then _ else ((s.processes q).map Process.kin).map
      (welcome s.nextPid heir tracer q) at hold
    rw [if_neg hq] at hold
    rw [update_of_ne hq]
    rcases eq_or_ne q p with rfl | hqp
    · have hfresh : s.nextPid ∉ m.children := fun hmem =>
        lt_irrefl _ ((b.inv.family.known q m.kin (kin_family b.caller)).2.2.children _ hmem)
      rw [b.caller, map_some, map_some, map_eq_some_iff] at hold
      obtain ⟨x, hx, hxkin⟩ := hold
      have hchildren : x.children =
          if heir = some q then m.children ++ [s.nextPid] else m.children :=
        congrArg Kin.children hxkin
      have hback : (if heir = some q then x.children.filter (· ≠ s.nextPid) else x.children) =
          m.children := by
        rw [hchildren]
        split_ifs
        · exact filter_append_fresh hfresh
        · rfl
      simp only [hx, b.caller, map_some, if_pos, hkin, hback, hxkin]
      rfl
    · have hheir : heir ≠ some q := by
        rcases b.heirs with rfl | rfl <;> simp [hqp.symm]
      simp only [if_neg hqp, map_id', hold]
      refine map_congr fun k _ => ?_
      simp [welcome, hheir]
  · have hold := b.map_post_enter q
    rw [hproc]
    rcases eq_or_ne q s.nextPid with rfl | hq
    · rw [update_self, none_nextPid b.inv]
      rfl
    rw [if_neg hq] at hold
    rw [update_of_ne hq, ← hold, map_map]
    refine map_congr fun x _ => ?_
    split_ifs
    · exact hpost x
    · rfl
  all_goals rw [hrest]

end

end Birth

section

variable (h : s.Inv) (hlt : s.nextPid < 2 ^ 32) (hp : s.processes p = some m)
  (outcome : BirthOutcome)

include h hlt hp

theorem Inv.fork (vfork : Bool) : (s.fork p m vfork outcome).Inv := by
  have hpid := freshPid_eq hlt
  have hbirth : s.Birth p m (forkChild p m vfork s.freshPid)
      (fun q => { q with
        pendingPidNs := none
        children := q.children ++ [s.freshPid]
        trace := postEvent q (forkOption vfork) (if vfork then 2 else 1) s.freshPid })
      (some p) (inheritedTracer m (forkOption vfork)) :=
    { inv := h, room := hlt, caller := hp, heirs := .inr rfl, inherits := ⟨_, rfl⟩
      kin := by simp [kin, forkChild, tracerPid_childTrace, tracees_childTrace]; rfl
      post := rfl
      kin_caller := fun x => by
        simp [kin, welcome, ended, tracerPid_postEvent, tracees_postEvent,
          hpid]
      post_caller := fun _ => rfl }
  cases outcome with
  | noMemory => exact h.usePid hlt
  | refused =>
    refine hbirth.refused (g := fun q => { q with children := q.children.filter (· ≠ s.freshPid) })
      (fun x => ?_) (fun _ => rfl) (fun q => processes_onProc_map) ?_
    · rw [if_pos rfl]
      rfl
    unfold Tree.fork Tree.usePid undoChild insertChild tellTracer
    cases inheritedTracer m (forkOption vfork) <;> rfl
  | made =>
    exact hbirth.made (hpid ▸ .fork s.family (kin_family hp) (inheritedTracer_eq m _)) _

theorem Inv.cloneThread : (s.cloneThread p m outcome).Inv := by
  have hbirth : s.Birth p m (threadChild m)
      (fun q => { q with trace := postEvent q cloneOption 3 s.freshPid })
      none (inheritedTracer m cloneOption) :=
    { inv := h, room := hlt, caller := hp, heirs := .inl rfl, inherits := ⟨_, rfl⟩
      kin := by simp [kin, threadChild, tracerPid_childTrace, tracees_childTrace]; rfl
      post := rfl
      kin_caller := fun x => by
        simp [kin, welcome, ended, tracerPid_postEvent, tracees_postEvent]
      post_caller := fun _ => rfl }
  cases outcome with
  | noMemory => exact h.usePid hlt
  | refused =>
    refine hbirth.refused (g := id) (fun x => rfl) (fun _ => rfl) (fun q => ?_) ?_
    · simp only [id, ite_self, map_id']
      rfl
    · unfold Tree.cloneThread insertThread tellTracer
      cases inheritedTracer m cloneOption <;> rfl
  | made => exact hbirth.made (.thread s.family (kin_family hp) (inheritedTracer_eq m _)) _

end

/-! ### Ends -/

theorem exists_acting (h : s.acting p = some m) :
    s.phase p = .user ∧ s.processes p = some m ∧ m.state = .running := by
  grind [acting, filter_eq_some_iff]

/-- The new parent of the children of a process that ends is a pid that is in use. -/
theorem walkReaper_lt (h : s.Inv) {turns : ℕ} {start : Option Pid}
    (hr : s.walkReaper turns start = some q) : q < s.nextPid := by
  induction turns generalizing start with
  | zero => simp [walkReaper] at hr
  | succ turns ih =>
    cases start with
    | none => simp [walkReaper] at hr
    | some q' =>
      rw [walkReaper] at hr
      cases hm : s.processes q' with
      | none => simp [hm] at hr
      | some m =>
        simp only [hm] at hr
        split_ifs at hr
        · obtain rfl := some.inj hr
          exact (h.family.known q' m.kin (kin_family hm)).2.1
        · exact ih hr

theorem Inv.newParent_lt (h : s.Inv) (hp : s.processes p = some m) : s.newParent m < s.nextPid := by
  unfold newParent
  cases hr : s.walkReaper 1025 m.parent with
  | none =>
    obtain ⟨hpos, hlt, -⟩ := h.family.known p m.kin (kin_family hp)
    exact lt_of_le_of_lt hpos hlt
  | some q => exact walkReaper_lt h hr

/-- A process leaves its CPU for good. -/
theorem Inv.retire (h : s.Inv) (hp : s.processes p = some m) (hstate : m.state = .running)
    (hleft : ph.left = true) (hstep : Step s.family ((s.setPhase p ph).setQueued p false).family) :
    ((s.setPhase p ph).setQueued p false).Inv := by
  refine h.moves hp hstep rfl rfl ?_ rfl fun q => ?_
  · rintro w target options rfl
    cases hleft
  rcases eq_or_ne q p with rfl | hne
  · refine ⟨fun hq => ?_, fun m' hm' _ => ?_, (h.sound q).group⟩
    · rw [queued_setQueued, if_pos rfl] at hq
      cases hq
    · cases hp.symm.trans hm'
      exact .inl hstate
  · refine (h.sound q).congr ?_ ?_ rfl
    · exact phase_setPhase.trans (if_neg hne)
    · exact queued_setQueued.trans (if_neg hne)

theorem Inv.beginExit (h : s.Inv) (hact : s.acting p = some m) (st : TerminalState) (adopts : Bool) :
    (s.beginExit p m st adopts).Inv := by
  obtain ⟨hphase, hp, hstate⟩ := exists_acting hact
  let m' : Process := { m with pendingExit := some (m.pendingExit.getD st) }
  let s' := s.onProc p fun m => { m with pendingExit := some (m.pendingExit.getD st) }
  have hs' : s'.Inv := h.onProc (fun _ => rfl) (fun _ => rfl) fun m' hm' => (h.sound p).group m' hm'
  have hp' : s'.processes p = some m' := by
    rw [processes_onProc, if_pos rfl, hp, map_some]
  have hlive : m'.kin.ended = false := by simp [m', kin, ended, hstate, stateIsTerminal]
  have hfree : s'.family.duty p = .free := duty_family hphase
  have hreaper : s'.newParent m' < s'.family.next := hs'.newParent_lt hp'
  refine hs'.retire hp' hstate rfl ?_
  cases adopts with
  | true =>
    have hstep := Step.exit s'.family (kin_family hp') hlive hfree hreaper
    exact step_family hstep (fun _ => rfl) rfl duty_setPhase rfl rfl
  | false =>
    have hstep := Step.fatal s'.family (kin_family hp') hfree hreaper
    exact step_family hstep (fun _ => rfl) rfl duty_setPhase rfl rfl

/-- A process that has begun to leave goes on to leave. -/
theorem Sound.leaving (h : s.Sound q) (hphase : ∃ r os, s.phase q = .leaving r os)
    (hqueued : s'.queued q = s.queued q) (hproc : s'.processes q = s.processes q) : s'.Sound q := by
  obtain ⟨r, os, hphase⟩ := hphase
  have hleft : (s.phase q).left = true := by
    rw [hphase]
    rfl
  refine ⟨fun hq => ?_, fun m hm _ => ?_, by rw [hproc]; exact h.group⟩
  · grind [h.queued]
  · grind [h.left]

/-- The next orphan gets its new parent. -/
theorem Inv.adoptNext (h : s.Inv) (hp : s.processes p = some m) {r : Pid} {os : List Pid}
    (hphase : s.phase p = .leaving r (c :: os)) :
    ((s.adoptChild r c).setPhase p (.leaving r os)).Inv := by
  have hduty : s.family.duty p = .leaving r (c :: os) := duty_family hphase
  have hkin : ∀ q, ((s.adoptChild r c).processes q).map kin = (s.family.adopt r c).kin q := by
    intro q
    rw [adoptChild, processes_onProc_map, processes_onProc_map, map_map, map_map]
    refine Eq.trans (map_congr fun x _ => ?_) (map_map ..).symm
    simp only [comp_apply, Family.adopted]
    split_ifs <;> rfl
  have hpost : ∀ q, ((s.adoptChild r c).processes q).map post =
      (s.processes q).map post := by
    intro q
    rw [adoptChild, map_onProc, map_onProc]
    · exact fun _ => rfl
    · exact fun _ => rfl
  have hstep := Step.adopt s.family (kin_family hp) hduty
  have hfamily : Step s.family ((s.adoptChild r c).setPhase p (.leaving r os)).family :=
    step_family hstep hkin rfl duty_setPhase rfl rfl
  refine h.moves hp hfamily rfl rfl (by rintro _ _ _ ⟨⟩) rfl fun q => ?_
  rcases eq_or_ne q p with rfl | hne
  · have hsound : (s.adoptChild r c).Sound q := (h.sound q).congr rfl rfl (hpost q)
    exact hsound.leaving ⟨r, c :: os, hphase⟩ rfl rfl
  · exact (h.sound q).congr (phase_setPhase.trans (if_neg hne)) rfl (hpost q)

theorem kin_letTraceeGo (t : Pid) (x : Process) : (letTraceeGo t x).kin =
    { x.kin with tracer := if x.kin.tracer = some t then none else x.kin.tracer } := by
  unfold letTraceeGo
  by_cases ht : x.trace.tracerPid = some t
  · by_cases hstate : x.state = .traced <;>
      simp [TraceContext.tracedBy, ht, hstate, kin, ended, stateIsTerminal,
        TraceContext.detach]
  · simp [TraceContext.tracedBy, ht, kin]

/-- The change keeps the state, or lets a process go on that was stopped for its tracer. -/
def Relaxes (f : Process → Process) : Prop :=
  ∀ m, (f m).pgid = m.pgid ∧ ((f m).state = m.state ∨ m.state = .traced ∧ (f m).state = .runnable)

theorem relaxes_letTraceeGo (t : Pid) : Relaxes (letTraceeGo t) := by
  intro x
  grind [letTraceeGo]

theorem Sound.relax (h : s.Sound q) (hf : Relaxes f) (hphase : s'.phase q = s.phase q)
    (hqueued : s'.queued q = s.queued q) (hproc : s'.processes q = (s.processes q).map f) :
    s'.Sound q :=
  h.map (fun m hm => ⟨(hf m).1 ▸ h.group m hm, (hf m).2⟩) hphase hqueued hproc

theorem kin_orphanTracee (p : Pid) (tracees : List Pid) (q : Pid) (x : Process) :
    (orphanTracee p tracees q x).kin = { x.kin with
      tracer := if q ∈ tracees ∧ x.kin.tracer = some p then none else x.kin.tracer
      tracees := if q = p then [] else x.kin.tracees } := by
  unfold orphanTracee
  by_cases hmem : q ∈ tracees
  · simp only [hmem, if_true, true_and, kin_letTraceeGo]
    by_cases hq : q = p <;> by_cases ht : x.trace.tracerPid = some p <;>
      simp [hq, ht, kin, ended]
  · simp only [hmem, if_false, false_and]
    split_ifs <;> rfl

theorem relaxes_orphanTracee (p : Pid) (tracees : List Pid) (q : Pid) :
    Relaxes (orphanTracee p tracees q) := by
  intro x
  unfold orphanTracee
  rcases eq_or_ne q p with rfl | hq <;> by_cases hmem : q ∈ tracees
  · simpa [hmem] using relaxes_letTraceeGo q { x with trace := { x.trace with tracees := [] } }
  · simp [hmem]
  · simpa [hmem, hq] using relaxes_letTraceeGo p x
  · simp [hmem, hq]

/-- The tracees of a process that ends go on. -/
theorem Inv.detachOrphanedTracees (h : s.Inv) (hp : s.processes p = some m) {r : Pid}
    (hphase : s.phase p = .leaving r []) :
    ((s.detachOrphanedTracees p m).setPhase p .corpse).Inv := by
  have hkin : ∀ q, ((s.detachOrphanedTracees p m).processes q).map kin =
      (s.family.release p m.kin.tracees).kin q := by
    intro q
    rw [Tree.detachOrphanedTracees, map_map]
    refine Eq.trans (map_congr fun x _ => ?_) (map_map ..).symm
    exact kin_orphanTracee p m.trace.tracees q x
  have hduty : s.family.duty p = .leaving r [] := duty_family hphase
  have hstep := Step.letGo s.family (kin_family hp) hduty
  have hfamily : Step s.family ((s.detachOrphanedTracees p m).setPhase p .corpse).family :=
    step_family hstep hkin rfl duty_setPhase rfl rfl
  have hsound : ∀ q, (s.detachOrphanedTracees p m).Sound q := fun q =>
    (h.sound q).relax (relaxes_orphanTracee p m.trace.tracees q) rfl rfl rfl
  refine h.moves hp hfamily rfl rfl nofun rfl fun q => ?_
  rcases eq_or_ne q p with rfl | hne
  · exact (hsound q).leaving ⟨r, [], hphase⟩ rfl rfl
  · exact (hsound q).congr (phase_setPhase.trans (if_neg hne)) rfl rfl

/-! ### Deaths -/

/-- The process gets a state that it does not leave. -/
theorem Inv.kill (h : s.Inv) (hp : s.processes p = some m)
    (hphase : ∀ r os, s.phase p ≠ .leaving r os) (hqueued : s.queued p = false)
    (hkin : m'.kin = { m.kin with ended := true }) (hpgid : m'.pgid = m.pgid) :
    ((s.setProc p m').logDeath p m.tgid).Inv := by
  have hrest : (s.setProc p m').logDeath p m.tgid =
      { s.setProc p m' with deaths := if m.tgid = p then s.deaths ++ [p] else s.deaths } := by
    unfold logDeath
    split_ifs <;> rfl
  have hkin' : ∀ q, ((s.setProc p m').processes q).map kin =
      (s.family.die p (decide (m.tgid = p))).kin q := by
    intro q
    change _ = ((s.processes q).map kin).map (bereaved p q)
    rw [processes_setProc]
    rcases eq_or_ne q p with rfl | hne
    · simp_all [bereaved]
    · rw [if_neg hne, map_map]
      refine map_congr fun x _ => ?_
      simp [bereaved, hne, kin]
  have hduty : ∀ r os, s.family.duty p ≠ .leaving r os := by
    intro r os hduty
    cases hph : s.phase p with
    | leaving r' os' => exact hphase r' os' hph
    | _ => simp [Tree.family, hph, Phase.duty] at hduty
  have hsound : ∀ q, (s.setProc p m').Sound q := by
    intro q
    rcases eq_or_ne q p with rfl | hne
    · have hended : stateIsTerminal m'.state = true := congrArg Kin.ended hkin
      have hgroup : 0 < m'.pgid := hpgid ▸ (h.sound q).group m hp
      rw [sound_iff, processes_setProc, if_pos rfl]
      change Fits (s.queued q) (s.phase q) _
      cases hph : s.phase q with
      | leaving r os => exact absurd hph (hphase r os)
      | _ => simp_all [Fits, post, Phase.left]
    · refine (h.sound q).congr rfl rfl ?_
      rw [processes_setProc, if_neg hne]
  rw [hrest]
  refine ⟨?_, h.pids, h.idle, fun q => (hsound q).congr rfl rfl rfl, h.asked, h.stopsOnce⟩
  have hstep : Step s.family (s.family.die p (decide (m.tgid = p))) := by
    by_cases hleader : m.tgid = p
    · rw [decide_eq_true hleader]
      exact .die _ (kin_family hp) hleader hduty
    · rw [decide_eq_false hleader]
      exact .dieThread _ (kin_family hp) hleader hduty
  refine Step.inv h.family ?_
  refine step_family hstep hkin' rfl (fun _ => rfl) ?_ rfl
  simp only [Family.die, decide_eq_true_eq]
  rfl

theorem setState_terminal (m : Process) (pid : Pid) (st : TerminalState) (site : String) :
    m.setState pid st site = .ok { m with state := st } := by
  have htransition : stateTransitionOk m.state st = true := by simp [stateTransitionOk, st.2]
  rw [setState, if_pos htransition]

theorem setState_eq {site : String} {pid : Pid} (h : stateTransitionOk m.state st = true) :
    m.setState pid st site = .ok { m with state := st } := if_pos h

theorem kin_terminal (m : Process) (st : TerminalState) :
    ({ m with state := st } : Process).kin = { m.kin with ended := true } := by
  simp [kin, ended, st.2]

theorem processes_removeProc (q' : Pid) :
    (s.removeProc p m).processes q' = if q' = p then none else s.processes q' :=
  update_apply ..

theorem map_kin_remove (P : Pid → Kin → Bool) (x : Option Process) :
    ((x.map kin).bind fun k => if P q k then none else some k) =
      (x.bind fun m => if P q m.kin then none else some m).map kin := by grind

/-- A process in a state in which it neither runs nor is to run has not begun to leave. -/
theorem Sound.waiting (h : s.Sound q) (hq : s.processes q = some m) (hrunning : m.state ≠ .running)
    (hrunnable : m.state ≠ .runnable) (hended : m.ended = false) :
    s.queued q = false ∧ (s.phase q).left = false := by
  constructor
  · refine Bool.eq_false_iff.2 fun hqueued => ?_
    obtain ⟨-, m', hm', hstate⟩ := h.queued hqueued
    grind
  · refine Bool.eq_false_iff.2 fun hl => ?_
    grind [h.left]

theorem Inv.dequeue (h : s.Inv) (p : Pid) : (s.setQueued p false).Inv := by
  refine h.steady (.quiet _) (fun _ => rfl) rfl fun q => ?_
  obtain ⟨hqueued, hleft, hgroup⟩ := h.sound q
  refine ⟨fun hq => hqueued ?_, hleft, hgroup⟩
  rw [queued_setQueued] at hq
  split_ifs at hq
  exact hq

section

variable (h : s.Inv) (hp : s.processes p = some m)

include h hp

/-- A thread that does not lead its group leaves the table. -/
theorem Inv.bury (hleader : m.tgid ≠ p)
    (hqueued : s.queued p = false) : (s.removeProc p m').Inv := by
  have hkin : ∀ q, ((s.removeProc p m').processes q).map kin =
      (s.family.remove fun q _ => q = p).kin q := by
    intro q
    refine Eq.trans ?_ (map_kin_remove (fun q _ => q = p) _).symm
    rw [processes_removeProc]
    rcases eq_or_ne q p with rfl | hne
    · cases s.processes q <;> simp
    · simp [hne]
  refine h.steady (.bury _ (kin_family hp) hleader) hkin rfl fun q => ?_
  rcases eq_or_ne q p with rfl | hne
  · have hnone : (s.removeProc q m').processes q = none := by rw [processes_removeProc, if_pos rfl]
    refine ⟨fun hq => absurd (hqueued.symm.trans hq) (by decide), ?_, ?_⟩ <;> simp [hnone]
  · refine (h.sound q).congr rfl rfl ?_
    rw [processes_removeProc, if_neg hne]

/-- The corpse of a process that has ended is made known. -/
theorem Inv.publishCorpse (hphase : s.phase p = .corpse) :
    ∃ s', s.publishCorpse p m = .ok s' ∧ s'.Inv := by
  have hqueued : s.queued p = false := by
    refine Bool.eq_false_iff.2 fun hq => ?_
    have hl := ((h.sound p).queued hq).1
    rw [hphase] at hl
    cases hl
  unfold Tree.publishCorpse
  cases hst : m.pendingExit with
  | none => exact ⟨s, rfl, h⟩
  | some st =>
    simp only [setState_terminal, bind, Except.bind]
    by_cases hleader : m.tgid = p
    · refine ⟨_, by rw [if_pos hleader]; rfl, ?_⟩
      exact h.kill hp (by simp [hphase]) hqueued (kin_terminal m st) rfl
    · simp_all [h.bury]

/-- A process that is stopped goes on. -/
theorem Inv.proceed (hst : m.state = st) (hrest : st = .stopped ∨ st = .parked ∨ st = .traced)
    (hkin : ∀ x, (f x).kin = x.kin) (hpost : ∀ x, (f x).post = x.post) (site : String) :
    ∃ s', (m.setState p .runnable site >>= fun x => pure (s.setProc p (f x))) = .ok s' ∧
      s'.Inv := by
  have htransition : stateTransitionOk m.state .runnable = true := by
    rcases hrest with rfl | rfl | rfl <;> rw [hst] <;> rfl
  have hended : m.ended = false := by
    rcases hrest with rfl | rfl | rfl <;> rw [ended, hst] <;> rfl
  have hl : (s.phase p).left = false := ((h.sound p).waiting hp (by grind) (by grind) hended).2
  rw [setState_eq htransition]
  refine ⟨_, rfl, h.wake hp ((hkin _).trans ?_) (congrArg Prod.snd (hpost _)) hl
    (.inr (congrArg Prod.fst (hpost _)))⟩
  rw [kin, kin, hended]
  rfl

/-- `SIGKILL` never panics. -/
theorem Inv.sigkill : ∃ s', s.sigkill p m = .ok s' ∧ s'.Inv := by
  have hdie : ∀ {st : ProcessState}, m.state = st → st ≠ .running → st ≠ .runnable →
      stateIsTerminal st = false →
      ((s.setProc p { m with state := m.pendingExit.getD (Core.Kernel.killedBy 9) }).logDeath p
        m.tgid).Inv ∧ (s.phase p).left = false := by
    rintro st rfl hrunning hrunnable hended
    obtain ⟨hqueued, hl⟩ := (h.sound p).waiting hp hrunning hrunnable hended
    exact ⟨h.kill hp (by rintro _ _ hph; rw [hph] at hl; cases hl) hqueued (kin_terminal m _) rfl, hl⟩
  unfold Tree.sigkill
  cases hstate : m.state with
  | stopped =>
    simp only [setState_terminal, bind, Except.bind]
    refine ⟨_, rfl, ?_⟩
    have hdead := (hdie hstate (by simp) (by simp) rfl).1.dequeue p
    refine cast (congrArg Inv ?_) hdead
    unfold logDeath
    split_ifs <;> rfl
  | cgroupThrottled | dlThrottled =>
    simp only [setState_terminal, bind, Except.bind]
    exact ⟨_, rfl, (hdie hstate (by simp) (by simp) rfl).1⟩
  | parked => exact h.proceed hp hstate (.inr (.inl rfl)) (fun _ => rfl) (fun _ => rfl) _
  | traced =>
    exact h.proceed (f := fun x => { x with trace := x.trace.clearStop }) hp hstate
      (.inr (.inr rfl)) (fun _ => rfl) (fun _ => rfl) _
  | _ => exact ⟨s, rfl, h⟩

end

/-! ### Tracing and stopping -/

/-- One process becomes the tracer of another, whose state changes as `f` says. -/
theorem Inv.trace (h : s.Inv) (ht : s.processes t = some m) (c : Pid)
    (hkin : ∀ x, s.processes c = some x → (f x).kin = { x.kin with tracer := some t })
    (hsound : (s.onProc c f).Sound c) :
    ((s.onProc c f).onProc t fun q => { q with trace := q.trace.addTracee c }).Inv := by
  have hproc : ∀ q, (((s.onProc c f).onProc t fun q =>
      { q with trace := q.trace.addTracee c }).processes q).map kin =
        (s.family.trace t c).kin q := by
    intro q
    rw [processes_onProc_map, processes_onProc_map, map_map, map_map]
    refine Eq.trans (map_congr fun x hq => ?_) (map_map ..).symm
    have hx : (if q = c then f x else x).kin =
        { x.kin with tracer := if q = c then some t else x.kin.tracer } := by
      split_ifs with hqc
      · exact hkin x (hqc ▸ hq)
      · rfl
    simp only [comp_apply]
    generalize (if q = c then f x else x) = y at hx ⊢
    by_cases hqt : q = t
    · rw [if_pos hqt, if_pos hqt]
      exact congrArg (fun k : Kin => { k with tracees := pushNew k.tracees c }) hx
    · rw [if_neg hqt, if_neg hqt, hx]
  refine h.steady (.trace _ (kin_family ht)) hproc rfl fun q => ?_
  have hold : (s.onProc c f).Sound q := by
    rcases eq_or_ne q c with rfl | hne
    · exact hsound
    · refine (h.sound q).congr rfl rfl ?_
      rw [processes_onProc, if_neg hne]
  refine hold.congr rfl rfl (map_onProc ?_)
  exact fun _ => rfl

theorem Inv.traceme (h : s.Inv) (p : Pid) (m : Process) : (s.traceme p m).Inv := by
  unfold Tree.traceme
  cases hparent : m.parent with
  | none => exact h
  | some par =>
    dsimp only
    split_ifs with hok
    · rw [Bool.and_eq_true, isSome_iff_exists] at hok
      obtain ⟨⟨m', hm'⟩, -⟩ := hok
      refine h.trace hm' p (fun _ _ => rfl) ((h.sound p).congr rfl rfl (map_onProc ?_))
      exact fun _ => rfl
    · exact h

theorem setProc_eq_onProc (hp : s.processes p = some m) :
    s.setProc p m' = s.onProc p fun _ => m' := by
  rw [setProc, onProc, hp, map_some]

/-- A process that neither runs nor is to run may get any state in which it has not ended. -/
theorem Sound.restate (h : s.Sound q) (hq : s.processes q = some m) (hrunning : m.state ≠ .running)
    (hrunnable : m.state ≠ .runnable) (hended : m.ended = false) (hpgid : m'.pgid = m.pgid) :
    (s.setProc q m').Sound q := by
  obtain ⟨hqueued, hl⟩ := h.waiting hq hrunning hrunnable hended
  exact sound_of_stays (processes_setProc.trans (if_pos rfl)) hl
    (fun hb => absurd (hqueued.symm.trans hb) (by decide)) (hpgid ▸ h.group m hq)

/-- `PTRACE_ATTACH` to a process that sleeps or is throttled panics; to any other it does not. -/
theorem Inv.requestPtraceAttach (h : s.Inv) {caller : Process}
    (hcaller : s.processes p = some caller) (hc : s.processes c = some m)
    (hstate : m.state ≠ .parked ∧ m.state ≠ .dlThrottled ∧ m.state ≠ .cgroupThrottled) :
    ∃ s', s.requestPtraceAttach p c caller m = .ok s' ∧ s'.Inv := by
  unfold Tree.requestPtraceAttach
  split_ifs with hmay hrun
  · refine ⟨_, rfl, ?_⟩
    rw [setProc_eq_onProc hc]
    refine h.trace hcaller c (fun x hx => ?_) ?_
    · cases hc.symm.trans hx
      rfl
    · refine (h.sound c).congr rfl rfl ?_
      rw [processes_onProc, if_pos rfl, hc]
      rfl
  · -- What is left of the states is the one of a stopped process.
    have hended : m.ended = false := by simp_all [mayAttach]
    obtain ⟨hrunning, hrunnable⟩ := not_or.1 hrun
    have hlive : stateIsTerminal .traced = false := rfl
    have htransition : stateTransitionOk m.state .traced = true := by
      obtain ⟨hparked, hdl, hcg⟩ := hstate
      rw [ended] at hended
      cases hst : m.state <;> simp_all [stateTransitionOk, stateIsTerminal]
    rw [setState_eq htransition]
    refine ⟨_, rfl, ?_⟩
    have hsound : (s.setProc c { m with state := .traced, trace := m.trace.attach p }).Sound c :=
      (h.sound c).restate hc hrunning hrunnable hended rfl
    grind [setProc_eq_onProc, h.trace, kin, ended, TraceContext.attach]
  · exact ⟨s, rfl, h⟩

theorem Inv.ptraceDetach (h : s.Inv) (p c : Pid) (m : Process) : (s.ptraceDetach p c m).Inv := by
  unfold Tree.ptraceDetach
  split_ifs
  swap
  · exact h
  have hproc : ∀ q, (((s.onProc p fun q => { q with trace := q.trace.removeTracee c }).onProc c
      (letTraceeGo p)).processes q).map kin = (s.family.untrace p c).kin q := by
    intro q
    rw [processes_onProc_map, processes_onProc_map, map_map, map_map]
    refine Eq.trans (map_congr fun x hq => ?_) (map_map ..).symm
    have hx : (if q = p then { x with trace := x.trace.removeTracee c } else x).kin =
        { x.kin with tracees := if q = p then x.kin.tracees.filter (· ≠ c) else x.kin.tracees } := by
      split_ifs <;> rfl
    simp only [comp_apply]
    generalize (if q = p then { x with trace := x.trace.removeTracee c } else x) = y at hx ⊢
    by_cases hqc : q = c
    · rw [if_pos hqc, kin_letTraceeGo, hx]
      simp [hqc]
    · rw [if_neg hqc, hx]
      simp [hqc]
  refine h.steady (.untrace _ p c) hproc rfl fun q => ?_
  have hold : (s.onProc p fun q => { q with trace := q.trace.removeTracee c }).Sound q := by
    refine (h.sound q).congr rfl rfl (map_onProc ?_)
    exact fun _ => rfl
  rcases eq_or_ne q c with rfl | hne
  · exact hold.relax (relaxes_letTraceeGo p) rfl rfl (processes_onProc.trans (if_pos rfl))
  · refine hold.congr rfl rfl ?_
    rw [processes_onProc, if_neg hne]

/-- The process stops, for its tracer or for job control. -/
theorem Inv.pause (h : s.Inv) (hact : s.acting p = some m)
    (hst : stateIsTerminal st = false) {trace : TraceContext}
    (htracer : trace.tracerPid = m.trace.tracerPid) (htracees : trace.tracees = m.trace.tracees) :
    ((s.setProc p { m with state := st, trace := trace }).setQueued p false).Inv := by
  obtain ⟨hphase, hp, hrunning⟩ := exists_acting hact
  refine h.suspend hp ?_ rfl (by rw [hphase]; rfl)
  grind [stateIsTerminal, kin, ended]

end Tree

end CypheraKernel.Wait
