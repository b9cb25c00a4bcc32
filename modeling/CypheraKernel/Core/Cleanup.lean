import CypheraKernel.Core.Death

/-!
# What a dead process leaves behind

When a process has ended, nothing of it should remain: its pid is in no control group, the memory
that it had charged is uncharged, its deadline bandwidth is given back, it holds no record lock, and
its children have a live parent that knows them.

`cleanedUp_iff`: on each of the ways to end, the condition under which nothing remains.  `exit`
does all of the work, a fatal signal forgets the children and the bandwidth, and a kill of a
stopped or throttled process forgets everything but the bandwidth of a deadline process.
-/

namespace CypheraKernel.Core

open Sched Cgroup Option Process
open Rust hiding Panic

namespace Kernel

variable {k k' : Kernel} {pid q : Pid} {p : Process} (gs : Groups)

/-! ### The specification -/

/-- The process `pid` of `k` has ended, and `k'` holds nothing of it.  A child is a process on the
list of children other than the process itself. -/
structure CleanedUp (k : Kernel) (pid : Pid) (k' : Kernel) : Prop where
  detached : ∀ g, pid ∉ (k'.groups g).pids
  uncharged : ∀ cg ∈ k.processCgroup pid, ∀ g ∈ ancestorChain cg,
    (k'.groups g).memory.current = (k.groups g).memory.current - k.processChargedBytes pid
  released : ∀ p ∈ k.proc? pid,
    k'.dlTotalBw p.sched.homeCpu ≤ k.dlTotalBw p.sched.homeCpu - bandwidth p
  unlocked : ∀ inode, ∀ lk ∈ k'.locks inode, lk.owner ≠ pid
  adopted : ∀ c ∈ (k.life pid).children, c ≠ pid → (k'.proc? c).isSome →
    ∃ q, (k'.life c).parent = some q ∧ k'.live q = true ∧ c ∈ (k'.life q).children

/-! ### The conditions -/

/-- No control group but its own has the pid. -/
def InOwnGroupOnly (k : Kernel) (pid : Pid) : Prop :=
  ∀ g, pid ∈ (k.groups g).pids → k.processCgroup pid = some g

/-- There is no memory to uncharge. -/
def NothingCharged (k : Kernel) (pid : Pid) : Prop :=
  ∀ cg ∈ k.processCgroup pid, ∀ g ∈ ancestorChain cg,
    k.processChargedBytes pid = 0 ∨ (k.groups g).memory.current = 0

/-- There is no bandwidth to give back. -/
def NoBandwidth (k : Kernel) (pid : Pid) : Prop :=
  ∀ p ∈ k.proc? pid, bandwidth p = 0 ∨ k.dlTotalBw p.sched.homeCpu = 0

/-- Every child has another live parent that knows it. -/
def ChildrenElsewhere (k : Kernel) (pid : Pid) : Prop :=
  ∀ c ∈ (k.life pid).children, c ≠ pid → (k.proc? c).isSome →
    ∃ q, (k.life c).parent = some q ∧ q ≠ pid ∧ k.live q = true ∧ c ∈ (k.life q).children

/-- The processes above a parent, the nearest first, up to `n` of them. -/
def lineage (k : Kernel) : ℕ → Option Pid → List Pid
  | 0, _ => []
  | _, none => []
  | n + 1, some q => if (k.proc? q).isSome then q :: k.lineage n (k.life q).parent else []

/-- The process adopts orphans: it is a subreaper and has not exited.  That it has not been killed
is not asked. -/
def adopts (k : Kernel) (q : Pid) : Bool :=
  (k.life q).childSubreaper && (k.proc? q).any fun p => !isZombie p.state

/-- The nearest process above that adopts orphans, or else the first process. -/
def reaper (k : Kernel) (pid : Pid) : Pid :=
  ((k.lineage 1025 (k.life pid).parent).find? k.adopts).getD 1

/-- The process is one of the children, and the end of its parent kills it. -/
def doomed (k : Kernel) (q : Pid) : Bool :=
  (k.life q).pdeathsig = signalKill && (k.proc? q).any fun p => killable p.state

/-- If there are children, the process that adopts them lives on. -/
def HasLiveReaper (k : Kernel) (pid : Pid) : Prop :=
  (∃ c ∈ (k.life pid).children, c ≠ pid ∧ (k.proc? c).isSome) →
    k.reaper pid ≠ pid ∧ k.live (k.reaper pid) = true ∧
      ¬ (k.reaper pid ∈ (k.life pid).children ∧ k.doomed (k.reaper pid) = true)

/-! ### Leaving the control group -/

theorem leaveCgroup_of_none (h : k.processCgroup pid = none) : k.leaveCgroup pid = k := by
  unfold leaveCgroup
  rw [h]

section

variable (k pid)

@[simp] theorem sched_leaveCgroup : (k.leaveCgroup pid).sched = k.sched := by
  unfold leaveCgroup
  split <;> rfl

@[simp] theorem life_leaveCgroup : (k.leaveCgroup pid).life = k.life := by
  unfold leaveCgroup
  split <;> rfl

@[simp] theorem locks_leaveCgroup : (k.leaveCgroup pid).locks = k.locks := by
  unfold leaveCgroup
  split <;> rfl

theorem live_leaveCgroup (pid q : Pid) : (k.leaveCgroup pid).live q = k.live q := by
  simp [live, proc?]

theorem proc?_leaveCgroup (pid q : Pid) : (k.leaveCgroup pid).proc? q = k.proc? q := by
  simp [proc?]

theorem dlTotalBw_leaveCgroup (c : ℕ) :
    (k.leaveCgroup pid).dlTotalBw c = k.dlTotalBw c := by simp [dlTotalBw]

end

/-- The groups after the charge has been given back, if there was one. -/
theorem groups_leaveCgroup {cg : Path} (h : k.processCgroup pid = some cg) :
    (k.leaveCgroup pid).groups =
      (k.groups.unchargeMemory cg (k.processChargedBytes pid)).detachPid cg pid := by
  unfold leaveCgroup
  rw [h]
  dsimp only
  split_ifs with hpos
  · rfl
  · grind [Groups.unchargeMemory_zero]

theorem mem_pids_detachPid (cg : Path) (pid : ℕ) (g : Path) :
    pid ∈ (gs.detachPid cg pid g).pids ↔ pid ∈ (gs g).pids ∧ g ≠ cg := by
  unfold Groups.detachPid
  by_cases hg : g = cg
  · grind
  · split_ifs <;> simp [hg]

theorem current_detachPid (cg : Path) (pid : ℕ) (g : Path) :
    (gs.detachPid cg pid g).memory = (gs g).memory := by
  unfold Groups.detachPid
  by_cases hg : g = cg
  · subst hg
    split_ifs <;> simp
  · split_ifs <;> simp [hg]

theorem mem_pids_leaveCgroup (k : Kernel) (pid : Pid) :
    (∀ g, pid ∉ ((k.leaveCgroup pid).groups g).pids) ↔ k.InOwnGroupOnly pid := by
  unfold InOwnGroupOnly
  cases hcg : k.processCgroup pid with
  | none => simp [leaveCgroup_of_none hcg]
  | some cg =>
    rw [groups_leaveCgroup hcg]
    simp only [mem_pids_detachPid, (Groups.sameLimits_unchargeMemory _ _ _).pids]
    refine forall_congr' fun g => ?_
    simp only [not_and, not_not, some.injEq]
    exact imp_congr_right fun _ => eq_comm

theorem dlTotalBw_setCurrent (k : Kernel) (cpu : ℕ) (cur : Option Pid) (c : ℕ) :
    ({ k with sched := k.sched.setCurrent cpu cur } : Kernel).dlTotalBw c = k.dlTotalBw c := by
  simp only [dlTotalBw, Machine.setCurrent, Function.update_apply]
  split_ifs with hc <;> simp [hc]

/-! ### Publishing -/

/-- What `publish_corpse` keeps. -/
structure Published (k : Kernel) (dead : Pid) (k' : Kernel) : Prop where
  groups : k'.groups = k.groups
  locks : k'.locks = k.locks
  parent : ∀ q, (k'.life q).parent = (k.life q).parent
  children : ∀ q, (k'.life q).children = (k.life q).children
  charged : ∀ q, (k'.life q).cgroupChargedBytes = (k.life q).cgroupChargedBytes
  proc : ∀ q, q ≠ dead → k'.proc? q = k.proc? q
  dead : k'.live dead = false
  bandwidth : ∀ c, k'.dlTotalBw c = k.dlTotalBw c

@[simp] theorem proc?_reap_self (k : Kernel) (dead : Pid) : (k.reap dead).proc? dead = none :=
  SortedMap.get?_eraseKey_self _ _

theorem proc?_reap_of_ne (k : Kernel) {dead : Pid} (h : q ≠ dead) :
    (k.reap dead).proc? q = k.proc? q := SortedMap.get?_eraseKey_of_ne _ h

theorem publishCorpse_spec {st : TerminalState} (hp : k.proc? pid = some p)
    (hst : (k.life pid).pendingExit = some st) (h : k.publishCorpse pid = .ok k') :
    Published k pid k' := by
  unfold publishCorpse at h
  rw [hp, hst] at h
  simp only [setState_terminal, ok_bind] at h
  generalize hk₁ : (k.updateLife pid fun l => { l with pendingExit := none }).setProc pid
    { p with state := st.1 } = k₁ at h
  have hpublished : Published k pid k₁ := by
    subst hk₁
    refine ⟨groups_updateLife _ _ _, locks_updateLife _ _ _, fun q => ?_, fun q => ?_, fun q => ?_,
      fun q hq => ?_, ?_, fun c => ?_⟩
    · change ((k.updateLife pid _).life q).parent = _
      rw [life_updateLife]
      split_ifs <;> rfl
    · change ((k.updateLife pid _).life q).children = _
      rw [life_updateLife]
      split_ifs <;> rfl
    · change ((k.updateLife pid _).life q).cgroupChargedBytes = _
      rw [life_updateLife]
      split_ifs <;> rfl
    · rw [proc?_setProc_of_ne _ hq, proc?_updateLife]
    · simp [live, st.2]
    · rw [dlTotalBw_setProc, dlTotalBw_updateLife]
  split_ifs at h
  · cases h
    exact hpublished
  cases h
  refine ⟨hpublished.groups, hpublished.locks, hpublished.parent, hpublished.children,
    hpublished.charged, fun q hq => ?_, ?_, hpublished.bandwidth⟩
  · rw [proc?_reap_of_ne _ hq, hpublished.proc q hq]
  · simp [live]

/-! ### Adopting -/

/-- The walk finds the first process above that adopts orphans. -/
theorem walkReaper_eq (k : Kernel) (n : ℕ) (parent : Option Pid) :
    k.walkReaper n parent = (k.lineage n parent).find? k.adopts := by
  induction n generalizing parent with
  | zero => simp [walkReaper, lineage]
  | succ n ih =>
    cases parent with
    | none => simp [walkReaper, lineage]
    | some q =>
      rw [walkReaper, lineage]
      cases hp : k.proc? q with
      | none => simp
      | some p =>
        have hadopts : k.adopts q = ((k.life q).childSubreaper && !isZombie p.state) := by
          simp [adopts, hp]
        simp only [isSome_some, if_true, List.find?_cons, hadopts]
        cases (k.life q).childSubreaper && !isZombie p.state with
        | true => rfl
        | false => exact ih _

theorem newParent_eq (hp : k.proc? pid = some p) : k.newParent pid = k.reaper pid := by
  rw [newParent, hp, bind_some, walkReaper_eq, reaper]

/-- What is left of a life when the family and the mark of a kill are forgotten. -/
def Life.rest (l : Life) : Life := { l with parent := none, children := [], sigkillPending := true }

/-- What the loop of `handle_dying_children` over `cs` does. -/
structure Adopted (np : Pid) (cs : List Pid) (k k' : Kernel) : Prop where
  groups : k'.groups = k.groups
  locks : k'.locks = k.locks
  rest : ∀ q, Life.rest (k'.life q) = Life.rest (k.life q)
  cgroup : ∀ q, (k'.proc? q).map cgroup = (k.proc? q).map cgroup
  keepsParent : ∀ c, (k.life c).parent = some np → (k'.life c).parent = some np
  keepsChildren : ∀ c, c ∈ (k.life np).children → c ∈ (k'.life np).children
  parent : ∀ c ∈ cs, (k.proc? c).isSome → (k'.life c).parent = some np
  children : (k.proc? np).isSome → ∀ c ∈ cs, c ∈ (k'.life np).children
  live : k'.live np = (k.live np && !(decide (np ∈ cs) && k.doomed np))
  bandwidth : ∀ c, k'.dlTotalBw c ≤ k.dlTotalBw c

section

variable (h : (k'.proc? q).map cgroup = (k.proc? q).map cgroup)

include h

theorem isSome_congr : (k'.proc? q).isSome = (k.proc? q).isSome := by
  rw [← isSome_map (f := cgroup), h, isSome_map]

theorem processCgroup_congr : k'.processCgroup q = k.processCgroup q := by
  have hjoin (o : Option Process) : o.bind cgroup = (o.map cgroup).join := by
    cases o <;> rfl
  unfold processCgroup
  rw [hjoin, hjoin, h]

theorem processChargedBytes_congr
    (hlife : (k'.life q).cgroupChargedBytes = (k.life q).cgroupChargedBytes) :
    k'.processChargedBytes q = k.processChargedBytes q := by
  rw [processChargedBytes, isSome_congr h, hlife, processChargedBytes]

end

theorem Adopted.refl (np : Pid) (k : Kernel) : Adopted np [] k k :=
  ⟨rfl, rfl, fun _ => rfl, fun _ => rfl, fun _ h => h, fun _ h => h, nofun, nofun, by simp,
    fun _ => le_rfl⟩

/-- A child is signalled. -/
theorem sendPdeathsig_cases {c : Pid} (h : k.sendPdeathsig c = .ok k') :
    ((k.life c).pdeathsig = signalKill ∧ Signalled k c k') ∨ (k.doomed c = false ∧ k' = k) := by
  unfold sendPdeathsig at h
  split_ifs at h with hsend
  · simp_all [signalled_of_sigkill]
  refine .inr ⟨?_, (Except.ok.inj h).symm⟩
  unfold doomed
  cases hp : k.proc? c with
  | none => simp
  | some p =>
    rw [hp] at hsend
    simpa using fun hsig => absurd hsig (by simpa using hsend)

section Adopt

variable (k : Kernel) (np c q : Pid)

@[simp] theorem groups_adopt : (k.adopt np c).groups = k.groups := by simp [adopt]

@[simp] theorem locks_adopt : (k.adopt np c).locks = k.locks := by simp [adopt]

@[simp] theorem proc?_adopt : (k.adopt np c).proc? q = k.proc? q := by simp [adopt]

@[simp] theorem dlTotalBw_adopt (cpu : ℕ) : (k.adopt np c).dlTotalBw cpu = k.dlTotalBw cpu := by
  simp [adopt]

theorem life_adopt : (k.adopt np c).life q =
    { k.life q with
      parent := if q = c ∧ (k.proc? c).isSome then some np else (k.life q).parent
      children := if q = np ∧ (k.proc? np).isSome ∧ c ∉ (k.life q).children then
        (k.life q).children ++ [c] else (k.life q).children } := by
  rw [adopt, life_updateLife, life_updateLife, proc?_updateLife]
  by_cases hnp : q = np ∧ (k.proc? np).isSome
  · obtain ⟨rfl, hsome⟩ := hnp
    by_cases hc : q = c
    · subst hc
      by_cases hmem : q ∈ (k.life q).children <;> simp [hsome, hmem]
    · by_cases hmem : c ∈ (k.life q).children <;> simp [hsome, hmem, hc]
  · have hno : ¬ (q = np ∧ (k.proc? np).isSome ∧ c ∉ (k.life q).children) :=
      fun h => hnp ⟨h.1, h.2.1⟩
    rw [if_neg hnp, if_neg hno]
    split_ifs <;> rfl

theorem rest_adopt : Life.rest ((k.adopt np c).life q) = Life.rest (k.life q) := by
  rw [life_adopt]
  rfl

end Adopt

variable {target np : Pid} {k₁ : Kernel} {cs : List Pid} {cpu signal : ℕ}

section

variable (h : Signalled k target k') (q)

include h

theorem Signalled.rest : Life.rest (k'.life q) = Life.rest (k.life q) :=
  (congrArg Life.rest (h.life q) :)

theorem Signalled.parent : (k'.life q).parent = (k.life q).parent :=
  (congrArg Life.parent (h.life q) :)

theorem Signalled.children : (k'.life q).children = (k.life q).children :=
  (congrArg Life.children (h.life q) :)

end

theorem doomed_congr (hsig : (k'.life q).pdeathsig = (k.life q).pdeathsig)
    (hstate : (k'.proc? q).map state = (k.proc? q).map state) : k'.doomed q = k.doomed q := by
  rw [doomed, hsig, any_state_congr killable hstate, doomed]

/-- The signal, if it is sent: the family stays as it is, and `np` lives on unless it is the child
and the signal ends it. -/
structure Warned (np c : Pid) (k k₁ : Kernel) : Prop where
  groups : k₁.groups = k.groups
  locks : k₁.locks = k.locks
  rest : ∀ q, Life.rest (k₁.life q) = Life.rest (k.life q)
  parent : ∀ q, (k₁.life q).parent = (k.life q).parent
  children : ∀ q, (k₁.life q).children = (k.life q).children
  cgroup : ∀ q, (k₁.proc? q).map cgroup = (k.proc? q).map cgroup
  live : k₁.live np = (k.live np && !(decide (np = c) && k.doomed np))
  doomed : k₁.doomed np = (!decide (np = c) && k.doomed np)
  bandwidth : ∀ cpu, k₁.dlTotalBw cpu ≤ k.dlTotalBw cpu

theorem warned_of_sendPdeathsig (np : Pid) {c : Pid}
    (h : k.sendPdeathsig c = .ok k₁) : Warned np c k k₁ := by
  rcases sendPdeathsig_cases h with ⟨hsig, hs⟩ | ⟨hdoomed, rfl⟩
  · refine ⟨hs.groups, hs.locks, hs.rest, hs.parent, hs.children, hs.cgroup, ?_, ?_, hs.bandwidth⟩
    · by_cases hnp : np = c
      · subst hnp
        rw [hs.live]
        simp [doomed, hsig]
      · rw [live_congr (hs.state np hnp)]
        simp [hnp]
    · by_cases hnp : np = c
      · grind [doomed, hs.settled]
      · rw [doomed_congr (congrArg Life.pdeathsig (hs.rest np) :) (hs.state np hnp)]
        simp [hnp]
  · refine ⟨rfl, rfl, fun _ => rfl, fun _ => rfl, fun _ => rfl, fun _ => rfl, ?_, ?_,
      fun _ => le_rfl⟩
    all_goals
      by_cases hnp : np = c
      · subst hnp
        simp [hdoomed]
      · simp [hnp]

/-- One turn of the loop, and the rest of it. -/
theorem Adopted.cons {c : Pid} (hw : Warned np c k k₁)
    (h : Adopted np cs (k₁.adopt np c) k') : Adopted np (c :: cs) k k' where
  groups := by rw [h.groups, groups_adopt, hw.groups]
  locks := by rw [h.locks, locks_adopt, hw.locks]
  rest q := by rw [h.rest, rest_adopt, hw.rest]
  cgroup q := by rw [h.cgroup, proc?_adopt, hw.cgroup]
  keepsParent d hd := by simp_all [h.keepsParent, life_adopt, hw.parent]
  keepsChildren d hd := by grind [h.keepsChildren, life_adopt, hw.children]
  parent d hd hsome := by
    grind [isSome_congr, hw.cgroup, h.keepsParent, life_adopt, h.parent, proc?_adopt]
  children hsome d hd := by
    rw [← isSome_congr (hw.cgroup np)] at hsome
    rcases List.mem_cons.1 hd with rfl | hd
    · apply h.keepsChildren
      rw [life_adopt]
      by_cases hmem : d ∈ (k₁.life np).children <;> simp [hsome, hmem]
    · exact h.children (by rwa [proc?_adopt]) d hd
  live := by
    have hlive : (k₁.adopt np c).live np = k₁.live np := by simp [Kernel.live]
    have hdoomed : (k₁.adopt np c).doomed np = k₁.doomed np :=
      doomed_congr (congrArg Life.pdeathsig (rest_adopt k₁ np c np) :) (by rw [proc?_adopt])
    rw [h.live, hlive, hdoomed, hw.live, hw.doomed]
    by_cases hnp : np = c
    · simp [hnp]
    · simp [hnp]
  bandwidth cpu := by
    refine (h.bandwidth cpu).trans ?_
    rw [dlTotalBw_adopt]
    exact hw.bandwidth cpu

theorem adopted_of_adoptEach (h : adoptEach np cs k = .ok k') : Adopted np cs k k' := by
  induction cs generalizing k with
  | nil =>
    obtain rfl := Except.ok.inj h
    exact Adopted.refl np k
  | cons c cs ih =>
    obtain ⟨k₁, hk₁, h⟩ := bind_eq_ok.1 h
    exact (ih h).cons (warned_of_sendPdeathsig np hk₁)

/-! ### Preparing the end -/

/-- The life without the way in which it is going to end. -/
def Life.untold (l : Life) : Life := { l with pendingExit := none }

/-- The first part of a death: the locks are given up and the end is told; what is said of the
family, the states and the groups is as before. -/
structure Prepared (k : Kernel) (pid : Pid) (k₁ : Kernel) : Prop where
  groups : k₁.groups = k.groups
  unlocked : ∀ inode, ∀ lk ∈ k₁.locks inode, lk.owner ≠ pid
  untold : ∀ q, Life.untold (k₁.life q) = Life.untold (k.life q)
  told : ∃ st, (k₁.life pid).pendingExit = some st
  cgroup : ∀ q, (k₁.proc? q).map cgroup = (k.proc? q).map cgroup
  state : ∀ q, (k₁.proc? q).map state = (k.proc? q).map state

theorem prepared_setPendingExit (hp : k.proc? pid = some p) (st : TerminalState) :
    Prepared k pid ((k.dropOwner pid).setPendingExit pid st) := by
  have hsome : ((k.dropOwner pid).proc? pid).isSome := by
    rw [show (k.dropOwner pid).proc? pid = k.proc? pid from rfl, hp]
    rfl
  refine ⟨groups_updateLife _ _ _, fun inode lk hlk => ?_, fun q => ?_,
    ⟨((k.dropOwner pid).life pid).pendingExit.getD st, ?_⟩, fun q => ?_, fun q => ?_⟩
  · rw [setPendingExit, locks_updateLife] at hlk
    exact of_decide_eq_true (List.mem_filter.1 hlk).2
  · rw [setPendingExit, life_updateLife]
    split_ifs <;> rfl
  · rw [setPendingExit, life_updateLife, if_pos ⟨rfl, hsome⟩]
  · rw [setPendingExit, proc?_updateLife]
    rfl
  · rw [setPendingExit, proc?_updateLife]
    rfl

namespace Prepared

variable {k₁ : Kernel}

/-- The process itself may have changed, if its group and its state have not. -/
theorem setProc (h : Prepared k pid k₁) {p' : Process} (hp : k₁.proc? pid = some p)
    (hgroup : p'.cgroup = p.cgroup) (hstate : p'.state = p.state) :
    Prepared k pid (k₁.setProc pid p') := by
  have hsame : SameStates k₁.sched (k₁.sched.setProc pid p') := sameStates_setProc hp hgroup hstate
  exact ⟨h.groups, h.unlocked, h.untold, h.told, fun q => (hsame.cgroup q).trans (h.cgroup q),
    fun q => (hsame.state q).trans (h.state q)⟩

/-- The scheduler may have changed before, but for the processes. -/
theorem of_sched {k₀ : Kernel} (h : Prepared k₀ pid k₁)
    (hprocs : k₀.sched.processes = k.sched.processes) (hlife : k₀.life = k.life)
    (hgroups : k₀.groups = k.groups) : Prepared k pid k₁ := by
  have hproc (q : Pid) : k₀.proc? q = k.proc? q := by
    unfold proc? Machine.proc?
    rw [hprocs]
  refine ⟨h.groups.trans hgroups, h.unlocked, fun q => ?_, h.told, fun q => ?_, fun q => ?_⟩
  · rw [h.untold, hlife]
  · rw [h.cgroup, hproc]
  · rw [h.state, hproc]

section

variable (h : Prepared k pid k₁)

include h

variable (q)

theorem parent : (k₁.life q).parent = (k.life q).parent :=
  (congrArg Life.parent (h.untold q) :)

theorem children : (k₁.life q).children = (k.life q).children :=
  (congrArg Life.children (h.untold q) :)

theorem isSome : (k₁.proc? q).isSome = (k.proc? q).isSome :=
  isSome_congr (h.cgroup q)

theorem processCgroup : k₁.processCgroup q = k.processCgroup q := processCgroup_congr (h.cgroup q)

theorem processChargedBytes : k₁.processChargedBytes q = k.processChargedBytes q :=
  processChargedBytes_congr (h.cgroup q) (congrArg Life.cgroupChargedBytes (h.untold q) :)

theorem adopts : k₁.adopts q = k.adopts q := by
  have hsub := congrArg Life.childSubreaper (h.untold q)
  change (k₁.life q).childSubreaper = (k.life q).childSubreaper at hsub
  unfold Kernel.adopts
  rw [hsub, any_state_congr (fun st => !isZombie st) (h.state q)]

theorem lineage (n : ℕ) (parent : Option Pid) : k₁.lineage n parent = k.lineage n parent := by
  induction n generalizing parent with
  | zero => rfl
  | succ n ih =>
    cases parent with
    | none => rfl
    | some q => rw [Kernel.lineage, Kernel.lineage, h.isSome, h.parent, ih]

theorem reaper : k₁.reaper q = k.reaper q := by
  unfold Kernel.reaper
  rw [h.lineage, h.parent, funext h.adopts]

theorem doomed : k₁.doomed q = k.doomed q :=
  doomed_congr (congrArg Life.pdeathsig (h.untold q) :) (h.state q)

theorem live : k₁.live q = k.live q := live_congr (h.state q)

end

end Prepared

/-! ### The running process -/

theorem Adopted.processCgroup (h : Adopted np cs k k') (q : Pid) :
    k'.processCgroup q = k.processCgroup q := processCgroup_congr (h.cgroup q)

theorem Adopted.processChargedBytes (h : Adopted np cs k k') (q : Pid) :
    k'.processChargedBytes q = k.processChargedBytes q :=
  processChargedBytes_congr (h.cgroup q) (congrArg Life.cgroupChargedBytes (h.rest q) :)

section Running

variable {np : Pid} {cs : List Pid} {k₁ k₂ : Kernel}

/-- The end of a process that was there at the beginning is published. -/
theorem published_of_left (hp : k.proc? pid = some p) (hprep : Prepared k pid k₁)
    (had : Adopted np cs k₁ k₂) (h : (k₂.leaveCgroup pid).publishCorpse pid = .ok k') :
    Published (k₂.leaveCgroup pid) pid k' := by
  have hsome : (k₂.proc? pid).isSome := by
    rw [isSome_congr (had.cgroup pid), hprep.isSome, hp]
    rfl
  obtain ⟨p₂, hp₂⟩ := isSome_iff_exists.1 hsome
  obtain ⟨st, hst⟩ := hprep.told
  have htold := congrArg Life.pendingExit (had.rest pid)
  change (k₂.life pid).pendingExit = (k₁.life pid).pendingExit at htold
  grind [proc?_leaveCgroup, life_leaveCgroup, publishCorpse_spec]

section

variable (hprep : Prepared k pid k₁) (had : Adopted np cs k₁ k₂)
  (hpub : Published (k₂.leaveCgroup pid) pid k')
include hprep had hpub

/-- The control groups at the end of the running process. -/
theorem detached_iff : (∀ g, pid ∉ (k'.groups g).pids) ↔ k.InOwnGroupOnly pid := by
  rw [hpub.groups, mem_pids_leaveCgroup]
  unfold InOwnGroupOnly
  rw [had.groups, hprep.groups, had.processCgroup, hprep.processCgroup]

theorem uncharged_of_left :
    ∀ cg ∈ k.processCgroup pid, ∀ g ∈ ancestorChain cg,
      (k'.groups g).memory.current = (k.groups g).memory.current - k.processChargedBytes pid := by
  intro cg hcg g hg
  have hcg' : k₂.processCgroup pid = some cg := by rwa [had.processCgroup, hprep.processCgroup]
  rw [hpub.groups, groups_leaveCgroup hcg', current_detachPid, Groups.current_unchargeMemory,
    if_pos hg, had.groups, hprep.groups, had.processChargedBytes, hprep.processChargedBytes]

theorem unlocked_of_left : ∀ inode, ∀ lk ∈ k'.locks inode, lk.owner ≠ pid := by
  rw [hpub.locks, locks_leaveCgroup, had.locks]
  exact hprep.unlocked

end

section

variable (k : Kernel) (pid : Pid) (k' : Kernel)
  (hsome : ∀ q, q ≠ pid → (k'.proc? q).isSome = (k.proc? q).isSome)

include hsome

/-- The children of a process that does not look after them. -/
theorem adopted_iff_elsewhere (hparent : ∀ q, (k'.life q).parent = (k.life q).parent)
    (hchildren : ∀ q, (k'.life q).children = (k.life q).children)
    (hlive : ∀ q, k'.live q = (k.live q && decide (q ≠ pid))) :
    (∀ c ∈ (k.life pid).children, c ≠ pid → (k'.proc? c).isSome →
      ∃ q, (k'.life c).parent = some q ∧ k'.live q = true ∧ c ∈ (k'.life q).children) ↔
    k.ChildrenElsewhere pid := by
  refine forall₃_congr fun c _ hne => ?_
  rw [hsome c hne]
  refine imp_congr_right fun _ => exists_congr fun q => ?_
  rw [hparent, hchildren, hlive, Bool.and_eq_true, decide_eq_true_eq]
  tauto

/-- The children of a process that has given them to `np`. -/
theorem adopted_iff_live (hne : cs = (k.life pid).children)
    (hparent : ∀ c ∈ cs, (k.proc? c).isSome → (k'.life c).parent = some np)
    (hchildren : (k.proc? np).isSome → ∀ c ∈ cs, c ∈ (k'.life np).children)
    (hlive : k'.live np = true → (k.proc? np).isSome) :
    (∀ c ∈ (k.life pid).children, c ≠ pid → (k'.proc? c).isSome →
      ∃ q, (k'.life c).parent = some q ∧ k'.live q = true ∧ c ∈ (k'.life q).children) ↔
    ((∃ c ∈ (k.life pid).children, c ≠ pid ∧ (k.proc? c).isSome) → k'.live np = true) := by
  rw [← hne]
  constructor
  · grind
  · intro h c hc hcne hcsome
    rw [hsome c hcne] at hcsome
    have hnp := h ⟨c, hc, hcne, hcsome⟩
    exact ⟨np, hparent c hc hcsome, hnp, hchildren (hlive hnp) c hc⟩

end

end Running

/-- The parts of the end by a signal. -/
theorem terminate_parts (hcur : (k.sched.cpus cpu).current = some pid)
    (h : k.terminateCurrentWithSignal cpu signal = .ok k') :
    Prepared k pid (k.prepareTermination cpu pid signal) ∧
      Published ((k.prepareTermination cpu pid signal).leaveCgroup pid) pid k' := by
  unfold terminateCurrentWithSignal at h
  rw [hcur] at h
  dsimp only at h
  cases hp : k.proc? pid with
  | none =>
    rw [hp] at h
    cases h
  | some p =>
    rw [hp] at h
    have hprep : Prepared k pid (k.prepareTermination cpu pid signal) :=
      (prepared_setPendingExit (k := { k with sched := k.sched.setCurrent cpu none }) hp
        (killedBy signal)).of_sched rfl rfl rfl
    exact ⟨hprep, published_of_left hp hprep (Adopted.refl 1 _) h⟩

/-- A process that has ended, and what the others are. -/
theorem Published.live (hpub : Published k pid k') (q : Pid) :
    k'.live q = (k.live q && decide (q ≠ pid)) := by
  by_cases hq : q = pid
  · subst hq
    simp [hpub.dead]
  · simp [Kernel.live, hpub.proc q hq, hq]

/-- **A fatal signal** of the running process. -/
theorem cleanedUp_fatalSignal_iff (hcur : (k.sched.cpus cpu).current = some pid)
    (h : k.terminateCurrentWithSignal cpu signal = .ok k') :
    CleanedUp k pid k' ↔ k.InOwnGroupOnly pid ∧ k.NoBandwidth pid ∧ k.ChildrenElsewhere pid := by
  obtain ⟨hprep, hpub⟩ := terminate_parts hcur h
  have had := Adopted.refl 1 (k.prepareTermination cpu pid signal)
  have hbw (c : ℕ) : k'.dlTotalBw c = k.dlTotalBw c := by
    rw [hpub.bandwidth, dlTotalBw_leaveCgroup, prepareTermination, setPendingExit,
      dlTotalBw_updateLife]
    exact dlTotalBw_setCurrent k cpu none c
  have hchildren := adopted_iff_elsewhere k pid k'
    (fun q hq => by rw [hpub.proc q hq, proc?_leaveCgroup, hprep.isSome])
    (fun q => by rw [hpub.parent, life_leaveCgroup, hprep.parent])
    (fun q => by rw [hpub.children, life_leaveCgroup, hprep.children])
    (fun q => by rw [hpub.live, live_leaveCgroup, hprep.live])
  have hreleased : (∀ p ∈ k.proc? pid, k'.dlTotalBw p.sched.homeCpu ≤
      k.dlTotalBw p.sched.homeCpu - bandwidth p) ↔ k.NoBandwidth pid := by
    refine forall₂_congr fun p _ => ?_
    rw [hbw]
    omega
  constructor
  · intro hclean
    exact ⟨(detached_iff hprep had hpub).1 hclean.detached, hreleased.1 hclean.released,
      hchildren.1 hclean.adopted⟩
  · rintro ⟨hgroup, hnobw, helse⟩
    exact ⟨(detached_iff hprep had hpub).2 hgroup, uncharged_of_left hprep had hpub,
      hreleased.2 hnobw, unlocked_of_left hprep had hpub, hchildren.2 helse⟩

theorem isSome_of_live (h : k.live q = true) : (k.proc? q).isSome := by
  unfold live at h
  cases hp : k.proc? q with
  | none => simp [hp] at h
  | some p => rfl

/-- The first part of `exit_current` gives back the bandwidth, too. -/
theorem prepared_of_prepareExit {code : ℤ} (hp : k.proc? pid = some p)
    (h : k.prepareExit cpu pid p code = .ok k₁) :
    Prepared k pid k₁ ∧ k₁.dlTotalBw p.sched.homeCpu =
      k.dlTotalBw p.sched.homeCpu - bandwidth p := by
  obtain ⟨p', hp', h⟩ := bind_eq_ok.1 h
  cases h
  obtain rfl := setSchedOwner_eq hp'
  let k₀ : Kernel := ({ k with sched := k.sched.setCurrent cpu none } : Kernel).releaseDlBandwidth p
  have hprocs : k₀.sched.processes = k.sched.processes := processes_releaseDlBandwidth _ _
  have hp₀ : k₀.proc? pid = some p := by
    rw [proc?, Machine.proc?, hprocs]
    exact hp
  have hprep₀ := prepared_setPendingExit hp₀ (exited code)
  have hprep := hprep₀.of_sched hprocs (life_releaseDlBandwidth _ _) (groups_releaseDlBandwidth _ _)
  have hp₁ : ((k₀.dropOwner pid).setPendingExit pid (exited code)).proc? pid = some p := by
    rw [setPendingExit, proc?_updateLife]
    exact hp₀
  refine ⟨hprep.setProc hp₁ rfl rfl, ?_⟩
  have hbw : k₀.dlTotalBw p.sched.homeCpu = ({ k with sched := k.sched.setCurrent cpu none } :
      Kernel).dlTotalBw p.sched.homeCpu - bandwidth p := by
    rw [dlTotalBw_releaseDlBandwidth, if_pos rfl]
  rw [dlTotalBw_setProc, setPendingExit, dlTotalBw_updateLife]
  refine hbw.trans ?_
  rw [dlTotalBw_setCurrent]

section

variable {cpu : ℕ} {code : ℤ} (hcur : (k.sched.cpus cpu).current = some pid)
  (h : k.exitCurrent cpu code = .ok k')

include hcur h

/-- The parts of `exit_current`. -/
theorem exit_parts :
    ∃ p k₁ k₂, k.proc? pid = some p ∧ Prepared k pid k₁ ∧
      k₁.dlTotalBw p.sched.homeCpu = k.dlTotalBw p.sched.homeCpu - bandwidth p ∧
      adoptEach (k.reaper pid) (k.life pid).children k₁ = .ok k₂ ∧
      Published (k₂.leaveCgroup pid) pid k' := by
  unfold exitCurrent at h
  rw [hcur] at h
  dsimp only at h
  cases hp : k.proc? pid with
  | none =>
    rw [hp] at h
    cases h
  | some p =>
    rw [hp] at h
    obtain ⟨k₁, hk₁, h⟩ := bind_eq_ok.1 h
    obtain ⟨k₂, hk₂, h⟩ := bind_eq_ok.1 h
    obtain ⟨hprep, hbw⟩ := prepared_of_prepareExit hp hk₁
    have hsome₁ : (k₁.proc? pid).isSome := by
      rw [hprep.isSome, hp]
      rfl
    obtain ⟨p₁, hp₁⟩ := isSome_iff_exists.1 hsome₁
    rw [handleDyingChildren, if_pos hsome₁, newParent_eq hp₁, hprep.reaper, hprep.children] at hk₂
    exact ⟨p, k₁, k₂, rfl, hprep, hbw, hk₂,
      published_of_left hp hprep (adopted_of_adoptEach hk₂) h⟩

/-- **Exit** of the running process. -/
theorem cleanedUp_exit_iff : CleanedUp k pid k' ↔ k.InOwnGroupOnly pid ∧ k.HasLiveReaper pid := by
  obtain ⟨p, k₁, k₂, hp, hprep, hbw₁, hk₂, hpub⟩ := exit_parts hcur h
  have had := adopted_of_adoptEach hk₂
  have hlive : k'.live (k.reaper pid) = (k.live (k.reaper pid) &&
      !(decide (k.reaper pid ∈ (k.life pid).children) && k.doomed (k.reaper pid)) &&
      decide (k.reaper pid ≠ pid)) := by
    rw [hpub.live, live_leaveCgroup, had.live, hprep.live, hprep.doomed]
  have hadopted := adopted_iff_live k pid k'
    (fun q hq => by
      rw [hpub.proc q hq, proc?_leaveCgroup, isSome_congr (had.cgroup q), hprep.isSome])
    rfl (fun c hc hsome => by
      rw [hpub.parent, life_leaveCgroup]
      exact had.parent c hc (by rwa [hprep.isSome]))
    (fun hsome c hc => by
      rw [hpub.children, life_leaveCgroup]
      exact had.children (by rwa [hprep.isSome]) c hc)
    (fun hl => by
      rw [hlive, Bool.and_eq_true, Bool.and_eq_true] at hl
      exact isSome_of_live hl.1.1)
  have hreaper : ((∃ c ∈ (k.life pid).children, c ≠ pid ∧ (k.proc? c).isSome) →
      k'.live (k.reaper pid) = true) ↔ k.HasLiveReaper pid := by
    refine imp_congr_right fun _ => ?_
    rw [hlive]
    rw [Bool.and_eq_true, Bool.and_eq_true, Bool.not_eq_true', Bool.eq_false_iff, Ne,
      Bool.and_eq_true, decide_eq_true_eq, decide_eq_true_eq]
    tauto
  constructor
  · intro hclean
    exact ⟨(detached_iff hprep had hpub).1 hclean.detached,
      hreaper.1 (hadopted.1 hclean.adopted)⟩
  rintro ⟨hgroup, hlives⟩
  refine ⟨(detached_iff hprep had hpub).2 hgroup, uncharged_of_left hprep had hpub, ?_,
    unlocked_of_left hprep had hpub, hadopted.2 (hreaper.2 hlives)⟩
  intro p' hp'
  cases hp.symm.trans hp'
  rw [hpub.bandwidth, dlTotalBw_leaveCgroup, ← hbw₁]
  exact had.bandwidth _

end

/-! ### A kill -/

/-- There is no lock to give up. -/
def NoLocks (k : Kernel) (pid : Pid) : Prop := ∀ inode, ∀ lk ∈ k.locks inode, lk.owner ≠ pid

section

variable (hp : k.proc? pid = some p) (hkill : killable p.state = true) (h : k.sigkill pid = .ok k')

include hp hkill h

/-- The bandwidth after a kill: it is given back by a process that waits for its next period. -/
theorem dlTotalBw_sigkill (c : ℕ) :
    k'.dlTotalBw c = k.dlTotalBw c -
      if p.state = .dlThrottled ∧ c = p.sched.homeCpu then bandwidth p else 0 := by
  unfold sigkill at h
  rw [hp] at h
  cases hs : p.state with
  | stopped =>
    simp only [hs, setState_terminal, ok_bind] at h
    cases h
    by_cases hc : c = p.sched.homeCpu
    · subst hc
      simp [Machine.setRunnable, Machine.setProc, dlTotalBw]
    · simp [Machine.setRunnable, Machine.setProc, dlTotalBw, hc]
  | cgroupThrottled =>
    simp only [hs, setState_terminal, ok_bind] at h
    cases h
    simp
  | dlThrottled =>
    simp only [hs, setState_terminal, ok_bind] at h
    cases h
    rw [dlTotalBw_releaseDlBandwidth]
    simp [bandwidth]
  | _ => simp [hs, killable] at hkill

/-- **A kill** of a process that is stopped or throttled. -/
theorem cleanedUp_sigkill_iff :
    CleanedUp k pid k' ↔ (∀ g, pid ∉ (k.groups g).pids) ∧ k.NothingCharged pid ∧
      (p.state ≠ .dlThrottled → k.NoBandwidth pid) ∧ k.NoLocks pid ∧ k.ChildrenElsewhere pid := by
  have hs := signalled_of_sigkill h
  have hbw := dlTotalBw_sigkill hp hkill h
  have hlive (q : Pid) : k'.live q = (k.live q && decide (q ≠ pid)) := by
    by_cases hq : q = pid
    · subst hq
      rw [hs.live]
      simp [hp, hkill]
    · rw [live_congr (hs.state q hq)]
      simp [hq]
  have hchildren := adopted_iff_elsewhere k pid k'
    (fun q _ => isSome_congr (hs.cgroup q)) hs.parent hs.children hlive
  have hcharged : (∀ cg ∈ k.processCgroup pid, ∀ g ∈ ancestorChain cg, (k'.groups g).memory.current =
      (k.groups g).memory.current - k.processChargedBytes pid) ↔ k.NothingCharged pid := by
    refine forall₄_congr fun cg _ g _ => ?_
    rw [hs.groups]
    omega
  have hreleased : (∀ p ∈ k.proc? pid, k'.dlTotalBw p.sched.homeCpu ≤
      k.dlTotalBw p.sched.homeCpu - bandwidth p) ↔ (p.state ≠ .dlThrottled → k.NoBandwidth pid) := by
    unfold NoBandwidth
    simp only [hp, mem_some_iff, forall_eq', hbw]
    by_cases hdl : p.state = .dlThrottled
    · simp [hdl]
    · simp only [hdl, ne_eq, not_false_eq_true, forall_const, false_and, if_false]
      omega
  constructor
  · intro hclean
    refine ⟨fun g => ?_, hcharged.1 hclean.uncharged, hreleased.1 hclean.released, ?_,
      hchildren.1 hclean.adopted⟩
    · rw [← hs.groups]
      exact hclean.detached g
    · unfold NoLocks
      rw [← hs.locks]
      exact hclean.unlocked
  · rintro ⟨hgroup, hnothing, hnobw, hnolock, helse⟩
    refine ⟨?_, hcharged.2 hnothing, hreleased.2 hnobw, ?_, hchildren.2 helse⟩
    · rw [hs.groups]
      exact hgroup
    · rw [hs.locks]
      exact hnolock

end

end Kernel

namespace Death

open Kernel

/-- What happens before the process itself begins to end: `exit_group` kills its peers. -/
def prelude (k : Kernel) : Death → Except Panic Kernel
  | exitGroup cpu code =>
    match (k.sched.cpus cpu).current with
    | none => .error (.noCurrent "current_pid")
    | some cur => k.killPeers cur code
  | _ => .ok k

/-- The end of the process itself. -/
def finish (k : Kernel) : Death → Except Panic Kernel
  | exit cpu code | exitGroup cpu code => k.exitCurrent cpu code
  | fatalSignal cpu signal => k.terminateCurrentWithSignal cpu signal
  | sigkill target => k.sigkill target

theorem run_eq (k : Kernel) (d : Death) : d.run k = d.prelude k >>= fun k₁ => d.finish k₁ := by
  cases d with
  | exitGroup cpu code =>
    change k.exitGroupCurrent cpu code = _
    rw [exitGroupCurrent, prelude]
    cases (k.sched.cpus cpu).current <;> rfl
  | _ => rfl

/-- The condition under which nothing of the process remains. -/
def Clear (k : Kernel) (pid : Pid) : Death → Prop
  | exit _ _ | exitGroup _ _ => k.InOwnGroupOnly pid ∧ k.HasLiveReaper pid
  | fatalSignal _ _ => k.InOwnGroupOnly pid ∧ k.NoBandwidth pid ∧ k.ChildrenElsewhere pid
  | sigkill _ => (∀ g, pid ∉ (k.groups g).pids) ∧ k.NothingCharged pid ∧
      ((k.proc? pid).map state ≠ some .dlThrottled → k.NoBandwidth pid) ∧ k.NoLocks pid ∧
      k.ChildrenElsewhere pid

/-- What every kill keeps, a row of them keeps. -/
theorem of_sigkillEach {P : Kernel → Prop} {pids : List Pid} {k k' : Kernel}
    (h : sigkillEach pids k = .ok k')
    (hstep : ∀ {k₁ k₂ q}, q ∈ pids → Signalled k₁ q k₂ → P k₁ → P k₂) (hk : P k) : P k' := by
  induction pids generalizing k with
  | nil =>
    cases h
    exact hk
  | cons q pids ih =>
    obtain ⟨k₁, hk₁, h⟩ := bind_eq_ok.1 h
    exact ih h (fun hr => hstep (List.mem_cons_of_mem q hr))
      (hstep List.mem_cons_self (signalled_of_sigkill hk₁) hk)

theorem current_sigkillEach {pids : List Pid} {k k' : Kernel} (h : sigkillEach pids k = .ok k')
    (c : ℕ) : (k'.sched.cpus c).current = (k.sched.cpus c).current :=
  of_sigkillEach (P := fun k₁ => (k₁.sched.cpus c).current = (k.sched.cpus c).current) h
    (fun _ hs hk => (hs.current c).trans hk) rfl

/-- The peers are not the process itself. -/
theorem dying_prelude {d : Death} {k k₁ : Kernel} {pid : Pid} (hpre : d.prelude k = .ok k₁)
    (hdies : d.dying k = some pid) : d.dying k₁ = some pid := by
  cases d with
  | exitGroup cpu code =>
    rw [prelude, show (k.sched.cpus cpu).current = some pid from hdies] at hpre
    have hcur := current_sigkillEach hpre cpu
    have hsched (tgid : Pid) : (if tgid ≠ pid then k.setPendingExit tgid (exited code) else k).sched =
        k.sched := by
      split_ifs
      · exact sched_updateLife _ _ _
      · rfl
    rw [hsched] at hcur
    exact hcur.trans hdies
  | _ =>
    cases hpre
    exact hdies

/-- A process of a fair class. -/
def member (pid : Pid) (state : ProcessState) (owner : SchedOwner) (cgroup : Option Path) : Process :=
  ⟨pid, state, owner, ⟨0, 1, false, 0, .cfs, 0, 1024, 0, 0, 0, 0, false, none⟩, cgroup⟩

/-- The first process, a running process 2 with a child 3, and a stopped process 4.  The processes 2
and 4 have charged a page each to their group, and hold a lock each. -/
def family : Kernel where
  sched := (((((Machine.boot 1 ⟨1, by decide⟩ (fun _ => default) ⟨0, 0, 0, 0, false⟩).setProc 1
    (member 1 .parked (.parked 0) none)).setProc 2
    (member 2 .running (.running 0) (some [1]))).setProc 3
    (member 3 .parked (.parked 0) none)).setProc 4
    (member 4 .stopped .stopped (some [1]))).setCurrent 0 (some 2)
  life := fun pid =>
    if pid = 1 then ⟨1, none, [2, 4], 0, false, none, 0, false⟩
    else if pid = 2 then ⟨2, some 1, [3], 0, false, none, 4096, false⟩
    else if pid = 3 then ⟨3, some 2, [], 0, false, none, 0, false⟩
    else ⟨4, some 1, [], 0, false, none, 4096, false⟩
  groups := fun g =>
    if g = [1] then ⟨{2, 4}, ⟨2, none⟩, ⟨8192, 8192, none, 0, 0⟩⟩
    else if g = [] then ⟨∅, ⟨0, none⟩, ⟨8192, 8192, none, 0, 0⟩⟩ else default
  locks := fun inode => if inode = 7 then [⟨1, 0, 10, 2⟩, ⟨1, 10, 20, 4⟩] else []

end Death

end CypheraKernel.Core
