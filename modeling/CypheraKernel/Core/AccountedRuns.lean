import CypheraKernel.Core.Accounted

/-!
# Runs of charges, forks, migrations and deaths

A process killed while it is stopped or throttled is not uncharged, the process that a migration
moves or another process writes to is not asked whether it lives, and a failed migration charges the
old group anew without a look at its limit.  Where that does no harm, every call keeps what a
control group counts equal to what its live processes have recorded.

`keepsAccounts`: the counts agree in every state of a run.
-/

namespace CypheraKernel.Core.Kernel

open Sched Cgroup Groups Machine Death
open Rust hiding Panic

variable {k k' : Kernel} {pid q : Pid} {p : Process} {cg g : Path} {bytes cpu : ℕ} {pids : List Pid}
  {e : ChargeEnd}

/-! ### New processes -/

/-- The same processes with the same records. -/
theorem sameCharges_of_proc (hproc : ∀ q, k'.proc? q = k.proc? q)
    (hlife : ∀ q, (k.proc? q).isSome →
      (k'.life q).cgroupChargedBytes = (k.life q).cgroupChargedBytes)
    (hcur : ∀ g, (k'.groups g).memory.current = (k.groups g).memory.current) :
    SameCharges k k' where
  current := hcur
  cgroup q := by rw [processCgroup, hproc, processCgroup]
  bytes q := by grind [processChargedBytes]
  live q := .inl (by rw [live, hproc, live])

theorem memory_attachPid {gs gs' : Groups} (h : gs.attachPid cg pid = .ok gs') (g : Path) :
    (gs' g).memory = (gs g).memory := by
  unfold attachPid at h
  dsimp only at h
  split_ifs at h
  cases h
  by_cases hg : g = cg
  · subst hg
    simp
  · simp [hg]

theorem memory_attachOrKeep (gs : Groups) (cg : Path) (pid : Pid) (g : Path) :
    (attachOrKeep gs cg pid g).memory = (gs g).memory := by
  unfold attachOrKeep
  cases h : gs.attachPid cg pid with
  | ok gs' => exact memory_attachPid h g
  | error e => rfl

section Fork

variable {parent child : Pid}

theorem proc?_enterChild_of_ne (hq : q ≠ child) :
    (k.enterChild parent child p).proc? q = k.proc? q := by
  rw [enterChild, proc?_updateLife]
  exact proc?_setProc_of_ne _ hq _

section

variable (hparent : k.proc? parent = some p) (hchild : k.proc? child = none)

include hparent hchild

theorem life_enterChild :
    ((k.enterChild parent child p).life q).cgroupChargedBytes =
      if q = child then 0 else (k.life q).cgroupChargedBytes := by
  rw [enterChild, life_updateLife]
  aesop

/-- The child has charged nothing. -/
theorem Accounted.enterChild (h : k.Accounted) : (k.enterChild parent child p).Accounted := by
  refine h.congr (fun q g => ?_) fun g => by rw [Kernel.enterChild, groups_updateLife]
  by_cases hq : q = child
  · subst hq
    have hnone : k.processCgroup q = none := by
      rw [processCgroup, hchild]
      rfl
    rw [share_of_uncharged (k := k) (.inl hnone), share_of_uncharged]
    refine .inr ?_
    simp_all [processChargedBytes, life_enterChild]
  grind [share_congr, live, proc?_enterChild_of_ne, processCgroup, processChargedBytes,
    life_enterChild]

/-- A child that its group refuses leaves nothing behind. -/
theorem sameCharges_refusedChild
    (f : Life → Life) (hf : ∀ l, (f l).cgroupChargedBytes = l.cgroupChargedBytes) :
    SameCharges k (((k.enterChild parent child p).reap child).updateLife parent f) := by
  refine SameCharges.trans ?_ (sameCharges_updateLife f hf)
  refine sameCharges_of_proc (fun q => ?_) (fun q hq => ?_) fun g => ?_
  · by_cases hq : q = child
    · subst hq
      rw [proc?_reap_self, hchild]
    · rw [proc?_reap_of_ne _ hq, proc?_enterChild_of_ne hq]
  · have hne : q ≠ child := by
      rintro rfl
      rw [hchild] at hq
      cases hq
    exact (life_enterChild hparent hchild).trans (if_neg hne)
  · change ((k.enterChild parent child p).groups g).memory.current = _
    rw [enterChild, groups_updateLife]

end

theorem Accounted.forkCurrent (h : k.Accounted) (cpu : ℕ) (child : Pid) (shareVmspace : Bool) :
    (k.forkCurrent cpu child shareVmspace).Accounted := by
  unfold Kernel.forkCurrent
  split
  · exact h
  split
  · rename_i p hparent hchild
    have hentered := h.enterChild hparent hchild
    dsimp only
    split
    · exact hentered.congr (fun _ _ => rfl) fun _ => rfl
    split
    · rename_i gs hattach
      refine hentered.congr (fun _ _ => rfl) fun g => ?_
      rw [memory_attachPid hattach]
    · grind [SameCharges.accounted, sameCharges_refusedChild]
  · exact h

end Fork

/-! ### Migration -/

/-- A migration moves a live process and overflows no counter; and the group that the process leaves
could take it back. -/
structure MigrateClear (k : Kernel) (pid : Pid) (old target : Path) : Prop where
  live : k.live pid = true
  small : ∀ g ∈ ancestorChain target,
    (k.groups g).memory.current + k.processChargedBytes pid < usizeBound
  back : ∀ g ∈ ancestorChain old, ∀ max ∈ (k.groups g).memory.max,
    (k.groups g).memory.current ≤ max

section Migrate

variable {old target : Path} {gs : Groups}

theorem proc?_setProcessCgroup_of_ne (m : Machine) (target : Path) (hq : q ≠ pid) :
    (m.setProcessCgroup pid target).proc? q = m.proc? q := by
  unfold setProcessCgroup
  split
  · rfl
  · exact Machine.proc?_setProc_of_ne _ hq _

theorem proc?_setProcessCgroup_self {m : Machine} (hp : m.proc? pid = some p) :
    (m.setProcessCgroup pid target).proc? pid = some { p with cgroup := some target } := by
  unfold setProcessCgroup
  rw [hp]
  exact Machine.proc?_setProc_self _ _ _

theorem share_setProcessCgroup_of_ne (hq : q ≠ pid) (g : Path) :
    ({ k with groups := gs, sched := k.sched.setProcessCgroup pid target } : Kernel).share q g =
      k.share q g := by
  grind [proc?_setProcessCgroup_of_ne, share_congr, live, proc?, processCgroup, processChargedBytes]

theorem processChargedBytes_setProcessCgroup (hp : k.proc? pid = some p) :
    ({ k with groups := gs, sched := k.sched.setProcessCgroup pid target } :
      Kernel).processChargedBytes pid = k.processChargedBytes pid := by
  simp_all [processChargedBytes, proc?, proc?_setProcessCgroup_self]

/-- A process that has charged nothing moves. -/
theorem Accounted.migrate_zero (h : k.Accounted) (hp : k.proc? pid = some p)
    (hzero : k.processChargedBytes pid = 0)
    (hgs : ∀ g, (gs g).memory.current = (k.groups g).memory.current) :
    ({ k with groups := gs, sched := k.sched.setProcessCgroup pid target } : Kernel).Accounted := by
  refine h.congr (fun q g => ?_) hgs
  by_cases hq : q = pid
  · subst hq
    rw [share_of_uncharged (k := k) (.inr hzero), share_of_uncharged]
    exact .inr ((processChargedBytes_setProcessCgroup hp).trans hzero)
  · exact share_setProcessCgroup_of_ne hq g

/-- The charge moves with the process. -/
theorem Accounted.migrate (h : k.Accounted) (hlive : k.live pid = true)
    (hold : k.processCgroup pid = some old)
    (hgs : ∀ g, (gs g).memory.current =
      ((k.groups g).memory.current -
        if g ∈ ancestorChain old then k.processChargedBytes pid else 0) +
          if g ∈ ancestorChain target then k.processChargedBytes pid else 0)
    (hword : ∀ g, (gs g).memory.current < usizeBound) :
    ({ k with groups := gs, sched := k.sched.setProcessCgroup pid target } : Kernel).Accounted := by
  let k' : Kernel := { k with groups := gs, sched := k.sched.setProcessCgroup pid target }
  obtain ⟨p, hp⟩ := Option.isSome_iff_exists.1 (isSome_of_live hlive)
  have hp' : k'.proc? pid = some { p with cgroup := some target } := proc?_setProcessCgroup_self hp
  have hlive' : k'.live pid = true := by grind [live]
  have hcg' : k'.processCgroup pid = some target := by
    rw [processCgroup, hp']
    rfl
  refine h.change pid (fun q hq g => share_setProcessCgroup_of_ne hq g) (fun g => ?_) hword
  have hle := h.share_le pid g
  grind [share_of_live, processChargedBytes_setProcessCgroup]

section

variable {charged : ℕ} (g : Path)
  (hsmall : ∀ g ∈ ancestorChain target, (gs g).memory.current + charged < usizeBound)

include hsmall

/-- The counters after a charge has moved. -/
theorem current_move
    (hok : ((gs.unchargeMemory old charged).tryChargeMemory target charged).1 = .ok ()) :
    (((gs.unchargeMemory old charged).tryChargeMemory target charged).2 g).memory.current =
      ((gs g).memory.current - if g ∈ ancestorChain old then charged else 0) +
        if g ∈ ancestorChain target then charged else 0 := by
  rw [current_tryChargeMemory hok, current_unchargeMemory]
  by_cases hg : g ∈ ancestorChain target
  · have hlt := hsmall g hg
    rw [if_pos hg, if_pos hg, saturatingAddU64_of_lt (by omega)]
  · rw [if_neg hg, if_neg hg, Nat.add_zero]

/-- The group that the process was to leave takes back what it has given up. -/
theorem current_rollback (hword : ∀ g, (gs g).memory.current < usizeBound)
    (hle : ∀ g ∈ ancestorChain old, charged ≤ (gs g).memory.current)
    (hback : ∀ g ∈ ancestorChain old, ∀ max ∈ (gs g).memory.max, (gs g).memory.current ≤ max)
    (herr : ((gs.unchargeMemory old charged).tryChargeMemory target charged).1 ≠ .ok ()) :
    ((((gs.unchargeMemory old charged).tryChargeMemory target charged).2.tryChargeMemory old
      charged).2 g).memory.current = (gs g).memory.current := by
  generalize hgs₂ : ((gs.unchargeMemory old charged).tryChargeMemory target charged).2 = gs₂
  have hcur (c : Path) : (gs₂ c).memory.current =
      (gs c).memory.current - if c ∈ ancestorChain old then charged else 0 := by
    rw [← hgs₂, current_tryChargeMemory_error herr, current_unchargeMemory]
    intro c hc
    have hlt := hsmall c hc
    rw [current_unchargeMemory]
    omega
  have hmax (c : Path) : (gs₂ c).memory.max = (gs c).memory.max := by
    rw [← hgs₂, (sameLimits_tryChargeMemory _ _ _).max,
      (sameLimits_unchargeMemory _ _ _).max]
  -- on the way up from the old group, every counter comes to what it was
  have hsum (c : Path) (hc : c ∈ ancestorChain old) :
      saturatingAddU64 (gs₂ c).memory.current charged = (gs c).memory.current := by
    have hlt := hword c
    have hlec := hle c hc
    rw [hcur, if_pos hc, saturatingAddU64_of_lt (by omega)]
    omega
  have hok : (gs₂.tryChargeMemory old charged).1 = .ok () := by
    rw [tryChargeMemory_fst]
    intro c hc max hm
    rw [hmax] at hm
    rw [hsum c hc]
    exact hback c hc max hm
  simp_all [current_tryChargeMemory]

end

theorem Accounted.migratePid (h : k.Accounted)
    (hclear : ∀ old ∈ k.processCgroup pid, old ≠ target → 0 < k.processChargedBytes pid →
      k.MigrateClear pid old target) : (k.migratePid pid target).2.Accounted := by
  unfold Kernel.migratePid
  cases hold : k.processCgroup pid with
  | none => exact h
  | some old =>
    dsimp only
    by_cases heq : old = target
    · rwa [if_pos heq]
    rw [if_neg heq]
    cases hattach : (k.groups.detachPid old pid).attachPid target pid with
    | error e =>
      refine h.congr (fun _ _ => rfl) fun g => ?_
      rw [memory_attachOrKeep, current_detachPid]
    | ok gs =>
      have hgs (g : Path) : (gs g).memory = (k.groups g).memory := by
        rw [memory_attachPid hattach, current_detachPid]
      dsimp only
      by_cases hpos : k.processChargedBytes pid > 0
      · rw [if_pos hpos]
        obtain ⟨hlive, hsmall, hback⟩ := hclear old hold heq hpos
        have hsmall' : ∀ g ∈ ancestorChain target,
            (gs g).memory.current + k.processChargedBytes pid < usizeBound := by
          intro g hg
          rw [hgs]
          exact hsmall g hg
        cases hr : ((gs.unchargeMemory old (k.processChargedBytes pid)).tryChargeMemory target
            (k.processChargedBytes pid)).1 with
        | ok u =>
          have hmove (g : Path) := current_move g hsmall' hr
          refine h.migrate hlive hold (fun g => ?_) fun g => ?_
          · rw [hmove, hgs]
          have hlt := h.word g
          rw [hmove, hgs]
          split_ifs with hg hg'
          all_goals first
            | exact (Nat.add_le_add_right (Nat.sub_le _ _) _).trans_lt (hsmall g ‹_›)
            | omega
        | error e =>
          refine h.congr (fun _ _ => rfl) fun g => ?_
          rw [memory_attachOrKeep, current_detachPid, ← hgs]
          refine current_rollback g hsmall' (fun c => ?_) (fun c hc => ?_) (fun c hc max hm => ?_) ?_
          · rw [hgs]
            exact h.word c
          · have hle := h.share_le pid c
            rwa [share_of_live hlive hold, if_pos hc, ← hgs] at hle
          · grind
          · rw [hr]
            exact nofun
      · rw [if_neg hpos]
        have hp : (k.proc? pid).isSome := by
          cases hp : k.proc? pid with
          | none => simp [processCgroup, hp] at hold
          | some p => rfl
        obtain ⟨p, hp⟩ := Option.isSome_iff_exists.1 hp
        refine h.migrate_zero hp (by omega) fun g => ?_
        rw [hgs]

end Migrate

/-! ### Faults and writes -/

/-- A charge to the group overflows no counter; and if it is refused, the kill that follows ends no
process that is counted. -/
structure ChargeClear (k : Kernel) (cg : Path) (bytes : ℕ) : Prop where
  small : ∀ g ∈ ancestorChain cg, (k.groups g).memory.current + bytes < usizeBound
  killed : (∃ g ∈ ancestorChain cg, ¬ k.groups.Takes bytes g) →
    ∀ q ∈ (k.groups cg).pids, k.KilledFree q

/-- A charge is refused, and a process of the group is killed. -/
theorem Accounted.refused (h : k.Accounted) (hclear : k.ChargeClear cg bytes)
    {err : Errno} (herr : (k.groups.tryChargeMemory cg bytes).1 = .error err)
    (hk' : ({ k with groups := (k.groups.tryChargeMemory cg bytes).2 } : Kernel).oomKillOne cg =
      .ok k') : k'.Accounted := by
  have hne : (k.groups.tryChargeMemory cg bytes).1 ≠ .ok () := by
    rw [herr]
    rintro ⟨⟩
  have hsame : SameCharges k { k with groups := (k.groups.tryChargeMemory cg bytes).2 } :=
    ⟨current_tryChargeMemory_error hne hclear.small, fun _ => rfl, fun _ => rfl, fun _ => .inl rfl⟩
  have hrefuses : ∃ g ∈ ancestorChain cg, ¬ k.groups.Takes bytes g := by
    rw [ne_eq, tryChargeMemory_fst] at hne
    push Not at hne
    exact hne
  refine (hsame.trans (sameCharges_oomKillOne (fun q hq => ?_) hk')).accounted h
  rw [(sameLimits_tryChargeMemory _ _ _).pids] at hq
  exact KilledFree.congr hsame rfl (hclear.killed hrefuses q hq)

theorem Accounted.pageCharge (h : k.Accounted) (hcur : (k.sched.cpus cpu).current = some pid)
    (hlive : k.live pid = true) (hclear : ∀ cg ∈ k.processCgroup pid, k.ChargeClear cg pageSize)
    (hk' : k.pageCharge cpu e = .ok k') : k'.Accounted := by
  have hcg₀ : k.currentCgroup cpu = k.processCgroup pid := by
    rw [currentCgroup, hcur]
    rfl
  unfold Kernel.pageCharge at hk'
  rw [hcg₀] at hk'
  cases hcg : k.processCgroup pid with
  | none =>
    rw [hcg] at hk'
    cases hk'
    have hkept : (k.addCgroupCharge cpu pageSize).Accounted := by
      rw [addCgroupCharge, hcur]
      exact h.updateLife_of_none hcg _
    cases e with
    | dropped => exact h
    | kept => exact hkept
    | released =>
      rw [addCgroupCharge, hcur] at hkept
      change ((k.addCgroupCharge cpu pageSize).subCgroupCharge cpu pageSize).Accounted
      rw [addCgroupCharge, hcur]
      refine hkept.subCgroupCharge ?_ ((live_updateLife _ _ _ _).trans hlive) pageSize
      dsimp only
      rw [Kernel.recordCharge, sched_updateLife]
      exact hcur
  | some cg =>
    rw [hcg] at hk'
    have hclear := hclear cg hcg
    dsimp only at hk'
    cases hr : (k.groups.tryChargeMemory cg pageSize).1 with
    | error err =>
      rw [hr] at hk'
      exact h.refused hclear hr hk'
    | ok u =>
      rw [hr] at hk'
      cases hk'
      let k₁ : Kernel := { k with groups := (k.groups.tryChargeMemory cg pageSize).2 }
      have hadd : k₁.addCgroupCharge cpu pageSize = k₁.recordCharge pid pageSize := by
        grind [addCgroupCharge]
      have hkept : (k₁.recordCharge pid pageSize).Accounted :=
        h.recordCharge hlive hcg hclear.small hr
      cases e with
      | dropped => exact (sameCharges_uncharge_charge hclear.small hr).accounted h
      | kept =>
        change (k₁.addCgroupCharge cpu pageSize).Accounted
        rwa [hadd]
      | released =>
        change ((k₁.addCgroupCharge cpu pageSize).subCgroupCharge cpu pageSize).Accounted
        rw [hadd]
        refine hkept.subCgroupCharge ?_ ((live_updateLife _ _ _ _).trans hlive) pageSize
        rw [Kernel.recordCharge, sched_updateLife]
        exact hcur

theorem Accounted.chargeProcessMemory (h : k.Accounted)
    (hclear : 0 < bytes → ∀ cg ∈ k.processCgroup pid, k.live pid = true ∧ k.ChargeClear cg bytes)
    (hk' : k.chargeProcessMemory pid bytes = .ok k') : k'.Accounted := by
  unfold Kernel.chargeProcessMemory at hk'
  split_ifs at hk' with hzero
  · cases hk'
    exact h
  cases hp : k.proc? pid with
  | none =>
    rw [hp] at hk'
    cases hk'
    exact h
  | some p =>
    have hcg₀ : k.processCgroup pid = p.cgroup := by
      rw [processCgroup, hp]
      rfl
    rw [hp] at hk'
    dsimp only at hk'
    cases hcg : p.cgroup with
    | none =>
      rw [hcg] at hk'
      cases hk'
      exact h.updateLife_of_none (hcg₀.trans hcg) _
    | some cg =>
      obtain ⟨hlive, hclear⟩ := hclear (Nat.pos_of_ne_zero hzero) cg (hcg₀.trans hcg)
      rw [hcg] at hk'
      dsimp only at hk'
      cases hr : (k.groups.tryChargeMemory cg bytes).1 with
      | error err =>
        rw [hr] at hk'
        exact h.refused hclear hr hk'
      | ok u =>
        rw [hr] at hk'
        cases hk'
        exact h.recordCharge hlive (hcg₀.trans hcg) hclear.small hr

/-! ### Deaths and the scheduler -/

/-- The condition for a death.  A process that a fatal signal ends leaves its children alone. -/
def DeathClear (k : Kernel) : Death → Prop
  | .exit cpu _ => ∀ pid ∈ (k.sched.cpus cpu).current, k.ChildrenFree (k.life pid).children
  | .exitGroup cpu _ => ∀ pid ∈ (k.sched.cpus cpu).current,
      k.ChildrenFree (k.life pid).children ∧
        ∀ q ∈ k.livePeers (k.life pid).tgid pid, k.KilledFree q
  | .fatalSignal _ _ => True
  | .sigkill target => k.KilledFree target

theorem exists_running (h : k.running cpu = true) :
    ∃ pid, (k.sched.cpus cpu).current = some pid ∧ k.live pid = true := by
  unfold running at h
  cases hcur : (k.sched.cpus cpu).current with
  | none => simp [hcur] at h
  | some pid => exact ⟨pid, rfl, by simpa [hcur] using h⟩

theorem sigkillEach_keeps (h : sigkillEach pids k = .ok k') :
    (∀ q, (k'.life q).marked = (k.life q).marked) ∧ ∀ q, k.KilledFree q → k'.KilledFree q := by
  refine of_sigkillEach (P := fun k₁ => (∀ q, (k₁.life q).marked = (k.life q).marked) ∧
    ∀ q, k.KilledFree q → k₁.KilledFree q) h (fun _ hs hk => ⟨fun q => ?_, fun q hq => ?_⟩)
    ⟨fun _ => rfl, fun _ hq => hq⟩
  · exact (hs.life q).trans (hk.1 q)
  · exact hs.killedFree (hk.2 q hq)

theorem Accounted.death {d : Death} (h : k.Accounted) (hcan : k.canEnd d = true)
    (hclear : k.DeathClear d) (hk' : d.run k = .ok k') : k'.Accounted := by
  cases d with
  | exit cpu code =>
    obtain ⟨pid, hcur, hlive⟩ := exists_running hcan
    exact h.exitCurrent hcur (.inl hlive) (hclear pid hcur) hk'
  | fatalSignal cpu signal =>
    obtain ⟨pid, hcur, hlive⟩ := exists_running hcan
    exact h.terminateCurrentWithSignal hcur hlive hk'
  | sigkill target => exact ((signalled_of_sigkill hk').sameCharges hclear).accounted h
  | exitGroup cpu code =>
    obtain ⟨pid, hcur, hlive⟩ := exists_running hcan
    obtain ⟨hcs, hpeers⟩ := hclear pid hcur
    change k.exitGroupCurrent cpu code = .ok k' at hk'
    unfold exitGroupCurrent at hk'
    rw [hcur] at hk'
    obtain ⟨k₁, hk₁, hk'⟩ := bind_eq_ok.1 hk'
    rw [killPeers, if_pos (isSome_of_live hlive)] at hk₁
    generalize htgid : (k.life pid).tgid = tgid at hk₁ hpeers
    -- the leader is told how it ends
    generalize hk₀ : (if tgid ≠ pid then k.setPendingExit tgid (exited code) else k) = k₀ at hk₁
    obtain ⟨hsame, hsched, hlife⟩ : SameCharges k k₀ ∧ k₀.sched = k.sched ∧
        ∀ q, Life.untold (k₀.life q) = Life.untold (k.life q) := by
      subst hk₀
      split_ifs
      · refine ⟨sameCharges_updateLife _ fun _ => rfl, sched_updateLife _ _ _, fun q => ?_⟩
        rw [setPendingExit, life_updateLife]
        split_ifs <;> rfl
      · exact ⟨SameCharges.refl k, rfl, fun _ => rfl⟩
    have hstate (q : Pid) : (k₀.proc? q).map Process.state = (k.proc? q).map Process.state := by
      rw [proc?, hsched, proc?]
    have hsame₁ := sameCharges_sigkillEach (fun q hq => (hpeers q hq).congr hsame (hstate q)) hk₁
    obtain ⟨hmarked, hfree⟩ := sigkillEach_keeps hk₁
    have hcur₁ : (k₁.sched.cpus cpu).current = some pid := by
      rw [current_sigkillEach hk₁, hsched, hcur]
    -- what the lives tell of the children is the same
    have hchildren : (k₁.life pid).children = (k.life pid).children := by
      have hchildren₁ := congrArg Life.children (hmarked pid)
      exact Eq.trans hchildren₁ (congrArg Life.children (hlife pid) :)
    have hsig (c : Pid) : (k₁.life c).pdeathsig = (k.life c).pdeathsig := by
      have hsig₁ := congrArg Life.pdeathsig (hmarked c)
      exact Eq.trans hsig₁ (congrArg Life.pdeathsig (hlife c) :)
    have hall := hsame.trans hsame₁
    refine (hall.accounted h).exitCurrent hcur₁ (hall.live_or (.inl hlive)) ?_ hk'
    rw [hchildren]
    intro c hc hkill
    rw [hsig] at hkill
    exact hfree c ((hcs c hc hkill).congr hsame (hstate c))

/-- A process that has ended leaves the table. -/
theorem Accounted.reap (h : k.Accounted) (hdead : k.live pid = false) : (k.reap pid).Accounted := by
  refine h.congr (fun q g => ?_) fun _ => rfl
  by_cases hq : q = pid
  · simp_all [share_of_not_live, live]
  refine share_congr ?_ ?_ ?_ g
  · rw [live, proc?_reap_of_ne _ hq, live]
  · rw [processCgroup, proc?_reap_of_ne _ hq, processCgroup]
  · rw [processChargedBytes, proc?_reap_of_ne _ hq, processChargedBytes]
    rfl

theorem sameCharges_setState {state : ProcessState} (hp : k.proc? pid = some p)
    (hstate : stateIsTerminal p.state = false) (hstate' : stateIsTerminal state = false) :
    SameCharges k (k.setProc pid { p with state := state }) := by
  refine ⟨fun _ => rfl, fun q => ?_, fun q => ?_, fun q => .inl ?_⟩ <;> by_cases hq : q = pid
  · subst hq
    rw [processCgroup, processCgroup, proc?_setProc_self, hp]
    rfl
  · rw [processCgroup, proc?_setProc_of_ne k hq, processCgroup]
  · subst hq
    rw [processChargedBytes, processChargedBytes, proc?_setProc_self, hp]
    rfl
  · rw [processChargedBytes, proc?_setProc_of_ne k hq, processChargedBytes]
    rfl
  · subst hq
    simp [live, hp, hstate, hstate']
  · rw [live, proc?_setProc_of_ne k hq, live]

/-! ### Limits -/

/-- The limits are the same, and a counter that has grown is within its limit. -/
structure Respects (gs gs' : Groups) : Prop where
  max : ∀ g, (gs' g).memory.max = (gs g).memory.max
  within : ∀ g, (gs g).memory.current < (gs' g).memory.current →
    ∀ max ∈ (gs' g).memory.max, (gs' g).memory.current ≤ max

namespace Respects

variable {gs gs' gs'' : Groups}

theorem of_le (hmax : ∀ g, (gs' g).memory.max = (gs g).memory.max)
    (hle : ∀ g, (gs' g).memory.current ≤ (gs g).memory.current) : Respects gs gs' :=
  ⟨hmax, fun g hlt => absurd hlt (Nat.not_lt.2 (hle g))⟩

theorem of_memory (h : ∀ g, (gs' g).memory = (gs g).memory) : Respects gs gs' :=
  of_le (fun g => by rw [h]) fun g => by rw [h]

theorem refl (gs : Groups) : Respects gs gs := of_memory fun _ => rfl

theorem trans (h : Respects gs gs') (h' : Respects gs' gs'') : Respects gs gs'' where
  max g := (h'.max g).trans (h.max g)
  within g hlt max hmax := by
    rcases Nat.lt_or_ge (gs' g).memory.current (gs'' g).memory.current with hgrown | hle
    · exact h'.within g hgrown max hmax
    · rw [h'.max g] at hmax
      exact hle.trans (h.within g (hlt.trans_le hle) max hmax)

theorem unchargeMemory (gs : Groups) (cg : Path) (bytes : ℕ) :
    Respects gs (gs.unchargeMemory cg bytes) := by
  refine of_le (sameLimits_unchargeMemory gs cg bytes).max fun g => ?_
  rw [current_unchargeMemory]
  exact Nat.sub_le _ _

/-- A charge that succeeds was within all limits, and one that is refused lets no counter grow. -/
theorem tryChargeMemory (gs : Groups) (cg : Path) (bytes : ℕ) :
    Respects gs (gs.tryChargeMemory cg bytes).2 := by
  refine ⟨(sameLimits_tryChargeMemory gs cg bytes).max, fun g hlt max hmax => ?_⟩
  rw [(sameLimits_tryChargeMemory gs cg bytes).max] at hmax
  rw [(tryChargeMemory_spec gs cg bytes).2.2 g] at hlt ⊢
  split_ifs at hlt ⊢ with htakes hg hg
  · exact htakes g hg max hmax
  · exact absurd hlt (lt_irrefl _)
  · unfold saturatingAddU64 at hlt
    omega
  · exact absurd hlt (lt_irrefl _)

theorem detachPid (gs : Groups) (cg : Path) (pid : Pid) : Respects gs (gs.detachPid cg pid) :=
  of_memory (current_detachPid gs cg pid)

theorem attachPid (h : gs.attachPid cg pid = .ok gs') : Respects gs gs' :=
  of_memory (memory_attachPid h)

theorem attachOrKeep (gs : Groups) (cg : Path) (pid : Pid) :
    Respects gs (attachOrKeep gs cg pid) := of_memory (memory_attachOrKeep gs cg pid)

end Respects

theorem respects_oomKillOne (h : k.oomKillOne cg = .ok k') : Respects k.groups k'.groups := by
  unfold oomKillOne at h
  split at h
  · cases h
    exact .refl _
  rw [(signalled_of_sigkill h).groups]
  exact .of_le (sameLimits_setMemory (by rfl)).max fun g => le_of_eq (current_setMemory (by rfl) g)

theorem groups_addCgroupCharge (k : Kernel) (cpu bytes : ℕ) :
    (k.addCgroupCharge cpu bytes).groups = k.groups := by
  unfold addCgroupCharge
  split
  · rfl
  · exact groups_updateLife _ _ _

theorem respects_subCgroupCharge (k : Kernel) (cpu bytes : ℕ) :
    Respects k.groups (k.subCgroupCharge cpu bytes).groups := by
  grind [subCgroupCharge, Respects.refl, groups_updateLife, Respects.unchargeMemory]

theorem respects_endCharge (k : Kernel) (cpu : ℕ) (cg : Option Path) (e : ChargeEnd) :
    Respects k.groups (k.endCharge cpu cg e).groups := by
  cases e with
  | dropped =>
    cases cg with
    | none => exact .refl _
    | some cg => exact Respects.unchargeMemory _ _ _
  | kept =>
    change Respects k.groups (k.addCgroupCharge cpu pageSize).groups
    rw [groups_addCgroupCharge]
    exact .refl _
  | released =>
    have hsub := respects_subCgroupCharge (k.addCgroupCharge cpu pageSize) cpu pageSize
    rwa [groups_addCgroupCharge] at hsub

theorem respects_pageCharge (h : k.pageCharge cpu e = .ok k') : Respects k.groups k'.groups := by
  unfold pageCharge at h
  split at h
  · grind [respects_endCharge]
  rename_i cg _
  refine (Respects.tryChargeMemory k.groups cg pageSize).trans ?_
  dsimp only at h
  split at h
  · exact respects_oomKillOne h
  · cases h
    exact respects_endCharge { k with groups := _ } cpu (some cg) e

theorem respects_chargeProcessMemory (h : k.chargeProcessMemory pid bytes = .ok k') :
    Respects k.groups k'.groups := by
  unfold chargeProcessMemory at h
  split_ifs at h
  · cases h
    exact .refl _
  split at h
  · cases h
    exact .refl _
  split at h
  · grind [recordCharge, groups_updateLife, Respects.refl]
  rename_i cg _
  refine (Respects.tryChargeMemory k.groups cg bytes).trans ?_
  dsimp only at h
  split at h
  · exact respects_oomKillOne h
  · grind [recordCharge, groups_updateLife, Respects.refl]

theorem respects_forkCurrent (k : Kernel) (cpu : ℕ) (child : Pid) (shareVmspace : Bool) :
    Respects k.groups (k.forkCurrent cpu child shareVmspace).groups := by
  have hentered (parent : Pid) (p : Process) : (k.enterChild parent child p).groups = k.groups :=
    groups_updateLife _ _ _
  unfold forkCurrent
  split
  · exact .refl _
  split
  · dsimp only
    split
    · rw [hentered]
      exact .refl _
    split
    · grind [Respects.attachPid]
    · rw [groups_updateLife]
      change Respects k.groups (k.enterChild _ child _).groups
      rw [hentered]
      exact .refl _
  · exact .refl _

theorem respects_migratePid (k : Kernel) (pid : Pid) (target : Path) :
    Respects k.groups (k.migratePid pid target).2.groups := by
  unfold migratePid
  split
  · exact .refl _
  rename_i old _
  split_ifs
  · exact .refl _
  have hdetach := Respects.detachPid k.groups old pid
  dsimp only
  split
  · exact hdetach.trans (Respects.attachOrKeep _ old pid)
  rename_i gs hattach
  have hattached := hdetach.trans (Respects.attachPid hattach)
  split_ifs
  · let charged := k.processChargedBytes pid
    have hmoved := (hattached.trans (Respects.unchargeMemory gs old charged)).trans
      (Respects.tryChargeMemory _ target charged)
    split
    · refine (hmoved.trans (Respects.tryChargeMemory _ old charged)).trans ?_
      exact (Respects.detachPid _ target pid).trans (Respects.attachOrKeep _ old pid)
    · exact hmoved
  · exact hattached

theorem respects_leaveCgroup (k : Kernel) (pid : Pid) :
    Respects k.groups (k.leaveCgroup pid).groups := by
  cases hcg : k.processCgroup pid with
  | none =>
    rw [leaveCgroup_of_none hcg]
    exact .refl _
  | some cg =>
    rw [groups_leaveCgroup hcg]
    exact (Respects.unchargeMemory _ cg _).trans (Respects.detachPid _ cg pid)

/-- What the end of a process does to the groups. -/
theorem respects_left {k₂ : Kernel} (hgroups : k₂.groups = k.groups)
    (hpub : Published (k₂.leaveCgroup pid) pid k') : Respects k.groups k'.groups := by
  rw [← hgroups, hpub.groups]
  exact respects_leaveCgroup k₂ pid

theorem respects_exitCurrent {code : ℤ} (h : k.exitCurrent cpu code = .ok k') :
    Respects k.groups k'.groups := by
  cases hcur : (k.sched.cpus cpu).current with
  | none => simp [exitCurrent, hcur] at h
  | some cur =>
    obtain ⟨p, k₁, k₂, -, hprep, -, hk₂, hpub⟩ := exit_parts hcur h
    exact respects_left ((adopted_of_adoptEach hk₂).groups.trans hprep.groups) hpub

theorem respects_terminateCurrentWithSignal {signal : ℕ}
    (h : k.terminateCurrentWithSignal cpu signal = .ok k') : Respects k.groups k'.groups := by
  cases hcur : (k.sched.cpus cpu).current with
  | none => simp [terminateCurrentWithSignal, hcur] at h
  | some cur =>
    obtain ⟨hprep, hpub⟩ := terminate_parts hcur h
    exact respects_left hprep.groups hpub

theorem groups_sigkillEach (h : sigkillEach pids k = .ok k') : k'.groups = k.groups :=
  of_sigkillEach (P := (·.groups = k.groups)) h (fun _ hs hk => hs.groups.trans hk) rfl

theorem groups_killPeers {code : ℤ} (h : k.killPeers pid code = .ok k') : k'.groups = k.groups := by
  have htold (tgid : Pid) : (if tgid ≠ pid then k.setPendingExit tgid (exited code) else k).groups =
      k.groups := by
    split_ifs
    · exact groups_updateLife _ _ _
    · rfl
  exact (groups_sigkillEach h).trans (htold _)

theorem respects_death {d : Death} (h : d.run k = .ok k') : Respects k.groups k'.groups := by
  cases d with
  | exit cpu code => exact respects_exitCurrent h
  | fatalSignal cpu signal => exact respects_terminateCurrentWithSignal h
  | sigkill target =>
    rw [(signalled_of_sigkill h).groups]
    exact .refl _
  | exitGroup cpu code =>
    change k.exitGroupCurrent cpu code = .ok k' at h
    unfold exitGroupCurrent at h
    split at h
    · cases h
    obtain ⟨k₁, hk₁, h⟩ := bind_eq_ok.1 h
    have hexit := respects_exitCurrent h
    rwa [groups_killPeers hk₁] at hexit

/-! ### Runs -/

/-- The condition under which a step keeps the counts equal. -/
def Op.Clear (k : Kernel) : Op → Prop
  | .fault cpu _ => ∀ cg ∈ k.currentCgroup cpu, k.ChargeClear cg pageSize
  | .protect cpu copied =>
    0 < copied → ∀ cg ∈ k.currentCgroup cpu, k.ChargeClear cg (copied * pageSize)
  | .remoteWrite pid pages => 0 < pages →
      ∀ cg ∈ k.processCgroup pid, k.live pid = true ∧ k.ChargeClear cg (pages * pageSize)
  | .migrate pid target => ∀ old ∈ k.processCgroup pid, old ≠ target →
      0 < k.processChargedBytes pid → k.MigrateClear pid old target
  | .death d => k.DeathClear d
  | .unmap _ _ | .fork _ _ _ | .writeMemoryMax _ _ => True
  | .dispatch _ _ | .changeState _ _ | .reap _ => True

/-- Every step of the run meets the condition. -/
def ClearRun : List Op → Kernel → Prop
  | [], _ => True
  | op :: ops, k => op.Clear k ∧
    match k.step op with
    | .ok k' => ClearRun ops k'
    | .error _ => True

/-- A group that has been charged is within its limit. -/
def WithinLimits (k k' : Kernel) : Prop :=
  ∀ g, (k.groups g).memory.current < (k'.groups g).memory.current →
    ∀ max ∈ (k'.groups g).memory.max, (k'.groups g).memory.current ≤ max

/-- The counts agree in every state of the run, and no step charges a group over its limit. -/
def KeepsAccounts : List Op → Kernel → Prop
  | [], k => k.Accounted
  | op :: ops, k => k.Accounted ∧
    match k.step op with
    | .ok k' => k.WithinLimits k' ∧ KeepsAccounts ops k'
    | .error _ => True

/-- No step charges a group over its limit. -/
theorem withinLimits_step {op : Op} (h : k.step op = .ok k') : k.WithinLimits k' := by
  have hrefl : k.WithinLimits k := (Respects.refl _).within
  cases op with
  | fault cpu e =>
    rw [step] at h
    split_ifs at h
    · exact (respects_pageCharge h).within
    · cases h
      exact hrefl
  | protect cpu copied =>
    rw [step, protectCharge] at h
    split_ifs at h
    · split at h
      · cases h
        exact hrefl
      · exact (respects_chargeProcessMemory h).within
    · cases h
      exact hrefl
  | remoteWrite pid pages => exact (respects_chargeProcessMemory h).within
  | unmap cpu pages =>
    cases h
    split_ifs
    · exact (respects_subCgroupCharge k cpu _).within
    · exact hrefl
  | fork cpu child shareVmspace =>
    cases h
    split_ifs
    · exact (respects_forkCurrent k cpu child shareVmspace).within
    · exact hrefl
  | migrate pid target =>
    cases h
    exact (respects_migratePid k pid target).within
  | death d =>
    rw [step] at h
    split_ifs at h
    · exact (respects_death h).within
    · cases h
      exact hrefl
  | writeMemoryMax g max =>
    cases h
    exact fun c hlt => absurd hlt (not_lt_of_ge (le_of_eq (current_setMemory (by rfl) c)))
  | dispatch | reap =>
    cases h
    split_ifs <;> exact hrefl
  | changeState pid state =>
    rw [step] at h
    split at h
    · cases h
      split_ifs <;> exact hrefl
    · cases h
      exact hrefl

theorem Accounted.step {op : Op} (h : k.Accounted) (hclear : op.Clear k)
    (hk' : k.step op = .ok k') : k'.Accounted := by
  cases op with
  | fault cpu e =>
    rw [Kernel.step] at hk'
    split_ifs at hk' with hrun
    · obtain ⟨pid, hcur, hlive⟩ := exists_running hrun
      refine h.pageCharge hcur hlive (fun cg hcg => hclear cg ?_) hk'
      rwa [currentCgroup, hcur]
    · cases hk'
      exact h
  | protect cpu copied =>
    rw [Kernel.step] at hk'
    split_ifs at hk' with hrun
    · obtain ⟨pid, hcur, hlive⟩ := exists_running hrun
      rw [protectCharge, hcur] at hk'
      refine h.chargeProcessMemory (fun hpos cg hcg => ⟨hlive, hclear ?_ cg ?_⟩) hk'
      · exact Nat.pos_of_mul_pos_right hpos
      · rwa [currentCgroup, hcur]
    · cases hk'
      exact h
  | remoteWrite pid pages =>
    exact h.chargeProcessMemory (fun hpos => hclear (Nat.pos_of_mul_pos_right hpos)) hk'
  | unmap cpu pages =>
    cases hk'
    split_ifs with hrun
    · grind [exists_running, h.subCgroupCharge]
    · exact h
  | fork cpu child shareVmspace =>
    cases hk'
    split_ifs
    · exact h.forkCurrent cpu child shareVmspace
    · exact h
  | migrate pid target =>
    cases hk'
    exact h.migratePid hclear
  | death d =>
    rw [Kernel.step] at hk'
    split_ifs at hk' with hcan
    · exact h.death hcan hclear hk'
    · cases hk'
      exact h
  | writeMemoryMax g max =>
    cases hk'
    exact h.congr (fun _ _ => rfl) (current_setMemory rfl)
  | dispatch cpu pid =>
    cases hk'
    split_ifs
    · exact h.congr (fun _ _ => rfl) fun _ => rfl
    · exact h
  | changeState pid state =>
    rw [Kernel.step] at hk'
    split at hk'
    · rename_i p hp
      cases hk'
      split_ifs with hstates
      · rw [Bool.and_eq_true, Bool.not_eq_true', Bool.not_eq_true'] at hstates
        exact (sameCharges_setState hp hstates.1 hstates.2).accounted h
      · exact h
    · cases hk'
      exact h
  | reap pid =>
    cases hk'
    split_ifs with hlive
    · exact h
    · exact h.reap (Bool.eq_false_of_not_eq_true hlive)

/-- **Accounting.**  In a run of charges, uncharges, forks, migrations and deaths whose steps all
meet the condition, the counts agree in every state, and no charge leads over a limit. -/
theorem keepsAccounts {ops : List Op} (h : k.Accounted) (hclear : ClearRun ops k) :
    KeepsAccounts ops k := by
  induction ops generalizing k with
  | nil => exact h
  | cons op ops ih =>
    obtain ⟨hop, hrest⟩ := hclear
    refine ⟨h, ?_⟩
    cases hk' : k.step op with
    | error err => trivial
    | ok k' =>
      rw [hk'] at hrest
      exact ⟨withinLimits_step hk', ih (h.step hop hk') hrest⟩

instance (k : Kernel) (cg : Path) (bytes : ℕ) : Decidable (k.ChargeClear cg bytes) :=
  decidable_of_iff (_ ∧ _) ⟨fun h => ⟨h.1, h.2⟩, fun h => ⟨h.small, h.killed⟩⟩

instance (k : Kernel) (pid : Pid) (old target : Path) : Decidable (k.MigrateClear pid old target) :=
  decidable_of_iff (_ ∧ _ ∧ _) ⟨fun h => ⟨h.1, h.2.1, h.2.2⟩, fun h => ⟨h.live, h.small, h.back⟩⟩

instance (k : Kernel) (d : Death) : Decidable (k.DeathClear d) := by
  unfold DeathClear
  split <;> infer_instance

instance (k : Kernel) (op : Op) : Decidable (op.Clear k) := by
  unfold Op.Clear
  split <;> infer_instance

instance decidableClearRun : (ops : List Op) → (k : Kernel) → Decidable (ClearRun ops k)
  | [], _ => isTrue trivial
  | op :: ops, k => by
    have := decidableClearRun ops
    unfold ClearRun
    split <;> infer_instance

/-- The kernel in which two processes of a group have charged a page each. -/
theorem accounted_family : Accounted family := by
  have hplace : ∀ q ∈ family.ledger.members, ∀ c ∈ family.ledger.place q, c = [1] := by
    decide +kernel
  have hother (g : Path) (h₁ : g ≠ [1]) (h₀ : g ≠ []) : (family.groups g).memory.current = 0 ∧
      family.chargedBelow g = 0 := by
    refine ⟨by simp [family, h₁, h₀, default], ?_⟩
    unfold chargedBelow TreeLedger.total
    refine Finset.sum_eq_zero fun q hq => if_neg ?_
    rintro ⟨-, c, hc, hg⟩
    rw [hplace q hq c hc] at hg
    simp [ancestorChain, h₁, h₀] at hg
  constructor <;> intro g
  all_goals
    by_cases h₁ : g = [1]
    · subst h₁
      decide +kernel
    · by_cases h₀ : g = []
      · subst h₀
        decide +kernel
      · grind [usizeBound]

/-- A page is charged and kept, the process forks, moves to another group and exits. -/
theorem keepsAccounts_family : KeepsAccounts
    [.fault 0 .kept, .fork 0 5 false, .migrate 2 [2], .unmap 0 1, .death (.exit 0 0)]
    family :=
  keepsAccounts accounted_family (by decide +kernel)

theorem KeepsAccounts.exec {ops : List Op} (h : KeepsAccounts ops k) (hk' : exec ops k = .ok k') :
    k'.Accounted := by
  induction ops generalizing k with
  | nil =>
    cases hk'
    exact h
  | cons op ops ih =>
    obtain ⟨k₁, hk₁, hk'⟩ := bind_eq_ok.1 hk'
    rw [KeepsAccounts, hk₁] at h
    exact ih h.2.2 hk'

/-- A stopped process that is killed stays charged; and a process that has exited is uncharged once
more when it is moved. -/
theorem miscounted : ¬ KeepsAccounts [.death (.sigkill 4)] family ∧
    ¬ KeepsAccounts [.death (.exit 0 0), .migrate 2 [2]] family := by
  constructor
  · intro h
    obtain ⟨k', hk', hcounts⟩ := exists_ok
      (f := fun k => ((k.groups [1]).memory.current, k.chargedBelow [1])) (b := (8192, 4096))
      (show (exec [.death (.sigkill 4)] family).toOption.map _ = _ by decide +kernel)
    have hcur := (h.exec hk').current [1]
    simp only [Prod.mk.injEq] at hcounts
    omega
  · intro h
    obtain ⟨k', hk', hcounts⟩ := exists_ok
      (f := fun k => ((k.groups [1]).memory.current, k.chargedBelow [1])) (b := (0, 4096))
      (show (exec [.death (.exit 0 0), .migrate 2 [2]] family).toOption.map _ = _ by
        decide +kernel)
    have hcur := (h.exec hk').current [1]
    simp only [Prod.mk.injEq] at hcounts
    omega

end CypheraKernel.Core.Kernel
