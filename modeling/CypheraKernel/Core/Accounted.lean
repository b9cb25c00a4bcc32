import CypheraKernel.Core.Accounting
import CypheraKernel.Core.Cleanup
import CypheraKernel.Lib.TreeLedger

/-!
# The memory charged to a group

What a control group counts as charged is to be what the live processes in the group and below it
have recorded as charged.
-/

namespace CypheraKernel.Core.Kernel

open Sched Cgroup Groups List
open Rust hiding Panic

variable {k k' k'' : Kernel} {pid q : Pid} {p : Process} {cg g : Path} {bytes : ℕ} {cs : List Pid}
  (f : Life → Life)

/-! ### The books -/

/-- The live processes, with their groups and what each of them has charged. -/
def ledger (k : Kernel) : TreeLedger Pid Path where
  members := (k.sched.processes.keys.filter fun q => k.live q).toFinset
  place := k.processCgroup
  amount := k.processChargedBytes

/-- What the process counts for in the group. -/
def share (k : Kernel) (q : Pid) (g : Path) : ℕ := k.ledger.share ancestorChain q g

/-- What the live processes in the group and below it have charged. -/
def chargedBelow (k : Kernel) (g : Path) : ℕ := k.ledger.total ancestorChain g

/-- What is charged to each group is what the live processes below it have charged.  The counter is
a machine word. -/
structure Accounted (k : Kernel) : Prop where
  current : ∀ g, (k.groups g).memory.current = k.chargedBelow g
  word : ∀ g, (k.groups g).memory.current < usizeBound

/-- No group counts the process. -/
def Uncharged (k : Kernel) (q : Pid) : Prop :=
  k.processCgroup q = none ∨ k.processChargedBytes q = 0
  deriving Decidable

theorem mem_members_ledger : q ∈ k.ledger.members ↔ k.live q = true := by
  have hkey (hlive : k.live q = true) : q ∈ k.sched.processes.keys := by
    obtain ⟨p, hp⟩ := Option.isSome_iff_exists.1 (isSome_of_live hlive)
    exact mem_map.2 ⟨(q, p), SortedMap.mem_entries_of_get? hp, rfl⟩
  simp_all [ledger]

theorem share_eq (k : Kernel) (q : Pid) (g : Path) :
    k.share q g = if k.live q = true ∧ ∃ c ∈ k.processCgroup q, g ∈ ancestorChain c then
      k.processChargedBytes q else 0 := by
  unfold share TreeLedger.share
  simp only [mem_members_ledger]
  rfl

theorem share_of_live (hlive : k.live q = true) (hcg : k.processCgroup q = some cg) (g : Path) :
    k.share q g = if g ∈ ancestorChain cg then k.processChargedBytes q else 0 := by
  simp_all [share_eq]

theorem share_of_not_live (h : k.live q = false) (g : Path) : k.share q g = 0 := by
  rw [share_eq, if_neg]
  simp [h]

theorem share_of_uncharged (h : k.Uncharged q) (g : Path) : k.share q g = 0 := by
  rw [share_eq]
  rcases h with h | h
  · simp [h]
  · rw [h, ite_self]

theorem share_congr (hlive : k'.live q = k.live q) (hcg : k'.processCgroup q = k.processCgroup q)
    (hbytes : k'.processChargedBytes q = k.processChargedBytes q) (g : Path) :
    k'.share q g = k.share q g := by
  rw [share_eq, share_eq, hlive, hcg, hbytes]

namespace Accounted

theorem share_le (h : k.Accounted) (q : Pid) (g : Path) :
    k.share q g ≤ (k.groups g).memory.current := by
  rw [h.current g]
  exact TreeLedger.share_le_total _ _ _ _

/-- No share changes, and no counter. -/
theorem congr (h : k.Accounted) (hshare : ∀ q g, k'.share q g = k.share q g)
    (hcur : ∀ g, (k'.groups g).memory.current = (k.groups g).memory.current) : k'.Accounted where
  current g := by
    rw [hcur g, h.current g]
    exact (TreeLedger.total_congr fun q => hshare q g).symm
  word g := (hcur g).trans_lt (h.word g)

/-- The share of one process changes, and the counters with it. -/
theorem change (h : k.Accounted) (pid : Pid)
    (hothers : ∀ q, q ≠ pid → ∀ g, k'.share q g = k.share q g)
    (hcur : ∀ g, (k'.groups g).memory.current + k.share pid g =
      (k.groups g).memory.current + k'.share pid g)
    (hword : ∀ g, (k'.groups g).memory.current < usizeBound) : k'.Accounted where
  current g := by
    have htotal : k'.chargedBelow g + k.share pid g = k.chargedBelow g + k'.share pid g :=
      TreeLedger.total_change fun q hq => hothers q hq g
    have hk := h.current g
    have hk' := hcur g
    omega
  word := hword

end Accounted

/-! ### Steps that charge nothing -/

/-- The counters and the records are the same; a process that is counted has neither come nor
gone. -/
structure SameCharges (k k' : Kernel) : Prop where
  current : ∀ g, (k'.groups g).memory.current = (k.groups g).memory.current
  cgroup : ∀ q, k'.processCgroup q = k.processCgroup q
  bytes : ∀ q, k'.processChargedBytes q = k.processChargedBytes q
  live : ∀ q, k'.live q = k.live q ∨ k.Uncharged q

namespace SameCharges

theorem refl (k : Kernel) : SameCharges k k :=
  ⟨fun _ => rfl, fun _ => rfl, fun _ => rfl, fun _ => .inl rfl⟩

section

variable (h : SameCharges k k')

include h

theorem uncharged (q : Pid) : k'.Uncharged q ↔ k.Uncharged q := by
  unfold Uncharged
  rw [h.cgroup, h.bytes]

theorem trans (h' : SameCharges k' k'') : SameCharges k k'' where
  current g := (h'.current g).trans (h.current g)
  cgroup q := (h'.cgroup q).trans (h.cgroup q)
  bytes q := (h'.bytes q).trans (h.bytes q)
  live q := by grind [h'.live, h.live, h.uncharged]

theorem share (q : Pid) (g : Path) : k'.share q g = k.share q g := by
  grind [h.live, share_congr, h.cgroup, h.bytes, share_of_uncharged, h.uncharged]

theorem accounted (hk : k.Accounted) : k'.Accounted :=
  hk.congr h.share h.current

/-- A process that lives, or is not counted, stays so. -/
theorem live_or (hq : k.live q = true ∨ k.Uncharged q) :
    k'.live q = true ∨ k'.Uncharged q := by grind [h.uncharged, h.live]

end

end SameCharges

/-! ### Records -/

@[simp] theorem live_updateLife (k : Kernel) (pid : Pid) (f : Life → Life) (q : Pid) :
    (k.updateLife pid f).live q = k.live q := by
  rw [live, proc?_updateLife, live]

@[simp] theorem processCgroup_updateLife (k : Kernel) (pid : Pid) (f : Life → Life) (q : Pid) :
    (k.updateLife pid f).processCgroup q = k.processCgroup q := by
  rw [processCgroup, proc?_updateLife, processCgroup]

theorem processChargedBytes_of_some (hp : k.proc? q = some p) :
    k.processChargedBytes q = (k.life q).cgroupChargedBytes := by
  rw [processChargedBytes, hp]
  rfl

theorem processChargedBytes_updateLife_of_ne (k : Kernel) (f : Life → Life) (hq : q ≠ pid) :
    (k.updateLife pid f).processChargedBytes q = k.processChargedBytes q := by
  rw [processChargedBytes, processChargedBytes, proc?_updateLife, life_updateLife]
  simp [hq]

theorem processChargedBytes_updateLife_self (hp : k.proc? pid = some p) :
    (k.updateLife pid f).processChargedBytes pid = (f (k.life pid)).cgroupChargedBytes := by
  rw [processChargedBytes, proc?_updateLife, life_updateLife]
  simp [hp]

theorem share_updateLife_of_ne (k : Kernel) (f : Life → Life) (hq : q ≠ pid) (g : Path) :
    (k.updateLife pid f).share q g = k.share q g :=
  share_congr (live_updateLife k pid f q) (processCgroup_updateLife k pid f q)
    (processChargedBytes_updateLife_of_ne k f hq) g

/-- A change of the life that does not touch the record. -/
theorem sameCharges_updateLife (hf : ∀ l, (f l).cgroupChargedBytes = l.cgroupChargedBytes) :
    SameCharges k (k.updateLife pid f) where
  current g := by rw [groups_updateLife]
  cgroup := processCgroup_updateLife k pid f
  bytes q := by
    by_cases hq : q = pid
    · subst hq
      cases hp : k.proc? q with
      | none => simp [processChargedBytes, hp]
      | some p => rw [processChargedBytes_updateLife_self f hp, hf, processChargedBytes_of_some hp]
    · exact processChargedBytes_updateLife_of_ne k f hq
  live q := .inl (live_updateLife k pid f q)

/-- A process without a group is not counted, whatever its record. -/
theorem Accounted.updateLife_of_none (h : k.Accounted) (hcg : k.processCgroup pid = none)
    (f : Life → Life) : (k.updateLife pid f).Accounted := by
  refine h.congr (fun q g => ?_) fun g => by rw [groups_updateLife]
  by_cases hq : q = pid
  · subst hq
    rw [share_of_uncharged (.inl hcg), share_of_uncharged]
    exact .inl ((processCgroup_updateLife k q f q).trans hcg)
  · exact share_updateLife_of_ne k f hq g

/-! ### Charging -/

theorem saturatingAddU64_of_lt {a b : ℕ} (h : a + b < usizeBound) :
    saturatingAddU64 a b = a + b := by
  unfold saturatingAddU64
  omega

/-- A charge that the groups have taken is recorded. -/
theorem Accounted.recordCharge (h : k.Accounted) (hlive : k.live pid = true)
    (hcg : k.processCgroup pid = some cg)
    (hsmall : ∀ g ∈ ancestorChain cg, (k.groups g).memory.current + bytes < usizeBound)
    (hok : (k.groups.tryChargeMemory cg bytes).1 = .ok ()) :
    (({ k with groups := (k.groups.tryChargeMemory cg bytes).2 } : Kernel).recordCharge pid
      bytes).Accounted := by
  let k₁ : Kernel := { k with groups := (k.groups.tryChargeMemory cg bytes).2 }
  obtain ⟨p, hp⟩ := Option.isSome_iff_exists.1 (isSome_of_live hlive)
  have hcur (g : Path) : ((k₁.recordCharge pid bytes).groups g).memory.current =
      (k.groups g).memory.current + if g ∈ ancestorChain cg then bytes else 0 := by
    rw [Kernel.recordCharge, groups_updateLife]
    refine (current_tryChargeMemory hok g).trans ?_
    split_ifs with hg
    · exact saturatingAddU64_of_lt (hsmall g hg)
    · rfl
  have hbytes : (k₁.recordCharge pid bytes).processChargedBytes pid =
      k.processChargedBytes pid + bytes := by
    rw [Kernel.recordCharge, processChargedBytes_updateLife_self (k := k₁) _ hp,
      processChargedBytes_of_some hp]
    -- the process has not charged more than its own group counts
    have hle := h.share_le pid cg
    rw [share_of_live hlive hcg, if_pos (self_mem_ancestorChain cg),
      processChargedBytes_of_some hp] at hle
    have hlt := hsmall cg (self_mem_ancestorChain cg)
    have hlt₀ : (k.life pid).cgroupChargedBytes + bytes < usizeBound := by omega
    exact saturatingAddU64_of_lt hlt₀
  have hlive' : (k₁.recordCharge pid bytes).live pid = true := (live_updateLife _ _ _ _).trans hlive
  have hcg' : (k₁.recordCharge pid bytes).processCgroup pid = some cg :=
    (processCgroup_updateLife _ _ _ _).trans hcg
  refine h.change pid (fun q hq g => share_updateLife_of_ne k₁ _ hq g) (fun g => ?_) fun g => ?_
  · grind [share_of_live]
  · rw [hcur]
    split_ifs with hg
    · exact hsmall g hg
    · exact h.word g

section

variable (hsmall : ∀ g ∈ ancestorChain cg, (k.groups g).memory.current + bytes < usizeBound)

include hsmall

/-- What is charged and uncharged again is not charged. -/
theorem sameCharges_uncharge_charge (hok : (k.groups.tryChargeMemory cg bytes).1 = .ok ()) :
    SameCharges k
      { k with groups := (k.groups.tryChargeMemory cg bytes).2.unchargeMemory cg bytes } := by
  refine ⟨fun g => ?_, fun _ => rfl, fun _ => rfl, fun _ => .inl rfl⟩
  grind [current_unchargeMemory, current_tryChargeMemory, saturatingAddU64_of_lt]

end

/-- The running process gives back what it has charged, up to the record. -/
theorem Accounted.subCgroupCharge {cpu : ℕ} (h : k.Accounted)
    (hcur : (k.sched.cpus cpu).current = some pid) (hlive : k.live pid = true) (bytes : ℕ) :
    (k.subCgroupCharge cpu bytes).Accounted := by
  obtain ⟨p, hp⟩ := Option.isSome_iff_exists.1 (isSome_of_live hlive)
  unfold Kernel.subCgroupCharge
  rw [hcur]
  dsimp only
  rw [hp]
  dsimp only
  generalize hactual : min bytes (k.life pid).cgroupChargedBytes = actual
  generalize hf : (fun l : Life =>
    { l with cgroupChargedBytes := l.cgroupChargedBytes - actual }) = f
  cases hcg : p.cgroup with
  | none =>
    refine h.updateLife_of_none ?_ f
    rw [processCgroup, hp]
    exact hcg
  | some cg =>
    dsimp only
    have hcg₀ : k.processCgroup pid = some cg := by
      rw [processCgroup, hp]
      exact hcg
    let k' : Kernel := { k.updateLife pid f with groups := k.groups.unchargeMemory cg actual }
    have hk' : (if actual > 0 then ({ k.updateLife pid f with
        groups := (k.updateLife pid f).groups.unchargeMemory cg actual } : Kernel)
        else k.updateLife pid f) = k' := by
      rw [groups_updateLife]
      split_ifs with hpos
      · rfl
      have hzero : actual = 0 := by omega
      have hgroups : k'.groups = (k.updateLife pid f).groups := by
        change k.groups.unchargeMemory cg actual = _
        rw [hzero, unchargeMemory_zero, groups_updateLife]
      change k.updateLife pid f = { k.updateLife pid f with groups := k'.groups }
      rw [hgroups]
    rw [hk']
    have hbytes : k'.processChargedBytes pid = k.processChargedBytes pid - actual := by
      refine (processChargedBytes_updateLife_self f hp).trans ?_
      rw [processChargedBytes_of_some hp, ← hf]
    have hlive' : k'.live pid = true := (live_updateLife k pid f pid).trans hlive
    have hcg' : k'.processCgroup pid = some cg := (processCgroup_updateLife k pid f pid).trans hcg₀
    refine h.change pid (fun q hq g => share_updateLife_of_ne k f hq g) (fun g => ?_) fun g => ?_
    · have hle := h.share_le pid g
      have hmin : actual ≤ k.processChargedBytes pid := by grind [processChargedBytes_of_some]
      rw [share_of_live hlive hcg₀] at hle ⊢
      rw [share_of_live hlive' hcg', hbytes, current_unchargeMemory]
      split_ifs at hle ⊢ <;> omega
    · rw [current_unchargeMemory]
      exact (Nat.sub_le _ _).trans_lt (h.word g)

/-! ### Killing -/

/-- If `SIGKILL` ends the process at once, no group counts it. -/
def KilledFree (k : Kernel) (q : Pid) : Prop :=
  ((k.proc? q).any fun p => killable p.state) = true → k.Uncharged q
  deriving Decidable

theorem Signalled.processChargedBytes (h : Signalled k pid k') (q : Pid) :
    k'.processChargedBytes q = k.processChargedBytes q :=
  processChargedBytes_congr (h.cgroup q) (congrArg Life.cgroupChargedBytes (h.life q) :)

theorem Signalled.sameCharges (h : Signalled k pid k') (hfree : k.KilledFree pid) :
    SameCharges k k' where
  current g := by rw [h.groups]
  cgroup q := processCgroup_congr (h.cgroup q)
  bytes := h.processChargedBytes
  live q := by
    by_cases hq : q = pid
    · subst hq
      rw [h.live]
      cases hkill : (k.proc? q).any fun p => killable p.state with
      | true => exact .inr (hfree hkill)
      | false => exact .inl (Bool.and_true _)
    · exact .inl (live_congr (h.state q hq))

/-- No other process becomes one that a kill would end, and the target is none any more. -/
theorem Signalled.killedFree (h : Signalled k pid k') (hq : k.KilledFree q) : k'.KilledFree q := by
  intro hkill
  by_cases heq : q = pid
  · subst heq
    rw [h.settled] at hkill
    cases hkill
  · rw [any_state_congr killable (h.state q heq)] at hkill
    unfold Uncharged
    rw [processCgroup_congr (h.cgroup q), h.processChargedBytes]
    exact hq hkill

theorem oomVictim_mem (k : Kernel) (first : Pid) (rest : List Pid) :
    k.oomVictim first rest ∈ first :: rest := by
  unfold oomVictim
  induction rest generalizing first with
  | nil => exact mem_singleton_self first
  | cons a rest ih =>
    rw [foldl_cons]
    split_ifs
    · exact mem_cons_of_mem first (ih a)
    · grind

theorem sameCharges_oomKillOne (hfree : ∀ q ∈ (k.groups cg).pids, k.KilledFree q)
    (h : k.oomKillOne cg = .ok k') : SameCharges k k' := by
  unfold oomKillOne at h
  split at h
  · cases h
    exact SameCharges.refl k
  rename_i first rest hsort
  have hmem : k.oomVictim first rest ∈ (k.groups cg).pids := by
    grind [Finset.mem_sort, oomVictim_mem]
  refine SameCharges.trans ?_ ((signalled_of_sigkill h).sameCharges (hfree _ hmem))
  exact ⟨current_setMemory rfl, fun _ => rfl, fun _ => rfl, fun _ => .inl rfl⟩

/-! ### Ending -/

theorem Prepared.sameCharges (h : Prepared k pid k') : SameCharges k k' where
  current g := by rw [h.groups]
  cgroup := h.processCgroup
  bytes := h.processChargedBytes
  live q := .inl (h.live q)

theorem KilledFree.congr (hsame : SameCharges k k')
    (hstate : (k'.proc? q).map Process.state = (k.proc? q).map Process.state) (h : k.KilledFree q) :
    k'.KilledFree q := by
  intro hkill
  rw [any_state_congr killable hstate] at hkill
  exact (hsame.uncharged q).2 (h hkill)

theorem sameCharges_adopt (np c : Pid) : SameCharges k (k.adopt np c) := by
  have hchild : SameCharges k (k.updateLife c fun l => { l with parent := some np }) :=
    sameCharges_updateLife _ fun _ => rfl
  refine hchild.trans (sameCharges_updateLife _ fun l => ?_)
  split_ifs <;> rfl

theorem pdeathsig_adopt (np c q : Pid) : ((k.adopt np c).life q).pdeathsig = (k.life q).pdeathsig :=
  (congrArg Life.pdeathsig (rest_adopt k np c q) :)

/-- The children that the end of their parent kills are not counted. -/
def ChildrenFree (k : Kernel) (cs : List Pid) : Prop :=
  ∀ c ∈ cs, (k.life c).pdeathsig = signalKill → k.KilledFree c
  deriving Decidable

theorem Signalled.childrenFree (h : Signalled k pid k') (hcs : k.ChildrenFree cs) :
    k'.ChildrenFree cs := by
  intro c hc hsig
  have hlife : (k'.life c).pdeathsig = (k.life c).pdeathsig :=
    (congrArg Life.pdeathsig (h.life c) :)
  exact h.killedFree (hcs c hc (hlife ▸ hsig))

theorem sameCharges_adoptEach {np : Pid} (hcs : k.ChildrenFree cs)
    (h : adoptEach np cs k = .ok k') : SameCharges k k' := by
  induction cs generalizing k with
  | nil =>
    obtain rfl := Except.ok.inj h
    exact SameCharges.refl k
  | cons c cs ih =>
    obtain ⟨k₁, hk₁, h⟩ := bind_eq_ok.1 h
    -- the signal, with what it leaves of the condition
    obtain ⟨hsame, hcs₁⟩ : SameCharges k k₁ ∧ k₁.ChildrenFree cs := by
      have hrest : k.ChildrenFree cs := fun d hd => hcs d (mem_cons_of_mem c hd)
      rcases sendPdeathsig_cases hk₁ with ⟨hsig, hk⟩ | ⟨-, rfl⟩
      · exact ⟨hk.sameCharges (hcs c mem_cons_self hsig), hk.childrenFree hrest⟩
      · exact ⟨SameCharges.refl _, hrest⟩
    have hadopt := sameCharges_adopt (k := k₁) np c
    refine (hsame.trans hadopt).trans (ih (fun d hd hsig => ?_) h)
    rw [pdeathsig_adopt] at hsig
    exact KilledFree.congr hadopt (by rw [proc?_adopt]) (hcs₁ d hd hsig)

/-- The end of a process that is uncharged and then made known. -/
theorem Accounted.of_left (h : k.Accounted) (hlive : k.live pid = true ∨ k.Uncharged pid)
    (hpub : Published (k.leaveCgroup pid) pid k') : k'.Accounted := by
  have hproc {q : Pid} (hq : q ≠ pid) : k'.proc? q = k.proc? q := by
    rw [hpub.proc q hq, proc?_leaveCgroup]
  have hothers (q : Pid) (hq : q ≠ pid) (g : Path) : k'.share q g = k.share q g := by
    grind [share_congr, live, processCgroup, processChargedBytes, hpub.charged, life_leaveCgroup]
  have hgone (g : Path) : k'.share pid g = 0 := share_of_not_live hpub.dead g
  have hcur (g : Path) : (k'.groups g).memory.current =
      (k.groups g).memory.current - k.share pid g := by
    rw [hpub.groups]
    cases hcg : k.processCgroup pid with
    | none => rw [leaveCgroup_of_none hcg, share_of_uncharged (.inl hcg), Nat.sub_zero]
    | some cg =>
      rw [groups_leaveCgroup hcg, current_detachPid, current_unchargeMemory]
      rcases hlive with hlive | hun
      · rw [share_of_live hlive hcg]
      have hzero : k.processChargedBytes pid = 0 := by
        rcases hun with hnone | hzero
        · rw [hcg] at hnone
          cases hnone
        · exact hzero
      rw [share_of_uncharged hun, hzero, ite_self]
  refine h.change pid hothers (fun g => ?_) fun g => ?_
  · have hle := h.share_le pid g
    rw [hcur, hgone]
    omega
  · rw [hcur]
    exact (Nat.sub_le _ _).trans_lt (h.word g)

theorem Accounted.exitCurrent {cpu : ℕ} {code : ℤ} (h : k.Accounted)
    (hcur : (k.sched.cpus cpu).current = some pid) (hlive : k.live pid = true ∨ k.Uncharged pid)
    (hcs : k.ChildrenFree (k.life pid).children) (hk' : k.exitCurrent cpu code = .ok k') :
    k'.Accounted := by
  obtain ⟨p, k₁, k₂, -, hprep, -, hk₂, hpub⟩ := exit_parts hcur hk'
  have hcs₁ : k₁.ChildrenFree (k.life pid).children := by
    intro c hc hsig
    have hlife : (k₁.life c).pdeathsig = (k.life c).pdeathsig :=
      (congrArg Life.pdeathsig (hprep.untold c) :)
    exact KilledFree.congr hprep.sameCharges (hprep.state c) (hcs c hc (hlife ▸ hsig))
  have hsame := hprep.sameCharges.trans (sameCharges_adoptEach hcs₁ hk₂)
  exact (hsame.accounted h).of_left (hsame.live_or hlive) hpub

theorem Accounted.terminateCurrentWithSignal {cpu signal : ℕ} (h : k.Accounted)
    (hcur : (k.sched.cpus cpu).current = some pid) (hlive : k.live pid = true)
    (hk' : k.terminateCurrentWithSignal cpu signal = .ok k') : k'.Accounted := by
  obtain ⟨hprep, hpub⟩ := terminate_parts hcur hk'
  exact (hprep.sameCharges.accounted h).of_left (hprep.sameCharges.live_or (.inl hlive)) hpub

theorem sameCharges_sigkillEach {pids : List Pid} (hfree : ∀ q ∈ pids, k.KilledFree q)
    (h : sigkillEach pids k = .ok k') : SameCharges k k' := by
  refine (Death.of_sigkillEach (P := fun k₁ => SameCharges k k₁ ∧ ∀ q ∈ pids, k₁.KilledFree q) h
    (fun hq hs hk => ⟨?_, fun r hr => hs.killedFree (hk.2 r hr)⟩) ⟨.refl k, hfree⟩).1
  exact hk.1.trans (hs.sameCharges (hk.2 _ hq))

end CypheraKernel.Core.Kernel
