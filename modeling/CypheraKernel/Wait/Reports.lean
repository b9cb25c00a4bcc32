import CypheraKernel.Lib.Runs
import CypheraKernel.Wait.Refine

/-!
# Every child is reported once

The wait calls against what they are for: a parent learns of the end of each child exactly once and
of each stop at most once, a call says that there is no child only if there is none, and no call
panics.

* `Careful`: what the kernel leaves to its callers.  A tracer must not collect the child of another
  process, a stop must not be asked for again once it has been returned, the numbers of process
  groups must be those of the host namespace, the smallest number must not be given, the status must
  be writable, and nobody may attach to a process that sleeps or is throttled;
* `always_reports`: **in every run of careful steps every child is reported once**.
-/

namespace CypheraKernel.Wait.Tree

open Option Process

open Sched (Pid ProcessState stateIsTerminal stateTransitionOk)
open Lists

variable {s s' : Tree} {p q c t : Pid} {m me : Process} {target : ℤ} {options : UInt64}
  {host : Option Pid} {status : ℕ}

/-! ### The scan -/

theorem waitSelectorMatches_ok (h : target ≠ i64Min) (cpid childPgid callerPgid : Pid) :
    ∃ b, waitSelectorMatches target cpid childPgid callerPgid = .ok b := by
  unfold waitSelectorMatches
  split_ifs <;> exact ⟨_, rfl⟩

/-- The candidate is in the table, and the call has asked for it. -/
def Selected (s : Tree) (target : ℤ) (callerPgid c : Pid) (m : Process) : Prop :=
  s.processes c = some m ∧ waitSelectorMatches target c m.pgid callerPgid = .ok true

theorem anySelected_ok {callerPgid : Pid} {cs : List Pid}
    (h : target = i64Min → ∀ c ∈ cs, s.processes c = none) :
    ∃ b, s.anySelected target callerPgid cs = .ok b ∧
      (b = true ↔ ∃ c ∈ cs, ∃ m, s.Selected target callerPgid c m) := by
  induction cs with
  | nil => exact ⟨false, rfl, by simp⟩
  | cons c cs ih =>
    obtain ⟨b, hb, hiff⟩ := ih fun hmin c' hc' => h hmin c' (.tail _ hc')
    rw [anySelected]
    cases hc : s.processes c with
    | none => exact ⟨b, hb, by simp [hiff, Selected, hc]⟩
    | some m =>
      have hmin : target ≠ i64Min := fun hmin => by simp [h hmin c (.head _)] at hc
      obtain ⟨b', hb'⟩ := waitSelectorMatches_ok hmin c m.pgid callerPgid
      simp only [hb', bind, Except.bind]
      cases b' with
      | true => exact ⟨true, rfl, by simp [Selected, hc, hb']⟩
      | false => exact ⟨b, hb, by simp [hiff, Selected, hc, hb']⟩

theorem scanCandidates_ok {cs : List Pid} (h : target = i64Min → ∀ c ∈ cs, s.processes c = none) :
    ∃ r, s.scanCandidates me target options cs = .ok r ∧
      (r = .noneReady ∨ ∃ c ∈ cs, ∃ m, s.Selected target me.pgid c m ∧
        childReport c m (c ∈ me.trace.tracees) options = some r) := by
  induction cs with
  | nil => exact ⟨.noneReady, rfl, .inl rfl⟩
  | cons c cs ih =>
    obtain ⟨r, hr, hspec⟩ := ih fun hmin c' hc' => h hmin c' (.tail _ hc')
    have hrest : r = .noneReady ∨ ∃ c' ∈ c :: cs, ∃ m, s.Selected target me.pgid c' m ∧
        childReport c' m (c' ∈ me.trace.tracees) options = some r := by
      refine hspec.imp_right ?_
      rintro ⟨c', hc', hm⟩
      exact ⟨c', .tail _ hc', hm⟩
    rw [scanCandidates]
    cases hc : s.processes c with
    | none => exact ⟨r, hr, hrest⟩
    | some m =>
      have hmin : target ≠ i64Min := fun hmin => by simp [h hmin c (.head _)] at hc
      obtain ⟨b, hb⟩ := waitSelectorMatches_ok hmin c m.pgid me.pgid
      simp only [hb, bind, Except.bind]
      cases b with
      | false => exact ⟨r, hr, hrest⟩
      | true =>
        cases hreport : childReport c m (c ∈ me.trace.tracees) options with
        | none => exact ⟨r, hr, hrest⟩
        | some r' => exact ⟨r', rfl, .inr ⟨c, .head _, m, ⟨hc, hb⟩, hreport⟩⟩

theorem mem_candidates : c ∈ candidates me ↔ c ∈ me.children ∨ c ∈ me.trace.tracees :=
  mem_foldl_pushNew

/-- What a wait call finds: nobody that it has asked for, nothing to say yet, or something to say of
one that it has asked for. -/
theorem wait4Scan_ok (hp : s.processes p = some me)
    (h : target = i64Min → ∀ c ∈ candidates me, s.processes c = none) :
    ∃ r, s.wait4Scan p target options = .ok r ∧
      (r = .noChildren ∧ (∀ c ∈ candidates me, ∀ m, ¬s.Selected target me.pgid c m) ∨
        r = .noneReady ∨ ∃ c ∈ candidates me, ∃ m, s.Selected target me.pgid c m ∧
          childReport c m (c ∈ me.trace.tracees) options = some r) := by
  unfold wait4Scan
  simp only [hp]
  split_ifs with hnone
  · grind [mem_candidates]
  obtain ⟨b, hb, hiff⟩ := @anySelected_ok s target me.pgid (candidates me) h
  simp only [hb, bind, Except.bind]
  cases b with
  | false =>
    refine ⟨.noChildren, rfl, .inl ⟨rfl, fun c hc m hm => ?_⟩⟩
    exact absurd (hiff.2 ⟨c, hc, m, hm⟩) (by decide)
  | true =>
    obtain ⟨r, hr, hspec⟩ := @scanCandidates_ok s me target options (candidates me) h
    exact ⟨r, hr, .inr hspec⟩

/-! ### The second section -/

theorem mem_zombiePeers {tgid leader : Pid} : q ∈ s.zombiePeers tgid leader ↔
    q < s.nextPid ∧ q ≠ leader ∧
      ∃ m, s.processes q = some m ∧ m.tgid = tgid ∧ m.ended = true ∧ s.queued q = false := by
  cases hq : s.processes q <;> simp [zombiePeers, hq, and_assoc]

theorem Inv.not_queued_of_ended (h : s.Inv) (hq : s.processes q = some m) (hended : m.ended = true) :
    s.queued q = false := by
  refine Bool.eq_false_iff.2 fun hb => ?_
  obtain ⟨-, m', hm', hstate⟩ := (h.sound q).queued hb
  grind [ended, stateIsTerminal]

/-- The child that a parent has chosen is there, has ended and is in no run queue. -/
theorem Inv.chosen (h : s.Inv) (hp : s.processes p = some m) (hlive : m.ended = false)
    (hphase : s.phase p = .reaping c status) :
    ∃ mc, s.processes c = some mc ∧ mc.ended = true ∧ s.queued c = false := by
  obtain ⟨kc, hkc, hended, -⟩ := h.family.reaped p c m.kin (duty_family hphase) (kin_family hp) hlive
  obtain ⟨mc, hc, rfl⟩ := exists_of_kin hkc
  exact ⟨mc, hc, hended, h.not_queued_of_ended hc hended⟩

/-- The table without the child and without the members of its group that have ended. -/
theorem Inv.processes_sweep (h : s.Inv) {mc : Process} (hc : s.processes c = some mc) (q : Pid) :
    ((s.removeProc c mc).sweepThreadGroupZombies mc.tgid c).processes q =
      (s.processes q).bind fun x => if Family.swept c mc.tgid q x.kin then none else some x := by
  change (if q ∈ (s.removeProc c mc).zombiePeers mc.tgid c then none
    else (s.removeProc c mc).processes q) = _
  have hpeer := @mem_zombiePeers (s.removeProc c mc) q mc.tgid c
  rw [processes_removeProc] at hpeer ⊢
  rcases eq_or_ne q c with rfl | hne
  · simp [hc, Family.swept]
  rw [if_neg hne] at hpeer ⊢
  cases hq : s.processes q with
  | none => simp
  | some x =>
    rw [hq] at hpeer
    by_cases hx : x.tgid = mc.tgid ∧ x.ended = true
    · have hlt : q < s.nextPid := (h.family.known q x.kin (kin_family hq)).2.1
      rw [if_pos (hpeer.2 ⟨hlt, hne, x, rfl, hx.1, hx.2, h.not_queued_of_ended hq hx.2⟩)]
      simp [Family.swept, kin, hx]
    have hout : q ∉ (s.removeProc c mc).zombiePeers mc.tgid c := by
      intro hmem
      obtain ⟨-, -, m, hm, htgid, hended, -⟩ := hpeer.1 hmem
      cases hm
      exact hx ⟨htgid, hended⟩
    have hkept : Family.swept c mc.tgid q x.kin = false := by
      refine Bool.eq_false_iff.2 fun hb => ?_
      rcases Bool.or_eq_true_iff.1 hb with hb | hb
      · exact hne (of_decide_eq_true hb)
      · obtain ⟨htgid, hended⟩ := Bool.and_eq_true_iff.1 hb
        exact hx ⟨of_decide_eq_true htgid, hended⟩
    rw [if_neg hout, bind_some, hkept]
    rfl

/-- A section of a wait call that is a step of the family. -/
theorem Inv.waits {ph : Phase} (h : s.Inv) (hp : s.processes p = some m)
    (hfamily : Family.Step s.family s'.family) (hnext : s'.nextPid = s.nextPid)
    (hphase : s'.phase = (s.setPhase p ph).phase) (hl : ph.left = false)
    (hwait : ∀ w target options, ph ≠ .waiting w target options) (hqueued : s'.queued = s.queued)
    (hstops : s'.stopReports = s.stopReports)
    (hpost : ∀ q, s'.processes q = none ∧ s.queued q = false ∨
      (s'.processes q).map Process.post = (s.processes q).map Process.post) : s'.Inv := by
  refine h.moves hp hfamily hnext hphase (fun w target options heq => absurd heq (hwait _ _ _))
    hstops fun q => ?_
  rcases hpost q with ⟨hnone, hfree⟩ | hpost
  · refine ⟨fun hq => ?_, by simp [hnone], by simp [hnone]⟩
    rw [hqueued, hfree] at hq
    cases hq
  rcases eq_or_ne q p with rfl | hne
  · refine (h.sound q).stay ?_ (by rw [hqueued]) hpost
    rwa [hphase, phase_setPhase, if_pos rfl]
  · refine (h.sound q).congr ?_ (by rw [hqueued]) hpost
    rw [hphase, phase_setPhase, if_neg hne]

/-- The first section of a wait call that collects a child of the caller. -/
theorem Inv.claim (h : s.Inv) (hp : s.processes p = some me) (hlive : me.ended = false)
    (hfree : (s.phase p).duty = .free) (hmem : c ∈ me.children) (hc : s.processes c = some m)
    (hended : m.ended = true) (options : UInt64) (copied : Bool) (status : ℕ) :
    (s.finishScan p options copied (.reap c status)).Inv := by
  have hstep : Family.Step s.family ((s.family.strike p c).setDuty p (.reaping c)) :=
    .claim _ (kin_family hp) hlive hfree hmem (kin_family hc) hended
  refine h.waits hp (step_family hstep (fun q => ?_) rfl duty_setPhase rfl rfl) rfl rfl rfl (by simp)
    rfl rfl fun q => .inr ?_
  · change ((s.onProc p _).processes q).map kin = _
    rw [processes_onProc_map, map_map]
    refine Eq.trans (map_congr fun x _ => ?_) (map_map ..).symm
    simp only [Function.comp_apply, Family.struck]
    split_ifs <;> rfl
  · refine map_onProc ?_
    exact fun _ => rfl

/-- The second section of a wait call, whose status can be copied to the caller. -/
theorem Inv.finishReap (h : s.Inv) (hp : s.processes p = some m) (hlive : m.ended = false)
    (hphase : s.phase p = .reaping c status) :
    ∃ s', s.finishReap p c status true = .ok s' ∧ s'.Inv := by
  obtain ⟨mc, hc, hended, hqueued⟩ := h.chosen hp hlive hphase
  have hduty : s.family.duty p = .reaping c := duty_family hphase
  have hstep := Family.Step.collect s.family (kin_family hp) hlive hduty (kin_family hc) status
  have hsweep := h.processes_sweep hc
  unfold Tree.finishReap
  simp only [hqueued, hc, Bool.false_eq_true, if_false, map_some, getD_some,
    bind_some]
  refine ⟨_, rfl, ?_⟩
  refine h.waits hp (step_family hstep (fun q => ?_) rfl duty_setPhase rfl rfl) rfl rfl rfl (by simp)
    rfl rfl fun q => ?_
  · exact (congrArg (Option.map kin) (hsweep q)).trans (map_kin_remove _ _).symm
  change ((s.removeProc c mc).sweepThreadGroupZombies mc.tgid c).processes q = none ∧ _ ∨
    (((s.removeProc c mc).sweepThreadGroupZombies mc.tgid c).processes q).map post = _
  rw [hsweep]
  cases hq : s.processes q with
  | none => exact .inr rfl
  | some x =>
    rw [bind_some]
    split_ifs with hx
    · refine .inl ⟨rfl, ?_⟩
      simp only [Family.swept, Bool.or_eq_true, decide_eq_true_eq, Bool.and_eq_true] at hx
      rcases hx with rfl | ⟨-, hx⟩
      · exact hqueued
      · exact h.not_queued_of_ended hq hx
    · exact .inr rfl

/-! ### What a call asks for -/

theorem covers_pid {g : Pid} (h : ∀ c, host = some c → c = g) : Covers (.pid host) g := by
  intro _ c pgid callerPgid hpos _ hsel
  obtain rfl := h c (of_decide_eq_true hsel)
  rw [waitSelectorMatches, if_pos (Int.natCast_pos.2 hpos)]
  simp

theorem covers_group (h : ∀ g, host = some g → target = -(g : ℤ)) :
    Covers (.group host) target := by
  intro hmin c pgid callerPgid _ hpos hsel
  have hgroup : host = some pgid := of_decide_eq_true hsel
  have htarget := h pgid hgroup
  have hneg : target < 0 := by grind
  rw [waitSelectorMatches, if_neg hneg.not_gt, if_neg hneg.ne]
  split_ifs
  · rfl
  · simp [htarget]

theorem covers_ownGroup : Covers .ownGroup 0 := by
  intro _ c pgid callerPgid _ _ hsel
  rw [waitSelectorMatches, if_neg (by decide), if_pos rfl]
  exact congrArg Except.ok hsel

theorem covers_any : Covers .any (-1) := fun _ _ _ _ _ _ _ => rfl

theorem toNat_mod_of_pos {a : UInt64} (h : 0 < a.toBitVec.toInt) (hlt : a.toBitVec.toInt < 2 ^ 32) :
    a.toNat % 2 ^ 32 = a.toBitVec.toInt.toNat := by
  have hnat : a.toBitVec.toNat = a.toNat := rfl
  rw [BitVec.toInt_eq_toNat_cond] at h hlt ⊢
  split_ifs at h hlt ⊢ <;> omega

/-- The number of the process group that `wait4` is given is the one of the host namespace, if it
means a group at all. -/
def HostGroup (s : Tree) (p : Pid) (pid : UInt64) : Prop :=
  pid.toBitVec.toInt < -1 → -pid.toBitVec.toInt < 2 ^ 32 →
    ∀ g ∈ s.callerLocalToHost p (-pid.toBitVec.toInt).toNat, (g : ℤ) = -pid.toBitVec.toInt
  deriving Decidable

variable {w : Wanted} {idtype id pid : UInt64}

theorem covers_wait4Target (h : s.HostGroup p pid)
    (hw : s.wait4Target p pid = (w, some target)) : Covers w target := by
  unfold wait4Target at hw
  dsimp only at hw
  split_ifs at hw with hpos hlt hzero hany hlt
  · grind [map_eq_some_iff, covers_pid, toNat_mod_of_pos]
  · grind [map_eq_some_iff, covers_pid]
  · cases hw
    exact covers_ownGroup
  · cases hw
    exact covers_any
  · cases hw
    refine covers_group fun g hg => ?_
    rw [h (by omega) hlt g hg, neg_neg]
  · cases hw
    exact covers_group nofun

theorem covers_waitidTarget
    (hw : s.waitidTarget p idtype id = some (w, some target)) : Covers w target := by
  grind [waitidTarget, covers_any, map_eq_some_iff, covers_pid, covers_ownGroup,
    covers_group]

/-! ### Careful steps -/

/-- The smallest number is given only if there is nobody to compare it with. -/
def Comparable (s : Tree) (me : Process) (target : ℤ) : Prop :=
  target = i64Min → ∀ c ∈ candidates me, s.processes c = none
  deriving Decidable

/-- Whoever the caller traces, and has asked for, is its child if it has ended. -/
def OwnEnded (s : Tree) (me : Process) (target : ℤ) : Prop :=
  ∀ c ∈ me.trace.tracees, ∀ m ∈ s.processes c, m.ended = true →
    waitSelectorMatches target c m.pgid me.pgid = .ok true → c ∈ me.children
  deriving Decidable

/-- The caller has not been told of the stop that a child of it is in, if it has asked for it. -/
def UntoldStops (s : Tree) (p : Pid) (me : Process) (target : ℤ) (options : UInt64) : Prop :=
  wuntraced options = true → ∀ c ∈ candidates me, ∀ m ∈ s.processes c, m.state = .stopped →
    waitSelectorMatches target c m.pgid me.pgid = .ok true → m.parent = some p →
      ∀ r ∈ s.stopReports, r.tells c (s.stops c) = false
  deriving Decidable

/-- The first section of a wait call is careful. -/
def CarefulScan (s : Tree) (p : Pid) : Phase → Prop
  | .waiting _ target options => ∀ me ∈ s.processes p,
      s.Comparable me target ∧ s.OwnEnded me target ∧ s.UntoldStops p me target options
  | _ => True

instance (s : Tree) (p : Pid) (ph : Phase) : Decidable (s.CarefulScan p ph) := by
  unfold CarefulScan
  split <;> infer_instance

/-- What the kernel leaves to its callers, and to the scheduler. -/
def Careful (s : Tree) : Event → Prop
  | .register _ | .fork _ _ _ | .cloneThread _ _ => s.nextPid < 2 ^ 32
  | .setQueued p b => b = true → (s.phase p).left = false ∧
      ∃ m ∈ s.processes p, m.state = .running ∨ m.state = .runnable
  | .attach p target => ∀ caller ∈ s.acting p, ∀ m ∈ s.processes target,
      mayAttach m caller.euid = true →
        m.state ≠ .parked ∧ m.state ≠ .dlThrottled ∧ m.state ≠ .cgroupThrottled
  | .wait4 p pid _ => s.HostGroup p pid
  | .scan p _ => s.CarefulScan p (s.phase p)
  | .finishReap _ copied => copied = true
  | _ => True

instance (s : Tree) (e : Event) : Decidable (s.Careful e) := by
  unfold Careful
  split <;> infer_instance

/-! ### Every step keeps the invariant -/

section

variable (h : s.Inv) {step : Process → Except Panic Tree}

include h

theorem Inv.schedule (hp : s.processes p = some m) (new : ProcessState) :
    (s.schedule p m new).Inv := by
  unfold Tree.schedule
  split_ifs with hok hrun
  · simp only [Bool.and_eq_true, Bool.not_eq_true'] at hok
    obtain ⟨⟨⟨hold, -⟩, -⟩, hl⟩ := hok
    refine h.wake hp ?_ rfl hl hrun
    rw [kin, kin, ended, ended]
    rcases hrun with rfl | rfl <;> cases hm : m.state <;> simp_all [scheduled, stateIsTerminal]
  · simp only [Bool.and_eq_true, Bool.not_eq_true'] at hok
    obtain ⟨⟨⟨hold, hnew⟩, -⟩, hl⟩ := hok
    refine h.suspend hp ?_ rfl hl
    rw [kin, kin, ended, ended]
    cases hm : m.state <;> cases new <;> simp_all [scheduled, stateIsTerminal]
  · exact h

theorem Inv.enqueue (hl : (s.phase p).left = false) (hp : s.processes p = some m)
    (hstate : m.state = .running ∨ m.state = .runnable) : (s.setQueued p true).Inv := by
  refine h.steady (.quiet _) (fun _ => rfl) rfl fun q => ?_
  obtain ⟨hqueued, hleft, hgroup⟩ := h.sound q
  refine ⟨fun hq => ?_, hleft, hgroup⟩
  rcases eq_or_ne q p with rfl | hne
  · exact ⟨hl, m, hp, hstate⟩
  · rw [queued_setQueued, if_neg hne] at hq
    exact hqueued hq

/-- A stop is returned of which no parent has been told. -/
theorem Inv.report (r : StopReport)
    (hr : ∀ c n, r.tells c n = true → ∀ r' ∈ s.stopReports, r'.tells c n = false) :
    { s with stopReports := s.stopReports ++ [r] }.Inv := by
  refine ⟨h.family, h.pids, h.idle, fun q => (h.sound q).congr rfl rfl rfl, h.asked, fun c n => ?_⟩
  rw [List.filter_append]
  cases htells : r.tells c n with
  | false => simpa [htells] using h.stopsOnce c n
  | true =>
    have hnone : s.stopReports.filter (·.tells c n) = [] :=
      List.filter_eq_nil_iff.2 fun r' hr' => by simp [hr c n htells r' hr']
    simp [hnone, htells]

/-- The end of a wait call that collects nobody. -/
theorem Inv.endWait (hp : s.processes p = some m)
    (hphase : s.phase p = .waiting w target options) : (s.setPhase p .user).Inv := by
  refine h.setPhase hp ?_ rfl rfl (by simp)
  rw [hphase]
  rfl

/-- The first section of a wait call. -/
theorem Inv.scan (hp : s.processes p = some me) (hstate : me.state = .running)
    (hphase : s.phase p = .waiting w target options) (hcomparable : s.Comparable me target)
    (hown : s.OwnEnded me target) (huntold : s.UntoldStops p me target options) (copied : Bool) :
    ∃ r, s.wait4Scan p target options = .ok r ∧ (s.finishScan p options copied r).Inv := by
  have hend := h.endWait hp hphase
  obtain ⟨r, hr, ⟨rfl, -⟩ | rfl | ⟨c, hmem, m, ⟨hc, hsel⟩, hreport⟩⟩ := wait4Scan_ok hp hcomparable
  · exact ⟨_, hr, hend⟩
  · refine ⟨_, hr, ?_⟩
    change Inv (if wnohang options then s.setPhase p .user else s)
    split_ifs
    · exact hend
    · exact h
  refine ⟨r, hr, ?_⟩
  unfold childReport at hreport
  split_ifs at hreport with hended hstopped htraced hcontinued <;>
    cases hreport
  · -- The child has ended.
    have hchild : c ∈ me.children :=
      (mem_candidates.1 hmem).elim id fun htracee => hown c htracee m hc hended hsel
    have hlive : me.ended = false := by rw [ended, hstate]; rfl
    exact h.claim hp hlive (by rw [hphase]; rfl) hchild hc hended options copied _
  · -- The child is stopped.
    unfold finishScan
    simp only [Bool.false_eq_true, if_false]
    split_ifs
    · refine hend.report _ fun c' n htells => ?_
      simp only [StopReport.tells, Bool.and_eq_true, decide_eq_true_eq] at htells
      obtain ⟨⟨rfl, rfl⟩, hparent⟩ := htells
      have hparent' : m.parent = some p := by
        change (s.processes c).bind parent = some p at hparent
        rwa [hc] at hparent
      exact huntold hstopped.2 c hmem m hc hstopped.1 hsel hparent'
    · exact hend
  · -- The child is stopped for its tracer.
    exact hend.onProc (fun _ => rfl) (fun _ => rfl) fun m' hm' => (h.sound c).group m' hm'
  · exact hend.onProc (fun _ => rfl) (fun _ => rfl) fun m' hm' => (h.sound c).group m' hm'

/-! ### The events one by one -/

theorem runOn_ok (hstep : ∀ m, s.processes p = some m → ∃ s', step m = .ok s' ∧ s'.Inv) :
    ∃ s', s.runOn p step = .ok s' ∧ s'.Inv := by grind [runOn]

theorem runActing_ok (hstep : ∀ m, s.acting p = some m → ∃ s', step m = .ok s' ∧ s'.Inv) :
    ∃ s', s.runActing p step = .ok s' ∧ s'.Inv := by grind [runActing]

theorem runWaiting_ok {step : Phase → Except Panic Tree}
    (hstep : ∀ m, s.processes p = some m → m.state = .running →
      ∃ s', step (s.phase p) = .ok s' ∧ s'.Inv) :
    ∃ s', s.runWaiting p step = .ok s' ∧ s'.Inv := by grind [runWaiting]

theorem Inv.enterWait (hact : s.acting p = some m) (options : UInt64) {x : Wanted × Option ℤ}
    (hx : ∀ w target, x = (w, some target) → Covers w target) : (s.enterWait p options x).Inv := by
  obtain ⟨hphase, hp, -⟩ := exists_acting hact
  obtain ⟨w, target | target⟩ := x
  · exact h
  · refine h.setPhase hp (by rw [hphase]; rfl) rfl rfl ?_
    rintro w target options ⟨⟩
    exact hx w target rfl

theorem Inv.stop (hact : s.acting p = some m) (site : String) : ∃ m',
    m.setState p .stopped site = .ok m' ∧
      { (s.setProc p m').setQueued p false with
        stops := Function.update s.stops p (s.stops p + 1) }.Inv := by
  obtain ⟨-, -, hstate⟩ := exists_acting hact
  have htransition : stateTransitionOk m.state .stopped = true := by rw [hstate]; rfl
  refine ⟨_, setState_eq htransition, ?_⟩
  have hpause : ((s.setProc p { m with state := .stopped }).setQueued p false).Inv :=
    h.pause hact rfl rfl rfl
  exact ⟨hpause.family, hpause.pids, hpause.idle, fun q => (hpause.sound q).congr rfl rfl rfl,
    hpause.asked, hpause.stopsOnce⟩

/-- **A careful step does not panic, and keeps the invariant.** -/
theorem Inv.run {e : Event} (he : s.Careful e) : ∃ s', s.run e = .ok s' ∧ s'.Inv := by
  have hgroup : ∀ p m, s.processes p = some m → 0 < m.pgid := fun p => (h.sound p).group
  cases e with
  | register isKernel => exact ⟨_, rfl, h.register he isKernel⟩
  | fork p vfork outcome =>
    exact runActing_ok h fun m hm => ⟨_, rfl, h.fork he (exists_acting hm).2.1 outcome vfork⟩
  | cloneThread p outcome =>
    exact runActing_ok h fun m hm => ⟨_, rfl, h.cloneThread he (exists_acting hm).2.1 outcome⟩
  | setPgid p pgid =>
    refine ⟨_, rfl, h.onProc (fun _ => rfl) (fun _ => rfl) fun m hm => ?_⟩
    split_ifs with hzero
    · exact (h.family.known p m.kin (kin_family hm)).1
    · exact Nat.pos_of_ne_zero hzero
  | setCreds p _ _ | setSubreaper p _ | stagePidNs p _ | setContinuedLatch p | setPendingExit p _ =>
    exact ⟨_, rfl, h.onProc (fun _ => rfl) (fun _ => rfl) (hgroup p)⟩
  | schedule p state => exact runOn_ok h fun m hm => ⟨_, rfl, h.schedule hm state⟩
  | setQueued p b =>
    cases b with
    | false => exact ⟨_, rfl, h.dequeue p⟩
    | true =>
      obtain ⟨hl, m, hm, hstate⟩ := he rfl
      exact ⟨_, rfl, h.enqueue hl hm hstate⟩
  | stop p =>
    refine runActing_ok h fun m hm => ?_
    obtain ⟨m', hm', hinv⟩ := h.stop hm "park"
    simp only [hm', bind, Except.bind]
    exact ⟨_, rfl, hinv⟩
  | requestContinue p =>
    refine runOn_ok h fun m hm => ?_
    split_ifs with hstate
    · exact h.proceed hm hstate (.inl rfl) (fun _ => rfl) (fun _ => rfl) _
    · exact ⟨s, rfl, h⟩
  | exit p code => exact runActing_ok h fun m hm => ⟨_, rfl, h.beginExit hm _ true⟩
  | fatal p st => exact runActing_ok h fun m hm => ⟨_, rfl, h.beginExit hm st false⟩
  | adoptNext p =>
    refine runOn_ok h fun m hm => ?_
    split
    · exact ⟨_, rfl, h.adoptNext hm ‹_›⟩
    · exact ⟨s, rfl, h⟩
  | detachOrphanedTracees p =>
    refine runOn_ok h fun m hm => ?_
    split
    · exact ⟨_, rfl, h.detachOrphanedTracees hm ‹_›⟩
    · exact ⟨s, rfl, h⟩
  | publishCorpse p =>
    refine runOn_ok h fun m hm => ?_
    split_ifs with hphase
    · exact h.publishCorpse hm hphase
    · exact ⟨s, rfl, h⟩
  | sigkill target => exact runOn_ok h fun m hm => h.sigkill hm
  | traceme p => exact runActing_ok h fun m _ => ⟨_, rfl, h.traceme p m⟩
  | attach p target =>
    refine runActing_ok h fun caller hcaller => runOn_ok h fun m hm => ?_
    split_ifs
    · exact ⟨s, rfl, h⟩
    · by_cases hmay : mayAttach m caller.euid = true
      · exact h.requestPtraceAttach (exists_acting hcaller).2.1 hm (he caller hcaller m hm hmay)
      · exact ⟨s, if_neg hmay, h⟩
  | setOptions p target options =>
    refine runActing_ok h fun _ _ => runOn_ok h fun m hm => ?_
    split_ifs
    · refine ⟨_, rfl, ?_⟩
      have hset : s.setProc target { m with trace := m.trace.setOptions options } =
          s.onProc target fun m => { m with trace := m.trace.setOptions options } := by
        rw [Tree.setProc, Tree.onProc, hm, map_some]
      rw [hset]
      exact h.onProc (fun _ => rfl) (fun _ => rfl) (hgroup target)
    · exact ⟨s, rfl, h⟩
  | traceStop p reason =>
    refine runActing_ok h fun m hm => ?_
    unfold parkForTraceStop
    split_ifs
    · have hstate := (exists_acting hm).2.2
      have htransition : stateTransitionOk m.state .traced = true := by rw [hstate]; rfl
      simp only [setState_eq htransition, bind, Except.bind]
      exact ⟨_, rfl, h.pause hm rfl rfl rfl⟩
    · exact ⟨s, rfl, h⟩
  | resumeTraced p target traceSyscall =>
    refine runActing_ok h fun _ _ => runOn_ok h fun m hm => ?_
    unfold Tree.resumeTraced
    split_ifs with hok
    · exact h.proceed (f := fun x => { x with trace := x.trace.resume traceSyscall }) hm hok.2
        (.inr (.inr rfl)) (fun _ => rfl) (fun _ => rfl) _
    · exact ⟨s, rfl, h⟩
  | detach p target =>
    exact runActing_ok h fun _ _ => runOn_ok h fun m _ => ⟨_, rfl, h.ptraceDetach p target m⟩
  | ptraceKill p target =>
    refine runActing_ok h fun _ _ => runOn_ok h fun m hm => ?_
    unfold Tree.ptraceKill
    split_ifs with hok
    · exact h.proceed (f := fun x => { x with trace := x.trace.clearStop }) hm hok.2
        (.inr (.inr rfl)) (fun _ => rfl) (fun _ => rfl) _
    · exact ⟨s, rfl, h⟩
  | wait4 p pid options =>
    refine runActing_ok h fun m hm => ⟨_, rfl, h.enterWait hm options fun w target hw => ?_⟩
    exact covers_wait4Target he hw
  | waitid p idtype id options =>
    refine runActing_ok h fun m hm => ?_
    split
    · rename_i x hx
      refine ⟨_, rfl, h.enterWait hm options fun w target hw => ?_⟩
      exact covers_waitidTarget (hx.trans (congrArg some hw))
    · exact ⟨s, rfl, h⟩
  | scan p copied =>
    rw [Tree.run]
    refine runWaiting_ok h fun m hm hstate => ?_
    change s.CarefulScan p (s.phase p) at he
    cases hphase : s.phase p with
    | waiting w target options =>
      rw [hphase] at he
      obtain ⟨hcomparable, hown, huntold⟩ := he m hm
      obtain ⟨r, hr, hinv⟩ := h.scan hm hstate hphase hcomparable hown huntold copied
      simp only [hr, bind, Except.bind]
      exact ⟨_, rfl, hinv⟩
    | _ => exact ⟨s, rfl, h⟩
  | interrupted p =>
    rw [Tree.run]
    refine runWaiting_ok h fun m hm _ => ?_
    cases hphase : s.phase p with
    | waiting w target options => exact ⟨_, rfl, h.endWait hm hphase⟩
    | _ => exact ⟨s, rfl, h⟩
  | finishReap p copied =>
    obtain rfl : copied = true := he
    rw [Tree.run]
    refine runWaiting_ok h fun m hm hstate => ?_
    have hlive : m.ended = false := by rw [ended, hstate]; rfl
    cases hphase : s.phase p with
    | reaping c status => exact h.finishReap hm hlive hphase
    | _ => exact ⟨s, rfl, h⟩

end

/-! ### What a parent gets -/

theorem waitSelectorMatches_pid (hpos : 0 < c) (q g callerPgid : Pid) :
    waitSelectorMatches c q g callerPgid = .ok (decide (q = c)) := by
  rw [waitSelectorMatches, if_pos (Int.natCast_pos.2 hpos)]
  simp

/-- A call for one child that has ended finds it. -/
theorem scanCandidates_pid (hpos : 0 < c) (hc : s.processes c = some m) (hended : m.ended = true)
    {cs : List Pid} (hmem : c ∈ cs) :
    s.anySelected c me.pgid cs = .ok true ∧
      s.scanCandidates me c options cs = .ok (.reap c (exitStatus m.state)) := by
  induction cs with
  | nil => cases hmem
  | cons d cs ih =>
    rw [anySelected, scanCandidates]
    rcases eq_or_ne d c with rfl | hne
    · simp_all [childReport, waitSelectorMatches_pid]
    · have hmem' : c ∈ cs := (List.mem_cons.1 hmem).resolve_left hne.symm
      cases hd : s.processes d with
      | none => exact ih hmem'
      | some x => simpa [waitSelectorMatches_pid hpos, hne, bind, Except.bind] using ih hmem'

theorem wait4Scan_pid (hp : s.processes p = some me) (hpos : 0 < c) (hc : s.processes c = some m)
    (hended : m.ended = true) (hmem : c ∈ me.children) (options : UInt64) :
    s.wait4Scan p c options = .ok (.reap c (exitStatus m.state)) := by
  obtain ⟨hany, hscan⟩ := @scanCandidates_pid s c m me options hpos hc hended _
    (mem_candidates.2 (.inl hmem))
  have hsome : ¬(me.children = [] ∧ me.trace.tracees = []) := fun hnil => by simp [hnil.1] at hmem
  simp only [wait4Scan, hp, if_neg hsome, hany, hscan, bind, Except.bind, if_true]

/-- The child has ended and nothing has been told of it.  If its parent is there and has not ended,
then a call of the parent for this child returns its status, or is doing so. -/
def Waitable (s : Tree) (c : Pid) : Prop :=
  ∃ m, s.processes c = some m ∧ m.ended = true ∧ (∀ r ∈ s.terminations, r.child ≠ c) ∧
    ∀ p me, m.parent = some p → s.processes p = some me → me.ended = false →
      (∀ options, s.wait4Scan p c options = .ok (.reap c (exitStatus m.state))) ∨
        ∃ status, s.phase p = .reaping c status

/-- Every termination is returned to the parent exactly once, if the parent asks for it, and every
stop at most once. -/
structure ReportsOnce (s : Tree) : Prop where
  terminations : ∀ c ∈ s.deaths, s.family.ReturnedOnce c ∨ s.Waitable c
  stops : ∀ c n, (s.stopReports.filter (·.tells c n)).length ≤ 1

/-- The call of a wait that the event makes return `ECHILD`, and what it asks for. -/
def refuses (s : Tree) : Event → Option (Pid × Wanted)
  | .wait4 p pid _ =>
    match s.acting p, s.wait4Target p pid with
    | some _, (w, none) => some (p, w)
    | _, _ => none
  | .waitid p idtype id _ =>
    match s.acting p, s.waitidTarget p idtype id with
    | some _, some (w, none) => some (p, w)
    | _, _ => none
  | .scan p _ =>
    match s.processes p, s.phase p with
    | some me, .waiting w target options =>
      if me.state = .running ∧ s.wait4Scan p target options = .ok .noChildren then some (p, w)
      else none
    | _, _ => none
  | _ => none

/-- The process is a child of the caller, or one that the caller traces. -/
def Relative (p c : Pid) (m : Process) : Prop :=
  m.tgid = c ∧ m.parent = some p ∨ m.trace.tracerPid = some p

/-- The step does not panic, and makes no call return `ECHILD` if the caller has a child or tracee
that it asks for. -/
structure Answers (s : Tree) (e : Event) : Prop where
  runs : ∃ s', s.run e = .ok s'
  refuses : ∀ p w me c m, s.refuses e = some (p, w) → s.processes p = some me →
    s.processes c = some m → Relative p c m → w.selects c m.pgid me.pgid = false

theorem Inv.waitable (h : s.Inv) {k : Kin} (hk : s.family.kin c = some k) (hended : k.ended = true)
    (huntold : ∀ r ∈ s.family.terminations, r.child ≠ c)
    (hlisted : ∀ p kp, k.parent = some p → s.family.kin p = some kp → kp.ended = false →
      c ∈ kp.children ∨ s.family.duty p = .reaping c) : s.Waitable c := by
  obtain ⟨m, hc, rfl⟩ := exists_of_kin hk
  refine ⟨m, hc, hended, huntold, fun p me hparent hp hlive => ?_⟩
  rcases hlisted p me.kin hparent (kin_family hp) hlive with hmem | hduty
  · have hpos : 0 < c := (h.family.known c m.kin hk).1
    exact .inl fun options => wait4Scan_pid hp hpos hc hended hmem options
  right
  change (s.phase p).duty = .reaping c at hduty
  cases hphase : s.phase p with
  | reaping c' status =>
    rw [hphase] at hduty
    cases hduty
    exact ⟨status, rfl⟩
  | _ =>
    rw [hphase] at hduty
    cases hduty

theorem Inv.reportsOnce (h : s.Inv) : s.ReportsOnce where
  terminations c hc := by
    rcases h.family.settled hc with hreturned | ⟨k, hk, hended, huntold, hlisted⟩
    · exact .inl hreturned
    · exact .inr (h.waitable hk hended huntold hlisted)
  stops := h.stopsOnce

/-- A child or tracee of a process that has chosen nobody is one of those that a wait call of the
process looks at. -/
theorem Inv.mem_candidates (h : s.Inv) (hp : s.processes p = some me) (hlive : me.ended = false)
    (hfree : (s.phase p).duty = .free) (hc : s.processes c = some m) (hrel : Relative p c m) :
    c ∈ candidates me := by
  have hduty : s.family.duty p = .free := hfree
  refine Tree.mem_candidates.2 ?_
  rcases hrel with ⟨hleader, hparent⟩ | htracer
  · left
    have hlisted := h.family.listed c m.kin p me.kin (kin_family hc) hleader hparent (kin_family hp)
      hlive
    exact hlisted.resolve_right (by simp [hduty])
  · right
    have htraced := h.family.traced c m.kin p me.kin (kin_family hc) htracer (kin_family hp) hlive
    exact htraced.resolve_right (by simp [hduty])

/-- A number that means no process asks for nobody. -/
theorem selects_wait4Target (hw : s.wait4Target p pid = (w, none))
    (c pgid callerPgid : Pid) : w.selects c pgid callerPgid = false := by
  grind [wait4Target, toNat_mod_of_pos, Wanted.selects]

theorem selects_waitidTarget (hw : s.waitidTarget p idtype id = some (w, none))
    (c pgid callerPgid : Pid) : w.selects c pgid callerPgid = false := by
  grind [waitidTarget, Wanted.selects]

/-- A wait call that finds nobody has asked for nobody. -/
theorem Inv.selects_scan (h : s.Inv) (hp : s.processes p = some me) (hstate : me.state = .running)
    (hphase : s.phase p = .waiting w target options) (hcomparable : s.Comparable me target)
    (hscan : s.wait4Scan p target options = .ok .noChildren) (hc : s.processes c = some m)
    (hrel : Relative p c m) : w.selects c m.pgid me.pgid = false := by
  have hlive : me.ended = false := by rw [ended, hstate]; rfl
  have hmem := h.mem_candidates hp hlive (by rw [hphase]; rfl) hc hrel
  have hnone : ∀ c ∈ candidates me, ∀ m, ¬s.Selected target me.pgid c m := by
    obtain ⟨r, hr, ⟨-, hnone⟩ | rfl | ⟨d, -, x, -, hreport⟩⟩ := @wait4Scan_ok s p me target options
      hp hcomparable
    · exact hnone
    · cases hr.symm.trans hscan
    · grind [childReport]
  refine Bool.eq_false_iff.2 fun hsel => hnone c hmem m ⟨hc, ?_⟩
  have hmin : target ≠ i64Min := fun hmin => by simp [hcomparable hmin c hmem] at hc
  exact h.asked p w target options hphase hmin c m.pgid me.pgid
    (h.family.known c m.kin (kin_family hc)).1 ((h.sound c).group m hc) hsel

theorem Inv.answers (h : s.Inv) {e : Event} (he : s.Careful e) : s.Answers e where
  runs := (h.run he).imp fun _ hs' => hs'.1
  refuses p w me c m hrefuses hp hc hrel := by
    unfold refuses at hrefuses
    cases e with
    | wait4 p' pid options =>
      dsimp only at hrefuses
      split at hrefuses
      · grind [selects_wait4Target]
      · cases hrefuses
    | waitid p' idtype id options =>
      dsimp only at hrefuses
      split at hrefuses
      · grind [selects_waitidTarget]
      · cases hrefuses
    | scan p' copied =>
      dsimp only at hrefuses
      split at hrefuses
      · rename_i me' w' target options hp' hphase
        split_ifs at hrefuses with hscan
        cases hrefuses
        cases hp.symm.trans hp'
        change s.CarefulScan p (s.phase p) at he
        rw [hphase] at he
        exact h.selects_scan hp hscan.1 hphase (he me hp).1 hscan.2 hc hrel
      · cases hrefuses
    | _ => cases hrefuses

/-- **Every child is reported once.**  In every state of a run of careful steps each termination has
been returned to the parent exactly once or waits for it, each stop has been returned to the parent
at most once, and no careful step panics or returns `ECHILD` to a caller that has a child or tracee
of the kind it asks for. -/
theorem always_reports {es : List Event} (hes : Runs.Meets step Careful es boot) :
    Runs.Always step (fun s => s.ReportsOnce ∧ ∀ e, s.Careful e → s.Answers e) es boot := by
  refine Runs.always_of_invariant (fun s e s' hs he hstep => ?_)
    (fun s hs => ⟨hs.reportsOnce, fun e he => hs.answers he⟩) inv_boot hes
  obtain ⟨s₁, hrun, hinv⟩ := hs.run he
  have hs' : some s₁ = some s' := by rw [← hstep, step, hrun]; rfl
  exact some.inj hs' ▸ hinv

/-- A process with a child, which runs. -/
def withChild : List Event :=
  [.register false, .schedule 1 .running, .fork 1 false .made, .schedule 2 .running]

/-- The process ends. -/
def ends (p : Pid) (code : ℤ) : List Event :=
  [.exit p code, .detachOrphanedTracees p, .publishCorpse p]

/-- The process waits for the given children, and for what they are doing. -/
def waits (p : Pid) (pid options : UInt64) : List Event := [.wait4 p pid options, .scan p true]

/-- A child stops, goes on and ends; its parent hears of both. -/
def ordinaryLife : List Event :=
  withChild ++ [.stop 2] ++ waits 1 (-1) 2 ++ [.requestContinue 2, .schedule 2 .running] ++
    ends 2 3 ++ waits 1 2 0 ++ [.finishReap 1 true]

/-- Who has ended and what has been reported at the end of a run. -/
def reports (es : List Event) : Option (List Pid × List Termination × List StopReport) :=
  (Runs.exec step es boot).map fun s => (s.deaths, s.terminations, s.stopReports)

theorem always_reports_ordinaryLife :
    Runs.Always step (fun s => s.ReportsOnce ∧ ∀ e, s.Careful e → s.Answers e) ordinaryLife boot ∧
      reports ordinaryLife = some ([2], [⟨1, 2, some 1, 3 * 256, true⟩], [⟨1, 2, some 1, 1⟩]) :=
  ⟨always_reports (by decide +kernel), by decide +kernel⟩

/-- The panic of an event at the end of a run. -/
def panicAfter (es : List Event) (e : Event) : Option Panic :=
  (Runs.exec step es boot).bind fun s =>
    match s.run e with
    | .error x => some x
    | .ok _ => none

/-- One child traces another one and waits for it when it has ended. -/
def theft : List Event :=
  withChild ++ [.fork 1 false .made, .schedule 3 .running, .attach 2 3] ++ ends 3 0 ++
    waits 2 3 0 ++ [.finishReap 2 true]

/-- A process in a namespace of its own waits for the process group of its child, which has the
number 2 there. -/
def groupWait : List Event :=
  [.register false, .schedule 1 .running, .stagePidNs 1 [1, 0], .fork 1 false .made,
    .schedule 2 .running, .fork 2 false .made, .setPgid 3 3, .wait4 2 (-2) 0]

/-- The six ways in which reports get lost, are repeated or make the kernel panic. -/
theorem reports_go_wrong :
    -- The tracer takes the termination, and the parent finds no child.
    reports theft = some ([3], [⟨2, 3, some 1, 0, true⟩], []) ∧
      ((Runs.exec step theft boot).map fun s => s.wait4Scan 1 3 0) = some (.ok .noChildren) ∧
    -- The status cannot be written, and the child is gone.
    reports (withChild ++ ends 2 0 ++ waits 1 2 0 ++ [.finishReap 1 false]) =
      some ([2], [⟨1, 2, some 1, 0, false⟩], []) ∧
    -- One stop is returned twice.
    reports (withChild ++ [.stop 2] ++ waits 1 2 2 ++ waits 1 2 2) =
      some ([], [], [⟨1, 2, some 1, 1⟩, ⟨1, 2, some 1, 1⟩]) ∧
    -- The process group is looked for under its number in the namespace of the caller.
    ((Runs.exec step groupWait boot).bind fun s => s.refuses (.scan 2 true)) =
      some (2, .group (some 3)) ∧
    ((Runs.exec step groupWait boot).bind fun s => (s.processes 3).map fun m =>
      (m.parent, m.pgid)) = some (some 2, 3) ∧
    -- The smallest number is negated.
    panicAfter (withChild ++ [.wait4 1 (2 ^ 63) 0]) (.scan 1 true) = some .negOverflow ∧
    -- A process that sleeps is attached to.
    panicAfter (withChild ++ [.schedule 2 .parked]) (.attach 1 2) =
      some (.badStateTransition "trace_ctl" 2 .parked .traced) := by
  refine ⟨?_, ?_, ?_, ?_, ?_, ?_, ?_, ?_⟩ <;> decide +kernel

/-- The list of children of a live process that has nothing to finish agrees with the parents. -/
def LinksAgree (s : Tree) : Prop :=
  ∀ p m, s.processes p = some m → m.ended = false → (s.phase p).duty = .free →
    m.children.Nodup ∧ ∀ c mc, s.processes c = some mc →
      (c ∈ m.children ↔ mc.tgid = c ∧ mc.parent = some p)

/-- **Parents and children agree** in every state of such a run. -/
theorem always_linked {es : List Event} (hes : Runs.Meets step Careful es boot) :
    Runs.Always step LinksAgree es boot := by
  refine Runs.always_of_invariant (fun s e s' hs he hstep => ?_)
    (fun s hs p m hp hlive hfree => ?_) inv_boot hes
  · obtain ⟨s₁, hrun, hinv⟩ := hs.run he
    rw [step, hrun] at hstep
    exact some.inj hstep ▸ hinv
  have hkin := kin_family hp
  have hduty : s.family.duty p = .free := hfree
  refine ⟨hs.family.nodup p _ hkin, fun c mc hc => ⟨fun hmem => ⟨?_, ?_⟩, fun h => ?_⟩⟩
  · exact hs.family.heads p _ c _ hkin hmem (kin_family hc)
  · exact hs.family.parents p _ c _ hkin hlive (by simp [hduty]) (by simp [hduty]) hmem
      (kin_family hc)
  · have hlisted := hs.family.listed c _ p _ (kin_family hc) h.1 h.2 hkin hlive
    exact hlisted.resolve_right (by simp [hduty])

theorem always_linked_ordinaryLife : Runs.Always step LinksAgree ordinaryLife boot :=
  always_linked (by decide +kernel)

end CypheraKernel.Wait.Tree
