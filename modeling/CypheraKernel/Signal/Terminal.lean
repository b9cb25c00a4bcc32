import CypheraKernel.Signal.Permission

/-!
# Signals from terminals

`kernel/src/core/tty.rs`: the signals that a terminal raises for a process group.

`Fits`, `reaches_iff`: the signal is sent to the process whose number is that of the group, which
is right only if this process is the whole group.
-/

namespace CypheraKernel.Signal

open Sched Lists List Function Table

/-! ### Terminals -/

/-- The terminals. -/
inductive TtyId
  | console
  | pty (n : UInt32)
  deriving DecidableEq, Repr

def ttyIdForInode (inodeId : UInt64) : TtyId :=
  let bits : UInt64 := (3 : UInt64) <<< 62
  if inodeId &&& bits ≠ 0 then .pty (inodeId &&& ~~~bits).toUInt32 else .console

/-- The session of a terminal and the process group in the foreground; `0` is none. -/
structure Ctty where
  (session foregroundPgrp : Pid)
  deriving DecidableEq, Repr

/-- A signal raised for a process group, and what was sent. -/
structure Raise where
  pgrp : Pid
  signal : Signo
  events : List Event

/-- The processes, the terminals, the controlling terminal of each process, and the history. -/
structure Terminals where
  table : Table
  cttys : TtyId → Option Ctty
  ctty : Pid → Option TtyId
  raises : List Raise

def sighup : Signo := 1
def sigint : Signo := 2
def sigquit : Signo := 3
def sigtstp : Signo := 20
def sigttin : Signo := 21
def sigttou : Signo := 22

namespace Table

variable (t : Table)

/-- The process groups of a session, by the leaders of its processes. -/
def sessionPgrps (sid : Pid) : List Pid :=
  ((t.processes.entries.filter fun e => e.2.sid = sid ∧ e.2.tgid = e.1).map
    fun e => e.2.pgid).foldl pushNew []

/-- The process keeps its group from being orphaned: it is alive and has a parent, other than the
one that is dying, in another group of the session. -/
def anchors (sid pgrp dying pid : Pid) (p : Proc) : Bool :=
  p.pgid = pgrp && p.sid = sid && !stateIsTerminal (t.state pid) &&
    p.parent.any fun parent => parent ≠ dying &&
      (t.proc? parent).any fun pp => pp.sid = sid && pp.pgid ≠ pgrp

def pgrpIsOrphaned (sid pgrp dying : Pid) : Bool :=
  !t.processes.entries.any fun e => t.anchors sid pgrp dying e.1 e.2

def pgrpHasStopped (pgrp : Pid) : Bool :=
  t.processes.entries.any fun e => e.2.pgid = pgrp && t.state e.1 = .stopped

/-- The process groups that the end of the process `p` may orphan: those of its children in the
session, then its own. -/
def orphanCandidates (p : Proc) : List Pid :=
  pushNew ((((p.children.filterMap t.proc?).filter fun c => c.pgid ≠ p.pgid ∧ c.sid = p.sid).map
    Proc.pgid).foldl pushNew []) p.pgid

def signalIsPassive (pid : Pid) (s : Signo) : Bool :=
  match t.proc? pid with
  | none => true
  | some p => has (t.signals pid).blocked s || (p.sigactions s).handler = 1

end Table

/-- The answer to background I/O. -/
inductive BgIo
  | allow
  | stop
  | eio
  deriving DecidableEq, Repr

namespace Terminals

def foregroundPgrp (w : Terminals) (tty : TtyId) : Pid :=
  ((w.cttys tty).map Ctty.foregroundPgrp).getD 0

def session (w : Terminals) (tty : TtyId) : Pid := ((w.cttys tty).map Ctty.session).getD 0

variable (w : Terminals) (cur : Option Pid)

/-- Send the signal to the process with the number of the group, as all the functions below do. -/
def raise (pgrp : Pid) (s : Signo) (info : PendingSigInfo) : Terminals :=
  let table := (w.table.fresh.sendGroupSignal pgrp (.ofNat s.val) info).2
  { w with table, raises := w.raises ++ [⟨pgrp, s, table.events⟩] }

/-- `SIGHUP` and then `SIGCONT`. -/
def hup (pgrp : Pid) : Terminals :=
  (w.raise pgrp sighup (.forKill 0)).raise pgrp sigcont (.forKill 0)

/-- `set_session_ctty`, for no terminal. -/
def clearSessionCtty (sid : Pid) : Terminals :=
  { w with ctty := fun pid =>
      if (w.table.proc? pid).any fun p => p.sid = sid && p.tgid = pid then none else w.ctty pid }

def dropSession (tty : TtyId) : Terminals :=
  match w.cttys tty with
  | none => w
  | some c =>
    let w := { w with cttys := update w.cttys tty (some ⟨0, 0⟩) }
    if c.session ≠ 0 then w.clearSessionCtty c.session else w

def hangup (tty : TtyId) : Terminals :=
  match w.cttys tty with
  | none => w
  | some c =>
    let w := if c.foregroundPgrp ≠ 0 then w.hup c.foregroundPgrp else w
    let w :=
      if c.session ≠ 0 then
        (w.table.sessionPgrps c.session).foldl
          (fun w pg => if pg = c.foregroundPgrp then w else w.hup pg) w
      else w
    w.dropSession tty

def sessionLeaderExit (leader : Pid) : Terminals :=
  match w.table.proc? leader with
  | none => w
  | some p =>
    if p.sid ≠ leader then w
    else
      match w.ctty leader with
      | none => w
      | some tty => if w.session tty = p.sid then w.hangup tty else w

/-- One round of `handle_orphaned_pgrps_on_exit`. -/
def orphanStep (sid dying : Pid) (w : Terminals) (pg : Pid) : Terminals :=
  if w.table.pgrpHasStopped pg = false then w
  else if w.table.pgrpIsOrphaned sid pg dying then w.hup pg
  else w

def handleOrphanedPgrpsOnExit (dying : Pid) : Terminals :=
  match w.table.proc? dying with
  | none => w
  | some p => (w.table.orphanCandidates p).foldl (orphanStep p.sid dying) w

def bgPgrpAction (tty : TtyId) (s : Signo) : BgIo :=
  match cur with
  | none => .allow
  | some pid =>
    match w.table.proc? pid with
    | none => .allow
    | some p =>
      let fg := w.foregroundPgrp tty
      let owner := w.session tty
      if owner = 0 ∨ owner ≠ p.sid then .allow
      else if fg = 0 ∨ fg = p.pgid then .allow
      else if w.table.signalIsPassive pid s then if s = sigttin then .eio else .allow
      else if w.table.pgrpIsOrphaned p.sid p.pgid 0 then .eio
      else .stop

/-- `bg_io_guard`; the current process is there when the answer is `Stop`. -/
def bgIoGuard (inodeId : UInt64) (s : Signo) : Except Errno Unit × Terminals :=
  match w.bgPgrpAction cur (ttyIdForInode inodeId) s with
  | .allow => (.ok (), w)
  | .eio => (.error .io, w)
  | .stop => (.error .intr, w.raise (w.table.currentPgid (cur.getD 0)) s (.forKill 0))

def backgroundReadGuard (inodeId : UInt64) : Except Errno Unit × Terminals :=
  w.bgIoGuard cur inodeId sigttin

def backgroundWriteGuard (inodeId : UInt64) : Except Errno Unit × Terminals :=
  w.bgIoGuard cur inodeId sigttou

/-- The signals that the line discipline raises, by their numbers. -/
def inputSignal (byteSignal : UInt32) : Option Signo :=
  if byteSignal = 0 then some sigint
  else if byteSignal = 1 then some sigquit
  else if byteSignal = 2 then some sigtstp
  else none

def deliverInputSignal (tty : TtyId) (byteSignal : UInt32) : Terminals :=
  match inputSignal byteSignal with
  | none => w
  | some s =>
    let fg := w.foregroundPgrp tty
    if fg ≠ 0 then w.raise fg s (.forFault 0) else w

end Terminals

/-! ### Causes -/

/-- Why a signal is raised. -/
inductive Cause
  | input (tty : TtyId) (byteSignal : UInt32)
  | backgroundRead (cur : Option Pid) (inodeId : UInt64)
  | backgroundWrite (cur : Option Pid) (inodeId : UInt64)
  | hangup (tty : TtyId)
  | leaderExit (leader : Pid)
  | exit (dying : Pid)

/-- The two signals of a hangup. -/
def hupTargets (pgrp : Pid) : List (Pid × Signo) := [(pgrp, sighup), (pgrp, sigcont)]

namespace Terminals

def backgroundTargets (w : Terminals) (cur : Option Pid) (inodeId : UInt64) (s : Signo) :
    List (Pid × Signo) :=
  if w.bgPgrpAction cur (ttyIdForInode inodeId) s = .stop then
    [(w.table.currentPgid (cur.getD 0), s)]
  else []

/-- The groups that a hangup is about: the one in the foreground, then the others of the session. -/
def hangupPgrps (w : Terminals) (tty : TtyId) : List Pid :=
  match w.cttys tty with
  | none => []
  | some c =>
    (if c.foregroundPgrp ≠ 0 then [c.foregroundPgrp] else []) ++
      if c.session ≠ 0 then
        (w.table.sessionPgrps c.session).filter fun pg => pg ≠ c.foregroundPgrp
      else []

/-- The groups with a stopped process that are orphaned by the end of a process. -/
def orphanedPgrps (w : Terminals) (dying : Pid) : List Pid :=
  match w.table.proc? dying with
  | none => []
  | some p => (w.table.orphanCandidates p).filter fun pg =>
      w.table.pgrpHasStopped pg && w.table.pgrpIsOrphaned p.sid pg dying

end Terminals

namespace Cause

def run (w : Terminals) : Cause → Terminals
  | input tty byteSignal => w.deliverInputSignal tty byteSignal
  | backgroundRead cur inodeId => (w.backgroundReadGuard cur inodeId).2
  | backgroundWrite cur inodeId => (w.backgroundWriteGuard cur inodeId).2
  | hangup tty => w.hangup tty
  | leaderExit leader => w.sessionLeaderExit leader
  | exit dying => w.handleOrphanedPgrpsOnExit dying

/-- The process groups for which a signal is to be raised, with the signal. -/
def targets (w : Terminals) : Cause → List (Pid × Signo)
  | input tty byteSignal =>
    match Terminals.inputSignal byteSignal with
    | none => []
    | some s => if w.foregroundPgrp tty ≠ 0 then [(w.foregroundPgrp tty, s)] else []
  | backgroundRead cur inodeId => w.backgroundTargets cur inodeId sigttin
  | backgroundWrite cur inodeId => w.backgroundTargets cur inodeId sigttou
  | hangup tty => (w.hangupPgrps tty).flatMap hupTargets
  | leaderExit leader =>
    match w.table.proc? leader, w.ctty leader with
    | some p, some tty =>
      if p.sid = leader ∧ w.session tty = p.sid then (w.hangupPgrps tty).flatMap hupTargets else []
    | _, _ => []
  | exit dying => (w.orphanedPgrps dying).flatMap hupTargets

end Cause

/-- The process `g` is alive and belongs to the process group: it has a live thread that does. -/
def Member (t : Table) (pgrp g : Pid) : Prop :=
  ∃ q p, t.proc? q = some p ∧ stateIsTerminal (t.state q) = false ∧ p.pgid = pgrp ∧ p.tgid = g

/-- The signal was sent to the live processes of the group and to no other. -/
def Raise.Exact (t : Table) (r : Raise) : Prop :=
  ∀ g s, Event.groupSignal g s ∈ r.events ↔ s = r.signal ∧ Member t r.pgrp g

/-- The signals are raised for the groups that the cause is about, and each of them is sent to the
live processes of its group and to no other. -/
def Reaches (w : Terminals) (cause : Cause) : Prop :=
  ∃ rs, (cause.run w).raises = w.raises ++ rs ∧
    rs.map (fun r => (r.pgrp, r.signal)) = cause.targets w ∧ ∀ r ∈ rs, r.Exact w.table

/-- The process group has no live process but the one with its number, which is in it if it is
alive. -/
structure Fits (t : Table) (pgrp : Pid) : Prop where
  alone : ∀ g, Member t pgrp g → g = pgrp
  leads : ∀ q p, t.proc? q = some p → stateIsTerminal (t.state q) = false → p.tgid = pgrp →
    ∃ g, Member t pgrp g

/-! ### Sending ends and stops nobody -/

section

variable {t t' t'' : Table} {R : Set Pid} {s : Signo} {target pgrp : Pid} {signal : UInt32}

/-- Processes may be resumed on the way from `t` to `t'`, and nothing else changes. -/
structure Resumes (t t' : Table) : Prop where
  processes : t'.processes = t.processes
  state : ∀ q, t'.state q = t.state q ∨
    t'.state q = .runnable ∧ (t.state q = .stopped ∨ t.state q = .parked)

namespace Resumes

theorem refl (t : Table) : Resumes t t := ⟨rfl, fun _ => .inl rfl⟩

theorem trans (h : Resumes t t') (h' : Resumes t' t'') : Resumes t t'' where
  processes := h'.processes.trans h.processes
  state q := by grind [h'.state, h.state]

theorem of_sends (h : Table.Sends R ∅ t t') : Resumes t t' :=
  ⟨h.processes, fun q => .inl (h.state q (Set.notMem_empty q))⟩

theorem proc? (h : Resumes t t') (q : Pid) : t'.proc? q = t.proc? q := by
  rw [Table.proc?, Table.proc?, h.processes]

theorem terminal (h : Resumes t t') (q : Pid) :
    stateIsTerminal (t'.state q) = stateIsTerminal (t.state q) := by
  rcases h.state q with h | ⟨h, hold | hold⟩
  · rw [h]
  · rw [h, hold]
    rfl
  · rw [h, hold]
    rfl

end Resumes

namespace Table

theorem resumes_foldl {f : Table → Pid → Table} (hf : ∀ t m, Resumes t (f t m)) (l : List Pid)
    (t : Table) : Resumes t (l.foldl f t) := by
  induction l generalizing t with
  | nil => exact .refl t
  | cons m l ih => exact (hf t m).trans (ih _)

section

variable (t target)

theorem resumes_requestContinue : Resumes t (t.requestContinue target).2 := by
  refine ⟨(t.sends_requestContinue target).processes, fun q => ?_⟩
  by_cases hq : q = target
  · subst hq
    unfold requestContinue
    split_ifs with h
    · exact .inr ⟨update_self .., .inl h.2⟩
    · exact .inl rfl
  · exact .inl ((t.sends_requestContinue target).state q hq)

theorem resumes_wakeParked (s : Signo) : Resumes t (t.wakeParked target s) := by
  refine ⟨(t.sends_wakeParked target s).processes, fun q => ?_⟩
  by_cases hq : q = target
  · subst hq
    unfold wakeParked
    split_ifs with h
    · exact .inr ⟨update_self .., .inr h.1⟩
    · exact .inl rfl
  · exact .inl ((t.sends_wakeParked target s).state q hq)

theorem resumes_afterContinue (p : Proc) : Resumes t (t.afterContinue target p) := by
  unfold afterContinue
  split_ifs with h
  · exact (t.resumes_requestContinue target).trans (.trans (.of_sends (sends_updateSignals ..))
      (.of_sends (sends_notifyParentStatusChange ..)))
  · exact .refl t

theorem resumes_sendSignalWithInfo (hs : signo? signal = some s) (hkill : s ≠ sigkill)
    (info : PendingSigInfo) : Resumes t (t.sendSignalWithInfo target signal info).2 := by
  unfold sendSignalWithInfo sendWith
  rw [hs]
  cases t.proc? target with
  | none => exact .refl t
  | some p =>
    dsimp only
    rw [if_neg hkill]
    have henqueue : Resumes t (t.enqueueWithAnnihilation target s info) :=
      .of_sends (t.sends_enqueueWithAnnihilation target s info)
    split_ifs
    · exact .refl t
    · exact henqueue.trans (resumes_afterContinue ..)
    · exact henqueue.trans (resumes_wakeParked ..)

end

theorem resumes_continueGroup {members : List Pid} (tgid : Pid) (info : PendingSigInfo)
    (hmembers : ∀ m ∈ members, (t.proc? m).isSome = true) :
    Resumes t (t.continueGroup tgid info members) := by
  have hclear : Sends ∅ ∅ t (t.updateSignals tgid SignalContext.clearGroupStop) :=
    sends_updateSignals ..
  have hsignals := sends_continueSignals (t := t.updateSignals tgid SignalContext.clearGroupStop)
    info fun m hm => by rw [hclear.proc?]; exact hmembers m hm
  have hcontinue := (Resumes.of_sends hclear).trans ((Resumes.of_sends hsignals).trans
    (resumes_foldl (fun t m => t.resumes_requestContinue m) members _))
  unfold continueGroup
  dsimp only
  split_ifs
  · exact hcontinue.trans (.trans (.of_sends (sends_updateSignals ..))
      (.of_sends (sends_notifyParentStatusChange ..)))
  · exact hcontinue

/-- A signal other than `SIGKILL` may resume processes. -/
theorem resumes_sendGroupSignal (t : Table) (tgid : Pid)
    (hs : signo? signal = some s) (hkill : s ≠ sigkill) (info : PendingSigInfo) :
    Resumes t (t.sendGroupSignal tgid signal info).2 := by
  unfold sendGroupSignal groupWith
  rw [hs]
  cases hmembers : t.liveGroupMembers tgid with
  | nil => exact .refl t
  | cons first rest =>
    have hpresent (m : Pid) (hm : m ∈ first :: rest) :
        ((t.record (.groupSignal tgid s)).proc? m).isSome = true :=
      isSome_of_mem_liveGroupMembers (hmembers ▸ hm)
    have hrecord : Resumes t (t.record (.groupSignal tgid s)) := ⟨rfl, fun _ => .inl rfl⟩
    dsimp only
    rw [if_neg hkill]
    split_ifs
    · exact hrecord.trans (.of_sends (sends_initiateGroupStop tgid hpresent))
    · exact hrecord.trans (resumes_continueGroup tgid info hpresent)
    · exact hrecord.trans (resumes_sendSignalWithInfo _ _ hs hkill info)

theorem liveGroupMembers_ne_nil {tgid : Pid} : t.liveGroupMembers tgid ≠ [] ↔
    ∃ q p, t.proc? q = some p ∧ stateIsTerminal (t.state q) = false ∧ p.tgid = tgid := by
  rw [← length_pos_iff, length_pos_iff_exists_mem]
  simp [mem_liveGroupMembers, And.comm]

end Table

theorem Resumes.pgrpIsOrphaned (h : Resumes t t') (sid pgrp dying : Pid) :
    t'.pgrpIsOrphaned sid pgrp dying = t.pgrpIsOrphaned sid pgrp dying := by
  unfold Table.pgrpIsOrphaned Table.anchors
  simp only [h.processes, h.proc?, h.terminal]

theorem Table.pgrpHasStopped_iff : t.pgrpHasStopped pgrp = true ↔
    ∃ q p, t.proc? q = some p ∧ p.pgid = pgrp ∧ t.state q = .stopped := by
  unfold pgrpHasStopped
  simp only [any_eq_true, Bool.and_eq_true, decide_eq_true_eq]
  constructor
  · rintro ⟨⟨q, p⟩, he, hpgid, hq⟩
    exact ⟨q, p, SortedMap.get?_of_mem_entries he, hpgid, hq⟩
  · rintro ⟨q, p, hp, hpgid, hq⟩
    exact ⟨(q, p), SortedMap.mem_entries_of_get? hp, hpgid, hq⟩

theorem Resumes.pgrpHasStopped (h : Resumes t t') (hstopped : t'.pgrpHasStopped pgrp = true) :
    t.pgrpHasStopped pgrp = true := by grind [pgrpHasStopped_iff, h.proc?, h.state]

theorem signo?_ofNat (hs : s ≠ 0) : signo? (.ofNat s.val) = some s := by
  have hval : (UInt32.ofNat s.val).toNat = s.val := by
    rw [UInt32.toNat_ofNat', Nat.mod_eq_of_lt (by omega)]
  have hne : UInt32.ofNat s.val ≠ 0 := by
    intro h
    rw [h] at hval
    exact hs (Fin.ext hval.symm)
  have hlt : (UInt32.ofNat s.val).toNat < 64 := by
    rw [hval]
    exact s.isLt
  rw [signo?, dif_pos ⟨hlt, hne⟩]
  exact congrArg some (Fin.ext hval)

end

/-! ### What is raised -/

namespace Terminals

variable {w w' : Terminals} {ts : List (Pid × Signo)} {pgrp : Pid} {s : Signo}
  {info : PendingSigInfo} {tty : TtyId} {cause : Cause}

/-- What is sent for a group goes to the process with its number. -/
theorem exact_raise (hres : Resumes w.table w'.table) (hs : s ≠ 0) (hkill : s ≠ sigkill) :
    Raise.Exact w.table ⟨pgrp, s, (w'.raise pgrp s info).table.events⟩ ↔ Fits w.table pgrp := by
  have hevent (g : Pid) (u : Signo) :
      Event.groupSignal g u ∈ (w'.raise pgrp s info).table.events ↔
        g = pgrp ∧ u = s ∧ w'.table.liveGroupMembers pgrp ≠ [] := by
    refine (groups_groupWith (signo?_ofNat hs) hkill info _ pgrp g u).trans ?_
    exact or_iff_right (not_mem_nil (a := Event.groupSignal g u))
  have hlive : w'.table.liveGroupMembers pgrp ≠ [] ↔ ∃ q p, w.table.proc? q = some p ∧
      stateIsTerminal (w.table.state q) = false ∧ p.tgid = pgrp := by
    rw [liveGroupMembers_ne_nil]
    simp only [hres.proc?, hres.terminal]
  unfold Raise.Exact
  simp only [hevent]
  constructor
  · intro h
    refine ⟨fun g hg => ((h g s).2 ⟨rfl, hg⟩).1, fun q p hp hq htgid => ?_⟩
    exact ⟨pgrp, ((h pgrp s).1 ⟨rfl, rfl, hlive.2 ⟨q, p, hp, hq, htgid⟩⟩).2⟩
  intro hfits g u
  constructor
  · grind [hfits.leads, hfits.alone]
  · rintro ⟨rfl, hmember⟩
    obtain rfl := hfits.alone g hmember
    obtain ⟨q, p, hp, hq, -, htgid⟩ := hmember
    exact ⟨rfl, rfl, hlive.2 ⟨q, p, hp, hq, htgid⟩⟩

/-- On the way from `w` to `w'` the signals `ts` have been raised, each for its group. -/
structure Logged (w w' : Terminals) (ts : List (Pid × Signo)) : Prop where
  resumes : Resumes w.table w'.table
  log : ∃ rs, w'.raises = w.raises ++ rs ∧ rs.map (fun r => (r.pgrp, r.signal)) = ts ∧
    ∀ r ∈ rs, r.Exact w.table ↔ Fits w.table r.pgrp

theorem Logged.refl (w : Terminals) : Logged w w [] :=
  ⟨.refl _, [], (append_nil _).symm, rfl, by simp⟩

section

variable (h : Logged w w' ts)

include h

theorem Logged.raise (pgrp : Pid) (hs : s ≠ 0) (hkill : s ≠ sigkill)
    (info : PendingSigInfo) : Logged w (w'.raise pgrp s info) (ts ++ [(pgrp, s)]) := by
  obtain ⟨rs, hrs, hts, hexact⟩ := h.log
  have hfresh : Resumes w'.table w'.table.fresh := ⟨rfl, fun _ => .inl rfl⟩
  refine ⟨h.resumes.trans (hfresh.trans
    (resumes_sendGroupSignal _ pgrp (signo?_ofNat hs) hkill info)), ?_⟩
  refine ⟨rs ++ [⟨pgrp, s, (w'.raise pgrp s info).table.events⟩], ?_, ?_, ?_⟩
  · rw [← append_assoc, ← hrs]
    rfl
  · rw [map_append, hts]
    rfl
  · grind [exact_raise, h.resumes]

theorem Logged.hup (pgrp : Pid) : Logged w (w'.hup pgrp) (ts ++ hupTargets pgrp) := by
  have hboth := (h.raise pgrp (s := sighup) (by decide) (by decide) (.forKill 0)).raise pgrp
    (s := sigcont) (by decide) (by decide) (.forKill 0)
  rwa [append_assoc] at hboth

/-- A loop that goes through the groups and passes over some of them. -/
theorem Logged.hups (skip : Pid → Prop) [DecidablePred skip] (l : List Pid) :
    Logged w (l.foldl (fun w pg => if skip pg then w else w.hup pg) w')
      (ts ++ (l.filter fun pg => ¬ skip pg).flatMap hupTargets) := by
  induction l generalizing w' ts with
  | nil => simpa using h
  | cons pg l ih =>
    rw [foldl_cons]
    by_cases hskip : skip pg
    · simp_all
    · rw [if_neg hskip, filter_cons_of_pos (by simpa using hskip), flatMap_cons,
        ← append_assoc]
      exact ih (h.hup pg)

theorem Logged.dropSession (tty : TtyId) : Logged w (w'.dropSession tty) ts := by
  unfold Terminals.dropSession
  split
  · exact h
  · split_ifs
    · exact ⟨h.resumes, h.log⟩
    · exact ⟨h.resumes, h.log⟩

end

/-- Whatever has been raised, the groups that the cause is about must fit. -/
theorem Logged.fits (h : Logged w (cause.run w) ts) (hreaches : Reaches w cause) :
    ∀ x ∈ cause.targets w, Fits w.table x.1 := by
  obtain ⟨rs, hrs, htargets, hexact⟩ := hreaches
  grind [h.log, append_cancel_left]

theorem Logged.reaches (h : Logged w (cause.run w) (cause.targets w))
    (hfits : ∀ x ∈ cause.targets w, Fits w.table x.1) : Reaches w cause := by
  obtain ⟨rs, hrs, htargets, hiff⟩ := h.log
  refine ⟨rs, hrs, htargets, fun r hr => (hiff r hr).2 ?_⟩
  exact hfits (r.pgrp, r.signal) (htargets ▸ mem_map_of_mem hr)

theorem Logged.reaches_iff_fits (h : Logged w (cause.run w) (cause.targets w)) :
    Reaches w cause ↔ ∀ x ∈ cause.targets w, Fits w.table x.1 :=
  ⟨h.fits, h.reaches⟩

/-! ### The causes -/

section

variable (w) (tty : TtyId)

theorem logged_input (byteSignal : UInt32) :
    Logged w (w.deliverInputSignal tty byteSignal) ((Cause.input tty byteSignal).targets w) := by
  unfold deliverInputSignal
  rw [Cause.targets]
  cases hs : inputSignal byteSignal with
  | none => exact .refl w
  | some s =>
    have ⟨hne, hkill⟩ : s ≠ 0 ∧ s ≠ sigkill := by
      unfold inputSignal at hs
      split_ifs at hs <;> obtain rfl := Option.some.inj hs <;> decide
    dsimp only
    split_ifs
    · exact (Logged.refl w).raise _ hne hkill _
    · exact .refl w

theorem logged_background (cur : Option Pid) (inodeId : UInt64) (hs : s ≠ 0) (hkill : s ≠ sigkill) :
    Logged w (w.bgIoGuard cur inodeId s).2 (w.backgroundTargets cur inodeId s) := by
  unfold bgIoGuard backgroundTargets
  cases w.bgPgrpAction cur (ttyIdForInode inodeId) s with
  | allow | eio => exact .refl w
  | stop => exact (Logged.refl w).raise _ hs hkill _

theorem logged_hangup : Logged w (w.hangup tty) ((w.hangupPgrps tty).flatMap hupTargets) := by
  unfold Terminals.hangup hangupPgrps
  cases w.cttys tty with
  | none => exact .refl w
  | some c =>
    refine Logged.dropSession ?_ tty
    rw [flatMap_append]
    have hfg : Logged w (if c.foregroundPgrp ≠ 0 then w.hup c.foregroundPgrp else w)
        ((if c.foregroundPgrp ≠ 0 then [c.foregroundPgrp] else []).flatMap hupTargets) := by
      split_ifs
      · exact (Logged.refl w).hup _
      · exact .refl w
    by_cases hsession : c.session ≠ 0
    · -- the groups of the session are looked up after the signals to the one in the foreground
      rw [if_pos hsession, if_pos hsession, sessionPgrps, hfg.resumes.processes]
      exact hfg.hups (fun pg => pg = c.foregroundPgrp) _
    · simp_all

theorem logged_leaderExit (leader : Pid) :
    Logged w (w.sessionLeaderExit leader) ((Cause.leaderExit leader).targets w) := by
  unfold sessionLeaderExit
  rw [Cause.targets]
  cases w.table.proc? leader with
  | none => exact .refl w
  | some p =>
    dsimp only
    cases w.ctty leader with
    | none => split_ifs <;> exact .refl w
    | some tty =>
      dsimp only
      by_cases hsid : p.sid = leader
      · rw [if_neg (not_not_intro hsid)]
        by_cases hsession : w.session tty = p.sid
        · simp_all [w.logged_hangup]
        · rw [if_neg hsession, if_neg fun h => hsession h.2]
          exact .refl w
      · rw [if_pos hsid, if_neg fun h => hsid h.1]
        exact .refl w

/-! ### Orphaned groups -/

theorem state_raise (hs : s ≠ 0) (hkill : s ≠ sigkill) (info : PendingSigInfo) {q : Pid} {p : Proc}
    (hp : w.table.proc? q = some p) (hne : p.tgid ≠ pgrp) :
    (w.raise pgrp s info).table.state q = w.table.state q :=
  (changes_groupWith (signo?_ofNat hs) hkill info _ pgrp).state q
    (notMem_threads (t := w.table.fresh) hp hne)

theorem state_hup {q : Pid} {p : Proc} (hp : w.table.proc? q = some p)
    (hne : p.tgid ≠ pgrp) : (w.hup pgrp).table.state q = w.table.state q := by
  have hfirst := ((Logged.refl w).raise pgrp (s := sighup) (by decide) (by decide) (.forKill 0))
  have hp' := (hfirst.resumes.proc? q).trans hp
  exact (state_raise _ (by decide) (by decide) _ hp' hne).trans
    (state_raise w (by decide) (by decide) _ hp hne)

end

theorem exists_logged_orphans (h : Logged w w' ts) (sid dying : Pid) (l : List Pid) :
    ∃ ts', Logged w (l.foldl (orphanStep sid dying) w') ts' := by
  induction l generalizing w' ts with
  | nil => exact ⟨ts, h⟩
  | cons pg l ih =>
    rw [foldl_cons]
    unfold orphanStep
    split_ifs
    · exact ih h
    · exact ih (h.hup pg)
    · exact ih h

/-- A group that fits has a stopped process as long as the process with its number is left alone. -/
theorem Logged.pgrpHasStopped (h : Logged w w' ts) {pg : Pid}
    (hsame : ∀ q p, w.table.proc? q = some p → p.tgid = pg → w'.table.state q = w.table.state q)
    (hfits : Fits w.table pg) (hstopped : w.table.pgrpHasStopped pg = true) :
    w'.table.pgrpHasStopped pg = true := by
  obtain ⟨q, p, hp, hpgid, hq⟩ := pgrpHasStopped_iff.1 hstopped
  have hmember : Member w.table pg p.tgid := ⟨q, p, hp, by rw [hq]; rfl, hpgid, rfl⟩
  grind [pgrpHasStopped_iff, h.resumes.proc?, hfits.alone]

/-- If the groups fit, then the rounds do not get in the way of each other: the processes of later
groups (`hsame`) are as they were. -/
theorem logged_orphans (h : Logged w w' ts) (sid dying : Pid) {l : List Pid} (hl : l.Nodup)
    (hfits : ∀ pg ∈ l, w.table.pgrpHasStopped pg = true →
      w.table.pgrpIsOrphaned sid pg dying = true → Fits w.table pg)
    (hsame : ∀ q p, w.table.proc? q = some p → p.tgid ∈ l → w'.table.state q = w.table.state q) :
    Logged w (l.foldl (orphanStep sid dying) w') (ts ++ (l.filter fun pg =>
      w.table.pgrpHasStopped pg && w.table.pgrpIsOrphaned sid pg dying).flatMap hupTargets) := by
  induction l generalizing w' ts with
  | nil => simpa using h
  | cons pg l ih =>
    obtain ⟨hpg, hl⟩ := nodup_cons.1 hl
    have hfits' := fun g hg => hfits g (mem_cons_of_mem pg hg)
    rw [foldl_cons, orphanStep, h.resumes.pgrpIsOrphaned]
    by_cases horphaned : w.table.pgrpIsOrphaned sid pg dying = true
    · by_cases hstopped : w.table.pgrpHasStopped pg = true
      · have hstopped' := h.pgrpHasStopped
          (fun q p hp htgid => hsame q p hp (htgid ▸ mem_cons_self))
          (hfits pg mem_cons_self hstopped horphaned) hstopped
        rw [if_neg (by simp [hstopped']), if_pos horphaned,
          filter_cons_of_pos (by simp [hstopped, horphaned]), flatMap_cons,
          ← append_assoc]
        refine ih (h.hup pg) hl hfits' fun q p hp htgid => ?_
        have hne : p.tgid ≠ pg := fun h => hpg (h ▸ htgid)
        rw [state_hup w' ((h.resumes.proc? q).trans hp) hne]
        exact hsame q p hp (mem_cons_of_mem pg htgid)
      · have hstopped' : w'.table.pgrpHasStopped pg = false :=
          Bool.eq_false_iff.2 fun h' => hstopped (h.resumes.pgrpHasStopped h')
        rw [if_pos hstopped', filter_cons_of_neg (by simp [hstopped])]
        exact ih h hl hfits' fun q p hp htgid => hsame q p hp (mem_cons_of_mem pg htgid)
    · simp_all

theorem nodup_orphanCandidates (t : Table) (p : Proc) : (t.orphanCandidates p).Nodup :=
  nodup_pushNew (nodup_foldl_pushNew _ nodup_nil) _

theorem reaches_exit_iff (w : Terminals) (dying : Pid) :
    Reaches w (.exit dying) ↔ ∀ x ∈ (Cause.exit dying).targets w, Fits w.table x.1 := by
  constructor
  · intro h
    obtain ⟨ts, hlogged⟩ : ∃ ts, Logged w ((Cause.exit dying).run w) ts := by
      rw [Cause.run, handleOrphanedPgrpsOnExit]
      cases w.table.proc? dying with
      | none => exact ⟨[], .refl w⟩
      | some p => exact exists_logged_orphans (.refl w) p.sid dying _
    exact hlogged.fits h
  · intro hfits
    refine Logged.reaches ?_ hfits
    rw [Cause.targets, orphanedPgrps] at hfits ⊢
    rw [Cause.run, handleOrphanedPgrpsOnExit]
    cases hp : w.table.proc? dying with
    | none => exact .refl w
    | some p =>
      rw [hp] at hfits
      refine logged_orphans (.refl w) p.sid dying (nodup_orphanCandidates _ p) ?_ fun _ _ _ _ => rfl
      intro pg hpg hstopped horphaned
      refine hfits (pg, sighup) (mem_flatMap.2 ⟨pg, ?_, mem_cons_self⟩)
      exact mem_filter.2 ⟨hpg, by simp [hstopped, horphaned]⟩

end Terminals

/-- A pipeline of two processes in the foreground of the console; `leader` is the state of the first
one, after which the group is named. -/
def pipeline (leader : ProcessState) : Terminals where
  table :=
    { processes := (SortedMap.empty.insert 5 { userProcess 5 1000 with sid := 1 }).insert 6
        { userProcess 6 1000 with sid := 1, pgid := 5 }
      state := update (fun _ => .runnable) 5 leader
      signals := fun _ => .new
      events := [] }
  cttys := fun _ => some ⟨1, 5⟩
  ctty := fun _ => some .console
  raises := []

end CypheraKernel.Signal
