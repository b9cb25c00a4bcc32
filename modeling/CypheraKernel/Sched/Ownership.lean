import CypheraKernel.Lib.Occupancy
import CypheraKernel.Sched.Step

/-!
# Who has a process

A process that is ready to run stands in one slot: a run queue, a CPU, the scheduler loop of a CPU,
or an operation in flight.  The slot determines what the state and the owner of the process may be
(`Slot.Fits`); a process in no slot waits for an event (`AtRest`).

`Owned m loose` is the invariant of the machine, in the middle of a section that has the processes
`loose` in its hands: about these it says only that they are in no slot.  The lemmas of this file
say how a section takes processes up and puts them down.  The bare mechanism of slots is
`CypheraKernel.Occupancy`.
-/

namespace CypheraKernel.Sched

open Occupancy List

/-! ### Slots -/

/-- Where a process can be. -/
inductive Slot
  | queue (cpu : ℕ)
  | cpu (cpu : ℕ)
  | loop (cpu : ℕ) (phase : LoopPhase)
  | flight (f : InFlight)
  deriving DecidableEq

/-- The process that an operation in flight is going to queue or to run. -/
def InFlight.holds : InFlight → Option Pid
  | admitting pid _ | vforkChild pid | waking pid _ | resuming pid _ _ | resumed pid
  | stolen _ pid _ | dlReplenished pid true | dlEnqueue pid _ => some pid
  | _ => none

/-- The process that the scheduler loop is going to run. -/
def LoopPhase.holds : LoopPhase → Option Pid
  | idle => none
  | picked pid _ | migrating pid _ _ | dispatching pid | switching pid => some pid

/-- The owner of a process that has left its CPU. -/
def SchedOwner.IsOff (o : SchedOwner) : Prop := (∃ a, o = parked a) ∨ o = stopped ∨ o = traced

/-- What an operation in flight knows about the process that it holds. -/
def InFlight.Fits : InFlight → Process → Prop
  | admitting _ _, p | vforkChild _, p => p.state = .runnable ∧ p.owner = .none
  | waking _ home, p => p.state = .runnable ∧ p.owner = .runnable home
  | resuming _ _ _, p => p.state = .runnable ∧ p.owner.IsOff
  | resumed _, p => p.state = .runnable ∧ p.owner = .traced
  | stolen _ _ _, p => p.state = .runnable ∧ ∃ c, p.owner = .runnable c
  | dlReplenished _ _, p =>
    p.state = .runnable ∧ (∃ a, p.owner = .parked a) ∧ p.sched.schedClass.isDeadline = true
  | dlEnqueue _ _, p => p.state = .runnable ∧ ∃ a, p.owner = .parked a
  | _, _ => False

/-- What the slot of a process says about it. -/
def Slot.Fits : Slot → Process → Prop
  | queue c, p => p.state = .runnable ∧ p.owner = .runnable c
  | cpu c, p | loop c (.switching _), p => p.state = .running ∧ p.owner = .running c
  | loop c _, p => p.state = .runnable ∧ p.owner = .runnable c
  | flight f, p => f.Fits p

/-- A process that waits. -/
structure AtRest (p : Process) : Prop where
  state : p.state = .parked ∨ p.state = .stopped ∨ p.state = .traced ∨ p.state = .dlThrottled ∨
    p.state = .cgroupThrottled
  stopped : p.state = .stopped → p.owner = .stopped
  traced : p.state = .traced → p.owner = .traced
  parked : p.state ≠ .stopped → p.state ≠ .traced → ∃ a, p.owner = .parked a

theorem Slot.Fits.state {s : Slot} {p : Process} (h : s.Fits p) :
    p.state = .runnable ∨ p.state = .running := by
  cases s with
  | queue c => exact .inl h.1
  | cpu c => exact .inr h.1
  | loop c phase => cases phase <;> first | exact .inl (And.left h) | exact .inr (And.left h)
  | flight f =>
    cases f <;> first | exact .inl (And.left h) | exact .inr (And.left h) | exact False.elim h

/-- Only the state, the owner and the class matter to a slot. -/
theorem Slot.Fits.congr {s : Slot} {p q : Process} (h : s.Fits p) (hstate : q.state = p.state)
    (howner : q.owner = p.owner) (hclass : q.sched.schedClass = p.sched.schedClass) : s.Fits q := by
  cases s with
  | queue | cpu => exact ⟨hstate.trans h.1, howner.trans h.2⟩
  | loop c phase => cases phase <;> exact ⟨hstate.trans (And.left h), howner.trans (And.right h)⟩
  | flight f =>
    have hiff : f.Fits q ↔ f.Fits p := by
      cases f <;> simp only [InFlight.Fits, hstate, howner, hclass]
    exact hiff.2 h

theorem AtRest.congr {p q : Process} (h : AtRest p) (hstate : q.state = p.state)
    (howner : q.owner = p.owner) : AtRest q := by
  refine ⟨?_, ?_, ?_, ?_⟩ <;> rw [hstate] <;> try rw [howner]
  · exact h.state
  · exact h.stopped
  · exact h.traced
  · exact h.parked

/-- A process that waits in one of the parked states. -/
theorem AtRest.of_parked {p : Process} {a : ℕ}
    (hs : p.state = .parked ∨ p.state = .dlThrottled ∨ p.state = .cgroupThrottled)
    (ho : p.owner = .parked a) : AtRest p := by
  rcases hs with hs | hs | hs <;> refine ⟨by simp [hs], by simp [hs], by simp [hs], fun _ _ => ⟨a, ho⟩⟩

namespace Machine

/-- The processes in a slot. -/
def occupants (m : Machine) : Slot → List Pid
  | .queue c => (m.cpus c).runnable.pids
  | .cpu c => (m.cpus c).current.toList
  | .loop c phase => if (m.cpus c).phase = phase then phase.holds.toList else []
  | .flight f =>
    match f.holds with
    | some pid => List.replicate (m.inFlight.count f) pid
    | none => []

/-- The scheduler loop of a CPU runs only while there is no current process. -/
def Looping (m : Machine) : Prop := ∀ c, (m.cpus c).phase ≠ .idle → (m.cpus c).current = none

/-- The invariant, for a section that has the processes `loose` in its hands. -/
structure Owned (m : Machine) (loose : List Pid) : Prop where
  exclusive : Exclusive m.occupants
  free : ∀ x ∈ loose, Free m.occupants x
  fits : ∀ s, ∀ x ∈ m.occupants s, ∃ p, m.proc? x = some p ∧ s.Fits p
  rest : ∀ x p, m.proc? x = some p → x ∉ loose → Free m.occupants x → AtRest p
  looping : m.Looping

variable {m m' : Machine} {loose : List Pid} {pid : Pid} {p q : Process} {s : Slot}

/-! ### The parts of the machine -/

@[simp] theorem proc?_setProc_self (m : Machine) (pid : Pid) (p : Process) :
    (m.setProc pid p).proc? pid = some p := SortedMap.get?_insert_self _ _ _

theorem proc?_setProc_of_ne (m : Machine) {x : Pid} (h : x ≠ pid) (p : Process) :
    (m.setProc pid p).proc? x = m.proc? x := SortedMap.get?_insert_of_ne _ h _

theorem occupants_setRunnable (m : Machine) (c : ℕ) (rq : RunQueues) (s : Slot) :
    (m.setRunnable c rq).occupants s = if s = .queue c then rq.pids else m.occupants s := by
  cases s with
  | queue d | cpu d | loop d phase =>
    by_cases h : d = c
    · subst h
      simp [occupants, setRunnable]
    · simp [occupants, setRunnable, h]
  | flight f => simp [occupants, setRunnable]

theorem occupants_setCurrent (m : Machine) (c : ℕ) (cur : Option Pid) (s : Slot) :
    (m.setCurrent c cur).occupants s = if s = .cpu c then cur.toList else m.occupants s := by
  cases s with
  | queue d | cpu d | loop d phase =>
    by_cases h : d = c
    · subst h
      simp [occupants, setCurrent]
    · simp [occupants, setCurrent, h]
  | flight f => simp [occupants, setCurrent]

variable {c : ℕ} {rq : RunQueues} {f : InFlight} {phase : LoopPhase}

theorem adds_queue (h : rq.pids.Perm (pid :: (m.cpus c).runnable.pids)) :
    Adds m.occupants (m.setRunnable c rq).occupants (.queue c) pid where
  here := by rwa [occupants_setRunnable, if_pos rfl]
  elsewhere t ht := by rw [occupants_setRunnable, if_neg ht]

theorem adds_of_picked (h : (m.cpus c).runnable.pids.Perm (pid :: rq.pids)) :
    Adds (m.setRunnable c rq).occupants m.occupants (.queue c) pid where
  here := by rwa [occupants_setRunnable, if_pos rfl]
  elsewhere t ht := by rw [occupants_setRunnable, if_neg ht]

theorem adds_current (h : (m.cpus c).current = none) :
    Adds m.occupants (m.setCurrent c (some pid)).occupants (.cpu c) pid where
  here := by
    rw [occupants_setCurrent, if_pos rfl, occupants, h]
    exact .refl _
  elsewhere t ht := by rw [occupants_setCurrent, if_neg ht]

theorem adds_start (h : f.holds = some pid) :
    Adds m.occupants (m.start f).occupants (.flight f) pid where
  here := by grind [occupants, start]
  elsewhere t ht := by
    cases t with
    | queue | cpu | loop => rfl
    | flight g =>
      have hg : f ≠ g := fun he => ht (he ▸ rfl)
      simp only [occupants, start, count_cons_of_ne hg]

theorem occupants_start (h : f.holds = none) : (m.start f).occupants = m.occupants := by
  funext t
  cases t with
  | queue | cpu | loop => rfl
  | flight g =>
    by_cases hg : f = g
    · subst hg
      simp only [occupants, h]
    · simp only [occupants, start, count_cons_of_ne hg]

theorem adds_finish (hf : f ∈ m.inFlight) (h : f.holds = some pid) :
    Adds (m.finish f).occupants m.occupants (.flight f) pid where
  here := by grind [occupants, finish]
  elsewhere t ht := by
    cases t with
    | queue | cpu | loop => rfl
    | flight g =>
      have hg : g ≠ f := fun he => ht (he ▸ rfl)
      simp only [occupants, finish, count_erase_of_ne hg]

theorem occupants_finish (h : f.holds = none) : (m.finish f).occupants = m.occupants := by
  funext t
  cases t with
  | queue | cpu | loop => rfl
  | flight g =>
    by_cases hg : g = f
    · subst hg
      simp only [occupants, h]
    · simp only [occupants, finish, count_erase_of_ne hg]

/-- The phase of a CPU that is idle is set. -/
theorem adds_phase (hidle : (m.cpus c).phase = .idle) (h : phase.holds = some pid) :
    Adds m.occupants (m.setPhase c phase).occupants (.loop c phase) pid where
  here := by
    have hne : LoopPhase.idle ≠ phase := by
      rintro rfl
      cases h
    simp [occupants, setPhase, hidle, hne, h]
  elsewhere t ht := by
    cases t with
    | queue d | cpu d => by_cases hd : d = c <;> simp [occupants, setPhase, hd]
    | loop d ph =>
      by_cases hd : d = c
      · subst hd
        have hne : phase ≠ ph := fun he => ht (he ▸ rfl)
        by_cases hph : LoopPhase.idle = ph
        · grind [occupants, LoopPhase.holds]
        · simp [occupants, setPhase, hidle, hne, hph]
      · simp [occupants, setPhase, hd]
    | flight f => rfl

theorem setCurrent_setCurrent (m : Machine) (c : ℕ) (x y : Option Pid) :
    (m.setCurrent c x).setCurrent c y = m.setCurrent c y := by
  simp [setCurrent]

theorem setCurrent_eq_self {x : Option Pid} (h : (m.cpus c).current = x) :
    m.setCurrent c x = m := by
  subst h
  simp [setCurrent]

section

variable (m c) (x : Option Pid)

theorem setRunnable_setCurrent (rq : RunQueues) :
    (m.setCurrent c x).setRunnable c rq = (m.setRunnable c rq).setCurrent c x := by
  simp [setCurrent, setRunnable]

@[simp] theorem runnable_setCurrent :
    ((m.setCurrent c x).cpus c).runnable = (m.cpus c).runnable := by
  simp [setCurrent]

theorem enqueue_setCurrent (pid : Pid) (p : Process) (kind : CfsPlace) :
    (m.setCurrent c x).enqueue c pid p kind =
      ((m.enqueue c pid p kind).1.setCurrent c x, (m.enqueue c pid p kind).2) := by
  have hdata : (m.setCurrent c x).enqueueData p = m.enqueueData p := rfl
  unfold enqueue
  dsimp only
  rw [runnable_setCurrent, hdata, setRunnable_setCurrent]

end

theorem setPhase_eq_self (h : (m.cpus c).phase = phase) : m.setPhase c phase = m := by
  subst h
  simp [setPhase]

/-- The scheduler loop of a CPU has let its process go. -/
theorem adds_of_phase (hphase : (m.cpus c).phase = phase) (h : phase.holds = some pid) :
    Adds (m.setPhase c .idle).occupants m.occupants (.loop c phase) pid := by
  have ha : Adds _ ((m.setPhase c .idle).setPhase c phase).occupants _ _ :=
    adds_phase (m := m.setPhase c .idle) (c := c) (by simp [setPhase]) h
  have hback : (m.setPhase c .idle).setPhase c phase = m.setPhase c phase := by simp [setPhase]
  rwa [hback, setPhase_eq_self hphase] at ha

theorem Looping.setRunnable (h : m.Looping) (c : ℕ) (rq : RunQueues) :
    (m.setRunnable c rq).Looping := by
  intro d
  by_cases hd : d = c
  · subst hd
    simpa [Machine.setRunnable] using h d
  · simpa [Machine.setRunnable, hd] using h d

theorem Looping.setCurrent_none (h : m.Looping) (c : ℕ) : (m.setCurrent c none).Looping := by
  intro d
  by_cases hd : d = c
  · subst hd
    simp [setCurrent]
  · simpa [setCurrent, hd] using h d

theorem Looping.setPhase (h : m.Looping)
    (hcur : phase ≠ .idle → (m.cpus c).current = none) : (m.setPhase c phase).Looping := by
  intro d
  by_cases hd : d = c
  · subst hd
    simpa [setPhase] using hcur
  · simpa [Machine.setPhase, hd] using h d

theorem Looping.setCurrent (h : m.Looping) (hidle : (m.cpus c).phase = .idle)
    (cur : Option Pid) : (m.setCurrent c cur).Looping := by
  intro d
  by_cases hd : d = c
  · subst hd
    simp [setCurrent, hidle]
  · simpa [Machine.setCurrent, hd] using h d

/-! ### Taking up and putting down -/

namespace Owned

/-- Parts of the machine that hold no process may change. -/
theorem congr (h : m.Owned loose) (hocc : m'.occupants = m.occupants)
    (hproc : m'.processes = m.processes) (hloop : m'.Looping) : m'.Owned loose := by
  have hp (x : Pid) : m'.proc? x = m.proc? x := by rw [proc?, proc?, hproc]
  refine ⟨hocc ▸ h.exclusive, hocc ▸ h.free, fun s x hx => ?_, fun x p hx hl hf => ?_, hloop⟩
  · rw [hp]
    exact h.fits s x (hocc ▸ hx)
  · exact h.rest x p (hp x ▸ hx) hl (hocc ▸ hf)

theorem take (h : m.Owned loose) (ha : Adds m'.occupants m.occupants s pid)
    (hproc : m'.processes = m.processes) (hloop : m'.Looping) : m'.Owned (pid :: loose) := by
  have hp (x : Pid) : m'.proc? x = m.proc? x := by rw [proc?, proc?, hproc]
  refine ⟨h.exclusive.take ha, fun x hx => ?_, fun t x hx => ?_, fun x p hx hl hf => ?_, hloop⟩
  · grind [h.exclusive.free_of_adds, ha.free_of_free, h.free]
  · rw [hp]
    exact h.fits t x (ha.mem_of_mem hx)
  · obtain ⟨hne, hl⟩ := not_or.1 (mt mem_cons.2 hl)
    exact h.rest x p (hp x ▸ hx) hl (ha.free_of_ne hf hne)

theorem put (h : m.Owned (pid :: loose)) (hl : pid ∉ loose)
    (ha : Adds m.occupants m'.occupants s pid) (hproc : m'.processes = m.processes)
    (hloop : m'.Looping) (hp : m.proc? pid = some p) (hfits : s.Fits p) : m'.Owned loose := by
  have hget (x : Pid) : m'.proc? x = m.proc? x := by rw [proc?, proc?, hproc]
  have hfree := h.free pid mem_cons_self
  refine ⟨h.exclusive.put hfree ha, fun x hx => ?_, fun t x hx => ?_, fun x p hx hl hf => ?_,
    hloop⟩
  · grind [ha.free_of_ne, h.free]
  · grind [ha.mem_iff, h.fits]
  refine h.rest x p (hget x ▸ hx) ?_ (ha.free_of_free hf)
  rintro hmem
  rcases mem_cons.1 hmem with rfl | hmem
  · exact hf s ha.mem_self
  · exact hl hmem

section

variable (h : m.Owned loose)

include h

theorem setProc (hl : pid ∈ loose) (p : Process) : (m.setProc pid p).Owned loose := by
  refine ⟨h.exclusive, h.free, fun t x hx => ?_, fun x q hx hl' hf => ?_, h.looping⟩
  · have hne : x ≠ pid := fun he => h.free pid hl t (he ▸ hx)
    rw [proc?_setProc_of_ne m hne]
    exact h.fits t x hx
  · have hne : x ≠ pid := fun he => hl' (he ▸ hl)
    rw [proc?_setProc_of_ne m hne] at hx
    exact h.rest x q hx hl' hf

/-- A process changes without leaving its place. -/
theorem setProc_of_fits (hp : m.proc? pid = some p)
    (hfits : ∀ s, pid ∈ m.occupants s → s.Fits p → s.Fits q) (hrest : AtRest p → AtRest q) :
    (m.setProc pid q).Owned loose := by
  refine ⟨h.exclusive, h.free, fun t x hx => ?_, fun x r hx hl hf => ?_, h.looping⟩
  · by_cases hne : x = pid
    · subst hne
      obtain ⟨p', hp', hfit⟩ := h.fits t x hx
      cases hp'.symm.trans hp
      exact ⟨q, proc?_setProc_self _ _ _, hfits t hx hfit⟩
    · rw [proc?_setProc_of_ne m hne]
      exact h.fits t x hx
  · by_cases hne : x = pid
    · subst hne
      rw [proc?_setProc_self] at hx
      cases hx
      exact hrest (h.rest x p hp hl hf)
    · rw [proc?_setProc_of_ne m hne] at hx
      exact h.rest x r hx hl hf

/-- Fields other than the state, the owner and the class may change. -/
theorem setProc_same (hp : m.proc? pid = some p) (hstate : q.state = p.state)
    (howner : q.owner = p.owner) (hclass : q.sched.schedClass = p.sched.schedClass) :
    (m.setProc pid q).Owned loose :=
  h.setProc_of_fits hp (fun _ _ hfit => hfit.congr hstate howner hclass)
    fun hrest => hrest.congr hstate howner

theorem perm {loose' : List Pid} (hl : loose.Perm loose') : m.Owned loose' :=
  ⟨h.exclusive, fun x hx => h.free x (hl.mem_iff.2 hx), h.fits,
    fun x p hx hx' => h.rest x p hx fun hm => hx' (hl.mem_iff.1 hm), h.looping⟩

/-- A process in no slot is taken up. -/
theorem loosen (hfree : Free m.occupants pid) : m.Owned (pid :: loose) := by
  refine ⟨h.exclusive, fun x hx => ?_, h.fits, fun x p hx hl hf => ?_, h.looping⟩
  · grind [h.free]
  · exact h.rest x p hx (fun hm => hl (mem_cons_of_mem _ hm)) hf

end

/-- A process that waits, or that does not exist, is let go. -/
theorem settle (h : m.Owned (pid :: loose)) (hrest : ∀ p, m.proc? pid = some p → AtRest p) :
    m.Owned loose := by
  refine ⟨h.exclusive, fun x hx => h.free x (mem_cons_of_mem _ hx), h.fits,
    fun x p hx hl hf => ?_, h.looping⟩
  by_cases hne : x = pid
  · subst hne
    exact hrest p hx
  · grind [h.rest]

/-- A process whose state is neither runnable nor running is in no slot. -/
theorem free_of_state (h : m.Owned loose) (hp : m.proc? pid = some p) (hs : p.state ≠ .runnable)
    (hs' : p.state ≠ .running) : Free m.occupants pid := by
  intro s hx
  obtain ⟨p', hp', hfit⟩ := h.fits s pid hx
  grind [hfit.state]

/-- The process in a slot, with what the slot says about it. -/
theorem exists_of_adds (h : m.Owned loose) (ha : Adds m'.occupants m.occupants s pid) :
    ∃ p, m.proc? pid = some p ∧ s.Fits p := h.fits s pid ha.mem_self

end Owned

/-! ### The queues -/

/-- A process is taken from a queue. -/
theorem Owned.pickNext (h : m.Owned loose) {rtOk : Bool}
    (hpick : (m.cpus c).runnable.pickNext rtOk = some (pid, rq)) :
    (m.setRunnable c rq).Owned (pid :: loose) ∧
      ∃ p, m.proc? pid = some p ∧ p.state = .runnable ∧ p.owner = .runnable c := by
  have ha : Adds (m.setRunnable c rq).occupants m.occupants (.queue c) pid :=
    adds_of_picked (RunQueues.perm_pickNext hpick)
  exact ⟨h.take ha rfl (h.looping.setRunnable c rq), h.exists_of_adds ha⟩

section

variable (h : m.Owned (pid :: loose)) (hl : pid ∉ loose)

include h hl

/-- A process in hand is queued. -/
theorem Owned.enqueue (p : Process) (kind : CfsPlace) (hstate : q.state = .runnable)
    (howner : q.owner = .runnable c) : ((m.enqueue c pid p kind).1.setProc pid q).Owned loose := by
  have hnot : pid ∉ (m.cpus c).runnable.pids := h.free pid mem_cons_self (.queue c)
  have hset := h.setProc mem_cons_self q
  exact hset.put hl (adds_queue (RunQueues.perm_enqueue hnot _ kind)) rfl
    (hset.looping.setRunnable c _) (proc?_setProc_self m pid q) ⟨hstate, howner⟩

/-- A process in hand that is runnable, and owned by the queue already, is queued. -/
theorem Owned.enqueue_owned
    (kind : CfsPlace) (hstate : p.state = .runnable) (howner : p.owner = .runnable c) :
    ((m.enqueue c pid p kind).1.setProc pid (m.enqueue c pid p kind).2).Owned loose :=
  h.enqueue hl p kind hstate howner

/-- An operation that holds a process goes on later. -/
theorem Owned.start_holds (hf : f.holds = some pid)
    (hp : m.proc? pid = some p) (hfits : f.Fits p) : (m.start f).Owned loose :=
  h.put hl (adds_start hf) rfl h.looping hp hfits

end

/-- An operation that holds no process goes on later. -/
theorem Owned.start (h : m.Owned loose) (hf : f.holds = none) :
    (m.start f).Owned loose := h.congr (occupants_start hf) rfl h.looping

end Machine

end CypheraKernel.Sched
