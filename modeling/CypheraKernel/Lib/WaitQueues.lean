import CypheraKernel.Lib.Runs
import Mathlib.Data.List.Basic
import Mathlib.Logic.Function.Basic

/-!
# Waiting for a resource

Processes share a resource, and a request that the resource cannot grant waits in queues.  A process
enters the queues, tries its request, and if it is refused goes to sleep as long as it still is in
all of its queues; whoever changes the resource takes processes out of a queue and wakes them.  Each
of these is a section of its own, so that anything can happen in between.

* `Covered`: the condition on a section.  An attempt that ends the reason for another process to
  wait wakes one of its queues, and a wake of one process finds no second one in the queue;
* `no_sleeper_left`: **when all processes sleep or have returned, every sleeper has a reason to**.
-/

namespace CypheraKernel.WaitQueues

open List Option Function

/-- The sections that do not look at the resource: enter or leave a queue, take all processes or the
first process out of a queue to wake them, wake a process, and wake a process or, if it does not
sleep, the next one of the queue. -/
inductive Task (κ ι : Type)
  | enqueue (q : κ)
  | dequeue (q : κ)
  | wakeAll (q : κ)
  | wakeOne (q : κ)
  | wake (p : ι)
  | wakeOr (p : ι) (q : κ)
  deriving DecidableEq

/-- What an attempt does: the state after it, the queues that it empties itself, whether it is
refused, and, if it is not, the sections that follow. -/
structure Answer (R κ ι : Type) where
  state : R
  drained : List κ
  refused : Bool
  tasks : List (Task κ ι)

/-- A device whose operations can block. -/
structure Device (R Op κ ι : Type) where
  queues : Op → List κ
  /-- The request waits when it is refused. -/
  patient : Op → Bool
  attempt : R → ι → Op → Answer R κ ι

/-- What a process does when its tasks are done. -/
inductive Next (Op : Type)
  | leave
  | attempt (op : Op)
  | park (op : Op)
  deriving DecidableEq

inductive Control (Op κ ι : Type)
  | running (tasks : List (Task κ ι)) (next : Next Op)
  | parked (op : Op)
  | awake (op : Op)
  deriving DecidableEq

structure System (R Op κ ι : Type) where
  resource : R
  queue : κ → List ι
  control : ι → Control Op κ ι

/-- A process that is outside begins a request; a process takes its next section, and `stop` says
that it gives up where it can; something else wakes a process. -/
inductive Event (Op ι : Type)
  | call (p : ι) (op : Op)
  | run (p : ι) (stop : Bool)
  | rouse (p : ι)
  deriving DecidableEq

variable {R Op κ ι : Type} {e : Event Op ι} {op : Op}
  {s' : System R Op κ ι} {x : ι} {next : Next Op} {q : κ} {c : Control Op κ ι}

namespace System

variable [DecidableEq κ] [DecidableEq ι]

variable (s : System R Op κ ι) (p : ι)

def setControl (c : Control Op κ ι) : System R Op κ ι :=
  { s with control := update s.control p c }

def setQueue (q : κ) (l : List ι) : System R Op κ ι :=
  { s with queue := update s.queue q l }

/-- Wake a process; nothing happens to one that does not sleep. -/
def rouse : System R Op κ ι :=
  match s.control p with
  | .parked op => s.setControl p (.awake op)
  | _ => s

def asleep : Bool :=
  match s.control p with
  | .parked _ => true
  | _ => false

/-- The first task of a process that goes on with the others. -/
def perform (tasks : List (Task κ ι)) (next : Next Op) : Task κ ι → System R Op κ ι
  | .enqueue q => (s.setQueue q (s.queue q ++ [p])).setControl p (.running tasks next)
  | .dequeue q => (s.setQueue q ((s.queue q).filter (· ≠ p))).setControl p (.running tasks next)
  | .wakeAll q =>
    (s.setQueue q []).setControl p (.running ((s.queue q).map .wake ++ tasks) next)
  | .wakeOne q =>
    match s.queue q with
    | [] => s.setControl p (.running tasks next)
    | x :: rest => (s.setQueue q rest).setControl p (.running (.wakeOr x q :: tasks) next)
  | .wake x => (s.rouse x).setControl p (.running tasks next)
  | .wakeOr x q =>
    (s.rouse x).setControl p
      (.running (if s.asleep x then tasks else .wakeOne q :: tasks) next)

end System

section Steps

variable [DecidableEq κ] [DecidableEq ι] (dev : Device R Op κ ι)

def enqueues (op : Op) : List (Task κ ι) := (dev.queues op).map .enqueue

def dequeues (op : Op) : List (Task κ ι) := (dev.queues op).map .dequeue

namespace System

variable (s : System R Op κ ι)

/-- The queues that an attempt empties. -/
def drain (drained : List κ) : System R Op κ ι :=
  { s with queue := fun q => if q ∈ drained then [] else s.queue q }

/-- The processes in some queues. -/
def waitersIn (qs : List κ) : List ι := qs.flatMap s.queue

def attempt (s : System R Op κ ι) (p : ι) (op : Op) : System R Op κ ι :=
  let a := dev.attempt s.resource p op
  let hand := (s.waitersIn a.drained).map .wake
  { s.drain a.drained with resource := a.state }.setControl p
    (if a.refused = false then .running (hand ++ a.tasks) .leave
    else if dev.patient op then .running hand (.park op)
    else .running (hand ++ dequeues dev op) .leave)

/-- The process is in all queues of the request. -/
def queued (p : ι) (op : Op) : Bool :=
  (dev.queues op).all fun q => p ∈ s.queue q

/-- The next section of a process. -/
def advance (p : ι) (stop : Bool) : Option (System R Op κ ι) :=
  match s.control p with
  | .parked _ => none
  | .awake op =>
    some (s.setControl p (if stop then .running (dequeues dev op) .leave
      else .running (dequeues dev op ++ enqueues dev op) (.attempt op)))
  | .running (task :: tasks) next => some (s.perform p tasks next task)
  | .running [] .leave => none
  | .running [] (.attempt op) => some (s.attempt dev p op)
  | .running [] (.park op) =>
    some (s.setControl p (if stop = false ∧ s.queued dev p op then .parked op else .awake op))

def step : Event Op ι → Option (System R Op κ ι)
  | .call p op =>
    match s.control p with
    | .running [] .leave => some (s.setControl p (.running (enqueues dev op) (.attempt op)))
    | _ => none
  | .run p stop => s.advance dev p stop
  | .rouse p => some (s.rouse p)

end System

variable (s : System R Op κ ι)

/-- The request that a section tries, and the resource that it finds. -/
def System.attempted : Event Op ι → Option (Op × R)
  | .run p _ =>
    match s.control p with
    | .running [] (.attempt op) => some (op, s.resource)
    | _ => none
  | _ => none

/-! ### The condition -/

/-- The request is refused. -/
def Refused (r : R) (p : ι) (op : Op) : Prop := (dev.attempt r p op).refused = true

/-- The sections that follow wake a queue. -/
def Wakes (tasks : List (Task κ ι)) (q : κ) : Prop := .wakeAll q ∈ tasks ∨ .wakeOne q ∈ tasks

/-- What an attempt owes the processes that wait. -/
structure Covers (s : System R Op κ ι) (p : ι) (op : Op) : Prop where
  others : ∀ p' op', p' ≠ p → dev.patient op' = true → s.queued dev p' op' →
    Refused dev s.resource p' op' → Refused dev (dev.attempt s.resource p op).state p' op' ∨
      ∃ q ∈ dev.queues op', q ∈ (dev.attempt s.resource p op).drained ∨
        (¬ Refused dev s.resource p op ∧ Wakes (dev.attempt s.resource p op).tasks q)
  self : Refused dev s.resource p op →
    Refused dev (dev.attempt s.resource p op).state p op ∨
      ∃ q ∈ dev.queues op, q ∈ (dev.attempt s.resource p op).drained

/-- An attempt does what it owes, and a section that takes one process out of a queue leaves none
there. -/
def Covered : Event Op ι → Prop
  | .run p _ =>
    match s.control p with
    | .running [] (.attempt op) => Covers dev s p op
    | .running (.wakeOne q :: _) _ => (s.queue q).length ≤ 1
    | _ => True
  | _ => True

/-! ### The invariant -/

/-- The process has been refused and sleeps or is about to. -/
def Waiting (p : ι) (op : Op) : Prop :=
  s.control p = .parked op ∨ ∃ tasks, s.control p = .running tasks (.park op)

/-- Some process has the task before it. -/
def Has (t : Task κ ι) : Prop :=
  ∃ p tasks next, s.control p = .running tasks next ∧ t ∈ tasks

/-- Somebody is about to wake the process. -/
def Promised (p : ι) : Prop := Has s (.wake p) ∨ ∃ q, Has s (.wakeOr p q)

/-- Why a process may wait: its request is refused, it has been taken out of a queue, or one of its
queues is about to be woken. -/
def Excused (p : ι) (op : Op) : Prop :=
  Refused dev s.resource p op ∨
    ∃ q ∈ dev.queues op, p ∉ s.queue q ∨ Has s (.wakeAll q) ∨ Has s (.wakeOne q)

/-- A sleeper that has been taken out of a queue is about to be woken. -/
def NotLost : Prop :=
  ∀ p op, s.control p = .parked op → ∀ q ∈ dev.queues op, p ∉ s.queue q → Promised s p

/-- Whoever waits is ready to and is excused; a sleeper that has been taken out of a queue is about
to be woken; and before it goes to sleep a process does nothing but wake others. -/
structure Inv (s : System R Op κ ι) : Prop where
  patient : ∀ p op, Waiting s p op → dev.patient op = true
  excused : ∀ p op, Waiting s p op → Excused dev s p op
  promised : ∀ p op, s.control p = .parked op → ∀ q ∈ dev.queues op, p ∉ s.queue q → Promised s p
  calm : ∀ p tasks op, s.control p = .running tasks (.park op) → ∀ t ∈ tasks, ∃ x, t = .wake x

/-! ### Steps -/

/-- What a section must leave alone for the first two parts of the invariant to stay. -/
structure Keeps (s s' : System R Op κ ι) : Prop where
  waiting : ∀ x op, Waiting s' x op → (dev.patient op = true ∧ Excused dev s' x op) ∨
    (Waiting s x op ∧ (Refused dev s.resource x op → Excused dev s' x op))
  absent : ∀ x op, Waiting s' x op → ∀ q ∈ dev.queues op, x ∉ s.queue q → x ∉ s'.queue q
  owed : ∀ q, Has s (.wakeAll q) ∨ Has s (.wakeOne q) →
    s'.queue q = [] ∨ Has s' (.wakeAll q) ∨ Has s' (.wakeOne q)

variable {dev} {s s' : System R Op κ ι}

variable (h : Keeps dev s s')

include h
omit [DecidableEq κ] [DecidableEq ι]

theorem Keeps.patient (hi : Inv dev s) (hx : Waiting s' x op) : dev.patient op = true := by
  rcases h.waiting x op hx with hnew | hold
  · exact hnew.1
  · exact hi.patient x op hold.1

theorem Keeps.excused (hi : Inv dev s) (hx : Waiting s' x op) : Excused dev s' x op := by
  rcases h.waiting x op hx with hnew | ⟨hw, href⟩
  · exact hnew.2
  rcases hi.excused x op hw with hr | ⟨q, hq, hout | howed⟩
  · exact href hr
  · exact .inr ⟨q, hq, .inl (h.absent x op hx q hq hout)⟩
  · rcases h.owed q howed with hnil | howed'
    · exact .inr ⟨q, hq, .inl (by rw [hnil]; exact not_mem_nil)⟩
    · exact .inr ⟨q, hq, .inr howed'⟩

theorem Keeps.inv (hi : Inv dev s) (hlost : NotLost dev s')
    (hcalm : ∀ p tasks op, s'.control p = .running tasks (.park op) →
      ∀ t ∈ tasks, ∃ x, t = .wake x) : Inv dev s' :=
  ⟨fun _ _ => h.patient hi, fun _ _ => h.excused hi, hlost, hcalm⟩

end Steps

/-! ### Changes of one process -/

section Frames

variable {s : System R Op κ ι} {p : ι} {c : Control Op κ ι} {tasks : List (Task κ ι)}

theorem queue_setQueue [DecidableEq κ] (s : System R Op κ ι) (q : κ) (l : List ι) (q' : κ) :
    (s.setQueue q l).queue q' = if q' = q then l else s.queue q' :=
  update_apply s.queue q l q'

variable [DecidableEq ι]

theorem control_setControl (s : System R Op κ ι) (p : ι) (c : Control Op κ ι) (x : ι) :
    (s.setControl p c).control x = if x = p then c else s.control x :=
  update_apply s.control p c x

@[simp] theorem queue_setControl : (s.setControl p c).queue = s.queue := rfl

section

variable (s)

@[simp] theorem queue_rouse (x : ι) : (s.rouse x).queue = s.queue := by
  unfold System.rouse
  cases s.control x <;> rfl

@[simp] theorem resource_rouse (x : ι) : (s.rouse x).resource = s.resource := by
  unfold System.rouse
  cases s.control x <;> rfl

/-- A process that is woken was asleep; the others do not change. -/
theorem control_rouse (x y : ι) :
    (s.rouse x).control y = s.control y ∨
      ∃ op, x = y ∧ s.control x = .parked op ∧ (s.rouse x).control y = .awake op := by
  unfold System.rouse
  cases hx : s.control x with
  | running | awake => exact .inl rfl
  | parked op =>
    rw [control_setControl]
    by_cases hy : y = x
    · exact .inr ⟨op, hy.symm, rfl, if_pos hy⟩
    · exact .inl (if_neg hy)

end

variable [DecidableEq κ]

theorem perform_wakeOne_nil (h : s.queue q = []) :
    s.perform p tasks next (.wakeOne q) = s.setControl p (.running tasks next) := by
  simp only [System.perform, h]

theorem perform_wakeOne_cons {rest : List ι} (h : s.queue q = x :: rest) :
    s.perform p tasks next (.wakeOne q) =
      (s.setQueue q rest).setControl p (.running (.wakeOr x q :: tasks) next) := by
  simp only [System.perform, h]

end Frames

/-! ### Tasks -/

section Tasks

variable {dev : Device R Op κ ι} {s s' : System R Op κ ι} {p : ι} {t : Task κ ι}
  {tasks tasks' : List (Task κ ι)} {next : Next Op}

/-- The process `p` has taken its task `t`, perhaps waking another one, and has `tasks'` left. -/
structure Took (s : System R Op κ ι) (p : ι) (t : Task κ ι) (tasks tasks' : List (Task κ ι))
    (next : Next Op) (s' : System R Op κ ι) : Prop where
  before : s.control p = .running (t :: tasks) next
  after : s'.control p = .running tasks' next
  rest : tasks ⊆ tasks'
  others : ∀ x, x ≠ p → s'.control x = s.control x ∨
    ∃ op, s.control x = .parked op ∧ s'.control x = .awake op
  resource : s'.resource = s.resource

section

variable (h : Took s p t tasks tasks' next s')

include h

theorem Took.parked (hx : s'.control x = .parked op) : s.control x = .parked op := by
  have hp : x ≠ p := by
    rintro rfl
    cases h.after.symm.trans hx
  grind [h.others]

variable [DecidableEq ι]

theorem Took.waiting (hx : Waiting s' x op) : Waiting s x op := by
  by_cases hp : x = p
  · subst hp
    rcases hx with hx | ⟨l, hx⟩
    · cases h.after.symm.trans hx
    · cases h.after.symm.trans hx
      exact .inr ⟨_, h.before⟩
  grind [h.others, Waiting]

/-- A task that somebody had is the one that was taken, or somebody still has it. -/
theorem Took.has {u : Task κ ι} (hu : Has s u) : u = t ∨ Has s' u := by
  obtain ⟨x, l, n, hx, hmem⟩ := hu
  by_cases hp : x = p
  · subst hp
    cases h.before.symm.trans hx
    rcases mem_cons.1 hmem with rfl | hmem
    · exact .inl rfl
    · exact .inr ⟨x, tasks', next, h.after, h.rest hmem⟩
  · rcases h.others x hp with hsame | ⟨op, hparked, -⟩
    · exact .inr ⟨x, l, n, hsame.trans hx, hmem⟩
    · cases hparked.symm.trans hx

/-- What remains to be said about the queues. -/
theorem Took.keeps (absent : ∀ x op, Waiting s x op → ∀ q, x ∉ s.queue q → x ∉ s'.queue q)
    (owed : ∀ q, t = .wakeAll q ∨ t = .wakeOne q → s'.queue q = []) : Keeps dev s s' := by
  refine ⟨fun x op hx => .inr ⟨h.waiting hx, fun hr => .inl ?_⟩,
    fun x op hx q _ => absent x op (h.waiting hx) q, fun q hq => ?_⟩
  · rw [h.resource]
    exact hr
  rcases hq with hq | hq
  · rcases h.has hq with ht | ht
    · exact .inl (owed q (.inl ht.symm))
    · exact .inr (.inl ht)
  · rcases h.has hq with ht | ht
    · exact .inl (owed q (.inr ht.symm))
    · exact .inr (.inr ht)

end

variable [DecidableEq ι]

/-- Waking a process ends its sleep, whoever wakes it. -/
theorem not_parked_woken (x : ι) (op : Op) :
    ((s.rouse x).setControl p (.running tasks' next)).control x ≠ .parked op := by
  grind [control_setControl, System.rouse]

section

variable (hc : s.control p = .running (t :: tasks) next) (hrest : tasks ⊆ tasks')

include hc hrest

theorem took_setControl (s₁ : System R Op κ ι) (hctl : s₁.control = s.control)
    (hres : s₁.resource = s.resource) :
    Took s p t tasks tasks' next (s₁.setControl p (.running tasks' next)) := by
  refine ⟨hc, ?_, hrest, fun x hx => .inl ?_, hres⟩
  · rw [control_setControl, if_pos rfl]
  · rw [control_setControl, if_neg hx, hctl]

theorem took_rouse (x : ι) :
    Took s p t tasks tasks' next ((s.rouse x).setControl p (.running tasks' next)) := by
  refine ⟨hc, ?_, hrest, fun y hy => ?_, resource_rouse s x⟩
  · rw [control_setControl, if_pos rfl]
  · rw [control_setControl, if_neg hy]
    grind [control_rouse]

/-- Waking a process by its name leaves the queues alone. -/
theorem keeps_rouse (x : ι) (ht : t = .wake x ∨ ∃ q, t = .wakeOr x q) :
    Keeps dev s ((s.rouse x).setControl p (.running tasks' next)) := by
  refine (took_rouse hc hrest x).keeps (fun y op hw q' hout => ?_) (by aesop)
  rw [queue_setControl, queue_rouse]
  exact hout

/-- A queue is emptied. -/
theorem keeps_emptied [DecidableEq κ] (ht : t = .wakeAll q ∨ t = .wakeOne q) :
    Keeps dev s ((s.setQueue q []).setControl p (.running tasks' next)) := by
  refine (took_setControl hc hrest (s.setQueue q []) rfl rfl).keeps (fun x op hw q' hout => ?_)
    fun q' hq' => ?_
  · rw [queue_setControl, queue_setQueue]
    split_ifs
    · exact not_mem_nil
    · exact hout
  · obtain rfl : q' = q := by
      rcases ht with rfl | rfl <;> simpa [eq_comm] using hq'
    rw [queue_setControl, queue_setQueue, if_pos rfl]

end

variable [DecidableEq κ]

/-- The process that takes a task goes on, and the others sleep no more than before. -/
theorem took_perform (hc : s.control p = .running (t :: tasks) next) :
    ∃ tasks', Took s p t tasks tasks' next (s.perform p tasks next t) ∧
      ∀ x, t = .wake x → tasks' = tasks := by
  cases t with
  | enqueue | dequeue => exact ⟨tasks, took_setControl hc (List.Subset.refl _) _ rfl rfl, by simp⟩
  | wakeAll q => exact ⟨_, took_setControl hc (subset_append_right _ _) _ rfl rfl, by simp⟩
  | wakeOne q =>
    cases hq : s.queue q with
    | nil =>
      rw [perform_wakeOne_nil hq]
      exact ⟨tasks, took_setControl hc (List.Subset.refl _) s rfl rfl, by simp⟩
    | cons x rest =>
      rw [perform_wakeOne_cons hq]
      exact ⟨_, took_setControl hc (subset_cons_self _ _) _ rfl rfl, by simp⟩
  | wake x => exact ⟨tasks, took_rouse hc (List.Subset.refl _) x, fun _ _ => rfl⟩
  | wakeOr x q =>
    refine ⟨_, took_rouse hc ?_ x, by simp⟩
    split_ifs
    · exact List.Subset.refl _
    · exact subset_cons_self _ _

/-- Whoever takes a process out of a queue is about to wake it. -/
theorem NotLost.perform (h : NotLost dev s) (hc : s.control p = .running (t :: tasks) next) :
    NotLost dev (s.perform p tasks next t) := by
  obtain ⟨tasks', htook, -⟩ := took_perform hc
  intro x op hx q hq hout
  have hxp : x ≠ p := by
    rintro rfl
    cases htook.after.symm.trans hx
  have hself (s₁ : System R Op κ ι) (l : List (Task κ ι)) :
      (s₁.setControl p (.running l next)).control p = .running l next :=
    (control_setControl ..).trans (if_pos rfl)
  by_cases hin : x ∈ s.queue q
  · cases t with
    | enqueue | dequeue =>
      rw [System.perform, queue_setControl, queue_setQueue] at hout
      grind
    | wake | wakeOr => exact absurd hin (by simpa [System.perform] using hout)
    | wakeAll q' =>
      obtain rfl : q = q' := by
        rw [System.perform, queue_setControl, queue_setQueue] at hout
        grind
      exact .inl ⟨p, _, next, hself _ _, mem_append_left _ (mem_map_of_mem hin)⟩
    | wakeOne q' =>
      cases hq' : s.queue q' with
      | nil => exact absurd hin (by rwa [perform_wakeOne_nil hq'] at hout)
      | cons y rest =>
        rw [perform_wakeOne_cons hq'] at hout ⊢
        obtain ⟨rfl, rfl⟩ : q = q' ∧ x = y := by
          rw [queue_setControl, queue_setQueue] at hout
          grind
        exact .inr ⟨q, p, _, next, hself _ _, mem_cons_self⟩
  · rcases h x op (htook.parked hx) q hq hin with hw | ⟨q', hw⟩ <;>
      rcases htook.has hw with rfl | hw'
    · exact absurd hx (not_parked_woken x op)
    · exact .inl hw'
    · exact absurd hx (not_parked_woken x op)
    · exact .inr ⟨q', hw'⟩

section

variable (hi : Inv dev s) (hc : s.control p = .running (t :: tasks) next)

include hi hc

/-- **One task.** -/
theorem keeps_perform (hone : ∀ q, t = .wakeOne q → (s.queue q).length ≤ 1) :
    Keeps dev s (s.perform p tasks next t) := by
  -- A process that is about to sleep has no business with its queues.
  have hwake (op : Op) (hw : Waiting s p op) : ∃ x, t = .wake x := by
    rcases hw with hw | ⟨l, hw⟩
    · cases hc.symm.trans hw
    grind [hi.calm, mem_cons_self]
  cases t with
  | enqueue q =>
    refine (took_setControl hc (List.Subset.refl _) (s.setQueue q (s.queue q ++ [p])) rfl rfl).keeps
      (fun x op hw q' hout => ?_) (by simp)
    have hxp : x ≠ p := by
      rintro rfl
      obtain ⟨y, hy⟩ := hwake op hw
      cases hy
    rw [queue_setControl, queue_setQueue]
    split_ifs with hq
    · subst hq
      simp [hout, hxp]
    · exact hout
  | dequeue q =>
    refine (took_setControl hc (List.Subset.refl _) (s.setQueue q ((s.queue q).filter (· ≠ p))) rfl
      rfl).keeps (fun x op hw q' hout => ?_) (by simp)
    rw [queue_setControl, queue_setQueue]
    split_ifs with hq
    · subst hq
      simp [hout]
    · exact hout
  | wakeAll q => exact keeps_emptied hc (subset_append_right _ _) (.inl rfl)
  | wakeOne q =>
    have hlen := hone q rfl
    cases hq : s.queue q with
    | nil =>
      rw [perform_wakeOne_nil hq]
      refine (took_setControl hc (List.Subset.refl _) s rfl rfl).keeps
        (fun x op hw q' hout => hout) fun q' hq' => ?_
      obtain rfl : q' = q := by simpa [eq_comm] using hq'
      exact hq
    | cons x rest =>
      obtain rfl : rest = [] := by
        rw [hq, length_cons] at hlen
        exact eq_nil_of_length_eq_zero (by omega)
      rw [perform_wakeOne_cons hq]
      exact keeps_emptied hc (subset_cons_self _ _) (.inr rfl)
  | wake x => exact keeps_rouse hc (List.Subset.refl _) x (.inl rfl)
  | wakeOr x q =>
    refine keeps_rouse hc ?_ x (.inr ⟨q, rfl⟩)
    split_ifs
    · exact List.Subset.refl _
    · exact subset_cons_self _ _

omit [DecidableEq κ] in
/-- A process that is about to sleep keeps doing nothing but waking others. -/
theorem calm_perform (htook : Took s p t tasks tasks' next s')
    (htasks : ∀ x, t = .wake x → tasks' = tasks) (y : ι) (l : List (Task κ ι)) (op : Op)
    (hy : s'.control y = .running l (.park op)) : ∀ u ∈ l, ∃ x, u = .wake x := by
  by_cases hyp : y = p
  · subst hyp
    cases htook.after.symm.trans hy
    have hcalm := hi.calm y _ op hc
    obtain ⟨x, hx⟩ := hcalm t mem_cons_self
    rw [htasks x hx]
    exact fun u hu => hcalm u (mem_cons_of_mem t hu)
  grind [htook.others, hi.calm]

theorem Inv.perform (hone : ∀ q, t = .wakeOne q → (s.queue q).length ≤ 1) :
    Inv dev (s.perform p tasks next t) := by
  obtain ⟨tasks', htook, htasks⟩ := took_perform hc
  exact (keeps_perform hi hc hone).inv hi (NotLost.perform hi.promised hc)
    (calm_perform hi hc htook htasks)

end

end Tasks

/-! ### The other sections -/

section Sections

variable {dev : Device R Op κ ι} {s : System R Op κ ι} {p : ι} {op : Op}

/-- The process has no task before it. -/
def Idle (s : System R Op κ ι) (p : ι) : Prop :=
  ∀ tasks next, s.control p = .running tasks next → tasks = []

theorem idle_of_nil (hc : s.control p = .running [] next) : Idle s p := by
  intro tasks next' h
  cases hc.symm.trans h
  rfl

variable {s' : System R Op κ ι}

/-- Whatever an idle process turns to, the tasks of the others stay. -/
theorem Has.change {t : Task κ ι} (hidle : Idle s p)
    (hctl : ∀ x, x ≠ p → s'.control x = s.control x) (h : Has s t) : Has s' t := by
  obtain ⟨x, tasks, next, hx, ht⟩ := h
  have hne : x ≠ p := by
    rintro rfl
    rw [hidle tasks next hx] at ht
    exact not_mem_nil ht
  exact ⟨x, tasks, next, (hctl x hne).trans hx, ht⟩

theorem Promised.change {y : ι} (hidle : Idle s p)
    (hctl : ∀ x, x ≠ p → s'.control x = s.control x) (h : Promised s y) : Promised s' y := by
  rcases h with h | ⟨q, h⟩
  · exact .inl (h.change hidle hctl)
  · exact .inr ⟨q, h.change hidle hctl⟩

variable [DecidableEq ι]

theorem NotLost.setControl (h : NotLost dev s) (hidle : Idle s p)
    (hpark : ∀ op, c = .parked op → s.queued dev p op) : NotLost dev (s.setControl p c) := by
  intro x op hx q hq hout
  rw [control_setControl] at hx
  split_ifs at hx with hxp
  · subst hxp
    exact absurd (of_decide_eq_true (all_eq_true.1 (hpark op hx) q hq)) hout
  · exact (h x op hx q hq hout).change hidle fun y hy => by rw [control_setControl, if_neg hy]

/-- What an idle process turns to, when it neither touches the queues nor gains a reason to wait. -/
theorem Inv.setControl (hi : Inv dev s) (hidle : Idle s p)
    (hpark : ∀ op, c = .parked op → Waiting s p op ∧ s.queued dev p op)
    (hnext : ∀ tasks op, c ≠ .running tasks (.park op)) : Inv dev (s.setControl p c) := by
  have hctl (x : ι) (hx : x ≠ p) : (s.setControl p c).control x = s.control x := by
    rw [control_setControl, if_neg hx]
  have hself : (s.setControl p c).control p = c := by rw [control_setControl, if_pos rfl]
  have hwaiting (x : ι) (op : Op) (hx : Waiting (s.setControl p c) x op) : Waiting s x op := by
    by_cases hxp : x = p
    · subst hxp
      rcases hx with hx | ⟨tasks, hx⟩
      · exact (hpark op (hself.symm.trans hx)).1
      · exact absurd (hself.symm.trans hx) (hnext tasks op)
    · unfold Waiting at *
      rwa [hctl x hxp] at hx
  refine Keeps.inv ⟨fun x op hx => .inr ⟨hwaiting x op hx, .inl⟩, fun x op _ q _ hout => hout,
    fun q hq => .inr ?_⟩ hi (NotLost.setControl hi.promised hidle fun op h => (hpark op h).2)
    fun x tasks op hx => ?_
  · exact hq.imp (·.change hidle hctl) (·.change hidle hctl)
  · by_cases hxp : x = p
    · subst hxp
      exact absurd (hself.symm.trans hx) (hnext tasks op)
    · exact hi.calm x tasks op ((hctl x hxp).symm.trans hx)

theorem NotLost.rouse (h : NotLost dev s) (x : ι) : NotLost dev (s.rouse x) := by
  unfold System.rouse
  cases hx : s.control x with
  | running | awake => exact h
  | parked op =>
    exact h.setControl (fun _ _ h => nomatch hx.symm.trans h) nofun

theorem Inv.rouse (hi : Inv dev s) (x : ι) : Inv dev (s.rouse x) := by
  unfold System.rouse
  cases hx : s.control x with
  | running | awake => exact hi
  | parked op =>
    exact hi.setControl (fun _ _ h => nomatch hx.symm.trans h) nofun
      nofun

variable [DecidableEq κ]

theorem queue_attempt (q : κ) : (s.attempt dev p op).queue q =
    if q ∈ (dev.attempt s.resource p op).drained then [] else s.queue q :=
  rfl

theorem resource_attempt : (s.attempt dev p op).resource = (dev.attempt s.resource p op).state :=
  rfl

/-- What the process does after its attempt: it wakes those that it has taken out of the queues, and
then goes to sleep if it has been refused, or takes the sections that follow. -/
theorem control_attempt_self (dev : Device R Op κ ι) (s : System R Op κ ι) (p : ι) (op : Op) :
    ∃ tasks next, (s.attempt dev p op).control p = .running tasks next ∧
      (∀ x q, x ∈ s.queue q → q ∈ (dev.attempt s.resource p op).drained → .wake x ∈ tasks) ∧
      (∀ op', next = .park op' → op' = op ∧ dev.patient op = true ∧
        Refused dev s.resource p op ∧ ∀ t ∈ tasks, ∃ x, t = .wake x) ∧
      (¬ Refused dev s.resource p op → (dev.attempt s.resource p op).tasks ⊆ tasks) := by
  have hhand (x : ι) (q : κ) (hx : x ∈ s.queue q)
      (hq : q ∈ (dev.attempt s.resource p op).drained) :
      (Task.wake x : Task κ ι) ∈
        (s.waitersIn (dev.attempt s.resource p op).drained).map Task.wake :=
    mem_map_of_mem (mem_flatMap.2 ⟨q, hq, hx⟩)
  unfold System.attempt Refused
  rw [control_setControl, if_pos rfl]
  by_cases hr : (dev.attempt s.resource p op).refused = false
  · rw [if_pos hr]
    exact ⟨_, _, rfl, fun x q hx hq => mem_append_left _ (hhand x q hx hq),
      ⟨nofun, fun _ => subset_append_right _ _⟩⟩
  rw [if_neg hr]
  by_cases hp : dev.patient op = true
  · rw [if_pos hp]
    refine ⟨_, _, rfl, hhand, ?_, fun h => absurd (Bool.not_eq_true _ ▸ h) hr⟩
    rintro op' ⟨⟩
    refine ⟨rfl, hp, by simpa using hr, fun t ht => ?_⟩
    obtain ⟨x, -, rfl⟩ := mem_map.1 ht
    exact ⟨x, rfl⟩
  · rw [if_neg hp]
    exact ⟨_, _, rfl, fun x q hx hq => mem_append_left _ (hhand x q hx hq),
      ⟨nofun, fun h => absurd (Bool.not_eq_true _ ▸ h) hr⟩⟩

section

variable (hc : s.control p = .running [] (.attempt op))

include hc

theorem NotLost.attempt (h : NotLost dev s) : NotLost dev (s.attempt dev p op) := by
  obtain ⟨tasks, next, hself, hhand, -⟩ := control_attempt_self dev s p op
  intro x op' hx q hq hout
  have hctl (y : ι) (hy : y ≠ p) : (s.attempt dev p op).control y = s.control y :=
    (control_setControl _ p _ y).trans (if_neg hy)
  have hxp : x ≠ p := by
    rintro rfl
    cases hself.symm.trans hx
  rw [hctl x hxp] at hx
  rw [queue_attempt] at hout
  split_ifs at hout with hd
  · by_cases hin : x ∈ s.queue q
    · exact .inl ⟨p, tasks, next, hself, hhand x q hin hd⟩
    · exact (h x op' hx q hq hin).change (idle_of_nil hc) hctl
  · exact (h x op' hx q hq hout).change (idle_of_nil hc) hctl

/-- **One attempt.**  A process that waits is refused still, or one of its queues has been emptied
or is going to be woken. -/
theorem Inv.attempt (hi : Inv dev s) (hcov : Covers dev s p op) :
    Inv dev (s.attempt dev p op) := by
  obtain ⟨tasks, next, hself, hhand, hpark, htasks⟩ := control_attempt_self dev s p op
  have hidle : Idle s p := idle_of_nil hc
  have hctl (x : ι) (hx : x ≠ p) : (s.attempt dev p op).control x = s.control x :=
    (control_setControl _ p _ x).trans (if_neg hx)
  have hdrained {q : κ} (hq : q ∈ (dev.attempt s.resource p op).drained) :
      (s.attempt dev p op).queue q = [] := by rw [queue_attempt, if_pos hq]
  have hsub {q : κ} {x : ι} (hx : x ∉ s.queue q) : x ∉ (s.attempt dev p op).queue q := by
    rw [queue_attempt]
    split_ifs
    · exact not_mem_nil
    · exact hx
  refine Keeps.inv ⟨fun x op' hx => ?_, fun x op' _ q _ => hsub,
    fun q hq => .inr (hq.imp (·.change hidle hctl) (·.change hidle hctl))⟩ hi
    (NotLost.attempt hc hi.promised) fun x l op' hx => ?_
  · by_cases hxp : x = p
    · -- The process itself waits because it has just been refused.
      subst hxp
      rcases hx with hx | ⟨l, hx⟩
      · cases hself.symm.trans hx
      cases hself.symm.trans hx
      obtain ⟨rfl, hp, href, -⟩ := hpark op' rfl
      refine .inl ⟨hp, ?_⟩
      rcases hcov.self href with hr | ⟨q, hq, hd⟩
      · exact .inl (by rwa [resource_attempt])
      · exact .inr ⟨q, hq, .inl (by rw [hdrained hd]; exact not_mem_nil)⟩
    · have hw : Waiting s x op' := by
        unfold Waiting at *
        rwa [hctl x hxp] at hx
      refine .inr ⟨hw, fun hr => ?_⟩
      by_cases hq : s.queued dev x op' = true
      · rcases hcov.others x op' hxp (hi.patient x op' hw) hq hr with
          hr' | ⟨q, hq, hd | ⟨hok, hwakes⟩⟩
        · exact .inl (by rwa [resource_attempt])
        · exact .inr ⟨q, hq, .inl (by rw [hdrained hd]; exact not_mem_nil)⟩
        · exact .inr ⟨q, hq, .inr (hwakes.imp
            (fun h => ⟨p, tasks, next, hself, htasks hok h⟩)
            fun h => ⟨p, tasks, next, hself, htasks hok h⟩)⟩
      · obtain ⟨q, hq, hout⟩ : ∃ q ∈ dev.queues op', x ∉ s.queue q := by
          simpa [System.queued] using hq
        exact .inr ⟨q, hq, .inl (hsub hout)⟩
  · by_cases hxp : x = p
    · subst hxp
      cases hself.symm.trans hx
      exact (hpark op' rfl).2.2.2
    · exact hi.calm x l op' ((hctl x hxp).symm.trans hx)

end

/-- What a step can be. -/
inductive Stepped (dev : Device R Op κ ι) (s : System R Op κ ι) :
    Event Op ι → System R Op κ ι → Prop
  | call (p : ι) (op : Op) (hc : s.control p = .running [] .leave) :
    Stepped dev s (.call p op) (s.setControl p (.running (enqueues dev op) (.attempt op)))
  | rouse (p : ι) : Stepped dev s (.rouse p) (s.rouse p)
  | awake (p : ι) (stop : Bool) (op : Op) (hc : s.control p = .awake op) :
    Stepped dev s (.run p stop) (s.setControl p (if stop then .running (dequeues dev op) .leave
      else .running (dequeues dev op ++ enqueues dev op) (.attempt op)))
  | perform (p : ι) (stop : Bool) (t : Task κ ι) (tasks : List (Task κ ι)) (next : Next Op)
    (hc : s.control p = .running (t :: tasks) next) :
    Stepped dev s (.run p stop) (s.perform p tasks next t)
  | attempt (p : ι) (stop : Bool) (op : Op) (hc : s.control p = .running [] (.attempt op)) :
    Stepped dev s (.run p stop) (s.attempt dev p op)
  | park (p : ι) (stop : Bool) (op : Op) (hc : s.control p = .running [] (.park op)) :
    Stepped dev s (.run p stop)
      (s.setControl p (if stop = false ∧ s.queued dev p op then .parked op else .awake op))

theorem stepped_of_step (hs : s.step dev e = some s') : Stepped dev s e s' := by
  cases e with
  | call p op =>
    cases hc : s.control p with
    | parked | awake => simp [System.step, hc] at hs
    | running tasks next =>
      rcases tasks with _ | ⟨t, tasks⟩ <;> rcases next with _ | op' | op' <;>
        simp only [System.step, hc, reduceCtorEq, some.injEq] at hs
      exact hs ▸ .call p op hc
  | rouse p => exact some.inj hs ▸ .rouse p
  | run p stop =>
    simp only [System.step, System.advance] at hs
    cases hc : s.control p with
    | parked op => simp [hc] at hs
    | awake op =>
      simp only [hc, some.injEq] at hs
      exact hs ▸ .awake p stop op hc
    | running tasks next =>
      rcases tasks with _ | ⟨t, tasks⟩
      · rcases next with _ | op | op <;> simp only [hc, reduceCtorEq, some.injEq] at hs
        · exact hs ▸ .attempt p stop op hc
        · exact hs ▸ .park p stop op hc
      · simp only [hc, some.injEq] at hs
        exact hs ▸ .perform p stop t tasks next hc

/-- **One section** loses no sleeper. -/
theorem NotLost.step (h : NotLost dev s) (hs : Stepped dev s e s') : NotLost dev s' := by
  cases hs with
  | call p op hc => exact h.setControl (idle_of_nil hc) nofun
  | rouse p => exact h.rouse p
  | awake p stop op hc =>
    refine h.setControl (fun _ _ h => nomatch hc.symm.trans h) fun _ h => ?_
    split_ifs at h
  | perform p stop t tasks next hc => exact h.perform hc
  | attempt p stop op hc => exact h.attempt hc
  | park p stop op hc =>
    refine h.setControl (idle_of_nil hc) fun op' h => ?_
    split_ifs at h with hgo
    cases h
    exact hgo.2

/-- **One section keeps the invariant.** -/
theorem Inv.step (hi : Inv dev s) (hcov : Covered dev s e)
    (hs : Stepped dev s e s') : Inv dev s' := by
  cases hs with
  | call p op hc =>
    exact hi.setControl (idle_of_nil hc) nofun nofun
  | rouse p => exact hi.rouse p
  | awake p stop op hc =>
    refine hi.setControl (fun _ _ h => nomatch hc.symm.trans h) (fun _ h => ?_) fun _ _ h => ?_
    · split_ifs at h
    · split_ifs at h <;> cases h
  | perform p stop t tasks next hc =>
    refine hi.perform hc fun q hq => ?_
    subst hq
    simpa only [Covered, hc] using hcov
  | attempt p stop op hc => exact Inv.attempt hc hi (by simpa only [Covered, hc] using hcov)
  | park p stop op hc =>
    refine hi.setControl (idle_of_nil hc) (fun op' h => ?_) fun _ _ h => ?_
    · split_ifs at h with hgo
      cases h
      exact ⟨.inr ⟨[], hc⟩, hgo.2⟩
    · split_ifs at h

end Sections

/-! ### Runs -/

section Runs

variable {dev : Device R Op κ ι} {s : System R Op κ ι}

/-- Every process sleeps or is outside. -/
def Quiet (s : System R Op κ ι) : Prop :=
  ∀ p, (∃ op, s.control p = .parked op) ∨ s.control p = .running [] .leave

/-- No process waits for anything, and nobody is on the way to a queue. -/
theorem Inv.of_outside (h : ∀ p, s.control p = .running [] .leave) : Inv dev s := by
  have hno (p : ι) (op : Op) : ¬ Waiting s p op := by
    rintro (hw | ⟨tasks, hw⟩) <;> cases (h p).symm.trans hw
  refine ⟨fun p op hw => absurd hw (hno p op), fun p op hw => absurd hw (hno p op),
    fun p op hp => absurd (.inl hp) (hno p op), fun p tasks op hp => ?_⟩
  · cases (h p).symm.trans hp

theorem not_has_of_quiet (hq : Quiet s) (t : Task κ ι) : ¬ Has s t := by
  rintro ⟨p, tasks, next, hp, ht⟩
  rcases hq p with ⟨op, hpark⟩ | hleave
  · cases hpark.symm.trans hp
  · cases hleave.symm.trans hp
    exact not_mem_nil ht

/-- In a quiet state every sleeper is refused. -/
theorem Inv.refused (hi : Inv dev s) (hq : Quiet s) {p : ι}
    (hp : s.control p = .parked op) : Refused dev s.resource p op := by
  rcases hi.excused p op (.inl hp) with hr | ⟨q, hmem, hout | hall | hone⟩
  · exact hr
  · rcases hi.promised p op hp q hmem hout with h | ⟨q', h⟩
    · exact absurd h (not_has_of_quiet hq _)
    · exact absurd h (not_has_of_quiet hq _)
  · exact absurd hall (not_has_of_quiet hq _)
  · exact absurd hone (not_has_of_quiet hq _)

variable [DecidableEq κ] [DecidableEq ι]

/-- Only an attempt changes the resource. -/
theorem attempted_step (hs : Stepped dev s e s') :
    s.attempted e = none ∧ s'.resource = s.resource ∨
      ∃ p op, s.attempted e = some (op, s.resource) ∧
        s'.resource = (dev.attempt s.resource p op).state := by
  cases hs with
  | call => exact .inl ⟨rfl, rfl⟩
  | rouse p => exact .inl ⟨rfl, resource_rouse s p⟩
  | awake p stop op hc | park p stop op hc => exact .inl ⟨by simp [System.attempted, hc], rfl⟩
  | perform p stop t tasks next hc =>
    obtain ⟨_, htook, -⟩ := took_perform hc
    exact .inl ⟨by simp [System.attempted, hc], htook.resource⟩
  | attempt p stop op hc => exact .inr ⟨p, op, by simp [System.attempted, hc], rfl⟩

/-- What every attempt keeps holds of the resource after every step. -/
theorem resource_step_of {J : R → Prop} (hJ : ∀ r p op, J r → J (dev.attempt r p op).state)
    (h : J s.resource) (hs : Stepped dev s e s') : J s'.resource := by
  rcases attempted_step hs with ⟨-, hr⟩ | ⟨p, op, -, hr⟩
  · rwa [hr]
  · rw [hr]
    exact hJ _ p op h

/-- **Histories.**  What every attempt keeps of the resource and the attempts so far holds along
every run. -/
theorem always_logged {J : List (Op × R) → R → Prop} {es : List (Event Op ι)}
    (hJ : ∀ log r p op, J log r → J (log ++ [(op, r)]) (dev.attempt r p op).state)
    (h : J [] s.resource) :
    Runs.Always (Runs.logged (System.step dev) System.attempted)
      (fun x => J x.1 x.2.resource) es ([], s) := by
  refine Runs.always_of_invariant (fun x e x' h _ hs => ?_) (fun x h => h) h
    (Runs.meets_true es _)
  obtain ⟨s', hs', rfl⟩ := Option.map_eq_some_iff.1 hs
  rcases attempted_step (stepped_of_step hs') with ⟨hnone, hr⟩ | ⟨p, op, hsome, hr⟩
  · simpa [hnone, hr] using h
  · simpa [hsome, hr] using hJ x.1 x.2.resource p op h

/-- **No sleeper is left behind** by a run of sections that the condition `C` covers where the
invariant `K` holds. -/
theorem no_sleeper_left {K : System R Op κ ι → Prop} {C : System R Op κ ι → Event Op ι → Prop}
    (hK : ∀ s e s', K s → Stepped dev s e s' → K s') (hC : ∀ s e, K s → C s e → Covered dev s e)
    {es : List (Event Op ι)} (h₀ : ∀ p, s.control p = .running [] .leave) (hK₀ : K s)
    (hes : Runs.Meets (System.step dev) C es s) :
    Runs.Always (System.step dev) (fun s' => K s' ∧
      (Quiet s' → ∀ p op, s'.control p = .parked op →
        dev.patient op = true ∧ Refused dev s'.resource p op)) es s := by
  refine Runs.always_of_invariant (I := fun s' => K s' ∧ Inv dev s')
    (fun s e s' hi hc hs => ?_) (fun s' hi => ⟨hi.1, fun hq p op hp => ?_⟩)
    ⟨hK₀, Inv.of_outside h₀⟩ hes
  rotate_left
  · exact ⟨hi.2.patient p op (.inl hp), hi.2.refused hq hp⟩
  have hs' := stepped_of_step hs
  exact ⟨hK s e s' hi.1 hs', hi.2.step (hC s e hi.1 hc) hs'⟩

end Runs

/-! ### Devices that wake whole queues -/

section Thorough

variable {dev : Device R Op κ ι} {s : System R Op κ ι}

/-- A task that does not stop at the first process of a queue. -/
def Task.Thorough : Task κ ι → Prop
  | .wakeOne _ | .wakeOr _ _ => False
  | _ => True

/-- All tasks that processes have before them are thorough. -/
def Thorough (s : System R Op κ ι) : Prop :=
  ∀ p tasks next, s.control p = .running tasks next → ∀ t ∈ tasks, t.Thorough

theorem thorough_map {α : Type} {f : α → Task κ ι} (hf : ∀ a, (f a).Thorough) (l : List α) :
    ∀ t ∈ l.map f, t.Thorough := by
  intro t ht
  obtain ⟨a, -, rfl⟩ := mem_map.1 ht
  exact hf a

theorem thorough_append {a b : List (Task κ ι)} (ha : ∀ t ∈ a, t.Thorough)
    (hb : ∀ t ∈ b, t.Thorough) : ∀ t ∈ a ++ b, t.Thorough :=
  fun t ht => (mem_append.1 ht).elim (ha t) (hb t)

variable [DecidableEq ι]

theorem Thorough.setControl {p : ι} (h : Thorough s)
    (hc : ∀ tasks next, c = .running tasks next → ∀ t ∈ tasks, t.Thorough) :
    Thorough (s.setControl p c) := by
  intro x tasks next hx
  rw [control_setControl] at hx
  aesop

theorem Thorough.rouse (h : Thorough s) (x : ι) : Thorough (s.rouse x) := by
  intro y tasks next hy
  rcases control_rouse s x y with hsame | ⟨op, -, -, hawake⟩
  · exact h y tasks next (hsame.symm.trans hy)
  · cases hawake.symm.trans hy

variable [DecidableEq κ]

/-- **One section** of a device whose attempts leave thorough tasks. -/
theorem Thorough.step (h : Thorough s)
    (hdev : ∀ r p op, ∀ t ∈ (dev.attempt r p op).tasks, t.Thorough) (hs : Stepped dev s e s') :
    Thorough s' := by
  cases hs with
  | call p op hc =>
    refine h.setControl fun tasks next heq => ?_
    cases heq
    exact thorough_map (fun _ => by trivial) _
  | rouse p => exact h.rouse p
  | awake p stop op hc =>
    refine h.setControl fun tasks next heq => ?_
    have hleave : ∀ t ∈ dequeues dev op, t.Thorough := thorough_map (fun _ => by trivial) _
    split_ifs at heq <;> cases heq
    · exact hleave
    · exact thorough_append hleave (thorough_map (fun _ => by trivial) _)
  | perform p stop t tasks next hc =>
    have hold := h p _ next hc
    have hrest : ∀ t ∈ tasks, t.Thorough := fun u hu => hold u (mem_cons_of_mem t hu)
    have hgo (l : List (Task κ ι)) (n : Next Op)
        (heq : (Control.running tasks next : Control Op κ ι) = .running l n) :
        ∀ u ∈ l, u.Thorough := by
      cases heq
      exact hrest
    cases t with
    | enqueue q | dequeue q => exact Thorough.setControl (s := s.setQueue q _) h hgo
    | wakeAll q =>
      refine Thorough.setControl (s := s.setQueue q _) h fun l n heq => ?_
      cases heq
      exact thorough_append (thorough_map (fun _ => by trivial) _) hrest
    | wake x => exact (h.rouse x).setControl hgo
    | wakeOne | wakeOr => exact absurd (hold _ mem_cons_self) id
  | attempt p stop op hc =>
    refine Thorough.setControl (s := { s.drain (dev.attempt s.resource p op).drained with
      resource := (dev.attempt s.resource p op).state }) h fun tasks next heq => ?_
    have hhand : ∀ t ∈ (s.waitersIn (dev.attempt s.resource p op).drained).map
        (Task.wake : ι → Task κ ι), t.Thorough := thorough_map (fun _ => by trivial) _
    split_ifs at heq <;> cases heq
    · exact thorough_append hhand (hdev s.resource p op)
    · exact hhand
    · exact thorough_append hhand (thorough_map (fun _ => by trivial) _)
  | park p stop op hc =>
    refine h.setControl fun tasks next heq => ?_
    split_ifs at heq

omit [DecidableEq κ] in
/-- With such a device only attempts have to be covered. -/
theorem Thorough.covered (h : Thorough s)
    (hcov : ∀ p stop op, e = .run p stop → s.control p = .running [] (.attempt op) →
      Covers dev s p op) : Covered dev s e := by
  cases e with
  | call | rouse => trivial
  | run p stop =>
    simp only [Covered]
    split
    · exact hcov p stop _ rfl ‹_›
    · exact absurd (h p _ _ ‹_› _ mem_cons_self) id
    · trivial

end Thorough

end CypheraKernel.WaitQueues
