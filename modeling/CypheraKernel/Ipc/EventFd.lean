import CypheraKernel.Lib.WaitQueues
import Mathlib.Tactic

/-!
# Event counters

`EventFdInode` of `kernel/src/ipc/fdtypes.rs`: a counter that writes add to and reads take from.  A
read of zero and a write that does not fit wait in the same queue, by `block_io` of
`kernel/src/vfs/blocking.rs`; pollers wait in a second one.

`eventfd_exact`: **the counter is exact, and no process sleeps whose call would go on**.
-/

namespace CypheraKernel.Event

open List WaitQueues

def eventfdMax : ℕ := 2 ^ 64 - 2

/-- The two wait queues of an eventfd. -/
inductive Queue
  | wait
  | poll
  deriving DecidableEq

/-- The calls, after the check of the buffer; `u64::MAX` is refused there. -/
inductive Op
  | read (nonblock : Bool)
  | write (add : Fin (2 ^ 64 - 1)) (nonblock : Bool)

/-- What a call that goes on gives to its caller: the value that a read stores, or that the value of
a write was taken. -/
inductive Reply
  | value (val : ℕ)
  | written
  deriving DecidableEq

/-- `read_at_with_flags` and `write_at_with_flags`, once, with the counter afterwards; `none` if the
call has to wait. -/
def try_ (semaphore : Bool) (counter : ℕ) : Op → Option (Reply × ℕ)
  | .read _ =>
    if counter > 0 then
      let val := if semaphore then 1 else counter
      some (.value val, counter - val)
    else none
  | .write add _ =>
    if counter + add ≤ eventfdMax then some (.written, counter + add) else none

variable {ι : Type}

variable (semaphore : Bool)

/-- A call that goes on wakes both queues and leaves its own. -/
def attempt (c : ℕ) (op : Op) : Answer ℕ Queue ι :=
  match try_ semaphore c op with
  | some (_, c') => ⟨c', [], false, [.wakeAll .wait, .wakeAll .poll, .dequeue .wait]⟩
  | none => ⟨c, [], true, []⟩

def device : Device ℕ Op Queue ι where
  queues _ := [.wait]
  patient
    | .read nonblock | .write _ nonblock => !nonblock
  attempt c _ op := attempt semaphore c op

def initial (initval : ℕ) : System ℕ Op Queue ι :=
  ⟨initval, fun _ => [], fun _ => .running [] .leave⟩

/-- What a call, on the counter that it found, has returned to its reader. -/
def returned (x : Op × ℕ) : ℕ :=
  match try_ semaphore x.2 x.1 with
  | some (.value val, _) => val
  | _ => 0

/-- What a call has added: the value of a write that was taken. -/
def added : Op × ℕ → ℕ
  | (.write add nonblock, c) => if (try_ semaphore c (.write add nonblock)).isSome then add else 0
  | (.read _, _) => 0

/-- The counter is what it began with and what was added, without what was returned, and no write
has brought it above the maximum. -/
structure Counts (semaphore : Bool) (initval : ℕ) (log : List (Op × ℕ)) (c : ℕ) : Prop where
  total : c + (log.map (returned semaphore)).sum = initval + (log.map (added semaphore)).sum
  bounded : ∀ add nonblock c₀, (.write add nonblock, c₀) ∈ log →
    ∀ r c₁, try_ semaphore c₀ (.write add nonblock) = some (r, c₁) → c₁ ≤ eventfdMax

/-- The call cannot go on. -/
def Stuck (counter : ℕ) : Op → Prop
  | .read _ => counter = 0
  | .write add _ => eventfdMax < counter + add

variable {initval : ℕ} {semaphore} {c : ℕ} {log : List (Op × ℕ)}

theorem stuck_iff {op : Op} : try_ semaphore c op = none ↔ Stuck c op := by
  cases op <;> simp [try_, Stuck]

/-- A call that goes on wakes the queue; one that does not changes nothing. -/
theorem attempt_cases (semaphore : Bool) (c : ℕ) (p : ι) (op : Op) :
    (Stuck c op ∧ try_ semaphore c op = none ∧
        (device semaphore).attempt c p op = ⟨c, [], true, []⟩) ∨
      ∃ r c', try_ semaphore c op = some (r, c') ∧ (device semaphore).attempt c p op =
        ⟨c', [], false, [.wakeAll .wait, .wakeAll .poll, .dequeue .wait]⟩ := by
  cases hc : try_ semaphore c op with
  | none => exact .inl ⟨stuck_iff.1 hc, rfl, by simp [device, attempt, hc]⟩
  | some r => exact .inr ⟨r.1, r.2, rfl, by simp [device, attempt, hc]⟩

/-- A call that goes on changes the counter by what it adds and returns. -/
theorem total_try {op : Op} {r : Reply} {c' : ℕ} (h : try_ semaphore c op = some (r, c')) :
    c' + returned semaphore (op, c) = c + added semaphore (op, c) := by
  unfold returned
  dsimp only
  rw [h]
  cases op with
  | read nonblock =>
    rw [try_] at h
    split_ifs at h
    all_goals
      cases h
      dsimp only [added]
      omega
  | write add nonblock =>
    simp only [added, h, Option.isSome_some, if_true]
    rw [try_] at h
    split_ifs at h
    cases h
    rfl

theorem Counts.attempt (p : ι) (op : Op) (h : Counts semaphore initval log c) :
    Counts semaphore initval (log ++ [(op, c)]) ((device semaphore).attempt c p op).state := by
  have htotal := h.total
  refine ⟨?_, fun add nonblock c₀ hmem r c₁ hgo => ?_⟩
  · simp only [map_append, sum_append, map_cons, map_nil, sum_singleton]
    rcases attempt_cases semaphore c p op with ⟨-, hnone, heq⟩ | ⟨r, c', hgo, heq⟩
    · have hidle : returned semaphore (op, c) = 0 ∧ added semaphore (op, c) = 0 := by
        cases op <;> simp [returned, added, hnone]
      rw [heq]
      dsimp only
      omega
    · have := total_try hgo
      rw [heq]
      dsimp only
      omega
  · rw [try_] at hgo
    split_ifs at hgo with hfits
    cases hgo
    exact hfits

theorem thorough_attempt (c : ℕ) (p : ι) (op : Op) :
    ∀ t ∈ ((device semaphore).attempt c p op).tasks, t.Thorough := by
  rcases attempt_cases semaphore c p op with ⟨-, -, heq⟩ | ⟨r, c', -, heq⟩ <;>
    simp [heq, Task.Thorough]

variable [DecidableEq ι]

theorem covers (semaphore : Bool) (s : System ℕ Op Queue ι) (p : ι) (op : Op) :
    Covers (device semaphore) s p op := by
  rcases attempt_cases semaphore s.resource p op with ⟨-, -, heq⟩ | ⟨r, c', -, heq⟩
  · exact ⟨fun p' op' _ _ _ hr => .inl (by rwa [heq]), fun hr => .inl (by rwa [heq])⟩
  · have hgo : ¬ Refused (device semaphore) s.resource p op := by simp [Refused, heq]
    refine ⟨fun p' op' _ _ _ _ => .inr ⟨.wait, mem_singleton_self _, .inr ⟨hgo, ?_⟩⟩,
      fun hr => absurd hr hgo⟩
    simp [heq, Wakes]

/-- **Event counters.**  In every interleaving the counter is exact, and in a state in which every
process sleeps or is outside no reader sleeps at a positive counter and no writer whose value would
fit. -/
theorem eventfd_exact (semaphore : Bool) (initval : ℕ) (es : List (Event Op ι)) :
    Runs.Always (Runs.logged (System.step (device semaphore)) System.attempted)
        (fun x => Counts semaphore initval x.1 x.2.resource) es ([], initial initval) ∧
      Runs.Always (System.step (device semaphore)) (fun s =>
        Quiet s → ∀ p op, s.control p = .parked op → Stuck s.resource op) es (initial initval) := by
  refine ⟨always_logged (J := Counts semaphore initval) (fun log c p op h => h.attempt p op)
    ⟨rfl, by simp⟩, ?_⟩
  have hrun := no_sleeper_left (K := Thorough)
    (fun s e s' hk hs => hk.step thorough_attempt hs)
    (fun s e hk _ => hk.covered fun p _ op _ _ => covers semaphore s p op)
    (s := initial initval) (fun _ => rfl) ?_ (Runs.meets_true es _)
  · refine hrun.mono fun s hs hq p op hp => ?_
    have hr := (hs.2 hq p op hp).2
    rcases attempt_cases semaphore s.resource p op with ⟨hstuck, -⟩ | ⟨r, c', -, heq⟩
    · exact hstuck
    · simp [Refused, heq] at hr
  · rintro p tasks next ⟨⟩ t ht
    cases ht

end CypheraKernel.Event
