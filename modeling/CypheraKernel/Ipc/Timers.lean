import CypheraKernel.Lib.Runs
import CypheraKernel.Lib.Rust

/-!
# Periodic timers

`TimerFdInode` of `kernel/src/ipc/fdtypes.rs` and `timer_fire` of
`kernel/src/syscall/posix_timer.rs` over the list of callbacks of `kernel/src/core/timeout.rs`.  A
callback that has left the list runs later, whatever was done to the timer in between, and it takes
the deadline that it then finds for one that has come.

`expirations_exact`: the expirations are those of the armed timer as long as every callback runs
between the deadline that is armed and the next one.
-/

namespace CypheraKernel.Timers

open Rust

inductive Kind
  | timerFd
  | posix
  deriving DecidableEq, Repr

/-- The timer, its place in the list of callbacks and the callbacks that were taken from the list:
`popped` of them have still to look the timer up, `found` have done so. -/
structure Timer where
  (deadline interval expirations overrunLast : ℕ)
  index : Bool
  entry : Option ℕ
  (popped found : ℕ)
  deriving DecidableEq, Repr

/-- A timer and what has been seen of it.  `armed` is the deadline of the last arming; since then
`told` expirations have reached a reader or were signalled, the last callback ran at `last`, and its
loop made so many `turns`. -/
structure Seen extends Timer where
  (armed told : ℕ)
  last : Option ℕ
  turns : ℕ
  deriving DecidableEq, Repr

inductive Event
  | arm (deadline interval : ℕ)
  | setIndex (present : Bool)
  | registerCallback (deadline : ℕ)
  | cancelCallback
  | wakeExpired (now : ℕ)
  | lookUp
  | fire (now : ℕ)
  | read
  deriving DecidableEq, Repr

/-- `while next <= now`: the deadline that comes next, and the number of turns.  With an interval
the loop ends in `now` turns, if it ends; it does not when `next` and `now` are the largest
number. -/
def catchUp (now interval : ℕ) : ℕ → ℕ → ℕ → Option (ℕ × ℕ)
  | 0, _, _ => none
  | fuel + 1, next, turns =>
    if next ≤ now then catchUp now interval fuel (saturatingAddU64 next interval) (turns + 1)
    else some (next, turns)

namespace Timer

def new : Timer := ⟨0, 0, 0, 0, false, none, 0, 0⟩

/-- `missed` expirations are added to the counter, or signalled with the overrun; with the number of
those signalled. -/
def account (t : Timer) (kind : Kind) (missed : ℕ) : ℕ × Timer :=
  match kind with
  | .timerFd => (0, { t with expirations := saturatingAddU64 t.expirations missed })
  | .posix =>
    let overrun := min (missed - 1) (2 ^ 31 - 1)
    (overrun + 1, { t with overrunLast := overrun })

/-- The section of `timerfd_callback` and of `timer_fire` that holds the timer, with the number of
expirations signalled and of the turns of its loop. -/
def fire (t : Timer) (kind : Kind) (now : ℕ) : Option (ℕ × ℕ × Timer) :=
  if kind = .posix ∧ t.deadline = 0 then some (0, 0, t)
  else if t.interval = 0 then
    let (signalled, t) := t.account kind 1
    some (signalled, 0, { t with deadline := 0 })
  else
    let next := saturatingAddU64 t.deadline t.interval
    (catchUp now t.interval (now + 1) next 0).map fun (next, turns) =>
      let (signalled, t) := t.account kind (turns + 1)
      (signalled, turns, { t with deadline := next })

@[simp] theorem interval_account {t : Timer} {kind : Kind} {n : ℕ} :
    (t.account kind n).2.interval = t.interval := by
  cases kind <;> rfl

end Timer

namespace Seen

def new : Seen := ⟨.new, 0, 0, none, 0⟩

/-- The expirations since the last arming. -/
def accounted (t : Seen) : ℕ := t.told + t.expirations

/-- A callback runs. -/
def fire (t : Seen) (kind : Kind) (now : ℕ) : Option Seen :=
  (t.toTimer.fire kind now).map fun (signalled, turns, timer) =>
    ⟨timer, t.armed, t.told + signalled, some now, turns⟩

/-- The sections of the calls and of the callbacks, in any order. -/
def step (kind : Kind) (t : Seen) : Event → Option Seen
  | .arm deadline interval => some { t with
      deadline := deadline
      interval := if kind = .posix ∧ deadline = 0 then 0 else interval
      expirations := 0, overrunLast := 0, armed := deadline, told := 0, last := none, turns := 0 }
  | .setIndex present => some { t with index := present }
  | .registerCallback deadline => some { t with entry := some deadline }
  | .cancelCallback => some { t with entry := none }
  | .wakeExpired now =>
    if t.entry.any (· ≤ now) then some { t with entry := none, popped := t.popped + 1 } else some t
  | .lookUp =>
    if t.popped = 0 then none
    else some { t with popped := t.popped - 1, found := if t.index then t.found + 1 else t.found }
  | .fire now =>
    match kind with
    | .timerFd => if t.found = 0 then none else { t with found := t.found - 1 }.fire kind now
    | .posix => if t.popped = 0 then none else { t with popped := t.popped - 1 }.fire kind now
  | .read => some { t with told := t.told + t.expirations, expirations := 0 }

/-- A periodic timer has expired once for every deadline that has come, its next deadline is one
that has not, and no callback had to search for it. -/
def Exact (t : Seen) : Prop :=
  t.armed ≠ 0 → t.interval ≠ 0 →
    (∀ now ∈ t.last, t.armed ≤ now ∧ t.accounted = (now - t.armed) / t.interval + 1 ∧
      now < t.deadline) ∧
    (t.last = none → t.accounted = 0) ∧ (∃ k, t.deadline = t.armed + k * t.interval) ∧ t.turns = 0

/-- A callback runs after the deadline that is armed and before the next one. -/
def Prompt (t : Seen) : Event → Prop
  | .fire now => t.deadline ≠ 0 → t.interval ≠ 0 →
      t.deadline ≤ now ∧ now < t.deadline + t.interval ∧ t.deadline + t.interval < usizeBound
  | _ => True

instance (t : Seen) (e : Event) : Decidable (t.Prompt e) := by
  unfold Prompt
  split <;> infer_instance

/-! ### Exact expirations -/

structure Inv (t : Seen) : Prop where
  deadline : t.armed ≠ 0 → t.interval ≠ 0 → t.deadline = t.armed + t.accounted * t.interval
  last : t.armed ≠ 0 → t.interval ≠ 0 → ∀ now ∈ t.last,
    t.armed ≤ now ∧ now < t.deadline ∧ t.deadline ≤ now + t.interval
  fresh : t.last = none → t.accounted = 0
  turns : t.armed ≠ 0 → t.interval ≠ 0 → t.turns = 0

variable {kind : Kind} {t t' : Seen} {now : ℕ}

theorem Inv.exact (h : t.Inv) : t.Exact := by
  intro harmed hinterval
  have hdeadline := h.deadline harmed hinterval
  refine ⟨fun now hnow => ?_, h.fresh, ⟨_, hdeadline⟩, h.turns harmed hinterval⟩
  obtain ⟨hle, hlt, hnext⟩ := h.last harmed hinterval now hnow
  refine ⟨hle, ?_, hlt⟩
  rw [hdeadline] at hlt hnext
  obtain ⟨k, hk⟩ : ∃ k, t.accounted = k + 1 := by
    refine Nat.exists_eq_succ_of_ne_zero fun hzero => ?_
    rw [hzero, Nat.zero_mul] at hlt
    omega
  rw [hk, Nat.succ_mul] at hlt hnext
  rw [hk, Nat.div_eq_of_lt_le (k := k) (by omega) (by rw [Nat.succ_mul]; omega)]

theorem accounted_account (kind : Kind) (h : t.accounted + 1 < usizeBound) :
    t.told + (t.account kind 1).1 + (t.account kind 1).2.expirations = t.accounted + 1 := by
  unfold accounted at *
  cases kind with
  | timerFd =>
    simp only [Timer.account, saturatingAddU64]
    omega
  | posix =>
    simp only [Timer.account]
    omega

/-- Nothing is asked of a timer that is not armed or has no interval. -/
theorem inv_idle (hidle : t.armed = 0 ∨ t.interval = 0) (hfresh : t.last = none → t.accounted = 0) :
    t.Inv := by
  have hnot : t.armed ≠ 0 → t.interval ≠ 0 → False := fun ha hi => hidle.elim ha hi
  exact ⟨fun ha hi => (hnot ha hi).elim, fun ha hi => (hnot ha hi).elim, hfresh,
    fun ha hi => (hnot ha hi).elim⟩

theorem Inv.fire (h : t.Inv) (hprompt : t.Prompt (.fire now)) (ht : t.fire kind now = some t') :
    t'.Inv := by
  obtain ⟨⟨signalled, turns, timer⟩, hfire, rfl⟩ := Option.map_eq_some_iff.1 ht
  unfold Timer.fire at hfire
  split_ifs at hfire with hdisarmed hinterval
  · cases hfire
    refine inv_idle (or_iff_not_imp_left.2 fun harmed => by_contra fun hinterval => ?_) nofun
    have harmed' : t.armed ≠ 0 := harmed
    have hdeadline := h.deadline harmed hinterval
    omega
  · cases hfire
    exact inv_idle (.inr (Timer.interval_account.trans hinterval)) nofun
  obtain ⟨⟨next, turns⟩, hcatch, hfire⟩ := Option.map_eq_some_iff.1 hfire
  cases hfire
  by_cases harmed : t.armed = 0
  · exact inv_idle (.inl harmed) nofun
  have hdeadline := h.deadline harmed hinterval
  obtain ⟨hle, hlt, hbound⟩ := hprompt (by omega) hinterval
  have hsat : saturatingAddU64 t.deadline t.interval = t.deadline + t.interval := by
    unfold saturatingAddU64
    omega
  -- the loop makes no turn: the next deadline has not come
  rw [hsat, catchUp, if_neg hlt.not_ge] at hcatch
  cases hcatch
  have hbelow : t.accounted + 1 < usizeBound := by
    have hpos := Nat.le_mul_of_pos_right t.accounted (Nat.pos_of_ne_zero hinterval)
    omega
  have hcount := accounted_account kind hbelow
  refine ⟨fun _ _ => ?_, fun _ _ now' hnow => ?_, nofun, fun _ _ => rfl⟩
  · change t.deadline + t.interval = t.armed + (t.told + (t.account kind 1).1 +
      (t.account kind 1).2.expirations) * (t.account kind 1).2.interval
    rw [hcount, Timer.interval_account, Nat.succ_mul, hdeadline, Nat.add_assoc]
  cases hnow
  change t.armed ≤ now ∧ now < t.deadline + t.interval ∧
    t.deadline + t.interval ≤ now + (t.account kind 1).2.interval
  rw [Timer.interval_account]
  omega

theorem Inv.step {e : Event} (h : t.Inv) (hprompt : t.Prompt e) (ht : t.step kind e = some t') :
    t'.Inv := by
  cases e with
  | arm deadline interval =>
    cases ht
    exact ⟨fun _ _ => by simp [accounted], nofun, fun _ => rfl, fun _ _ => rfl⟩
  | setIndex | registerCallback | cancelCallback | read =>
    cases ht
    exact ⟨h.deadline, h.last, h.fresh, h.turns⟩
  | wakeExpired | lookUp =>
    simp only [Seen.step] at ht
    split_ifs at ht
    all_goals
      cases ht
      exact ⟨h.deadline, h.last, h.fresh, h.turns⟩
  | fire now =>
    cases kind <;> simp only [Seen.step] at ht <;> split_ifs at ht with hzero
    · exact Inv.fire (t := { t with found := t.found - 1 })
        ⟨h.deadline, h.last, h.fresh, h.turns⟩ hprompt ht
    · exact Inv.fire (t := { t with popped := t.popped - 1 })
        ⟨h.deadline, h.last, h.fresh, h.turns⟩ hprompt ht

/-- **Exact expirations.**  In every run in which each callback finds the timer between the armed
deadline and the next one. -/
theorem expirations_exact (kind : Kind) (events : List Event)
    (h : Runs.Meets (step kind) Prompt events new) :
    Runs.Always (step kind) Exact events new :=
  Runs.always_of_invariant (I := Inv) (fun _ _ _ => Inv.step) (fun _ => Inv.exact)
    (inv_idle (.inl rfl) fun _ => rfl) h

/-- A timer is armed, runs twice and is read. -/
theorem expirations_exact_twice :
    Runs.Always (step .timerFd) Exact
      [.arm 100 10, .setIndex true, .registerCallback 100, .wakeExpired 101, .lookUp, .fire 101,
        .registerCallback 110, .wakeExpired 112, .lookUp, .fire 112, .read] new :=
  expirations_exact _ _ (by decide)

/-- A callback has left the list when the timer is armed anew: it counts an expiration 400 time
units before the deadline. -/
theorem early_expiration : ¬ Runs.Always (step .timerFd) Exact
    [.arm 100 10, .setIndex true, .registerCallback 100, .wakeExpired 100, .arm 500 10, .lookUp,
      .fire 100] new := by
  intro h
  obtain ⟨hlast, -⟩ := h.exec rfl (by decide) (by decide)
  exact absurd (hlast 100 rfl).1 (by decide)

end Seen

end CypheraKernel.Timers
