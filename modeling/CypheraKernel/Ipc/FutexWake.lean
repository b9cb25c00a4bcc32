import CypheraKernel.Sched.State

/-!
# Concurrent wakes on a futex word

`wake` of `kernel/src/ipc/futex/wake.rs` on one futex word.  A call takes the whole wait queue out,
looks at the waiters in order of priority, makes the first of them runnable up to its limit and puts
the others back, one by one; each of these is a locked section of its own.

`woken_of_run`: once all calls have returned, no wake is lost.
-/

namespace CypheraKernel.Futex

open Sched Multiset

/-- `order_by_priority`: by priority, the highest first, and by age among equals. -/
def orderByPriority (priority : Pid → ℕ) (pids : List Pid) : List Pid :=
  pids.insertionSort fun a b => priority b ≤ priority a

/-- A call of `wake`: its limit, whether it has taken the queue out, the waiters it has taken and
not yet looked at, and the number it has woken. -/
structure WakeCall where
  limit : UInt32
  drained : Bool
  hand : List Pid
  woken : ℕ
  deriving DecidableEq, Repr

namespace WakeCall

/-- A call that has not taken the queue yet. -/
def fresh (limit : UInt32) : WakeCall := ⟨limit, false, [], 0⟩

/-- The test `(woken as u32) >= n`. -/
def full (c : WakeCall) : Bool := UInt32.ofNat c.woken ≥ c.limit

def returned (c : WakeCall) : Prop := c.drained = true ∧ c.hand = []

/-- The call is going to wake all the waiters it holds. -/
def wakesAll (c : WakeCall) : Prop := c.woken + c.hand.length ≤ c.limit.toNat
  deriving Decidable

/-- The call holds too few waiters to reach its limit. -/
def short (c : WakeCall) : Prop := c.drained = true ∧ c.woken + c.hand.length < c.limit.toNat

end WakeCall

/-- A futex word: the pids in its wait queue, the states of the processes, and the calls of `wake`,
one for each caller. -/
structure Word (ι : Type) where
  queue : List Pid
  state : Pid → ProcessState
  calls : ι → WakeCall

/-- The locked sections: a caller takes the queue out, the priorities being those of that moment;
a caller looks at its next waiter; a process that is not parked removes itself from the queue, as
`wait` does after it was woken. -/
inductive Event (ι : Type)
  | drain (i : ι) (priority : Pid → ℕ)
  | next (i : ι)
  | leave (p : Pid)

variable {ι : Type} [DecidableEq ι]

namespace Word

def setCall (s : Word ι) (i : ι) (c : WakeCall) : Word ι :=
  { s with calls := Function.update s.calls i c }

@[simp] theorem calls_setCall_self (s : Word ι) (i : ι) (c : WakeCall) :
    (s.setCall i c).calls i = c := by
  simp [setCall]

theorem calls_setCall_of_ne (s : Word ι) {i j : ι} (h : j ≠ i) (c : WakeCall) :
    (s.setCall i c).calls j = s.calls j := by
  simp [setCall, h]

variable {c : WakeCall} {s : Word ι}

/-- What holds of the changed call and of the others holds of every call. -/
theorem forall_setCall {i : ι} {P : ι → WakeCall → Prop} (hi : P i c)
    (h : ∀ j ≠ i, P j (s.calls j)) (j : ι) : P j ((s.setCall i c).calls j) := by
  by_cases hj : j = i
  · subst hj
    rwa [calls_setCall_self]
  · rw [calls_setCall_of_ne s hj]
    exact h j hj

/-- One locked section, if it can be the next one. -/
def step (s : Word ι) : Event ι → Option (Word ι)
  | .drain i priority =>
    let c := s.calls i
    if c.drained then none
    else some { s.setCall i { c with drained := true, hand := orderByPriority priority s.queue }
      with queue := [] }
  | .next i =>
    let c := s.calls i
    match c.hand with
    | [] => none
    | pid :: rest =>
      if c.full then some { s.setCall i { c with hand := rest } with queue := s.queue ++ [pid] }
      -- `wake_pid` makes a parked process runnable and answers whether it was parked
      else if s.state pid = .parked then
        some { s.setCall i { c with hand := rest, woken := c.woken + 1 }
          with state := Function.update s.state pid .runnable }
      else some (s.setCall i { c with hand := rest })
  | .leave p =>
    if s.state p = .parked then none else some { s with queue := s.queue.filter fun q => q ≠ p }

/-- The waiters of `s₀` that are runnable and out of the queue. -/
def woken (s₀ s : Word ι) : List Pid :=
  s₀.queue.filter fun p => s.state p = .runnable ∧ p ∉ s.queue

/-- Waiters are queued and parked, and no call has begun. -/
structure Initial (s : Word ι) : Prop where
  nodup : s.queue.Nodup
  parked : ∀ p ∈ s.queue, s.state p = .parked
  fresh : ∀ i, s.calls i = .fresh (s.calls i).limit

/-- A call that takes fewer waiters than its limit does so while no other call holds waiters that it
is going to put back. -/
def Clear (s : Word ι) : Event ι → Prop
  | .drain i _ => (s.calls i).limit.toNat ≤ s.queue.length ∨ ∀ j ≠ i, (s.calls j).wakesAll
  | _ => True

instance [Fintype ι] (s : Word ι) : DecidablePred s.Clear := fun e => by
  unfold Clear
  split <;> infer_instance

/-- The locked sections of a run, one after the other. -/
def exec : List (Event ι) → Word ι → Option (Word ι)
  | [], s => some s
  | e :: es, s => (s.step e).bind (exec es)

/-- Every step of the run meets the condition. -/
def ClearRun : List (Event ι) → Word ι → Prop
  | [], _ => True
  | e :: es, s => s.Clear e ∧ ∀ s' ∈ s.step e, ClearRun es s'

instance decidableClearRun [Fintype ι] :
    (es : List (Event ι)) → (s : Word ι) → Decidable (ClearRun es s)
  | [], _ => isTrue trivial
  | e :: es, s =>
    have := decidableClearRun es
    inferInstanceAs (Decidable (_ ∧ ∀ s' ∈ s.step e, ClearRun es s'))

/-! ### The invariant -/

variable [Fintype ι]

/-- The waiters that calls hold. -/
def held (s : Word ι) : Multiset Pid := ∑ i, ((s.calls i).hand : Multiset Pid)

/-- Of the waiters of `s₀`, those that are not queued or held are awake, one for each wake counted;
and when some call cannot reach its limit, nobody is queued and nobody is put back. -/
structure Served (s₀ s : Word ι) : Prop where
  limit : ∀ i, (s.calls i).limit = (s₀.calls i).limit
  waiters : ∃ awake : Multiset Pid, (s₀.queue : Multiset Pid) = awake + (s.queue + s.held) ∧
    awake.card = ∑ i, (s.calls i).woken ∧ ∀ p ∈ awake, s.state p = .runnable
  asleep : ∀ p ∈ (s.queue : Multiset Pid) + s.held, s.state p = .parked
  bounded : ∀ i, (s.calls i).woken ≤ (s.calls i).limit.toNat
  idle : ∀ i, (s.calls i).drained = false → (s.calls i).hand = [] ∧ (s.calls i).woken = 0
  short : ∀ i, (s.calls i).short → s.queue = [] ∧ ∀ j, (s.calls j).wakesAll

omit [DecidableEq ι] in
theorem Served.initial (h : s.Initial) : Served s s := by
  have hhand (i : ι) : (s.calls i).hand = [] := by rw [h.fresh i]; rfl
  have hwoken (i : ι) : (s.calls i).woken = 0 := by rw [h.fresh i]; rfl
  have hheld : s.held = 0 := Finset.sum_eq_zero fun i _ => by rw [hhand i]; rfl
  refine ⟨fun i => rfl, ⟨0, ?_, ?_, ?_⟩, ?_, fun i => ?_, fun i _ => ⟨hhand i, hwoken i⟩, ?_⟩
  · rw [hheld, add_zero, zero_add]
  · exact (Finset.sum_eq_zero fun i _ => hwoken i).symm
  · simp
  · rw [hheld, add_zero]
    exact h.parked
  · rw [hwoken i]
    exact Nat.zero_le _
  · rintro i ⟨hdrained, -⟩
    rw [h.fresh i] at hdrained
    cases hdrained

/-- A sum over the calls when one of them changes. -/
theorem sum_setCall {M : Type} [AddCommMonoid M] (s : Word ι) (i : ι) (c : WakeCall)
    (f : WakeCall → M) :
    ∑ j, f ((s.setCall i c).calls j) + f (s.calls i) = ∑ j, f (s.calls j) + f c := by
  have hrest : ∑ j ∈ Finset.univ.erase i, f ((s.setCall i c).calls j) =
      ∑ j ∈ Finset.univ.erase i, f (s.calls j) := by
    refine Finset.sum_congr rfl fun j hj => ?_
    rw [calls_setCall_of_ne s (Finset.ne_of_mem_erase hj)]
  grind [Finset.add_sum_erase, calls_setCall_self]

namespace Served

variable {s₀ s s' : Word ι}

variable {i : ι} {rest : List Pid} {pid : Pid}

/-- What is kept for each call when one that has drained the queue goes on. -/
theorem goOn (h : Served s₀ s) (hlimit : c.limit = (s.calls i).limit)
    (hwoken : c.woken ≤ c.limit.toNat) (hdrained : c.drained = true) :
    (∀ j, ((s.setCall i c).calls j).limit = (s₀.calls j).limit) ∧
      (∀ j, ((s.setCall i c).calls j).woken ≤ ((s.setCall i c).calls j).limit.toNat) ∧
      ∀ j, ((s.setCall i c).calls j).drained = false →
        ((s.setCall i c).calls j).hand = [] ∧ ((s.setCall i c).calls j).woken = 0 := by
  refine ⟨forall_setCall (P := fun j c => c.limit = (s₀.calls j).limit) (hlimit.trans (h.limit i))
    fun j _ => h.limit j, forall_setCall (P := fun _ c => c.woken ≤ c.limit.toNat) hwoken
    fun j _ => h.bounded j, forall_setCall
    (P := fun _ c => c.drained = false → c.hand = [] ∧ c.woken = 0) (fun hc => ?_) fun j _ => h.idle j⟩
  cases hdrained.symm.trans hc

theorem drain (h : Served s₀ s) {priority : Pid → ℕ} (hc : s.Clear (.drain i priority))
    (hs : s.step (.drain i priority) = some s') : Served s₀ s' := by
  unfold step at hs
  dsimp only at hs
  split_ifs at hs with hdrained
  have hfresh : (s.calls i).drained = false := by simpa using hdrained
  obtain ⟨hhand, hwoken⟩ := h.idle i hfresh
  set c := { s.calls i with drained := true, hand := orderByPriority priority s.queue } with hcdef
  have hlen : c.hand.length = s.queue.length := List.length_insertionSort _ _
  have hheld : s'.held = s.held + s.queue := by
    cases hs
    have hsum := sum_setCall s i c fun c => (c.hand : Multiset Pid)
    rw [hhand, coe_nil, add_zero] at hsum
    have hperm : (c.hand : Multiset Pid) = s.queue := coe_eq_coe.2 (List.perm_insertionSort _ _)
    rw [hperm] at hsum
    exact hsum
  have hall : (s'.queue : Multiset Pid) + s'.held = s.queue + s.held := by grind [coe_nil]
  obtain ⟨awake, hq, hcard, hawake⟩ := h.waiters
  obtain ⟨hlimits, hbounded, hidle⟩ := h.goOn (c := c) rfl (h.bounded i) rfl
  cases hs
  refine ⟨hlimits, ⟨awake, ?_, ?_, hawake⟩, ?_, hbounded, hidle, ?_⟩
  · rw [hall, hq]
  · have hsum := sum_setCall s i c WakeCall.woken
    rw [hcard]
    exact (Nat.add_right_cancel hsum).symm
  · rw [hall]
    exact h.asleep
  intro j hj
  refine ⟨rfl, ?_⟩
  by_cases hji : j = i
  · -- the call that has drained is short itself, so the condition speaks of the others
    subst hji
    obtain ⟨-, hshort⟩ : c.short := by simpa using hj
    have hothers := hc.resolve_left fun hle => by
      grind
    exact forall_setCall (P := fun _ c => c.wakesAll) hshort.le hothers
  obtain ⟨hempty, hall⟩ := h.short j (by simpa [calls_setCall_of_ne s hji] using hj)
  refine forall_setCall (P := fun _ c => c.wakesAll) ?_ fun k _ => hall k
  show (s.calls i).woken + c.hand.length ≤ _
  rw [hlen, hempty, hwoken]
  exact Nat.zero_le _

omit [DecidableEq ι] in
/-- What a call holds is held. -/
theorem mem_held {p : Pid} (hp : p ∈ (s.calls i).hand) : p ∈ s.held :=
  mem_sum.2 ⟨i, Finset.mem_univ i, hp⟩

omit [DecidableEq ι] in
theorem full_iff (h : Served s₀ s) (i : ι) :
    (s.calls i).full = true ↔ (s.calls i).woken = (s.calls i).limit.toNat := by
  have hle := h.bounded i
  have hlt := (s.calls i).limit.toNat_lt
  have hnat : (UInt32.ofNat (s.calls i).woken).toNat = (s.calls i).woken :=
    UInt32.toNat_ofNat_of_lt' (by
      show _ < 2 ^ 32
      omega)
  unfold WakeCall.full
  rw [decide_eq_true_iff, ge_iff_le, UInt32.le_iff_toNat_le, hnat]
  omega

/-- The waiter that a call looks at leaves its hand. -/
theorem held_eq_cons (hhand : (s.calls i).hand = pid :: rest) (hc : c.hand = rest) :
    s.held = pid ::ₘ (s.setCall i c).held := by
  have hsum := sum_setCall s i c fun c => (c.hand : Multiset Pid)
  rw [hhand, hc, ← cons_coe, ← singleton_add, ← add_assoc] at hsum
  have hcancel := add_right_cancel hsum
  rw [held, ← hcancel, add_comm, singleton_add]
  rfl

omit [DecidableEq ι] in
theorem drained_of_hand (h : Served s₀ s) (hhand : (s.calls i).hand ≠ []) :
    (s.calls i).drained = true := by
  by_contra hno
  exact hhand (h.idle i (by simpa using hno)).1

/-- A call that has reached its limit puts a waiter back. -/
theorem putBack (h : Served s₀ s)
    (hhand : (s.calls i).hand = pid :: rest) (hfull : (s.calls i).full = true) :
    Served s₀ { s.setCall i { s.calls i with hand := rest } with queue := s.queue ++ [pid] } := by
  have heq := (h.full_iff i).1 hfull
  have hdrained := h.drained_of_hand (i := i) (by simp [hhand])
  obtain ⟨awake, hq, hcard, hawake⟩ := h.waiters
  set c := { s.calls i with hand := rest } with hcdef
  have hall : ((s.queue ++ [pid] : List Pid) : Multiset Pid) + (s.setCall i c).held =
      s.queue + s.held := by
    rw [held_eq_cons hhand (c := c) rfl, ← coe_add, coe_singleton,
      ← singleton_add, add_assoc]
  -- the call holds a waiter that it puts back, so no call is short
  have hnone (j : ι) : ¬ (s.calls j).short := by
    intro hj
    have hwakes : (s.calls i).woken + (s.calls i).hand.length ≤ _ := (h.short j hj).2 i
    rw [heq, hhand, List.length_cons] at hwakes
    omega
  obtain ⟨hlimits, hbounded, hidle⟩ := h.goOn (c := c) rfl (h.bounded i) hdrained
  refine ⟨hlimits, ⟨awake, ?_, ?_, hawake⟩, ?_, hbounded, hidle, ?_⟩
  · rw [hq]
    exact congrArg (awake + ·) hall.symm
  · have hsum := sum_setCall s i c WakeCall.woken
    rw [hcard]
    exact (Nat.add_right_cancel hsum).symm
  · intro p hp
    exact h.asleep p (hall ▸ hp)
  refine fun j hj => absurd hj ?_
  refine forall_setCall (P := fun _ c => ¬ c.short) ?_ (fun k _ => hnone k) j
  rintro ⟨-, hshort⟩
  rw [hcdef] at hshort
  dsimp only at hshort
  omega

variable (hnodup : s₀.queue.Nodup) (h : Served s₀ s)

include hnodup h

/-- A call below its limit wakes a waiter. -/
theorem wakeOne (hhand : (s.calls i).hand = pid :: rest) (hfull : (s.calls i).full ≠ true) :
    Served s₀ { s.setCall i { s.calls i with hand := rest, woken := (s.calls i).woken + 1 }
      with state := Function.update s.state pid .runnable } := by
  have hne := mt (h.full_iff i).2 hfull
  have hbound := h.bounded i
  have hdrained := h.drained_of_hand (i := i) (by simp [hhand])
  obtain ⟨awake, hq, hcard, hawake⟩ := h.waiters
  set c := { s.calls i with hand := rest, woken := (s.calls i).woken + 1 } with hcdef
  have hheld : s.held = pid ::ₘ (s.setCall i c).held := held_eq_cons hhand rfl
  have hq' : (s₀.queue : Multiset Pid) = pid ::ₘ awake + (s.queue + (s.setCall i c).held) := by
    rw [hq, hheld, cons_add, add_cons, add_cons]
  have hnot : pid ∉ (s.queue : Multiset Pid) + (s.setCall i c).held := by
    have hnd : (s₀.queue : Multiset Pid).Nodup := hnodup
    simp_all
  have hlen : (s.calls i).woken + (s.calls i).hand.length = c.woken + c.hand.length := by grind
  obtain ⟨hlimits, hbounded, hidle⟩ := h.goOn (c := c) rfl (by grind) hdrained
  refine ⟨hlimits, ⟨pid ::ₘ awake, hq', ?_, ?_⟩, ?_, hbounded, hidle, ?_⟩
  · have hsum := sum_setCall s i c WakeCall.woken
    grind [card_cons]
  · intro p hp
    by_cases hpid : p = pid
    · simp [hpid]
    · simpa [hpid] using hawake p ((mem_cons.1 hp).resolve_left hpid)
  · intro p hp
    have hpid : p ≠ pid := fun heq => hnot (heq ▸ hp)
    have hold : p ∈ (s.queue : Multiset Pid) + s.held := by
      rw [hheld, add_cons]
      exact mem_cons_of_mem hp
    simpa [hpid] using h.asleep p hold
  · -- neither the shortness of a call nor what it is going to wake has changed
    intro j hj
    have hwas : (s.calls j).short := by
      by_cases hji : j = i
      · subst hji
        obtain ⟨-, hshort⟩ : c.short := by simpa using hj
        refine ⟨hdrained, ?_⟩
        rw [hlen]
        exact hshort
      · simpa [calls_setCall_of_ne s hji] using hj
    obtain ⟨hempty, hall⟩ := h.short j hwas
    refine ⟨hempty, forall_setCall (P := fun _ c => c.wakesAll) ?_ fun k _ => hall k⟩
    have hwakes : (s.calls i).woken + (s.calls i).hand.length ≤ _ := hall i
    rw [hlen] at hwakes
    exact hwakes

theorem next (hs : s.step (.next i) = some s') : Served s₀ s' := by
  unfold step at hs
  dsimp only at hs
  split at hs
  · cases hs
  rename_i pid rest hhand
  have hpid : pid ∈ s.held := mem_held (i := i) (by simp [hhand])
  rw [if_pos (h.asleep pid (mem_add.2 (.inr hpid)))] at hs
  split_ifs at hs with hfull
  · grind [h.putBack]
  · cases hs
    exact h.wakeOne hnodup hhand hfull

omit hnodup in
/-- A process that is not parked is not in the queue any more. -/
theorem leave {p : Pid} (hs : s.step (.leave p) = some s') : Served s₀ s' := by
  unfold step at hs
  dsimp only at hs
  split_ifs at hs with hparked
  cases hs
  have hfilter : (s.queue.filter fun q => q ≠ p) = s.queue := by
    refine List.filter_eq_self.2 fun q hq => ?_
    have hne : q ≠ p := by
      rintro rfl
      exact hparked (h.asleep q (mem_add.2 (.inl hq)))
    simpa using hne
  rw [hfilter]
  exact h

/-- **One step** that meets the condition keeps the invariant. -/
theorem step {e : Event ι} (hc : s.Clear e) (hs : s.step e = some s') : Served s₀ s' := by
  cases e with
  | drain i priority => exact h.drain hc hs
  | next i => exact h.next hnodup hs
  | leave p => exact h.leave hs

/-- A run of such steps keeps it. -/
theorem run {es : List (Event ι)} (hc : ClearRun es s)
    (hs : exec es s = some s') : Served s₀ s' := by
  induction es generalizing s with
  | nil =>
    cases hs
    exact h
  | cons e es ih =>
    obtain ⟨s₁, hs₁, hs⟩ := Option.bind_eq_some_iff.1 hs
    exact ih (h.step hnodup hc.1 hs₁) (hc.2 s₁ hs₁) hs

end Served

/-- **No wake is lost** in a run in which no call drains too few waiters while another is putting
some back: when all calls have returned, they have made as many waiters runnable as their limits ask
for, or all. -/
theorem woken_of_run {s₀ s : Word ι} (h₀ : s₀.Initial) {es : List (Event ι)}
    (hc : ClearRun es s₀) (hs : exec es s₀ = some s) (hret : ∀ i, (s.calls i).returned) :
    min s₀.queue.length (∑ i, (s₀.calls i).limit.toNat) ≤ (s₀.woken s).length := by
  have h := (Served.initial h₀).run h₀.nodup hc hs
  obtain ⟨awake, hq, hcard, hawake⟩ := h.waiters
  have hheld : s.held = 0 := Finset.sum_eq_zero fun i _ => by rw [(hret i).2]; rfl
  rw [hheld, add_zero] at hq
  have hlen : s₀.queue.length = ∑ i, (s.calls i).woken + s.queue.length := by
    rw [← hcard]
    simpa using congrArg card hq
  have hsub : awake ≤ (s₀.woken s : Multiset Pid) := by
    have hnd : (s₀.queue : Multiset Pid).Nodup := h₀.nodup
    rw [hq, nodup_add] at hnd
    refine (le_iff_subset hnd.1).2 fun p hp => ?_
    have hp₀ : p ∈ s₀.queue := by
      rw [← mem_coe, hq]
      exact mem_add.2 (.inl hp)
    simp_all [disjoint_left, woken]
  have hle : ∑ i, (s.calls i).woken ≤ (s₀.woken s).length := by
    rw [← hcard]
    simpa using card_le_card hsub
  by_cases hshort : ∃ i, (s.calls i).short
  · -- some call was short: nobody is left in the queue
    grind [h.short]
  push Not at hshort
  refine (min_le_right _ _).trans ((Finset.sum_le_sum fun i _ => ?_).trans hle)
  have hlimit := h.limit i
  by_contra hlt
  refine hshort i ⟨(hret i).1, ?_⟩
  rw [(hret i).2, hlimit, List.length_nil]
  omega

/-- Two parked waiters, and two callers that want to wake one each. -/
def twoWaiters : Word (Fin 2) := ⟨[1, 2], fun _ => .parked, fun _ => .fresh 1⟩

/-- One caller after the other: both waiters are woken. -/
theorem woken_twoWaiters :
    ∃ s, exec [.drain 0 id, .next 0, .next 0, .drain 1 id, .next 1] twoWaiters = some s ∧
      2 ≤ (twoWaiters.woken s).length := by
  have h₀ : twoWaiters.Initial := ⟨by decide, fun _ _ => rfl, fun _ => rfl⟩
  obtain ⟨s, hs⟩ := Option.isSome_iff_exists.1 (show (exec
    [.drain 0 id, .next 0, .next 0, .drain 1 id, .next 1] twoWaiters).isSome by decide +kernel)
  have hret : ∀ s ∈ exec [.drain 0 id, .next 0, .next 0, .drain 1 id, .next 1] twoWaiters,
      ∀ i, (s.calls i).drained = true ∧ (s.calls i).hand = [] := by decide +kernel
  have hclear : ClearRun [.drain 0 id, .next 0, .next 0, .drain 1 id, .next 1] twoWaiters := by
    decide +kernel
  exact ⟨s, hs, woken_of_run h₀ hclear hs (hret s hs)⟩

/-- The second caller drains while the first has the queue out, and finds nobody: only one waiter is
woken. -/
theorem wake_lost :
    ∃ s, s ∈ exec [.drain 0 id, .drain 1 id, .next 0, .next 0] twoWaiters ∧
      (∀ i, (s.calls i).drained = true ∧ (s.calls i).hand = []) ∧
      (twoWaiters.woken s).length < min twoWaiters.queue.length
        (∑ i, (twoWaiters.calls i).limit.toNat) := by
  decide +kernel

end Word

end CypheraKernel.Futex
