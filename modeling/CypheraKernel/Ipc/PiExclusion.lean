import CypheraKernel.Ipc.FutexPi
import CypheraKernel.Lib.Runs

/-!
# Mutual exclusion of PI futexes

Of all threads on one futex at most one has been told that it holds the lock and has not released
it, and the word has the TID of that thread.  Three kinds of steps can break this:

* `lock_pi` takes the lock over from a thread that is marked as terminating and still runs;
* `unlock_pi` writes the word first and sets the holder in a later section, when the word may have
  changed; `cmp_requeue_pi` sets the holder without a look at the word;
* `cmp_requeue_pi` writes the word last, whoever owns the lock then.

`Clear` is the condition that none of this happens, and `always_exclusive` mutual exclusion along
every run of such steps.
-/

namespace CypheraKernel.FutexPi

open Function Futex

variable {ι : Type} [LinearOrder ι]

/-- All threads are in one PID namespace, and no TID is zero or needs the bits of the flags. -/
structure Naming.OneNamespace (N : Naming ι) : Prop where
  same : ∀ t u, N.tid t u = N.tid u u
  injective : ∀ t u, N.tid t t = N.tid u u → t = u
  nonzero : ∀ t, N.tid t t ≠ 0
  small : ∀ t, tidOf (N.tid t t) = N.tid t t
  host : ∀ t u, N.host t (N.tid u u) = some u
  of_host : ∀ t n u, N.host t n = some u → N.tid u u = n

/-! ### The word -/

theorem tidOf_or (a b : Word) : tidOf (a ||| b) = tidOf a ||| tidOf b := by
  exact BitVec.and_or_distrib_right ..

@[simp] theorem tidOf_zero : tidOf 0 = 0 := by decide

@[simp] theorem tidOf_tidOf (w : Word) : tidOf (tidOf w) = tidOf w := by
  unfold tidOf
  rw [BitVec.and_assoc, BitVec.and_self]

@[simp] theorem tidOf_or_waitersBit (w : Word) : tidOf (w ||| waitersBit) = tidOf w := by
  rw [tidOf_or, show tidOf waitersBit = 0 by decide]
  exact BitVec.or_zero

/-! ### The invariant -/

namespace Pc

/-- The thread has got the lock and not been told so yet, or has found its TID in the word and is
going to write another one. -/
def owning : Pc ι → Bool
  | .acquire => true
  | .unlock .pop | .unlock (.vet _ _) | .unlock (.write _) => true
  | .exit .read | .exit (.pop _) | .exit (.vet _ _ _) | .exit (.write _) => true
  | _ => false

/-- The thread has given up the lock and is going to change the holder, or is dead. -/
def leaving : Pc ι → Bool
  | .unlock (.set _) | .exit .set | .dead => true
  | _ => false

def exiting : Pc ι → Bool
  | .exit _ | .dead => true
  | _ => false

end Pc

namespace Futex

variable {N : Naming ι} {s s' : Futex ι} {t u : ι} {o : Outside ι} {c : Pc ι} {w : Word}

/-- The thread has the lock, or is about to give it up. -/
def Owns (s : Futex ι) (t : ι) : Prop := s.told t = true ∨ (s.pc t).owning = true

/-- The holder, if there is one, is `t` or about to leave. -/
def HeldBy (s : Futex ι) (t : ι) : Prop := ∀ u ∈ s.holder, u = t ∨ (s.pc u).leaving = true
  deriving Decidable

/-- Whoever has the lock has its TID in the word; so has the holder, if it is not about to leave and
the word has a TID at all. -/
structure Invariant (N : Naming ι) (s : Futex ι) : Prop where
  owner : ∀ t, s.Owns t → tidOf s.word = N.tid t t
  holder : ∀ t, s.holder = some t →
    tidOf s.word = N.tid t t ∨ tidOf s.word = 0 ∨ (s.pc t).leaving = true
  alive : ∀ t, s.told t = true → (s.pc t).exiting = false

/-- At most one thread has been told that it holds the lock and has not released it, and its TID is
in the word. -/
structure Exclusive (N : Naming ι) (s : Futex ι) : Prop where
  unique : ∀ t u, s.told t = true → s.told u = true → t = u
  word : ∀ t, s.told t = true → tidOf s.word = N.tid t t

theorem Invariant.initial : Invariant N (initial : Futex ι) := by
  refine ⟨fun t h => ?_, fun t h => ?_, fun t h => ?_⟩
  · rcases h with h | h <;> cases h
  · cases h
  · cases h

theorem Invariant.exclusive (hN : N.OneNamespace) (h : Invariant N s) : Exclusive N s where
  unique t u ht hu := by
    apply hN.injective
    rw [← h.owner t (.inl ht), ← h.owner u (.inl hu)]
  word t ht := h.owner t (.inl ht)

/-- A step of `t`, after which the others own what they owned. -/
theorem Invariant.update (h : Invariant N s) (hpc : s'.pc = Function.update s.pc t c)
    (htold : ∀ u, u ≠ t → s'.told u = s.told u)
    (hword : tidOf s'.word = tidOf s.word ∨ ∀ u, u ≠ t → ¬ s.Owns u)
    (howner : s'.told t = true ∨ c.owning = true → tidOf s'.word = N.tid t t)
    (hholder : ∀ u, s'.holder = some u → tidOf s'.word = N.tid u u ∨ tidOf s'.word = 0 ∨
      (if u = t then c else s.pc u).leaving = true)
    (halive : s'.told t = true → c.exiting = false) : Invariant N s' := by
  have hat (u : ι) : s'.pc u = if u = t then c else s.pc u := by rw [hpc, update_apply]
  refine ⟨fun u hu => ?_, fun u hu => ?_, fun u hu => ?_⟩
  · by_cases hut : u = t
    · subst hut
      rw [Owns, hat, if_pos rfl] at hu
      exact howner hu
    · grind [Owns, h.owner]
  · rw [hat]
    exact hholder u hu
  · grind [h.alive]

/-- If the word has no TID, or one that only `t` may have, no other thread owns the lock. -/
theorem Invariant.not_owns_of_zero (hN : N.OneNamespace) (h : Invariant N s)
    (hzero : tidOf s.word = 0) (u : ι) : ¬ s.Owns u := by
  intro hu
  exact hN.nonzero u ((h.owner u hu).symm.trans hzero)

section

variable (h : Invariant N s) {c : Pc ι} (hpc : s'.pc = Function.update s.pc t c)
  (htold : s'.told = s.told) (hword : tidOf s'.word = tidOf s.word)
  (howning : c.owning = true → tidOf s.word = N.tid t t)
  (hexiting : c.exiting = true → (s.pc t).exiting = true)

include h hpc htold hword howning hexiting

/-- A step of `t` that does not change the owner in the word. -/
theorem Invariant.go (hholder : ∀ u, s'.holder = some u → tidOf s.word = N.tid u u ∨
    tidOf s.word = 0 ∨ u ≠ t ∧ (s.pc u).leaving = true) : Invariant N s' := by
  refine h.update hpc (fun u _ => by rw [htold]) (.inl hword) ?_ (fun u hu => ?_) ?_
  · rw [hword, htold]
    rintro (ht | hown)
    · exact h.owner t (.inl ht)
    · exact howning hown
  · rw [hword]
    refine (hholder u hu).imp_right (.imp_right ?_)
    rintro ⟨hut, hleave⟩
    rwa [if_neg hut]
  · grind [h.alive]

/-- The holder stays as well. -/
theorem Invariant.move (hholder : s'.holder = s.holder) (hleaving : (s.pc t).leaving = false) :
    Invariant N s' := by
  refine h.go hpc htold hword howning hexiting fun u hu => ?_
  grind [h.holder]

/-- The holder becomes none, or a thread whose TID is in the word if there is one. -/
theorem Invariant.hold
    (hholder : ∀ w, s'.holder = some w → tidOf s.word = N.tid w w ∨ tidOf s.word = 0) :
    Invariant N s' :=
  h.go hpc htold hword howning hexiting fun w hw => (hholder w hw).imp_right .inl

end

theorem eq_dead_of_isDead (h : c.isDead = true) : c = .dead := by
  cases c with
  | dead => rfl
  | _ => cases h

/-- A compare-exchange of `t` puts its TID into a word that has the TID of no thread, or of a dead
one. -/
theorem Invariant.seize (h : Invariant N s) (hw : tidOf w = N.tid t t)
    (hleaving : (s.pc t).leaving = false)
    (hdead : ∀ u, tidOf s.word = N.tid u u → (s.pc u).isDead = true)
    (hheld : tidOf s.word = 0 → s.HeldBy t) :
    Invariant N { s.setPc t .acquire with word := w } := by
  -- the dead own nothing
  have hnone (u : ι) : ¬ s.Owns u := by
    intro hu
    have hpc := eq_dead_of_isDead (hdead u (h.owner u hu))
    rcases hu with htold | howning
    · have hexit := h.alive u htold
      rw [hpc] at hexit
      cases hexit
    · rw [hpc] at howning
      cases howning
  refine h.update rfl (fun _ _ => rfl) (.inr fun u _ => hnone u) (fun _ => hw) (fun u hu => ?_)
    fun _ => rfl
  split_ifs with hut
  · subst hut
    exact .inl hw
  · refine .inr (.inr ?_)
    rcases h.holder u hu with hword | hzero | hleave
    · rw [eq_dead_of_isDead (hdead u hword)]
      rfl
    · exact (hheld hzero u hu).resolve_left hut
    · exact hleave

/-- The compare-exchange of a word that is zero. -/
theorem Invariant.seizeFree (hN : N.OneNamespace) (h : Invariant N s) (hzero : s.word = 0)
    (hleaving : (s.pc t).leaving = false) (hheld : s.HeldBy t) :
    Invariant N { s.setPc t .acquire with word := N.tid t t } := by
  refine h.seize (hN.small t) hleaving (fun u hu => ?_) fun _ => hheld
  rw [hzero, tidOf_zero] at hu
  exact absurd hu.symm (hN.nonzero u)

/-- The thread whose TID is in the word writes another one, and is going to change the holder. -/
theorem Invariant.giveUp (hN : N.OneNamespace) (h : Invariant N s)
    (hpc : s'.pc = Function.update s.pc t c) (htold : ∀ u, u ≠ t → s'.told u = s.told u)
    (hnot : s'.told t = false) (hholder : s'.holder = s.holder) (hword : tidOf s.word = N.tid t t)
    (hc : c.leaving = true) (hc' : c.owning = false) : Invariant N s' := by
  refine h.update hpc htold (.inr fun u hu hown => ?_) (by simp [hnot, hc']) (fun u hu => ?_)
    (by simp [hnot])
  · exact hu (hN.injective u t ((h.owner u hown).symm.trans hword))
  · refine .inr (.inr ?_)
    split_ifs with hut
    · exact hc
    rw [hholder] at hu
    rcases h.holder u hu with hwordu | hzero | hleave
    · exact absurd (hN.injective u t (hwordu.symm.trans hword)) hut
    · exact absurd (hword.symm.trans hzero) (hN.nonzero t)
    · exact hleave

/-- A word without a TID gets that of the holder, and the call returns. -/
theorem Invariant.fill (hN : N.OneNamespace) (h : Invariant N s) {r : Result}
    (hzero : tidOf s.word = 0) (hheld : s.HeldBy u) (hw : tidOf w = N.tid u u)
    (hleaving : (s.pc t).leaving = false) : Invariant N { s.return_ t r with word := w } := by
  have hnone := h.not_owns_of_zero hN hzero
  refine h.update (c := .user (some r)) rfl (fun _ _ => rfl) (.inr fun u _ => hnone u) ?_
    (fun x hx => ?_) fun _ => rfl
  · rintro (htold | howning)
    · exact absurd (.inl htold) (hnone t)
    · cases howning
  · rcases hheld x hx with rfl | hleave
    · exact .inl hw
    · grind

/-- The thread is told that it has the lock. -/
theorem Invariant.tell (h : Invariant N s) (hword : tidOf s.word = N.tid t t)
    (hleaving : (s.pc t).leaving = false) : Invariant N (s.tell t) := by
  refine h.update (c := .user (some (.ok 0))) rfl (fun u hu => update_of_ne hu _ _) (.inl rfl)
    (fun _ => hword) (fun u hu => (h.holder u hu).imp_right (.imp_right fun hleave => ?_))
    fun _ => rfl
  grind

/-- The thread finds itself the holder, and not in a free word. -/
theorem Invariant.found (h : Invariant N s) (hleaving : (s.pc t).leaving = false)
    (hfree : s.holder = some t → tidOf s.word ≠ 0) (hholder : s.holder = some t) :
    tidOf s.word = N.tid t t := by
  rcases h.holder t hholder with hword | hzero | hleave
  · exact hword
  · exact absurd hzero (hfree hholder)
  · rw [hleaving] at hleave
    cases hleave

/-! ### The steps of the calls -/

/-- The condition on the next step of a thread.  A thread takes the lock over from a dead thread
only, and takes a free lock only if no other thread has been made its holder; a thread that finds
itself the holder does not find the lock free; the section of `unlock_pi` that makes another thread
the holder finds the TID of that thread in the word, that of `cmp_requeue_pi` this TID or none; and
the last step of `cmp_requeue_pi` writes the word only if it has the TID that is written, or none
and no other thread is the holder. -/
def ClearAt (N : Naming ι) (s : Futex ι) (t : ι) : Pc ι → Prop
  | .lock _ .attempt | .tryLock => s.word = 0 → s.HeldBy t
  | .lock _ (.takeover observed) => s.word = observed →
      (∀ h ∈ N.host t (tidOf observed), (s.pc h).isDead = true) ∧
        (tidOf observed = 0 → s.HeldBy t)
  | .lock _ (.check _) | .wait (.check _) | .wait (.checkAgain _) | .exit .scan =>
      s.holder = some t → tidOf s.word ≠ 0
  | .unlock (.set winner) => ∀ w ∈ winner, tidOf s.word = N.tid w w
  | .requeue (.set w _) => tidOf s.word = N.tid w w ∨ tidOf s.word = 0
  | .requeue (.swap w _ prev) => s.word = prev →
      tidOf s.word = N.tid w w ∨ tidOf s.word = 0 ∧ s.HeldBy w
  | _ => True

def Clear (N : Naming ι) (s : Futex ι) : Event ι → Prop
  | .run t _ => ClearAt N s t (s.pc t)
  | _ => True

theorem holder_map (s : Futex ι) (f : PiState ι → PiState ι) (hf : ∀ p, (f p).holder = p.holder) :
    (s.pi.map f).bind PiState.holder = s.holder := by
  unfold holder
  cases s.pi with
  | none => rfl
  | some p => exact hf p

theorem holder_removeKey (s : Futex ι) (k : ℕ ×ₗ ι) : (s.removeKey k).holder = s.holder :=
  holder_map s _ fun _ => rfl

theorem holder_removeAll (p : PiState ι) (t : ι) : (p.removeAll t).holder = p.holder := by
  unfold PiState.removeAll
  generalize p.keysOf t = ks
  induction ks generalizing p with
  | nil => rfl
  | cons k ks ih => exact ih (p.removeKey k)

theorem holder_setHolder (s : Futex ι) (new : Option ι) : (s.setHolder new).holder = new := by
  unfold setHolder holder
  cases hp : s.pi with
  | none => cases new <;> rfl
  | some p =>
    dsimp only
    split_ifs with hdrop
    · simp_all
    · rfl

theorem holder_popTop (s : Futex ι) : s.popTop.2.bind PiState.holder = s.holder := by
  grind [popTop, holder, PiState.popTop]

/-- Only the place in the call changes. -/
theorem Invariant.setPc (h : Invariant N s) (hleaving : (s.pc t).leaving = false)
    (howning : c.owning = true → tidOf s.word = N.tid t t)
    (hexiting : c.exiting = true → (s.pc t).exiting = true) : Invariant N (s.setPc t c) :=
  h.move rfl rfl rfl howning hexiting rfl hleaving

theorem Invariant.return_ (h : Invariant N s) (hleaving : (s.pc t).leaving = false) (r : Result) :
    Invariant N (s.return_ t r) :=
  h.setPc hleaving nofun nofun

theorem holder_getD (s : Futex ι) : (s.pi.getD .new).holder = s.holder := by
  unfold holder
  cases s.pi <;> rfl

/-- A thread enters the list of waiting threads.  A holder that is new is the thread that the word
names. -/
theorem Invariant.enqueue (h : Invariant N s) (hN : N.OneNamespace) {p : PiState ι}
    (hleaving : (s.pc t).leaving = false) (hword : tidOf w = tidOf s.word)
    (hp : p.holder = s.holder.or (N.host t (tidOf s.word))) (hc : c.owning = false)
    (hc' : c.exiting = false) : Invariant N { s.setPc t c with word := w, pi := some p } := by
  have howning (ho : c.owning = true) : tidOf s.word = N.tid t t := by
    rw [hc] at ho
    cases ho
  have hexiting (he : c.exiting = true) : (s.pc t).exiting = true := by
    rw [hc'] at he
    cases he
  cases hh : s.holder with
  | some u =>
    refine h.move rfl rfl hword howning hexiting ?_ hleaving
    rw [hh] at hp ⊢
    exact hp
  | none =>
    refine h.hold rfl rfl hword howning hexiting fun u hu => ?_
    rw [hh] at hp
    exact .inl (hN.of_host t _ u (hp.symm.trans hu)).symm

section

variable (hN : N.OneNamespace) (h : Invariant N s) {r : Option Result}

include hN h

/-- `lock_pi`. -/
theorem Invariant.lockStep {c : LockCall} {pc : LockPc} (hpc : s.pc t = .lock c pc)
    (hclear : ClearAt N s t (.lock c pc)) : Invariant N (lockStep N s t o c pc) := by
  have hleaving : (s.pc t).leaving = false := by rw [hpc]; rfl
  have hgoOn (c : LockCall) (pc : LockPc) : Invariant N (s.setPc t (.lock c pc)) :=
    h.setPc hleaving nofun nofun
  cases pc with
  | attempt =>
    rw [Futex.lockStep]
    split_ifs with _ _ hzero
    · exact h.return_ hleaving _
    · exact h.return_ hleaving _
    · exact h.seizeFree hN hzero hleaving (hclear hzero)
    · exact h.return_ hleaving _
    · exact hgoOn _ _
  | seen observed =>
    rw [Futex.lockStep]
    split
    · exact hgoOn _ _
    · split_ifs <;> exact hgoOn _ _
  | takeover observed =>
    rw [Futex.lockStep]
    split_ifs with _ hsame
    · exact h.return_ hleaving _
    · have hw : tidOf (N.tid t t ||| (observed &&& (waitersBit ||| ownerDiedBit))) = N.tid t t := by
        have hsmall := hN.small t
        grind [tidOf, waitersBit, ownerDiedBit, BitVec.and_assoc, tidMask, tidOf_or]
      obtain ⟨hdead, hheld⟩ := hclear hsame
      refine h.seize hw hleaving (fun u hu => hdead u ?_) fun hzero => hheld (hsame ▸ hzero)
      rw [← hsame, hu]
      exact hN.host t u
    · exact hgoOn _ _
  | enqueue observed =>
    rw [Futex.lockStep]
    split_ifs with hcas
    · rw [Bool.and_eq_true, decide_eq_true_eq] at hcas
      have hword : tidOf (observed ||| waitersBit) = tidOf s.word := by
        rw [tidOf_or_waitersBit, hcas.2]
      refine h.enqueue hN hleaving hword ?_ rfl rfl
      rw [← holder_getD, hcas.2]
      rfl
    · exact hgoOn _ _
  | boost | parked => exact hgoOn _ _
  | refused =>
    exact h.move rfl rfl rfl nofun nofun (holder_removeKey _ _) hleaving
  | check timedOut =>
    rw [Futex.lockStep]
    split_ifs with hholder
    · exact h.tell (h.found hleaving hclear hholder) hleaving
    · exact hgoOn _ _
  | leave timedOut =>
    rw [Futex.lockStep]
    split
    · exact h.move rfl rfl rfl nofun nofun (holder_removeKey _ _) hleaving
    · exact h.move rfl rfl rfl nofun nofun (holder_removeKey _ _) hleaving

/-- `trylock_pi`. -/
theorem Invariant.tryLockStep (hpc : s.pc t = .tryLock) (hclear : ClearAt N s t .tryLock) :
    Invariant N (tryLockStep N s t o) := by
  have hleaving : (s.pc t).leaving = false := by rw [hpc]; rfl
  rw [Futex.tryLockStep]
  split_ifs with _ hzero
  · exact h.return_ hleaving _
  · exact h.seizeFree hN hzero hleaving (hclear hzero)
  · exact h.return_ hleaving _
  · exact h.return_ hleaving _

omit hN in
/-- The section after a compare-exchange that has succeeded. -/
theorem Invariant.acquire (hpc : s.pc t = .acquire) :
    Invariant N ((s.setHolder (some t)).tell t) := by
  have hword : tidOf s.word = N.tid t t := h.owner t (.inr (by rw [hpc]; rfl))
  have hset : Invariant N (s.setHolder (some t)) := by
    refine h.hold (c := s.pc t) (update_eq_self t s.pc).symm rfl rfl (fun _ => hword) id
      fun w hw => ?_
    grind [holder_setHolder]
  refine hset.tell hword ?_
  change (s.pc t).leaving = false
  rw [hpc]
  rfl

omit h in
/-- The TID in the word that `t` writes for another thread. -/
theorem tidOf_wordOf (t w : ι) (more : Bool) : tidOf (wordOf N t (some (w, more))) = N.tid w w := by
  have htid : tidOf (tidOf (N.tid t w)) = N.tid w w := by rw [tidOf_tidOf, hN.same, hN.small]
  cases more with
  | true =>
    change tidOf (tidOf (N.tid t w) ||| waitersBit) = _
    rw [tidOf_or_waitersBit, htid]
  | false =>
    change tidOf (tidOf (N.tid t w) ||| 0) = _
    rw [show tidOf (N.tid t w) ||| 0 = tidOf (N.tid t w) from BitVec.or_zero, htid]

/-- `unlock_pi`.  From the first read on, the word has the TID of the thread, until it writes
another one. -/
theorem Invariant.unlockStep {pc : UnlockPc ι} (hpc : s.pc t = .unlock pc)
    (hclear : ClearAt N s t (.unlock pc)) : Invariant N (unlockStep N s t o pc) := by
  have hexiting {pc : UnlockPc ι} (hc : (Pc.unlock pc).exiting = true) : (s.pc t).exiting = true :=
    nomatch hc
  have hleaving (hc : (Pc.unlock pc).leaving = false) : (s.pc t).leaving = false := by rwa [hpc]
  have hword (hc : (Pc.unlock pc).owning = true) : tidOf s.word = N.tid t t :=
    h.owner t (.inr (by rwa [hpc]))
  cases pc with
  | read =>
    rw [Futex.unlockStep]
    split_ifs with _ htid
    · exact h.return_ (hleaving rfl) _
    · exact h.return_ (hleaving rfl) _
    · exact h.setPc (hleaving rfl) (fun _ => not_not.1 htid) hexiting
  | pop =>
    have hholder := holder_popTop s
    rw [Futex.unlockStep]
    split
    all_goals
      rename_i hpop
      rw [hpop] at hholder
      exact h.move rfl rfl rfl (fun _ => hword rfl) hexiting hholder (hleaving rfl)
  | vet w more =>
    exact h.setPc (hleaving rfl) (fun _ => hword rfl) hexiting
  | write winner =>
    rw [Futex.unlockStep]
    split_ifs
    · exact h.return_ (hleaving rfl) _
    · exact h.giveUp hN rfl (fun u hu => update_of_ne hu _ _) (update_self _ _ _)
        rfl (hword rfl) rfl rfl
  | set winner =>
    refine h.hold (c := .user (some (.ok 0))) rfl rfl rfl nofun nofun fun w hw => ?_
    refine .inl (hclear w ?_)
    rw [← holder_setHolder s winner]
    exact hw

omit hN in
/-- `wait_requeue_pi`. -/
theorem Invariant.waitStep {pc : WaitPc} (hpc : s.pc t = .wait pc)
    (hclear : ClearAt N s t (.wait pc)) : Invariant N (waitStep s t o pc) := by
  have hleaving : (s.pc t).leaving = false := by rw [hpc]; rfl
  have hgoOn (pc : WaitPc) : Invariant N (s.setPc t (.wait pc)) := h.setPc hleaving nofun nofun
  cases pc with
  | read =>
    rw [Futex.waitStep]
    split_ifs
    · exact h.return_ hleaving _
    · exact h.return_ hleaving _
    · exact hgoOn _
  | enqueue | dequeue => exact h.move rfl rfl rfl nofun nofun rfl hleaving
  | parked | parkedAgain => exact hgoOn _
  | check | checkAgain =>
    rw [Futex.waitStep]
    split_ifs with hholder
    · exact h.tell (h.found hleaving hclear hholder) hleaving
    · exact hgoOn _
  | queued timedOut =>
    rw [Futex.waitStep]
    split_ifs
    · exact hgoOn _
    · exact h.return_ hleaving _
  | leave timedOut =>
    refine h.move rfl rfl rfl nofun nofun ?_ hleaving
    refine holder_map s _ fun p => ?_
    unfold PiState.removeFirst
    split <;> rfl

/-- `cmp_requeue_pi`. -/
theorem Invariant.requeueStep {pc : RequeuePc ι} (hpc : s.pc t = .requeue pc)
    (hclear : ClearAt N s t (.requeue pc)) : Invariant N (requeueStep N s t o pc) := by
  have hleaving : (s.pc t).leaving = false := by rw [hpc]; rfl
  have hgoOn (pc : RequeuePc ι) : Invariant N (s.setPc t (.requeue pc)) :=
    h.setPc hleaving nofun nofun
  have hqueue (pc : RequeuePc ι) (queue : List ι) :
      Invariant N { s.setPc t (.requeue pc) with queue := queue } :=
    h.move rfl rfl rfl nofun nofun rfl hleaving
  cases pc with
  | read left =>
    rw [Futex.requeueStep]
    split_ifs
    · exact h.return_ hleaving _
    · exact h.return_ hleaving _
    · exact hgoOn _
  | drain c =>
    rw [Futex.requeueStep]
    split
    · exact h.return_ hleaving _
    · exact hqueue _ _
    · exact hgoOn _
    · split_ifs
      · exact hgoOn _
      · exact hqueue _ _
  | putBack popped rest c =>
    cases rest with
    | cons u rest => exact hqueue _ _
    | nil =>
      rw [Futex.requeueStep]
      split <;> exact hgoOn _
  | set w left =>
    refine h.hold (c := .requeue (.drain ⟨some w, left, 0⟩)) rfl rfl rfl nofun
      nofun fun u hu => ?_
    obtain rfl : w = u := by
      have hset := holder_setHolder s (some w)
      exact Option.some.inj (hset.symm.trans hu)
    exact hclear
  | insert w popped left requeued =>
    refine h.move rfl rfl rfl nofun nofun ?_ hleaving
    exact holder_getD s
  | look w requeued => exact hgoOn _
  | swap w requeued prev =>
    rw [Futex.requeueStep]
    by_cases hcas : (!o.fault && decide (s.word = prev)) = true
    · have hprev : s.word = prev := by
        rw [Bool.and_eq_true, decide_eq_true_eq] at hcas
        exact hcas.2
      rw [if_pos hcas]
      rcases hclear hprev with hsame | ⟨hzero, hheld⟩
      · refine h.move rfl rfl ?_ nofun nofun rfl hleaving
        rw [tidOf_wordOf hN, hsame]
      · exact h.fill hN hzero hheld (tidOf_wordOf hN _ _ _) hleaving
    · refine h.move rfl rfl ?_ nofun nofun rfl hleaving
      rw [if_neg hcas]

/-- The exit of a thread.  From the section on in which it finds itself the holder, the word has its
TID, until it writes the word. -/
theorem Invariant.exitStep {pc : ExitPc ι} (hpc : s.pc t = .exit pc)
    (hclear : ClearAt N s t (.exit pc)) (hs' : exitStep s t o pc = some s') : Invariant N s' := by
  have hexiting {c : Pc ι} (_ : c.exiting = true) : (s.pc t).exiting = true := by rw [hpc]; rfl
  have hleaving (hc : (Pc.exit pc).leaving = false) : (s.pc t).leaving = false := by rwa [hpc]
  have hword (hc : (Pc.exit pc).owning = true) : tidOf s.word = N.tid t t :=
    h.owner t (.inr (by rwa [hpc]))
  cases pc with
  | scan =>
    cases hs'
    split_ifs with hholder
    · have hown := h.found (hleaving rfl) hclear hholder
      exact h.setPc (hleaving rfl) (fun _ => hown) hexiting
    · exact h.setPc (hleaving rfl) nofun hexiting
  | read =>
    cases hs'
    exact h.setPc (hleaving rfl) (fun _ => hword rfl) hexiting
  | pop flag =>
    have hholder := holder_popTop s
    rw [Futex.exitStep] at hs'
    split at hs'
    all_goals
      rename_i hpop
      rw [hpop] at hholder
      cases hs'
      exact h.move rfl rfl rfl (fun _ => hword rfl) hexiting hholder (hleaving rfl)
  | vet flag w more =>
    rw [Futex.exitStep] at hs'
    split_ifs at hs'
    cases hs'
    exact h.setPc (hleaving rfl) (fun _ => hword rfl) hexiting
  | write flag =>
    have htold : s.told t = false := by
      cases htold : s.told t with
      | false => rfl
      | true =>
        have halive := h.alive t htold
        rw [hpc] at halive
        cases halive
    rw [Futex.exitStep] at hs'
    split_ifs at hs'
    · cases hs'
      exact h.setPc (hleaving rfl) nofun hexiting
    · cases hs'
      exact h.giveUp hN rfl (fun _ _ => rfl) htold rfl (hword rfl) rfl rfl
  | set =>
    cases hs'
    refine h.hold (c := .exit .scrub) rfl rfl rfl nofun hexiting fun w hw => ?_
    have hset := holder_setHolder s none
    exact nomatch hset.symm.trans hw
  | scrub =>
    cases hs'
    refine h.move rfl rfl rfl nofun hexiting ?_ (hleaving rfl)
    exact holder_map s _ fun p => holder_removeAll p t
  | mark =>
    cases hs'
    exact h.setPc (hleaving rfl) nofun hexiting

/-! ### Runs -/

omit hN in
theorem Invariant.begin_ (hpc : s.pc t = .user r) (prio : ℕ)
    (c : Call) : Invariant N (begin_ N s t prio c) := by
  have hleaving : (s.pc t).leaving = false := by rw [hpc]; rfl
  cases c with
  | lock | tryLock | cmpRequeue =>
    rw [Futex.begin_]
    split_ifs
    · exact h.return_ hleaving _
    · exact h.setPc hleaving nofun nofun
  | unlock | waitRequeue => exact h.setPc hleaving nofun nofun

omit hN in
/-- A thread that begins to exit has nothing any more. -/
theorem Invariant.exit (hpc : s.pc t = .user r) :
    Invariant N ((s.release t).setPc t (.exit .scan)) := by
  have htold : ((s.release t).setPc t (.exit .scan)).told t = false := update_self _ _ _
  refine h.update (c := .exit .scan) rfl (fun u hu => update_of_ne hu _ _) (.inl rfl)
    (by simp [htold, Pc.owning])
    (fun u hu => (h.holder u hu).imp_right (.imp_right fun hleave => ?_)) (by simp [htold])
  have hut : u ≠ t := by
    rintro rfl
    rw [hpc] at hleave
    cases hleave
  rwa [if_neg hut]

theorem Invariant.step {e : Event ι}
    (hclear : Clear N s e) (hs' : step N s e = some s') : Invariant N s' := by
  cases e with
  | call t c prio =>
    rw [Futex.step] at hs'
    split at hs'
    · grind [h.begin_]
    · cases hs'
  | doom t =>
    cases hs'
    exact ⟨h.owner, h.holder, h.alive⟩
  | exit t =>
    rw [Futex.step] at hs'
    split at hs'
    · grind [h.exit]
    · cases hs'
  | run t o =>
    change ClearAt N s t (s.pc t) at hclear
    change continue_ N s t o = some s' at hs'
    unfold continue_ at hs'
    generalize hpc : s.pc t = pc at hs' hclear
    cases pc with
    | lock c pc =>
      cases hs'
      exact h.lockStep hN hpc hclear
    | tryLock =>
      cases hs'
      exact h.tryLockStep hN hpc hclear
    | acquire =>
      cases hs'
      exact h.acquire hpc
    | unlock pc =>
      cases hs'
      exact h.unlockStep hN hpc hclear
    | wait pc =>
      cases hs'
      exact h.waitStep hpc hclear
    | requeue pc =>
      cases hs'
      exact h.requeueStep hN hpc hclear
    | exit pc => exact h.exitStep hN hpc hclear hs'
    | user | dead => cases hs'

end

/-- **Mutual exclusion.**  In every run, of any number of threads in one PID namespace, whose steps
all meet the condition, at most one thread at a time has been told that it holds the lock and has
not released it, and the word has its TID. -/
theorem always_exclusive (hN : N.OneNamespace) {es : List (Event ι)}
    (hes : Runs.Meets (step N) (Clear N) es initial) :
    Runs.Always (step N) (Exclusive N) es initial :=
  Runs.always_of_invariant (fun _ _ _ h hclear hs' => h.step hN hclear hs')
    (fun _ h => h.exclusive hN) Invariant.initial hes

instance (N : Naming ι) (s : Futex ι) (t : ι) : (pc : Pc ι) → Decidable (ClearAt N s t pc) := by
  intro pc
  unfold ClearAt
  split <;> infer_instance

instance (N : Naming ι) (s : Futex ι) (e : Event ι) : Decidable (Clear N s e) := by
  unfold Clear
  split <;> infer_instance

end Futex

/-! ### Two threads -/

/-- Two threads with the TIDs 1 and 2. -/
def twoThreads : Naming (Fin 2) where
  tid _ u := if u = 0 then 1 else 2
  host _ n := if n = 1 then some 0 else if n = 2 then some 1 else none

theorem oneNamespace_twoThreads : twoThreads.OneNamespace where
  same _ _ := rfl
  injective := by decide
  nonzero := by decide
  small := by decide
  host := by decide
  of_host t n u h := by grind [twoThreads]

/-- Nothing happens outside of the futex. -/
def quiet : Outside (Fin 2) := ⟨false, false, false, false, true, fun _ => 0, fun _ => 0⟩

/-- The thread begins a call and takes some steps. -/
def steps (t : Fin 2) (c : Call) (n : ℕ) : List (Event (Fin 2)) :=
  .call t c 0 :: List.replicate n (.run t quiet)

/-- A thread locks, another one waits, the first one unlocks and the second one goes on. -/
def handover : List (Event (Fin 2)) :=
  steps 0 .lock 2 ++ steps 1 .lock 4 ++ steps 0 .unlock 5 ++ List.replicate 2 (.run 1 quiet)

/-- A thread waits for a requeue, and another one gives it the lock, which is free. -/
def freeRequeued : List (Event (Fin 2)) :=
  steps 1 .waitRequeue 2 ++ steps 0 (.cmpRequeue 1 0) 7 ++ List.replicate 3 (.run 1 quiet)

theorem exclusive_handover :
    Runs.Always (step twoThreads) (Exclusive twoThreads) handover initial ∧
      Runs.Always (step twoThreads) (Exclusive twoThreads) freeRequeued initial ∧
      (Runs.exec (step twoThreads) freeRequeued initial).map (·.told 1) = some true :=
  ⟨always_exclusive oneNamespace_twoThreads (by decide +kernel),
    always_exclusive oneNamespace_twoThreads (by decide +kernel), by decide +kernel⟩

/-- A thread locks, another one waits for a requeue, and the first one requeues it. -/
def requeued : List (Event (Fin 2)) :=
  steps 0 .lock 2 ++ steps 1 .waitRequeue 2 ++ steps 0 (.cmpRequeue 1 0) 4 ++
    List.replicate 3 (.run 1 quiet)

/-- A thread locks and is marked by an `exit_group`; while it still runs, another one locks. -/
def takenOver : List (Event (Fin 2)) := steps 0 .lock 2 ++ [.doom 0] ++ steps 1 .lock 4

/-- Both threads have been told that they hold the lock. -/
theorem both_told :
    ¬ Runs.Always (step twoThreads) (Exclusive twoThreads) requeued initial ∧
    ¬ Runs.Always (step twoThreads) (Exclusive twoThreads) takenOver initial := by
  have hboth {es : List (Event (Fin 2))}
      (hes : (Runs.exec (step twoThreads) es initial).map
        (fun s => (s.told 0, s.told 1)) = some (true, true)) :
      ¬ Runs.Always (step twoThreads) (Exclusive twoThreads) es initial := by
    intro h
    obtain ⟨s, hs, htold⟩ := Option.map_eq_some_iff.1 hes
    obtain ⟨h₀, h₁⟩ := Prod.mk.inj htold
    exact absurd ((h.exec hs).unique 0 1 h₀ h₁) (by decide)
  constructor
  · exact hboth (by decide +kernel)
  · exact hboth (by decide +kernel)

end CypheraKernel.FutexPi
