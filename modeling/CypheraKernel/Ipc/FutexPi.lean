import CypheraKernel.Errno
import CypheraKernel.Lib.SortedMap

/-!
# Futexes with priority inheritance

`kernel/src/ipc/futex/pi.rs` on one futex.  The word in user memory holds the TID of the owner and
two flags; beside it the kernel keeps a `PiState` with the holder and the threads that wait.  Each
locked section and each access to the word is a step of its own, and the steps of different threads
may come in any order.

`lockStep`, `unlockStep`, `waitStep`, `requeueStep`, `exitStep`: the steps of `lock_pi`,
`unlock_pi`, `wait_requeue_pi`, `cmp_requeue_pi`, and of `pi_owner_died` with the rest of an exit.

What a step finds outside of the futex is part of the event (`Outside`): whether the word can be
accessed, how long a thread has slept, the priorities, and the answer of `boost_chain`.  The
boosting of priorities itself, the list of held keys and the wake-ups are left out: a parked thread
may go on at any time.
-/

namespace CypheraKernel.FutexPi

open Function

/-! ### The word -/

/-- A futex word. -/
abbrev Word := BitVec 32

def waitersBit : Word := 0x80000000
def ownerDiedBit : Word := 0x40000000
def tidMask : Word := 0x3fffffff

/-- The TID in the word. -/
def tidOf (w : Word) : Word := w &&& tidMask

/-! ### The state -/

variable {ι : Type} [LinearOrder ι]

/-- How threads are called: `tid t u` is the TID of `u` in the PID namespace of `t`, and `host t n`
is the thread with the TID `n` there. -/
structure Naming (ι : Type) where
  tid : ι → ι → Word
  host : ι → Word → Option ι

/-- The threads that wait stand in the order of their priorities, the highest first, and of their
pids. -/
structure PiState (ι : Type) [LinearOrder ι] where
  holder : Option ι
  waiters : SortedMap (ℕ ×ₗ ι) Unit

namespace PiState

def new : PiState ι := ⟨none, .empty⟩

/-- The key of a waiting thread. -/
def key (prio : ℕ) (t : ι) : ℕ ×ₗ ι := toLex (255 - prio, t)

variable (s : PiState ι)

/-- The first waiting thread, and whether there are more. -/
def popTop : Option ((ι × Bool) × PiState ι) :=
  match s.waiters.popFirst with
  | none => none
  | some ((k, _), rest) => some (((ofLex k).2, !rest.isEmpty), { s with waiters := rest })

def insertWaiter (prio : ℕ) (t : ι) : PiState ι :=
  { s with waiters := s.waiters.insert (key prio t) () }

def removeKey (k : ℕ ×ₗ ι) : PiState ι := { s with waiters := s.waiters.eraseKey k }

/-- The keys of a thread. -/
def keysOf (t : ι) : List (ℕ ×ₗ ι) :=
  s.waiters.keys.filter fun k => (ofLex k).2 = t

def removeFirst (t : ι) : PiState ι :=
  match s.keysOf t with
  | k :: _ => s.removeKey k
  | [] => s

def removeAll (t : ι) : PiState ι := (s.keysOf t).foldl removeKey s

end PiState

/-- The result of a call. -/
abbrev Result := Except Errno ℕ

/-- A call of `lock_pi`: its priority and the counters of its loop. -/
structure LockCall where
  (prio attempts spins : ℕ)
  deriving DecidableEq, Repr

/-- The places in the loop of `lock_pi`. -/
inductive LockPc
  | attempt
  | seen (observed : Word)
  | takeover (observed : Word)
  | enqueue (observed : Word)
  | boost
  | refused
  | parked
  | check (timedOut : Bool)
  | leave (timedOut : Bool)

/-- Where an unlock call stands. -/
inductive UnlockPc (ι : Type)
  | read
  | pop
  | vet (winner : ι) (more : Bool)
  | write (winner : Option (ι × Bool))
  | set (winner : Option ι)

/-- Where a waiting call stands. -/
inductive WaitPc
  | read
  | enqueue
  | parked
  | dequeue (timedOut : Bool)
  | check (timedOut : Bool)
  | queued (timedOut : Bool)
  | parkedAgain
  | checkAgain (timedOut : Bool)
  | leave (timedOut : Bool)

/-- A call of `cmp_requeue_pi`: the thread it has woken, the number of threads that it may still
requeue, and the number it has requeued. -/
structure RequeueCall (ι : Type) where
  winner : Option ι
  (left requeued : ℕ)

/-- Where a requeue call stands. -/
inductive RequeuePc (ι : Type)
  | read (left : ℕ)
  | drain (call : RequeueCall ι)
  | putBack (popped : ι) (rest : List ι) (call : RequeueCall ι)
  | set (winner : ι) (left : ℕ)
  | insert (winner popped : ι) (left requeued : ℕ)
  | look (winner : ι) (requeued : ℕ)
  | swap (winner : ι) (requeued : ℕ) (prev : Word)

/-- The places in the exit of a thread. -/
inductive ExitPc (ι : Type)
  | scan
  | read
  | pop (flag : Word)
  | vet (flag : Word) (winner : ι) (more : Bool)
  | write (flag : Word)
  | set
  | scrub
  | mark

/-- Where a thread is: in user mode, with the result of its last call; in a call; or at the end of
its exit.  The section that `acquire` stands before makes a thread the holder whose compare-exchange
has succeeded. -/
inductive Pc (ι : Type)
  | user (last : Option Result)
  | lock (call : LockCall) (pc : LockPc)
  | tryLock
  | acquire
  | unlock (pc : UnlockPc ι)
  | wait (pc : WaitPc)
  | requeue (pc : RequeuePc ι)
  | exit (pc : ExitPc ι)
  | dead

def Pc.isDead : Pc ι → Bool
  | .dead => true
  | _ => false

/-- The futex.  `queue` are the threads that wait on the other futex of `wait_requeue_pi`; `doomed`
the threads that `exit_group` of another thread has marked; and `told` those that have been told
that they hold the lock, and have not released it or begun to exit. -/
structure Futex (ι : Type) [LinearOrder ι] where
  word : Word
  pi : Option (PiState ι)
  queue : List ι
  pc : ι → Pc ι
  (doomed told : ι → Bool)

/-- What a step finds outside of the futex. -/
structure Outside (ι : Type) where
  (fault deadlock timedOut signal same : Bool)
  (prio wakePrio : ι → ℕ)

namespace Futex

variable (s : Futex ι) (t : ι)

def setPc (pc : Pc ι) : Futex ι := { s with pc := update s.pc t pc }

/-- The call returns. -/
def return_ (r : Result) : Futex ι := s.setPc t (.user (some r))

/-- The call tells the thread that it holds the lock. -/
def tell : Futex ι :=
  { s.return_ t (.ok 0) with told := update s.told t true }

/-- The thread gives the futex up. -/
def release : Futex ι := { s with told := update s.told t false }

def holder (s : Futex ι) : Option ι := s.pi.bind PiState.holder

/-- `pid_is_terminating`. -/
def terminating : Bool := s.doomed t || (s.pc t).isDead

/-- The locked section of `transfer_pi_ownership`. -/
def setHolder (new : Option ι) : Futex ι :=
  { s with pi :=
      match s.pi with
      | some p => if new.isNone && p.waiters.isEmpty then none else some { p with holder := new }
      | none => new.map fun h => { PiState.new with holder := some h } }

/-- The locked section of `pop_live_winner`: the thread that it takes out, and what is left. -/
def popTop (s : Futex ι) : Option (ι × Bool) × Option (PiState ι) :=
  match s.pi with
  | none => (none, none)
  | some p =>
    match p.popTop with
    | none => (none, some p)
    | some (w, p) => (some w, some p)

def removeKey (s : Futex ι) (k : ℕ ×ₗ ι) : Futex ι :=
  { s with pi := s.pi.map fun p => p.removeKey k }

/-- A thread that is interrupted or has slept too long gives up. -/
def gaveUp (signal timedOut : Bool) : Option Errno :=
  if signal then some .intr else if timedOut then some .timedout else none

variable (N : Naming ι) (s : Futex ι) (t : ι) (o : Outside ι)

/-! ### Locking -/

def maxAttempts : ℕ := 64
def maxSpins : ℕ := 2 ^ 20

/-- `lock_pi`. -/
def lockStep (c : LockCall) : LockPc → Futex ι
  | .attempt =>
    if c.attempts ≥ maxAttempts ∨ c.spins ≥ maxSpins then s.return_ t (.error .again)
    else if o.fault then s.return_ t (.error .fault)
    else if s.word = 0 then { s.setPc t .acquire with word := N.tid t t }
    else if tidOf s.word = N.tid t t then s.return_ t (.error .deadlk)
    else s.setPc t (.lock c (.seen s.word))
  | .seen observed =>
    match N.host t (tidOf observed) with
    | none => s.setPc t (.lock c (.takeover observed))
    | some h =>
      if s.terminating h then s.setPc t (.lock c (.takeover observed))
      else s.setPc t (.lock c (.enqueue observed))
  | .takeover observed =>
    if o.fault then s.return_ t (.error .fault)
    else if s.word = observed then
      { s.setPc t .acquire with
        word := N.tid t t ||| (observed &&& (waitersBit ||| ownerDiedBit)) }
    else s.setPc t (.lock { c with spins := c.spins + 1 } .attempt)
  | .enqueue observed =>
    if !o.fault && s.word = observed then
      let p := s.pi.getD .new
      -- the holder, if none is known yet, is the thread that the word names
      let p := { p with holder := p.holder.or (N.host t (tidOf observed)) }
      { s.setPc t (.lock c .boost) with
        word := observed ||| waitersBit
        pi := some (p.insertWaiter c.prio t) }
    else s.setPc t (.lock { c with spins := c.spins + 1 } .attempt)
  | .boost => s.setPc t (.lock c (if o.deadlock then .refused else .parked))
  | .refused => (s.removeKey (PiState.key c.prio t)).return_ t (.error .deadlk)
  | .parked => s.setPc t (.lock c (.check o.timedOut))
  | .check timedOut =>
    if s.holder = some t then s.tell t else s.setPc t (.lock c (.leave timedOut))
  | .leave timedOut =>
    let s := s.removeKey (PiState.key c.prio t)
    match gaveUp o.signal timedOut with
    | some e => s.return_ t (.error e)
    | none => s.setPc t (.lock { c with attempts := c.attempts + 1 } .attempt)

/-- `trylock_pi`. -/
def tryLockStep : Futex ι :=
  if o.fault then s.return_ t (.error .fault)
  else if s.word = 0 then { s.setPc t .acquire with word := N.tid t t }
  else if tidOf s.word = N.tid t t then s.return_ t (.error .deadlk)
  else s.return_ t (.error .again)

/-! ### Unlocking -/

/-- The word that names the new owner. -/
def wordOf (winner : Option (ι × Bool)) : Word :=
  match winner with
  | some (w, more) => tidOf (N.tid t w) ||| if more then waitersBit else 0
  | none => 0

/-- `unlock_pi`. -/
def unlockStep : UnlockPc ι → Futex ι
  | .read =>
    if o.fault then s.return_ t (.error .fault)
    else if tidOf s.word ≠ N.tid t t then s.return_ t (.error .perm)
    else s.setPc t (.unlock .pop)
  | .pop =>
    match s.popTop with
    | (some (w, more), pi) => { s.setPc t (.unlock (.vet w more)) with pi := pi }
    | (none, pi) => { s.setPc t (.unlock (.write none)) with pi := pi }
  | .vet w more => s.setPc t (.unlock (if s.terminating w then .pop else .write (some (w, more))))
  | .write winner =>
    if o.fault then s.return_ t (.error .fault)
    else { (s.release t).setPc t (.unlock (.set (winner.map Prod.fst))) with
      word := wordOf N t winner }
  | .set winner => (s.setHolder winner).return_ t (.ok 0)

/-! ### Waiting for a requeue, and requeueing -/

/-- `wait_requeue_pi`. -/
def waitStep : WaitPc → Futex ι
  | .read =>
    if o.fault then s.return_ t (.error .fault)
    else if !o.same then s.return_ t (.error .again)
    else s.setPc t (.wait .enqueue)
  | .enqueue => { s.setPc t (.wait .parked) with queue := s.queue ++ [t] }
  | .parked => s.setPc t (.wait (.dequeue o.timedOut))
  | .dequeue timedOut =>
    { s.setPc t (.wait (.check timedOut)) with queue := s.queue.filter fun u => u ≠ t }
  | .check timedOut =>
    if s.holder = some t then s.tell t else s.setPc t (.wait (.queued timedOut))
  | .queued timedOut =>
    if (s.pi.any fun p => !(p.keysOf t).isEmpty) && !timedOut && !o.signal then
      s.setPc t (.wait .parkedAgain)
    else s.return_ t (.error ((gaveUp o.signal timedOut).getD .again))
  | .parkedAgain => s.setPc t (.wait (.checkAgain o.timedOut))
  | .checkAgain timedOut =>
    if s.holder = some t then s.tell t else s.setPc t (.wait (.leave timedOut))
  | .leave timedOut =>
    { s.return_ t (.error ((gaveUp o.signal timedOut).getD .again)) with
      pi := s.pi.map fun p => p.removeFirst t }

/-- The thread of the highest priority, the first one of several. -/
def highest (first : ι) (rest : List ι) : ι :=
  rest.foldl (fun best u => if o.wakePrio best < o.wakePrio u then u else best) first

/-- The first section of `pop_highest_priority`, which takes the whole queue out. -/
def takeQueue (c : RequeueCall ι) (first : ι) (rest : List ι) : Futex ι :=
  let popped := highest o first rest
  { s.setPc t (.requeue (.putBack popped ((first :: rest).erase popped) c)) with queue := [] }

/-- `cmp_requeue_pi`. -/
def requeueStep : RequeuePc ι → Futex ι
  | .read left =>
    if o.fault then s.return_ t (.error .fault)
    else if !o.same then s.return_ t (.error .again)
    else s.setPc t (.requeue (.drain ⟨none, left, 0⟩))
  | .drain c =>
    match c.winner, s.queue with
    | none, [] => s.return_ t (.ok 0)
    | none, first :: rest => takeQueue s t o c first rest
    | some w, [] => s.setPc t (.requeue (.look w c.requeued))
    | some w, first :: rest =>
      if c.left = 0 then s.setPc t (.requeue (.look w c.requeued)) else takeQueue s t o c first rest
  | .putBack popped (u :: rest) c =>
    { s.setPc t (.requeue (.putBack popped rest c)) with queue := s.queue ++ [u] }
  | .putBack popped [] c =>
    match c.winner with
    | none => s.setPc t (.requeue (.set popped c.left))
    | some w => s.setPc t (.requeue (.insert w popped (c.left - 1) c.requeued))
  | .set w left => (s.setHolder (some w)).setPc t (.requeue (.drain ⟨some w, left, 0⟩))
  | .insert w popped left requeued =>
    { s.setPc t (.requeue (.drain ⟨some w, left, requeued + 1⟩)) with
      pi := some ((s.pi.getD .new).insertWaiter (o.prio popped) popped) }
  | .look w requeued =>
    s.setPc t (.requeue (.swap w requeued (if o.fault then 0 else s.word)))
  | .swap w requeued prev =>
    let word := if !o.fault && s.word = prev then wordOf N t (some (w, requeued > 0)) else s.word
    { s.return_ t (.ok (1 + requeued)) with word := word }

/-! ### Exiting -/

/-- `pi_owner_died` and `thread_death_scrub`, and the section that marks the thread as exiting.  The
translation of the winner's pid asks for the current thread of the CPU; the exit has cleared it
before, and the kernel panics. -/
def exitStep : ExitPc ι → Option (Futex ι)
  | .scan => some (s.setPc t (.exit (if s.holder = some t then .read else .scrub)))
  | .read => some (s.setPc t (.exit (.pop (if o.fault then 0 else s.word &&& ownerDiedBit))))
  | .pop flag =>
    match s.popTop with
    | (some (w, more), pi) => some { s.setPc t (.exit (.vet flag w more)) with pi := pi }
    | (none, pi) => some { s.setPc t (.exit (.write flag)) with pi := pi }
  | .vet flag w _ => if s.terminating w then some (s.setPc t (.exit (.pop flag))) else none
  | .write flag =>
    if o.fault then some (s.setPc t (.exit .scrub))
    else some { s.setPc t (.exit .set) with word := flag }
  | .set => some ((s.setHolder none).setPc t (.exit .scrub))
  | .scrub =>
    some { s.setPc t (.exit .mark) with
      queue := s.queue.filter fun u => u ≠ t
      pi := s.pi.map fun p => p.removeAll t }
  | .mark => some (s.setPc t .dead)

end Futex

/-! ### Runs -/

/-- The calls on a futex word. -/
inductive Call
  | lock
  | tryLock
  | unlock
  | waitRequeue
  | cmpRequeue (nWake nRequeue : ℕ)
  deriving DecidableEq, Repr

/-- A thread begins a call, or goes on with it; another thread marks it in `exit_group`; or it
begins to exit. -/
inductive Event (ι : Type)
  | call (t : ι) (c : Call) (prio : ℕ)
  | run (t : ι) (o : Outside ι)
  | doom (t : ι)
  | exit (t : ι)

namespace Futex

variable (N : Naming ι) (s : Futex ι)

/-- The first step of a call, in user mode. -/
def begin_ (t : ι) (prio : ℕ) : Call → Futex ι
  | .lock =>
    if N.tid t t > tidMask then s.return_ t (.error .inval)
    else s.setPc t (.lock ⟨prio, 0, 0⟩ .attempt)
  | .tryLock => if N.tid t t > tidMask then s.return_ t (.error .inval) else s.setPc t .tryLock
  | .unlock => s.setPc t (.unlock .read)
  | .waitRequeue => s.setPc t (.wait .read)
  | .cmpRequeue nWake nRequeue =>
    if nWake ≠ 1 then s.return_ t (.error .inval) else s.setPc t (.requeue (.read nRequeue))

/-- The next step of a call. -/
def continue_ (t : ι) (o : Outside ι) : Option (Futex ι) :=
  match s.pc t with
  | .lock c pc => some (lockStep N s t o c pc)
  | .tryLock => some (tryLockStep N s t o)
  | .acquire => some ((s.setHolder (some t)).tell t)
  | .unlock pc => some (unlockStep N s t o pc)
  | .wait pc => some (waitStep s t o pc)
  | .requeue pc => some (requeueStep N s t o pc)
  | .exit pc => exitStep s t o pc
  | .user _ | .dead => none

/-- A call begins, or a thread goes on. -/
def step : Event ι → Option (Futex ι)
  | .call t c prio =>
    match s.pc t with
    | .user _ => some (begin_ N s t prio c)
    | _ => none
  | .run t o => continue_ N s t o
  | .doom t => some { s with doomed := update s.doomed t true }
  | .exit t =>
    match s.pc t with
    | .user _ => some ((s.release t).setPc t (.exit .scan))
    | _ => none

/-- Nobody has the lock, and all threads are in user mode. -/
def initial : Futex ι := ⟨0, none, [], fun _ => .user none, fun _ => false, fun _ => false⟩

end Futex

end CypheraKernel.FutexPi
