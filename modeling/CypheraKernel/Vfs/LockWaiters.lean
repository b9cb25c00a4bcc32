import CypheraKernel.Lib.WaitQueues
import CypheraKernel.Vfs.Flock
import CypheraKernel.Vfs.RecordLocks

/-!
# Waiting for locks

`kernel/src/syscall/fs/locks.rs`: processes that set, wait for and give up the record locks and the
`flock` locks of one inode.  Each of the two tables has its own queue.

* `no_lock_waiter_left`: **in careful runs no process sleeps that nobody is in the way of**;
* `downgrade_leaves_waiter`: after a write lock has been turned into a read lock one does.
-/

namespace CypheraKernel.LockWaiters

open List Locks

open Sched (Pid)
open Core (FileLock)
open Flock (lockSh lockEx lockUn lockNb Kind LockState Agrees kind kind_setWaiters drained
  acquireShared acquireExclusive releaseInEntry sharedOrUnlocked)
open WaitQueues

def fRdlck : ℕ := 0

/-- What `F_SETLK` and `F_SETLKW` ask for, after the checks of the call. -/
structure Range where
  (kind start stop : ℕ)
  known : kind = fRdlck ∨ kind = fWrlck ∨ kind = fUnlck
  proper : start < stop

inductive Queue
  | record
  | flock
  deriving DecidableEq

structure Tables where
  record : Table
  flock : Flock.Tables

/-- The calls: `fcntl` without and with waiting, `close`, the end of the process, `flock` by an open
file description, after the check of its argument, and the end of an open file description. -/
inductive Op
  | setLk (range : Range)
  | setLkW (range : Range)
  | close
  | exit
  | flock (ofd : ℕ) (op : UInt32) (known : op &&& ~~~lockNb ∈ [lockSh, lockEx, lockUn])
  | dropOfd (ofd : ℕ)

abbrev Reply := Answer Tables Queue Pid

variable (inode : ℕ) (t : Tables)

/-- A call of `try_set_lock`, and what follows if it succeeds. -/
def setLock (p : Pid) (r : Range) (rest : List (Task Queue Pid)) : Reply :=
  let result := trySetLock t.record inode r.kind r.start r.stop p
  { state := { t with record := result.2 }
    drained := []
    refused := !result.1.isOk
    -- Only `unlock_range` wakes the queue.
    tasks := (if r.kind = fUnlck then [.wakeAll .record] else []) ++ rest }

/-- The locks of an owner are dropped, and the queue is woken if there were any. -/
def dropLocks (record : Table) : Reply :=
  { state := { t with record := record }
    drained := []
    refused := false
    tasks := if (record inode).length = (t.record inode).length then [] else [.wakeAll .record] }

/-- A call on the `flock` table.  The waiting processes are those of the queue, so that whether the
call takes them out is shown by what it does to one of them. -/
def flockSection (t : Flock.Tables) (p : Pid)
    (call : Flock.Tables → List Pid × Flock.Tables) : List Queue × Flock.Tables :=
  let result := call (t.setWaiters inode [p])
  (if result.1 = [] then [] else [.flock], result.2.setWaiters inode [])

def flock (inode : ℕ) (t : Tables) (p : Pid) (ofd : ℕ) (op : UInt32) : Reply :=
  let result := flockSection inode t.flock p fun x => (Flock.tryOp x inode ofd op).2
  { state := { t with flock := result.2 }
    drained := result.1
    refused := (Flock.tryOp t.flock inode ofd op).1 = .conflict
    tasks := [.dequeue .flock] }

def dropOfd (inode : ℕ) (t : Tables) (p : Pid) (ofd : ℕ) : Reply :=
  let result := flockSection inode t.flock p fun x => Flock.dropOfd x ofd
  { state := { t with flock := result.2 }
    drained := result.1
    refused := false
    tasks := [] }

def attempt (p : Pid) : Op → Reply
  | .setLk r => setLock inode t p r []
  | .setLkW r => setLock inode t p r [.dequeue .record]
  | .close => dropLocks inode t (dropOwnerInode t.record p inode)
  | .exit => dropLocks inode t (dropOwner t.record p)
  | .flock ofd op _ => flock inode t p ofd op
  | .dropOfd ofd => dropOfd inode t p ofd

/-- The inode as a device.  `F_SETLKW` and `flock` go through `block_io`, whatever they ask for. -/
def device : Device Tables Op Queue Pid where
  queues
    | .setLkW _ => [.record]
    | .flock .. => [.flock]
    | _ => []
  patient
    | .setLkW _ => true
    | .flock _ op _ => op &&& lockNb = 0
    | _ => false
  attempt := attempt inode

def initial : System Tables Op Queue Pid :=
  ⟨⟨empty, Flock.empty⟩, fun _ => [], fun _ => .running [] .leave⟩

/-! ### The property and the condition -/

/-- A lock of another owner is in the way of a request for a record lock. -/
def InWay (locks : List FileLock) (p : Pid) (r : Range) : Prop :=
  ∃ l ∈ locks, l.owner ≠ p ∧ overlaps l r.start r.stop = true ∧
    (l.kind = fWrlck ∨ r.kind = fWrlck)
  deriving Decidable

/-- A lock of another open file description is in the way of the request. -/
def Contended (t : Flock.Tables) (inode ofd : ℕ) (op : UInt32) : Prop :=
  ∃ o k, o ≠ ofd ∧ kind t inode o = some k ∧
    (op &&& ~~~lockNb = lockEx ∨ (op &&& ~~~lockNb = lockSh ∧ k = .exclusive))

/-- A lock of another owner is in the way of what the call waits for. -/
def Blocked (p : Pid) : Op → Prop
  | .setLkW r => InWay (t.record inode) p r
  | .flock ofd op _ => Contended t.flock inode ofd op
  | _ => False

/-- The request turns a write lock of its owner into a read lock. -/
def Downgrades (p : Pid) (r : Range) : Prop :=
  r.kind = fRdlck ∧ ∃ l ∈ t.record inode, l.owner = p ∧ l.kind = fWrlck ∧
    overlaps l r.start r.stop = true
  deriving Decidable

/-- The record lock that a process is about to set. -/
def asked : Control Op Queue Pid → Option Range
  | .running [] (.attempt (.setLk r)) | .running [] (.attempt (.setLkW r)) => some r
  | _ => none

/-- No write lock is turned into a read lock while another process is in the queue of the record
locks. -/
def Careful (s : System Tables Op Queue Pid) : Event Op Pid → Prop
  | .run p _ => ∀ r ∈ asked (s.control p), Downgrades inode s.resource p r →
      ∀ x ∈ s.queue .record, x = p
  | _ => True

instance (inode : ℕ) (s : System Tables Op Queue Pid) (e : Event Op Pid) :
    Decidable (Careful inode s e) := by
  unfold Careful
  split <;> infer_instance

/-! ### Record locks -/

section Record

variable {inode} {t : Table} {locks : List FileLock} {p p' : Pid} {r r' : Range}
  {l : FileLock}

/-- The lock that a request sets. -/
def Range.lock (r : Range) (p : Pid) : FileLock := ⟨r.kind, r.start, r.stop, p⟩

theorem conflicts_iff : conflicts l (r.lock p) = true ↔
    l.owner ≠ p ∧ overlaps l r.start r.stop = true ∧ (l.kind = fWrlck ∨ r.kind = fWrlck) := by
  grind [conflicts, Range.lock]

theorem overlaps_iff (a b : ℕ) : overlaps l a b = true ↔ l.start < b ∧ a < l.stop := by
  simp [overlaps]

/-- **What `try_set_lock` does** to the locks of the inode. -/
theorem trySetLock_spec (t : Table) (inode : ℕ) (p : Pid) (r : Range)
    {result : Except FileLock Unit × Table}
    (hresult : trySetLock t inode r.kind r.start r.stop p = result) :
    (r.kind = fUnlck ∧ result.1.isOk = true ∧
      result.2 inode = splitOwnerRange (t inode) r.start r.stop p) ∨
    (r.kind ≠ fUnlck ∧ InWay (t inode) p r ∧ result.1.isOk = false ∧ result.2 = t) ∨
    (r.kind ≠ fUnlck ∧ ¬ InWay (t inode) p r ∧ result.1.isOk = true ∧
      result.2 inode = splitOwnerRange (t inode) r.start r.stop p ++ [r.lock p]) := by
  subst hresult
  unfold trySetLock
  by_cases hun : r.kind = fUnlck
  · rw [if_pos hun]
    exact .inl ⟨hun, rfl, setInode_self _⟩
  rw [if_neg hun]
  cases hf : (t inode).find? (conflicts · (r.lock p)) with
  | some l =>
    have hconf : conflicts l (r.lock p) = true :=
      find?_some (p := fun x => conflicts x (r.lock p)) hf
    have hin : InWay (t inode) p r := ⟨l, mem_of_find?_eq_some hf, conflicts_iff.1 hconf⟩
    unfold Range.lock at hf
    simp only [hf]
    exact .inr (.inl ⟨hun, hin, rfl, trivial⟩)
  | none =>
    have hin : ¬ InWay (t inode) p r := fun ⟨l, hl, hin⟩ =>
      find?_eq_none.1 hf l hl (conflicts_iff.2 hin)
    unfold Range.lock at hf
    simp only [hf]
    exact .inr (.inr ⟨hun, hin, rfl, setInode_self _⟩)

/-- What is in the way of another process stays in its way, unless a write lock has become a read
lock. -/
theorem InWay.set (hproper : ∀ l ∈ locks, l.start < l.stop) (hne : p' ≠ p)
    (hun : r.kind ≠ fUnlck) (hdown : ¬ (r.kind = fRdlck ∧ ∃ l ∈ locks, l.owner = p ∧
      l.kind = fWrlck ∧ overlaps l r.start r.stop = true)) (h : InWay locks p' r') :
    InWay (splitOwnerRange locks r.start r.stop p ++ [r.lock p]) p' r' := by
  obtain ⟨l, hl, howner, hover, hkind⟩ := h
  by_cases hun : untouched r.start r.stop p l = true
  · exact ⟨l, mem_append_left _ (mem_append_left _ (mem_filter.2 ⟨hl, hun⟩)), howner,
      hover, hkind⟩
  obtain ⟨hp, hov⟩ : l.owner = p ∧ overlaps l r.start r.stop = true := by
    simpa [untouched] using hun
  -- A byte of the lock that the other process asks for.
  obtain ⟨x, hx₁, hx₂, hx₃, hx₄⟩ : ∃ x, l.start ≤ x ∧ x < l.stop ∧ r'.start ≤ x ∧ x < r'.stop := by
    rw [overlaps_iff] at hover
    have := hproper l hl
    have := r'.proper
    exact ⟨max l.start r'.start, by omega, by omega, by omega, by omega⟩
  have hpiece {a b : ℕ} (hmem : ⟨l.kind, a, b, p⟩ ∈ pieces r.start r.stop p l) (ha : a ≤ x)
      (hb : x < b) : InWay (splitOwnerRange locks r.start r.stop p ++ [r.lock p]) p' r' := by
    refine ⟨⟨l.kind, a, b, p⟩, mem_append_left _ (mem_append_right _
      (mem_flatMap.2 ⟨l, hl, hmem⟩)), hne.symm, (overlaps_iff _ _).2 ?_, hkind⟩
    exact ⟨by simp only; omega, by simp only; omega⟩
  rcases Nat.lt_or_ge x r.start with hlow | hlow
  · refine hpiece (a := l.start) (b := r.start) ?_ hx₁ hlow
    unfold pieces
    rw [if_neg hun, if_pos (by omega : l.start < r.start)]
    exact mem_append_left _ (mem_singleton.2 rfl)
  rcases Nat.lt_or_ge x r.stop with hhigh | hhigh
  · refine ⟨r.lock p, mem_append_right _ (mem_singleton.2 rfl), hne.symm, ?_, ?_⟩
    · grind [overlaps_iff, Range.lock]
    rcases hkind with hkind | hkind
    · rcases r.known with h | h | h
      · exact absurd ⟨h, l, hl, hp, hkind, hov⟩ hdown
      · exact .inl h
      · contradiction
    · exact .inr hkind
  · refine hpiece (a := r.stop) (b := l.stop) ?_ hhigh hx₂
    unfold pieces
    rw [if_neg hun, if_pos (by omega : l.stop > r.stop)]
    exact mem_append_right _ (mem_singleton.2 rfl)

end Record

/-! ### Whole-file locks -/

section Whole

variable {inode ofd : ℕ} {t : Flock.Tables} {op : UInt32} (i : Option ℕ) (s : LockState)
  (w : List Pid)

@[simp] theorem state_setWaiters :
    ((t.setWaiters inode w).table inode).state = (t.table inode).state := by
  simp [Flock.Tables.setWaiters]

@[simp] theorem waiters_setWaiters : (t.setWaiters inode w).waiters inode = w := by
  simp [Flock.Tables.setWaiters, Flock.Tables.waiters]

@[simp] theorem state_setState : ((t.setState inode s).table inode).state = s := by
  simp [Flock.Tables.setState]

@[simp] theorem state_setOwned :
    ((t.setOwned ofd i).table inode).state = (t.table inode).state := by
  simp [Flock.Tables.setOwned]

@[simp] theorem waiters_setState : (t.setState inode s).waiters inode = t.waiters inode := by
  simp [Flock.Tables.setState, Flock.Tables.waiters]

@[simp] theorem waiters_setOwned : (t.setOwned ofd i).waiters inode = t.waiters inode := by
  simp [Flock.Tables.setOwned, Flock.Tables.waiters]

/-- What is held after the call is no weaker than before. -/
def NoWeaker (k k' : Option Kind) : Prop := k = none ∨ k' = k ∨ k' = some .exclusive

/-- Nobody shares with no holder, and a call that leaves its open file description with less takes
the waiting processes out of the queue. -/
def Wakes (t : Flock.Tables) (inode ofd : ℕ) (result : List Pid × Flock.Tables) : Prop :=
  (result.2.table inode).state ≠ .shared ∅ ∧
    (NoWeaker (kind t inode ofd) (kind result.2 inode ofd) ∨ result.1 = t.waiters inode)

attribute [local simp] LockState.kind

theorem lock_kinds_ne : lockUn ≠ lockSh ∧ lockUn ≠ lockEx ∧ lockSh ≠ lockEx := by decide

theorem acquireShared_conflict :
    (acquireShared t inode ofd).1 = .conflict ↔
      ∃ o, o ≠ ofd ∧ kind t inode o = some .exclusive := by
  unfold acquireShared kind
  cases hs : (t.table inode).state with
  | unlocked | shared => simp
  | exclusive holder =>
    by_cases h : holder = ofd <;> simp [drained, h]

theorem sharedOrUnlocked_ne (set : Finset ℕ) : sharedOrUnlocked set ≠ .shared ∅ := by
  grind [sharedOrUnlocked]

theorem wakes_releaseInEntry (t : Flock.Tables) (inode ofd : ℕ) :
    Wakes t inode ofd (releaseInEntry t inode ofd) := by
  unfold releaseInEntry Wakes kind NoWeaker
  cases hs : (t.table inode).state with
  | unlocked => simp [hs]
  | shared set =>
    dsimp only
    by_cases hmem : ofd ∈ set
    · rw [if_pos hmem]
      simp [sharedOrUnlocked_ne]
    · rw [if_neg hmem]
      simp [sharedOrUnlocked_ne, hmem]
  | exclusive holder =>
    by_cases h : holder = ofd <;> simp [hs, h]

section

variable (hne : (t.table inode).state ≠ .shared ∅) (blocking : Bool)

include hne

theorem acquireExclusive_conflict :
    (acquireExclusive t inode ofd blocking).1 = .conflict ↔
      ∃ o k, o ≠ ofd ∧ kind t inode o = some k := by
  unfold acquireExclusive kind
  cases hs : (t.table inode).state with
  | unlocked => simp
  | shared set =>
    have hset : set.Nonempty := by
      rw [Finset.nonempty_iff_ne_empty]
      rintro rfl
      exact hne hs
    have hother : (∃ o k, o ≠ ofd ∧ (LockState.shared set).kind o = some k) ↔
        ¬ (set.card = 1 ∧ ofd ∈ set) := by
      constructor
      · rintro ⟨o, k, ho, hk⟩ ⟨hcard, hofd⟩
        have hmem : o ∈ set := by simp_all
        exact ho (Finset.card_le_one.1 hcard.le o hmem ofd hofd)
      intro hnot
      obtain ⟨o, hmem, ho⟩ : ∃ o ∈ set, o ≠ ofd := by
        by_contra hno
        push Not at hno
        have hsingle : set = {ofd} := Finset.eq_singleton_iff_nonempty_unique_mem.2 ⟨hset, hno⟩
        exact hnot (by simp [hsingle])
      exact ⟨o, .shared, ho, if_pos hmem⟩
    rw [hother]
    dsimp only
    split_ifs with h₁ h₂ <;> simp [drained, h₁]
  | exclusive holder =>
    by_cases h : holder = ofd <;> simp [h]

/-- **When a `flock` call is refused.** -/
theorem tryOp_conflict (hknown : op &&& ~~~lockNb ∈ [lockSh, lockEx, lockUn]) :
    (Flock.tryOp t inode ofd op).1 = .conflict ↔ Contended t inode ofd op := by
  obtain ⟨h₁, h₂, h₃⟩ := lock_kinds_ne
  unfold Flock.tryOp Contended
  simp only [mem_cons, not_mem_nil, or_false] at hknown
  rcases hknown with h | h | h
  · rw [if_neg (by rw [h]; exact h₁.symm), if_pos h, acquireShared_conflict]
    simp [h, h₃]
  · rw [if_neg (by rw [h]; exact h₂.symm), if_neg (by rw [h]; exact h₃.symm), if_pos h,
      acquireExclusive_conflict hne]
    simp [h]
  · rw [if_pos h]
    simp [h, h₁, h₂]

theorem wakes_acquireShared : Wakes t inode ofd (acquireShared t inode ofd).2 := by
  unfold acquireShared Wakes kind NoWeaker
  cases hs : (t.table inode).state with
  | unlocked => simp
  | shared set =>
    rw [hs] at hne
    by_cases h : ofd ∈ set
    · simpa [h] using hne
    · simp [h]
  | exclusive holder =>
    by_cases h : holder = ofd <;> simp [drained, hs, h]

theorem wakes_acquireExclusive :
    Wakes t inode ofd (acquireExclusive t inode ofd blocking).2 := by
  unfold acquireExclusive Wakes kind NoWeaker
  cases hs : (t.table inode).state with
  | unlocked => simp
  | shared set =>
    dsimp only
    rw [hs] at hne
    split_ifs with h₁ h₂
    · simp
    · simp [drained, sharedOrUnlocked_ne]
    · simpa [hs] using hne
  | exclusive holder =>
    by_cases h : holder = ofd <;> simp [hs, h]

theorem wakes_tryOp (ofd : ℕ) (op : UInt32) : Wakes t inode ofd (Flock.tryOp t inode ofd op).2 := by
  unfold Flock.tryOp
  dsimp only
  split_ifs
  · exact wakes_releaseInEntry t inode ofd
  · exact wakes_acquireShared hne
  · exact wakes_acquireExclusive hne _
  · exact ⟨hne, .inl (.inr (.inl rfl))⟩

end

theorem wakes_dropOfd (ofd : ℕ) (hagr : Agrees (fun _ => inode) t)
    (hne : (t.table inode).state ≠ .shared ∅) :
    Wakes t inode ofd (Flock.dropOfd t ofd) ∧
      ∀ o, o ≠ ofd → kind (Flock.dropOfd t ofd).2 inode o = kind t inode o := by
  unfold Flock.dropOfd
  cases ho : t.owned ofd with
  | none => exact ⟨⟨hne, .inl (.inr (.inl rfl))⟩, fun _ _ => rfl⟩
  | some i =>
    obtain rfl := hagr.own ofd i ((hagr.owned ofd i).1 ho)
    refine ⟨wakes_releaseInEntry (t.setOwned ofd none) i ofd, fun o hne => ?_⟩
    exact (Flock.kind_releaseInEntry _ i ofd i o).trans (if_neg fun h => hne h.2)

theorem agrees_setWaiters (h : Agrees (fun _ => inode) t) (w : List Pid) :
    Agrees (fun _ => inode) (t.setWaiters inode w) := by
  refine ⟨fun o i => ?_, fun o i => ?_⟩
  · rw [kind_setWaiters]
    exact h.owned o i
  · rw [kind_setWaiters]
    exact h.own o i

end Whole

/-! ### The calls -/

section Calls

variable {inode} {t} {p p' : Pid} {op : Op} {record : Table}

/-- The ranges are proper, the two `flock` tables agree, and nobody shares with no holder. -/
structure Sound (inode : ℕ) (t : Tables) : Prop where
  proper : ∀ l ∈ t.record inode, l.start < l.stop
  agrees : Agrees (fun _ => inode) t.flock
  held : (t.flock.table inode).state ≠ .shared ∅

/-- What a call on the `flock` table does for the others. -/
structure Called (inode ofd : ℕ) (t : Flock.Tables) (result : List Queue × Flock.Tables) :
    Prop where
  agrees : Agrees (fun _ => inode) result.2
  held : (result.2.table inode).state ≠ .shared ∅
  others : ∀ o, o ≠ ofd → kind result.2 inode o = kind t inode o
  wakes : NoWeaker (kind t inode ofd) (kind result.2 inode ofd) ∨ .flock ∈ result.1

/-- A call that wakes the one process that is put into the queue for it. -/
theorem called_section {ofd : ℕ} {t : Flock.Tables} {call : Flock.Tables → List Pid × Flock.Tables}
    (hagr : Agrees (fun _ => inode) (call (t.setWaiters inode [p])).2)
    (hwakes : Wakes (t.setWaiters inode [p]) inode ofd (call (t.setWaiters inode [p])))
    (hothers : ∀ o, o ≠ ofd → kind (call (t.setWaiters inode [p])).2 inode o =
      kind (t.setWaiters inode [p]) inode o) :
    Called inode ofd t (flockSection inode t p call) := by
  unfold Wakes at hwakes
  rw [kind_setWaiters] at hwakes hothers
  refine ⟨agrees_setWaiters hagr [], ?_, ?_, ?_⟩ <;> unfold flockSection
  · rw [state_setWaiters]
    exact hwakes.1
  · rwa [kind_setWaiters]
  · rw [waiters_setWaiters] at hwakes
    rw [kind_setWaiters]
    exact hwakes.2.imp id fun hall => by simp [hall]

theorem called_tryOp (h : Sound inode t) (p : Pid) (ofd : ℕ) (op : UInt32) :
    Called inode ofd t.flock
      (flockSection inode t.flock p fun x => (Flock.tryOp x inode ofd op).2) := by
  have hagr := agrees_setWaiters h.agrees [p]
  obtain ⟨k, heff, -⟩ := Flock.tryOp_effect hagr (rfl : inode = (fun _ => inode) ofd) op
  refine called_section (hagr.effect rfl heff)
    (wakes_tryOp (by rw [state_setWaiters]; exact h.held) ofd op) fun o ho => ?_
  rw [heff.kind, if_neg fun h => ho h.2]

theorem called_dropOfd (h : Sound inode t) (p : Pid) (ofd : ℕ) :
    Called inode ofd t.flock (flockSection inode t.flock p fun x => Flock.dropOfd x ofd) := by
  have hagr := agrees_setWaiters h.agrees [p]
  obtain ⟨hwakes, hothers⟩ := wakes_dropOfd ofd hagr (by rw [state_setWaiters]; exact h.held)
  exact called_section (hagr.dropOfd ofd) hwakes hothers

/-- What is in the way of a `flock` call stays in its way, unless the queue is emptied. -/
theorem Called.contended {ofd ofd' : ℕ} {t : Flock.Tables} {result : List Queue × Flock.Tables}
    {op : UInt32} (hcall : Called inode ofd t result) (h : Contended t inode ofd' op) :
    Contended result.2 inode ofd' op ∨ (ofd' ≠ ofd ∧ .flock ∈ result.1) := by
  obtain ⟨o, k, ho, hk, hwant⟩ := h
  by_cases hofd : o = ofd
  · subst hofd
    rcases hcall.wakes with (hnone | hsame | hex) | hdrained
    · rw [hk] at hnone
      cases hnone
    · exact .inl ⟨o, k, ho, hsame.trans hk, hwant⟩
    · exact .inl ⟨o, .exclusive, ho, hex, hwant.imp id fun h => ⟨h.1, rfl⟩⟩
    · exact .inr ⟨ho.symm, hdrained⟩
  · exact .inl ⟨o, k, ho, (hcall.others o hofd).trans hk, hwant⟩

theorem refused_setLock (rest : List (Task Queue Pid)) (r : Range) :
    (setLock inode t p r rest).refused = true ↔ r.kind ≠ fUnlck ∧ InWay (t.record inode) p r := by
  show (!(trySetLock t.record inode r.kind r.start r.stop p).1.isOk) = true ↔ _
  rcases trySetLock_spec t.record inode p r rfl with ⟨hun, hok, -⟩ | ⟨hun, hin, hok, -⟩ |
    ⟨hun, hin, hok, -⟩
  · rw [hok]
    simp [hun]
  · rw [hok]
    simp [hun, hin]
  · rw [hok]
    simp [hin]

theorem refused_setLkW {r : Range} : Refused (device inode) t p (.setLkW r) ↔
    r.kind ≠ fUnlck ∧ InWay (t.record inode) p r :=
  refused_setLock _ r

theorem refused_flock {ofd : ℕ} {o : UInt32} {known : o &&& ~~~lockNb ∈ [lockSh, lockEx, lockUn]}
    (h : Sound inode t) :
    Refused (device inode) t p (.flock ofd o known) ↔ Contended t.flock inode ofd o := by
  rw [← tryOp_conflict h.held known]
  exact decide_eq_true_iff

theorem Sound.setLock (h : Sound inode t) (p : Pid) (r : Range) (rest : List (Task Queue Pid)) :
    Sound inode (setLock inode t p r rest).state := by
  refine ⟨?_, h.agrees, h.held⟩
  show ∀ l ∈ (trySetLock t.record inode r.kind r.start r.stop p).2 inode, l.start < l.stop
  have hsplit := nonempty_split h.proper r.start r.stop p
  rcases trySetLock_spec t.record inode p r rfl with ⟨-, -, heq⟩ | ⟨-, -, -, heq⟩ | ⟨-, -, -, heq⟩
  · rw [heq]
    exact hsplit
  · rw [heq]
    exact h.proper
  rw [heq]
  intro l hl
  rcases mem_append.1 hl with hl | hl
  · exact hsplit l hl
  · rw [mem_singleton.1 hl]
    exact r.proper

/-- The locks of an owner are taken out. -/
theorem dropOwnerInode_self (t : Table) (p : Pid) :
    dropOwnerInode t p inode inode = (t inode).filter fun l => l.owner ≠ p :=
  setInode_self _

theorem Sound.dropLocks (h : Sound inode t)
    (hrec : record inode = (t.record inode).filter fun l => l.owner ≠ p) :
    Sound inode (dropLocks inode t record).state := by
  refine ⟨fun l hl => h.proper l ?_, h.agrees, h.held⟩
  have hl' : l ∈ record inode := hl
  rw [hrec] at hl'
  exact (mem_filter.1 hl').1

theorem Sound.attempt (h : Sound inode t) (p : Pid) (op : Op) :
    Sound inode (attempt inode t p op).state := by
  cases op with
  | setLk r => exact h.setLock p r []
  | setLkW r => exact h.setLock p r [.dequeue .record]
  | close => exact h.dropLocks (dropOwnerInode_self t.record p)
  | exit => exact h.dropLocks rfl
  | flock ofd op known =>
    have hcall := called_tryOp h p ofd op
    exact ⟨h.proper, hcall.agrees, hcall.held⟩
  | dropOfd ofd =>
    have hcall := called_dropOfd h p ofd
    exact ⟨h.proper, hcall.agrees, hcall.held⟩

variable {s : System Tables Op Queue Pid}

/-- What a call owes is owed to those that wait for a record lock and to those that wait for a
`flock` lock. -/
theorem covers_of_waiters {a : Reply} (ha : attempt inode s.resource p op = a)
    (hrecord : ∀ p' r, p' ≠ p → p' ∈ s.queue .record → InWay (s.resource.record inode) p' r →
      InWay (a.state.record inode) p' r ∨
        (¬ Refused (device inode) s.resource p op ∧ .wakeAll .record ∈ a.tasks))
    (hflock : ∀ ofd o, Contended s.resource.flock inode ofd o →
      Contended a.state.flock inode ofd o ∨ .flock ∈ a.drained)
    (hself : Refused (device inode) s.resource p op → Refused (device inode) a.state p op)
    (h : Sound inode s.resource) : Covers (device inode) s p op := by
  subst ha
  refine ⟨fun p' op' hne hpatient hq hr => ?_, fun hr => .inl (hself hr)⟩
  cases op' with
  | setLkW r =>
    have hmem : p' ∈ s.queue .record := by simpa [System.queued, device] using hq
    rcases hrecord p' r hne hmem (refused_setLkW.1 hr).2 with hin | ⟨hok, hwake⟩
    · exact .inl (refused_setLkW.2 ⟨(refused_setLkW.1 hr).1, hin⟩)
    · exact .inr ⟨.record, mem_singleton.2 rfl, .inr ⟨hok, .inl hwake⟩⟩
  | flock ofd o known =>
    rcases hflock ofd o ((refused_flock h).1 hr) with hin | hd
    · exact .inl ((refused_flock (h.attempt p op)).2 hin)
    · exact .inr ⟨.flock, mem_singleton.2 rfl, .inl hd⟩
  | setLk | close | exit | dropOfd => cases hpatient

section

variable (h : Sound inode s.resource)

include h

/-- A call that sets or removes a record lock. -/
theorem covers_setLock {r : Range} {rest : List (Task Queue Pid)}
    (hop : attempt inode s.resource p op = setLock inode s.resource p r rest)
    (hdev : ∀ t, Refused (device inode) t p op ↔ r.kind ≠ fUnlck ∧ InWay (t.record inode) p r)
    (hcareful : Downgrades inode s.resource p r → ∀ x ∈ s.queue .record, x = p) :
    Covers (device inode) s p op := by
  have hstate : (setLock inode s.resource p r rest).state.record =
      (trySetLock s.resource.record inode r.kind r.start r.stop p).2 := rfl
  refine covers_of_waiters hop (fun p' r' hne hmem hin => ?_) (fun ofd o hc => .inl hc)
    (fun hr => ?_) h
  · rw [hdev, hstate]
    rcases trySetLock_spec s.resource.record inode p r rfl with ⟨hun, -, heq⟩ | ⟨-, -, -, heq⟩ |
      ⟨hun, hno, -, heq⟩
    · grind [setLock]
    · rw [heq]
      exact .inl hin
    · rw [heq]
      refine .inl (hin.set h.proper hne hun fun hdown => ?_)
      exact hne (hcareful hdown p' hmem)
  · rw [hdev] at hr ⊢
    rw [hstate]
    rcases trySetLock_spec s.resource.record inode p r rfl with ⟨hun, -⟩ | ⟨-, -, -, heq⟩ |
      ⟨-, hno, -⟩
    · exact absurd hun hr.1
    · rw [heq]
      exact hr
    · exact absurd hr.2 hno

theorem covers_dropLocks (hop : attempt inode s.resource p op = dropLocks inode s.resource record)
    (hrec : record inode = (s.resource.record inode).filter fun l => l.owner ≠ p) :
    Covers (device inode) s p op := by
  have hok : ¬ Refused (device inode) s.resource p op := by
    show ¬ (attempt inode s.resource p op).refused = true
    rw [hop]
    exact Bool.false_ne_true
  refine covers_of_waiters hop (fun p' r' hne hmem hin => ?_) (fun ofd o hc => .inl hc)
    (fun hr => absurd hr hok) h
  unfold dropLocks
  by_cases hlen : (record inode).length = (s.resource.record inode).length
  · grind [length_filter_eq_length_iff, filter_eq_self]
  · simp_all

theorem covers_flock {ofd : ℕ} {a : Reply} (ha : attempt inode s.resource p op = a)
    (hcall : Called inode ofd s.resource.flock (a.drained, a.state.flock))
    (hrecord : a.state.record = s.resource.record)
    (hself : ∀ t, Sound inode t → (Refused (device inode) t p op ↔
      ∃ o, (∃ known, op = .flock ofd o known) ∧ Contended t.flock inode ofd o)) :
    Covers (device inode) s p op := by
  refine covers_of_waiters ha (fun p' r' _ _ hin => .inl ?_) (fun ofd' o hc => ?_) (fun hr => ?_) h
  · rw [hrecord]
    exact hin
  · exact (hcall.contended hc).imp id And.right
  · grind [h.attempt, hcall.contended]

/-- **A careful attempt is covered.** -/
theorem covers_of_careful {stop : Bool} (hc : s.control p = .running [] (.attempt op))
    (hcareful : Careful inode s (.run p stop)) : Covers (device inode) s p op := by
  cases op with
  | setLk r | setLkW r =>
    refine covers_setLock h rfl (fun t => refused_setLock (t := t) _ r) (hcareful r ?_)
    rw [hc]
    rfl
  | close => exact covers_dropLocks h rfl (dropOwnerInode_self s.resource.record p)
  | exit => exact covers_dropLocks h rfl rfl
  | flock ofd o known =>
    refine covers_flock h rfl (called_tryOp h p ofd o) rfl fun t ht => ?_
    rw [refused_flock ht]
    constructor
    · exact fun hcont => ⟨o, ⟨known, rfl⟩, hcont⟩
    · simp
  | dropOfd ofd =>
    refine covers_flock h rfl (called_dropOfd h p ofd) rfl fun t ht => ⟨fun hr => ?_, fun hr => ?_⟩
    · exact absurd hr Bool.false_ne_true
    · grind

end

/-- The calls leave tasks that wake whole queues. -/
theorem thorough_attempt (t : Tables) (p : Pid) (op : Op) :
    ∀ u ∈ (attempt inode t p op).tasks, u.Thorough := by
  have hset (r : Range) (rest : List (Task Queue Pid)) (hrest : ∀ u ∈ rest, u.Thorough) :
      ∀ u ∈ (setLock inode t p r rest).tasks, u.Thorough := by
    refine thorough_append ?_ hrest
    split_ifs
    · exact forall_mem_singleton.2 trivial
    · exact forall_mem_nil _
  have hdrop (record : Table) : ∀ u ∈ (dropLocks inode t record).tasks, u.Thorough := by
    unfold dropLocks
    split_ifs
    · exact forall_mem_nil _
    · exact forall_mem_singleton.2 trivial
  cases op with
  | setLk r => exact hset r [] (forall_mem_nil _)
  | setLkW r => exact hset r _ (forall_mem_singleton.2 trivial)
  | close | exit => exact hdrop _
  | flock ofd o known => exact forall_mem_singleton.2 trivial
  | dropOfd ofd => exact forall_mem_nil _

end Calls

/-! ### Runs -/

theorem sound_initial (inode : ℕ) : Sound inode initial.resource :=
  ⟨forall_mem_nil _, Flock.agrees_empty _, nofun⟩

theorem thorough_initial : Thorough initial := by
  intro p tasks next hp t ht
  cases hp
  cases ht

/-- A process that is refused has somebody in its way. -/
theorem blocked_of_refused {inode : ℕ} {t : Tables} {p : Pid} {op : Op} (h : Sound inode t)
    (hpatient : (device inode).patient op = true) (hr : Refused (device inode) t p op) :
    Blocked inode t p op := by
  cases op with
  | setLkW r => exact (refused_setLkW.1 hr).2
  | flock ofd o known => exact (refused_flock h).1 hr
  | setLk | close | exit | dropOfd => cases hpatient

/-- **No lock waiter is left behind** in careful runs. -/
theorem no_lock_waiter_left (inode : ℕ) {es : List (Event Op Pid)}
    (hes : Runs.Meets (System.step (device inode)) (Careful inode) es initial) :
    Runs.Always (System.step (device inode))
      (fun s => Quiet s → ∀ p op, s.control p = .parked op → Blocked inode s.resource p op)
      es initial := by
  have hrun := no_sleeper_left (K := fun s => Sound inode s.resource ∧ Thorough s)
    (fun s e s' hk hs =>
      ⟨resource_step_of (J := Sound inode) (fun _ p op h => h.attempt p op) hk.1 hs,
        hk.2.step thorough_attempt hs⟩)
    (fun s e hk hc => hk.2.covered fun p stop op he hp => covers_of_careful hk.1 hp (he ▸ hc))
    (fun _ => rfl) ⟨sound_initial inode, thorough_initial⟩ hes
  grind [hrun.mono, blocked_of_refused]

/-- The first ten bytes. -/
def ten (kind : ℕ) (known : kind = fRdlck ∨ kind = fWrlck ∨ kind = fUnlck) : Range :=
  ⟨kind, 0, 10, known, by decide⟩

/-- Process 1 sets a write lock and process 2 waits for a read lock. -/
def waiting : List (Event Op Pid) :=
  [.call 1 (.setLk (ten fWrlck (by decide))), .run 1 false,
    .call 2 (.setLkW (ten fRdlck (by decide))), .run 2 false, .run 2 false, .run 2 false]

/-- Process 1 gives its lock up, and process 2 gets it. -/
def handover : List (Event Op Pid) :=
  waiting ++ [.call 1 (.setLk (ten fUnlck (by decide))), .run 1 false, .run 1 false, .run 1 false,
    .run 2 false, .run 2 false, .run 2 false, .run 2 false, .run 2 false]

theorem no_lock_waiter_left_handover :
    Runs.Always (System.step (device 0))
      (fun s => Quiet s → ∀ p op, s.control p = .parked op → Blocked 0 s.resource p op)
      handover initial ∧ (Runs.exec (System.step (device 0)) handover initial).isSome = true :=
  ⟨no_lock_waiter_left 0 (by decide +kernel), by decide +kernel⟩

/-- **A write lock that becomes a read lock leaves a waiter behind.**  Process 2 sleeps, no process is
in a call, and nothing is in the way of the read lock that process 2 waits for. -/
theorem downgrade_leaves_waiter :
    ∃ es s, Runs.exec (System.step (device 0)) es initial = some s ∧ Quiet s ∧
      ∃ p op, s.control p = .parked op ∧ ¬ Blocked 0 s.resource p op := by
  refine ⟨waiting ++ [.call 1 (.setLk (ten fRdlck (by decide))), .run 1 false], _, rfl, fun p => ?_,
    2, .setLkW (ten fRdlck (by decide)), rfl, ?_⟩
  · rcases p with _ | _ | _ | p
    · exact .inr rfl
    · exact .inr rfl
    · exact .inl ⟨_, rfl⟩
    · exact .inr rfl
  · show ¬ InWay _ _ _
    decide +kernel

end CypheraKernel.LockWaiters
