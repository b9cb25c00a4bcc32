import CypheraKernel.Errno

/-!
# The queue of inotify events

`InotifyInode` of `kernel/src/fsnotify.rs`.  An event like the last one of the queue is dropped; for
events without room there is one overflow record.

`inotify_exact`: **no event is lost silently**.
-/

namespace CypheraKernel.Inotify

open List

def maxQueuedEvents : ℕ := 16384

def inQOverflow : UInt32 := 0x4000

/-- An event that waits to be read. -/
structure QueuedEvent where
  wd : Int32
  (mask cookie : UInt32)
  name : Option (List UInt8)
  deriving DecidableEq

/-- `packed_len`: a header of 16 bytes, and the name with a zero byte in whole such units. -/
def QueuedEvent.packedLen (ev : QueuedEvent) : ℕ :=
  16 + ev.name.elim 0 fun n => (n.length + 1 + 15) / 16 * 16

variable (q : List QueuedEvent)

/-- The last record says that events were lost. -/
def overflowed : Bool :=
  q.getLast?.any fun b => b.wd = -1 && b.mask = inQOverflow

def queue (ev : QueuedEvent) : List QueuedEvent :=
  if q.getLast? = some ev then q
  else if q.length ≥ maxQueuedEvents then
    if overflowed q = false then q ++ [⟨-1, inQOverflow, 0, none⟩] else q
  else q ++ [ev]

/-- The events that fit into a buffer of `len` bytes after those written, and the others. -/
def fill (len written : ℕ) : List QueuedEvent → List QueuedEvent × List QueuedEvent
  | [] => ([], [])
  | ev :: q =>
    if written + ev.packedLen > len then ([], ev :: q)
    else
      let (out, q) := fill len (written + ev.packedLen) q
      (ev :: out, q)

/-- One turn of `read_at_with_flags`; `idle` is the error of a call that waits no longer. -/
def read (len : ℕ) (idle : Errno) : Except Errno (List QueuedEvent) × List QueuedEvent :=
  match q with
  | [] => (.error idle, q)
  | front :: _ =>
    if front.packedLen > len then (.error .inval, q)
    else
      let (out, q) := fill len 0 q
      (.ok out, q)

/-- The queue, all events so far, and all records that reads have returned. -/
structure Inode where
  (events queued returned : List QueuedEvent)

inductive Call
  | queue (ev : QueuedEvent)
  | read (len : ℕ) (idle : Errno)

def step (s : Inode) : Call → Inode
  | .queue ev => { s with events := queue s.events ev, queued := s.queued ++ [ev] }
  | .read len idle =>
    let (r, q) := read s.events len idle
    { s with events := q, returned := s.returned ++ r.toOption.getD [] }

def run (calls : List Call) : Inode := calls.foldl step ⟨[], [], []⟩

/-- The records stand for the events: each event has a record in its place, is like the event before
it, or is lost.  With the first lost event comes an overflow record, and the other ones follow before
the next record. -/
inductive Stands : List QueuedEvent → List QueuedEvent → Prop
  | nil : Stands [] []
  | kept {es rs} (e) : Stands es rs → Stands (es ++ [e]) (rs ++ [e])
  | again {es rs e} : Stands es rs → es.getLast? = some e → Stands (es ++ [e]) rs
  | overflow {es rs} (e r) : Stands es rs → overflowed [r] = true → Stands (es ++ [e]) (rs ++ [r])
  | lost {es rs} (e) : Stands es rs → overflowed rs = true → Stands (es ++ [e]) rs

/-- The invariant of the queue. -/
structure Inv (s : Inode) : Prop where
  stands : Stands s.queued (s.returned ++ s.events)
  length : s.events.length ≤ maxQueuedEvents + 1
  last : overflowed s.events = true ∨ s.events.length ≤ maxQueuedEvents ∧
    ∀ e ∈ s.events.getLast?, s.queued.getLast? = some e

theorem fill_append (len written : ℕ) (q : List QueuedEvent) :
    (fill len written q).1 ++ (fill len written q).2 = q := by
  induction q generalizing written with
  | nil => rfl
  | cons ev q ih =>
    rw [fill]
    split_ifs
    · rfl
    · exact congrArg (ev :: ·) (ih _)

theorem read_append (len : ℕ) (idle : Errno) :
    (read q len idle).1.toOption.getD [] ++ (read q len idle).2 = q := by
  unfold read
  split
  · rfl
  · split_ifs
    · rfl
    · exact fill_append len 0 _

theorem overflowed_append {q : List QueuedEvent} (p : List QueuedEvent) (h : q ≠ []) :
    overflowed (p ++ q) = overflowed q := by
  rw [overflowed, getLast?_append_of_ne_nil p h, overflowed]

theorem Inv.read {s : Inode} (h : Inv s) (len : ℕ) (idle : Errno) :
    Inv (step s (.read len idle)) := by
  obtain ⟨hstands, hlen, hlast⟩ := h
  have happ := read_append s.events len idle
  simp only [step]
  generalize (Inotify.read s.events len idle).1.toOption.getD [] = out at happ ⊢
  generalize (Inotify.read s.events len idle).2 = q at happ ⊢
  rw [← happ] at hstands hlen hlast
  rw [length_append] at hlen hlast
  refine ⟨by simpa using hstands, by dsimp only; omega, ?_⟩
  by_cases hq : q = []
  · exact .inr (by simp [hq])
  · rw [getLast?_append_of_ne_nil _ hq, overflowed_append _ hq] at hlast
    exact hlast.imp_right fun h => ⟨by dsimp only; omega, h.2⟩

theorem Inv.queue {s : Inode} (h : Inv s) (ev : QueuedEvent) : Inv (step s (.queue ev)) := by
  obtain ⟨hstands, hlen, hlast⟩ := h
  have hlost (h : overflowed s.events = true) :
      Stands (s.queued ++ [ev]) (s.returned ++ s.events) := by
    refine .lost ev hstands ((overflowed_append _ ?_).trans h)
    rintro hnil
    simp [hnil, overflowed] at h
  simp only [step, Inotify.queue]
  split_ifs with hsame hfull hnew
  · rcases hlast with hover | ⟨hle, hlast⟩
    · exact ⟨hlost hover, hlen, .inl hover⟩
    · exact ⟨.again hstands (hlast ev hsame), hlen, .inr ⟨hle, by simp [hsame]⟩⟩
  · obtain ⟨hle, -⟩ := hlast.resolve_left (by simp [hnew])
    have hover : overflowed (s.events ++ [⟨-1, inQOverflow, 0, none⟩]) = true := by
      simp [overflowed]
    refine ⟨?_, by simpa using hle, .inl hover⟩
    rw [← append_assoc]
    exact .overflow ev _ hstands (by simp [overflowed])
  · have hover : overflowed s.events = true := by simpa using hnew
    exact ⟨hlost hover, hlen, .inl hover⟩
  · refine ⟨?_, ?_, .inr ⟨?_, by simp⟩⟩
    · rw [← append_assoc]
      exact .kept ev hstands
    · simp; omega
    · simp; omega

theorem Inv.step {s : Inode} (h : Inv s) (c : Call) : Inv (step s c) := by
  cases c with
  | queue ev => exact h.queue ev
  | read len idle => exact h.read len idle

/-- **No silent loss.**  The records that reads have returned, followed by those in the queue, stand
for the events so far; the queue has room for one record more than it should have, the overflow
record; and a read that fails takes nothing. -/
theorem inotify_exact (calls : List Call) :
    Stands (run calls).queued ((run calls).returned ++ (run calls).events) ∧
      (run calls).events.length ≤ maxQueuedEvents + 1 ∧
      ∀ q len idle e, (read q len idle).1 = .error e → (read q len idle).2 = q := by
  have hinv : Inv (run calls) :=
    foldlRecOn calls step ⟨.nil, by simp, by simp⟩ fun _ h c _ => h.step c
  refine ⟨hinv.stands, hinv.length, fun q len idle e he => ?_⟩
  have happ := read_append q len idle
  rwa [he] at happ

end CypheraKernel.Inotify
