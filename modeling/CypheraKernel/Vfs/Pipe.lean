import CypheraKernel.Lib.WaitQueues

/-!
# Pipes

`Pipe` of `kernel/src/vfs/pipe.rs`: a buffer of bytes with the numbers of its open ends and a
capacity.  Readers and writers that cannot go on wait in a queue each.

`pipe_is_queue`: **a pipe is a queue of bytes**.
-/

namespace CypheraKernel.Pipe

open List WaitQueues

def pipeCapacity : ℕ := 65536
def pipeMinCapacity : ℕ := 4096
def pipeMaxCapacity : ℕ := 1 <<< 20

/-- `PipeState`: the bytes, the numbers of open ends, and the capacity. -/
structure PipeState where
  buf : List UInt8
  (readers writers cap : ℕ)

def PipeState.new : PipeState := ⟨[], 0, 0, pipeCapacity⟩

/-- The result of `read_step`; `drained` has the bytes that are stored in the caller's buffer. -/
inductive ReadStep
  | drained (bytes : List UInt8)
  | eof
  | wouldPark
  deriving DecidableEq

/-- The result of `write_step`. -/
inductive WriteStep
  | wrote (n : ℕ)
  | brokenPipe
  | wouldPark
  deriving DecidableEq

/-- The number of bytes that the read returns; `none` if it waits. -/
def ReadStep.count : ReadStep → Option ℕ
  | .drained bytes => some bytes.length
  | .eof => some 0
  | .wouldPark => none

variable (s : PipeState)

def bumpOpen (readable writable : Bool) : PipeState :=
  { s with writers := s.writers + writable.toNat, readers := s.readers + readable.toNat }

/-- `drop_close`, with whether the readers and the writers are to be woken. -/
def dropClose (readable writable : Bool) : PipeState × Bool × Bool :=
  let s' := { s with writers := s.writers - writable.toNat, readers := s.readers - readable.toNat }
  (s', writable && s'.writers = 0, readable && s'.readers = 0)

def peekInner (n : ℕ) : List UInt8 := s.buf.take n

/-- `read_step` with a buffer of `n` bytes. -/
def readStep (n : ℕ) : ReadStep × PipeState :=
  if s.buf ≠ [] then
    (.drained (s.buf.take n), { s with buf := s.buf.drop n })
  else if s.writers = 0 then (.eof, s)
  else (.wouldPark, s)

def writeStep (buf : List UInt8) : WriteStep × PipeState :=
  if s.readers = 0 then (.brokenPipe, s)
  else
    let room := s.cap - s.buf.length
    if room > 0 then
      let n := min buf.length room
      (.wrote n, { s with buf := s.buf ++ buf.take n })
    else (.wouldPark, s)

/-- `set_capacity`; `none` if the bytes that are there do not fit. -/
def setCapacity (want : ℕ) : Option ℕ × PipeState :=
  let want := min (max want pipeMinCapacity) pipeMaxCapacity
  let rounded := (want + pipeMinCapacity - 1) / pipeMinCapacity * pipeMinCapacity
  if rounded < s.buf.length then (none, s)
  else (some rounded, { s with cap := rounded })

/-! ### The calls -/

/-- The two wait queues of a pipe. -/
inductive Queue
  | readers
  | writers
  deriving DecidableEq

/-- The calls on a pipe. -/
inductive Op
  | read (n : ℕ) (nonblock : Bool)
  | write (buf : List UInt8) (nonblock : Bool)
  | peek (n : ℕ)
  | setCapacity (want : ℕ)
  | open_ (readable writable : Bool)
  | close (readable writable : Bool)

/-- A read that goes on leaves its queue and, if it got bytes, wakes a writer; a write wakes a
reader before it leaves its queue. -/
def attempt {ι : Type} (s : PipeState) : Op → Answer PipeState Queue ι
  | .read n _ =>
    let r := readStep s n
    { state := r.2
      drained := []
      refused := r.1 = .wouldPark
      tasks := .dequeue .readers :: if r.1 = .eof then [] else [.wakeOne .writers] }
  | .write buf _ =>
    let r := writeStep s buf
    { state := r.2
      drained := []
      refused := r.1 = .wouldPark
      tasks := (if r.1 = .brokenPipe then [] else [.wakeOne .readers]) ++ [.dequeue .writers] }
  | .peek _ => ⟨s, [], false, []⟩
  | .setCapacity want => ⟨(setCapacity s want).2, [], false, []⟩
  | .open_ readable writable => ⟨bumpOpen s readable writable, [], false, []⟩
  | .close readable writable =>
    let r := dropClose s readable writable
    ⟨r.1, [], false, (if r.2.1 then [.wakeAll .readers] else []) ++
      if r.2.2 then [.wakeAll .writers] else []⟩

def device {ι : Type} : Device PipeState Op Queue ι where
  queues
    | .read .. => [.readers]
    | .write .. => [.writers]
    | _ => []
  patient
    | .read _ nonblock | .write _ nonblock => !nonblock
    | _ => false
  attempt s _ op := attempt s op

/-! ### The history -/

/-- The bytes that a call has put in, by its result. -/
def accepted : Op × PipeState → List UInt8
  | (.write buf _, s) =>
    match (writeStep s buf).1 with
    | .wrote n => buf.take n
    | _ => []
  | _ => []

/-- The bytes that a call has returned to its reader. -/
def returned : Op × PipeState → List UInt8
  | (.read n _, s) =>
    match (readStep s n).1 with
    | .drained bytes => bytes
    | _ => []
  | _ => []

/-- The capacity that a call has set. -/
def newCapacity : Op × PipeState → Option ℕ
  | (.setCapacity want, s) => (setCapacity s want).1
  | _ => none

/-- The largest capacity so far. -/
def largest (log : List (Op × PipeState)) : ℕ := (log.filterMap newCapacity).foldl max pipeCapacity

theorem largest_concat (log : List (Op × PipeState)) (x : Op × PipeState) :
    largest (log ++ [x]) = (newCapacity x).elim (largest log) (max (largest log)) := by
  unfold largest
  rw [filterMap_append, foldl_append]
  cases hx : newCapacity x <;> simp [hx]

/-! ### The queue of bytes -/

variable (log : List (Op × PipeState))

/-- The bytes that were accepted have been returned or are in the buffer, in their order. -/
structure IsQueue : Prop where
  bytes : log.flatMap accepted = log.flatMap returned ++ s.buf
  fits : s.buf.length ≤ s.cap
  largest : s.cap ≤ largest log

/-- What readers and writers see of it. -/
structure Behaves : Prop where
  returned : log.flatMap returned <+: log.flatMap accepted
  difference : (log.flatMap accepted).drop (log.flatMap Pipe.returned).length = s.buf
  bounded : s.buf.length ≤ largest log
  peeks : ∀ n, peekInner s n <+: s.buf
  capacity : ∀ want, (setCapacity s want).2.buf = s.buf
  eof : ∀ n > 0, (readStep s n).1.count = some 0 → s.buf = [] ∧ s.writers = 0

variable {s log}

theorem IsQueue.behaves (h : IsQueue s log) : Behaves s log where
  returned := h.bytes ▸ prefix_append ..
  difference := by rw [h.bytes, drop_left]
  bounded := Nat.le_trans h.fits h.largest
  peeks n := take_prefix n _
  capacity want := by
    unfold setCapacity
    dsimp only
    split_ifs <;> rfl
  eof n hn hcount := by
    unfold readStep at hcount
    split_ifs at hcount with hbuf hwriters
    · have := length_pos_of_ne_nil hbuf
      simp only [ReadStep.count, Option.some.injEq, length_take] at hcount
      omega
    · exact ⟨not_not.1 hbuf, hwriters⟩
    · cases hcount

section

variable (h : IsQueue s log)

include h

/-- A call that leaves the bytes and the capacity alone. -/
theorem IsQueue.idle {op : Op} {s' : PipeState} (hin : accepted (op, s) = [])
    (hout : returned (op, s) = []) (hcap : newCapacity (op, s) = none) (hbuf : s'.buf = s.buf)
    (hsame : s'.cap = s.cap) : IsQueue s' (log ++ [(op, s)]) where
  bytes := by simpa [hin, hout, hbuf] using h.bytes
  fits := by simpa [hbuf, hsame] using h.fits
  largest := by simpa [largest_concat, hcap, hsame] using h.largest

theorem IsQueue.readStep (n : ℕ) (nonblock : Bool) :
    IsQueue (readStep s n).2 (log ++ [(.read n nonblock, s)]) := by
  by_cases hbuf : s.buf = []
  · have hstay : (Pipe.readStep s n).2 = s := by
      unfold Pipe.readStep
      split_ifs <;> first | rfl | contradiction
    rw [hstay]
    refine h.idle rfl ?_ rfl rfl rfl
    unfold returned Pipe.readStep
    dsimp only
    split_ifs <;> first | rfl | contradiction
  · have hread : Pipe.readStep s n = (.drained (s.buf.take n), { s with buf := s.buf.drop n }) :=
      if_pos hbuf
    rw [hread]
    refine ⟨?_, Nat.le_trans (drop_sublist ..).length_le h.fits, ?_⟩
    · simp [accepted, returned, hread, h.bytes]
    · simpa [largest_concat, newCapacity] using h.largest

theorem IsQueue.writeStep (buf : List UInt8) (nonblock : Bool) :
    IsQueue (writeStep s buf).2 (log ++ [(.write buf nonblock, s)]) := by
  by_cases hgo : s.readers = 0 ∨ s.cap ≤ s.buf.length
  · have hstay : (Pipe.writeStep s buf).2 = s ∧ accepted (.write buf nonblock, s) = [] := by
      unfold accepted Pipe.writeStep
      dsimp only
      split_ifs <;> first | exact ⟨rfl, rfl⟩ | omega
    rw [hstay.1]
    exact h.idle hstay.2 rfl rfl rfl rfl
  · obtain ⟨hreaders, hroom⟩ := not_or.1 hgo
    have hwrite : Pipe.writeStep s buf = (.wrote (min buf.length (s.cap - s.buf.length)),
        { s with buf := s.buf ++ buf.take (min buf.length (s.cap - s.buf.length)) }) := by
      rw [Pipe.writeStep, if_neg hreaders, if_pos (by omega)]
    rw [hwrite]
    refine ⟨?_, ?_, ?_⟩
    · simp [accepted, returned, hwrite, h.bytes]
    · simp only [length_append, length_take]
      omega
    · simpa [largest_concat, newCapacity] using h.largest

theorem IsQueue.setCapacity (want : ℕ) :
    IsQueue (setCapacity s want).2 (log ++ [(.setCapacity want, s)]) := by
  by_cases hroom : (Pipe.setCapacity s want).1 = none
  · have hstay : (Pipe.setCapacity s want).2 = s := by
      unfold Pipe.setCapacity at hroom ⊢
      dsimp only at hroom ⊢
      split_ifs at hroom ⊢
      rfl
    rw [hstay]
    exact h.idle rfl rfl hroom rfl rfl
  · obtain ⟨rounded, hset, hle⟩ : ∃ rounded, Pipe.setCapacity s want =
        (some rounded, { s with cap := rounded }) ∧ s.buf.length ≤ rounded := by
      unfold Pipe.setCapacity at hroom ⊢
      dsimp only at hroom ⊢
      split_ifs at hroom ⊢ with hlt
      · contradiction
      · exact ⟨_, rfl, Nat.le_of_not_lt hlt⟩
    rw [hset]
    refine ⟨by simpa [accepted, returned] using h.bytes, hle, ?_⟩
    simp [largest_concat, newCapacity, hset, Nat.le_max_right]

end

/-- **Pipes.**  In every interleaving of the sections the bytes that reads have returned are a prefix
of the bytes that writes have accepted and the rest is in the buffer, within the largest capacity so
far; a change of the capacity drops nothing; and a read returns no bytes only if there are none and
no writer is left. -/
theorem pipe_is_queue {ι : Type} [DecidableEq ι] (es : List (Event Op ι)) :
    Runs.Always (Runs.logged (System.step device) System.attempted)
      (fun x => Behaves x.2.resource x.1) es
      ([], ⟨.new, fun _ => [], fun _ => .running [] .leave⟩) := by
  refine (always_logged (J := fun log s => IsQueue s log) (fun log s p op h => ?_)
    ⟨rfl, Nat.zero_le _, Nat.le_refl _⟩).mono fun x h => h.behaves
  cases op with
  | read n nonblock => exact h.readStep n nonblock
  | write buf nonblock => exact h.writeStep buf nonblock
  | peek n => exact h.idle rfl rfl rfl rfl rfl
  | setCapacity want => exact h.setCapacity want
  | open_ readable writable => exact h.idle rfl rfl rfl rfl rfl
  | close readable writable => exact h.idle rfl rfl rfl rfl rfl

end CypheraKernel.Pipe
