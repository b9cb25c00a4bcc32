import CypheraKernel.Lib.Runs
import Mathlib.Tactic

/-!
# Unix sockets

`kernel/src/net/unix.rs`: each end of a connected pair has an inbox, a ring into which the other end
writes.  The data of a stream before a shutdown of its writer:

* `data_arrives`: the bytes that reads return are the first that writes have accepted, and none is
  missing at the end of the file;
* `fifo`, `framed_ring_is_fifo`: the ring of a seqpacket socket is a queue of whole messages.
-/

namespace CypheraKernel.Unix

/-- The process, user and group of a writer. -/
structure Ucred where
  (pid uid gid : ℕ)
  deriving DecidableEq, Repr

/-- `UNIX_CAPACITY`. -/
def unixCapacity : ℕ := 64 * 1024

/-- The ring: its bytes, the numbers of its open ends and of the bytes written and read so far, and
the bounds of its messages.  A list of passed descriptors stands in `fds` with the position at which
its message begins.  The source adds up `written` and `read` in `usize` and panics at `2 ^ 64` bytes,
which no run comes to. -/
structure Ring where
  buf : List UInt8
  (readers writers written read : ℕ)
  fds : List (ℕ × List ℕ)
  bounds : List ℕ
  writerCreds : Option Ucred
  deriving DecidableEq, Repr

namespace Ring

/-- The ring of a new pair whose two ends are open. -/
def new : Ring := ⟨[], 1, 1, 0, 0, [], [], none⟩

/-- `Ring::read_into`: the bytes taken, a whole message if the ring is `framed`. -/
def readInto (r : Ring) (framed : Bool) (len : ℕ) : List UInt8 × Ring :=
  if framed then
    match r.bounds with
    | [] => ([], r)
    | msgLen :: bounds =>
      ((List.range (min msgLen len)).map (r.buf.getD · 0),
        { r with buf := r.buf.drop msgLen, bounds := bounds, read := r.read + msgLen })
  else
    let bytes := r.buf.take len
    (bytes, { r with buf := r.buf.drop len, read := r.read + bytes.length })

def writeFrom (r : Ring) (framed : Bool) (creds : Ucred) (data : List UInt8) : Option (ℕ × Ring) :=
  let room := unixCapacity - r.buf.length
  if framed then
    if room < data.length then none
    else some (data.length, { r with
      buf := r.buf ++ data
      bounds := r.bounds ++ [data.length]
      written := r.written + data.length
      writerCreds := some creds })
  else if room = 0 then none
  else
    let n := min data.length room
    some (n, { r with
      buf := r.buf ++ data.take n
      written := r.written + n
      writerCreds := some creds })

def hasUnit (r : Ring) (framed : Bool) : Bool := if framed then r.bounds ≠ [] else r.buf ≠ []

end Ring

/-! ### The sections of the calls -/

/-- The inbox of one end of a stream pair.  `checked` writes have found it open and come to its ring
next; `accepted` and `returned` are the bytes of all writes and reads, `due` the number of those
that were accepted before the writing end was last shut down or closed, and `deaf` tells whether the
reading end was shut down for reading. -/
structure Inbox where
  ring : Ring
  rdClosed : Bool
  checked : ℕ
  (accepted returned : List UInt8)
  due : Option ℕ
  deaf : Bool
  deriving DecidableEq, Repr

inductive Action
  | check
  | write (creds : Ucred) (data : List UInt8)
  | read (len : ℕ)
  | shutRead
  | shutWrite
  | openRead
  | openWrite
  | closeRead
  | closeWrite

namespace Inbox

def new : Inbox := ⟨.new, false, 0, [], [], none, false⟩

/-- The locked section of a write; a write that finds no room begins anew. -/
def write (b : Inbox) (creds : Ucred) (data : List UInt8) : Inbox :=
  let b := { b with checked := b.checked - 1 }
  if b.ring.readers = 0 then b
  else
    match b.ring.writeFrom false creds data with
    | none => b
    | some (n, ring) => { b with ring := ring, accepted := b.accepted ++ data.take n }

/-- The locked section of a read, which may have found the inbox open before. -/
def read (b : Inbox) (len : ℕ) : Inbox :=
  if b.ring.hasUnit false then
    let (bytes, ring) := b.ring.readInto false len
    let fds := ring.fds.dropWhile (·.1 < ring.read)
    { b with ring := { ring with fds := fds }, returned := b.returned ++ bytes }
  else b

/-- One section of a call on the inbox; `none` if it cannot take place. -/
def act (b : Inbox) : Action → Option Inbox
  | .check => if b.rdClosed then some b else some { b with checked := b.checked + 1 }
  | .write creds data => if b.checked = 0 then none else some (b.write creds data)
  | .read len => some (b.read len)
  | .shutRead => some { b with rdClosed := true, deaf := true }
  | .shutWrite => some { b with rdClosed := true, due := some b.accepted.length }
  | .openRead => some { b with ring.readers := b.ring.readers + 1 }
  | .openWrite => some { b with ring.writers := b.ring.writers + 1 }
  | .closeRead => some { b with ring.readers := b.ring.readers - 1 }
  | .closeWrite =>
    let writers := b.ring.writers - 1
    some { b with
      ring.writers := writers
      due := if writers = 0 then some b.accepted.length else b.due }

/-- A read with room for a byte returns none: the inbox is closed, or there is no byte and no
writer. -/
def AtEnd (b : Inbox) : Prop :=
  b.rdClosed = true ∨ b.ring.hasUnit false = false ∧ b.ring.writers = 0

/-- What reads return comes first in what writes have accepted, and the end of the file comes after
all bytes that the writing end has sent before its end. -/
def Arrives (b : Inbox) : Prop :=
  b.returned <+: b.accepted ∧
    (b.AtEnd → b.deaf = false → ∃ n, b.due = some n ∧ n ≤ b.returned.length)

end Inbox

/-- A section of a call on one of the two inboxes; the end `e` reads from the inbox `e`. -/
def step (s : Bool → Inbox) (a : Bool × Action) : Option (Bool → Inbox) :=
  ((s a.1).act a.2).map (Function.update s a.1)

/-- `shutdown_dirs`. -/
def shutdownDirs (e : Bool) (how : ℕ) : List (Bool × Action) :=
  (if how = 0 ∨ how = 2 then [(e, .shutRead)] else []) ++
    if how = 1 ∨ how = 2 then [(!e, .shutWrite)] else []

/-- An end is shut down for writing only when the other one has read everything, and no write is
under way. -/
def Drained (s : Bool → Inbox) (a : Bool × Action) : Prop :=
  match a.2 with
  | .shutWrite => (s a.1).ring.buf = [] ∧ (s a.1).checked = 0
  | _ => True

instance (s : Bool → Inbox) (a : Bool × Action) : Decidable (Drained s a) := by
  unfold Drained
  split <;> infer_instance

/-! ### Data arrives -/

namespace Inbox

/-- No byte is lost, and a closed inbox is an empty one. -/
structure Inv (b : Inbox) : Prop where
  bytes : b.accepted = b.returned ++ b.ring.buf
  closed : b.rdClosed = true → b.deaf = false → b.ring.buf = [] ∧ b.checked = 0 ∧ b.due ≠ none
  left : b.ring.writers = 0 → b.due ≠ none
  due : ∀ n ∈ b.due, n ≤ b.accepted.length

variable {b b' : Inbox}

theorem Inv.arrives (h : b.Inv) : b.Arrives := by
  refine ⟨⟨b.ring.buf, h.bytes.symm⟩, fun hend hdeaf => ?_⟩
  obtain ⟨hbuf, hdue⟩ : b.ring.buf = [] ∧ b.due ≠ none := by
    rcases hend with hclosed | ⟨hunit, hwriters⟩
    · obtain ⟨hbuf, -, hdue⟩ := h.closed hclosed hdeaf
      exact ⟨hbuf, hdue⟩
    · exact ⟨by simpa [Ring.hasUnit] using hunit, h.left hwriters⟩
  obtain ⟨n, hn⟩ := Option.ne_none_iff_exists'.1 hdue
  refine ⟨n, hn, (h.due n hn).trans ?_⟩
  rw [h.bytes, hbuf, List.append_nil]

theorem Inv.write (h : b.Inv) (hchecked : b.checked ≠ 0) (creds : Ucred) (data : List UInt8) :
    (b.write creds data).Inv := by
  -- a write that has passed its check keeps the inbox from being closed
  have hopen : b.rdClosed = true → b.deaf = false → False := fun hclosed hdeaf =>
    hchecked (h.closed hclosed hdeaf).2.1
  have hskip : ({ b with checked := b.checked - 1 } : Inbox).Inv :=
    ⟨h.bytes, fun hclosed hdeaf => (hopen hclosed hdeaf).elim, h.left, h.due⟩
  unfold Inbox.write Ring.writeFrom
  by_cases hreaders : b.ring.readers = 0
  · rwa [if_pos hreaders]
  rw [if_neg hreaders, if_neg Bool.false_ne_true]
  by_cases hroom : unixCapacity - b.ring.buf.length = 0
  · rwa [if_pos hroom]
  rw [if_neg hroom]
  dsimp only
  refine ⟨?_, fun hclosed hdeaf => (hopen hclosed hdeaf).elim, h.left, fun n hn => ?_⟩
  · rw [h.bytes, List.append_assoc]
  · rw [List.length_append]
    exact (h.due n hn).trans (Nat.le_add_right _ _)

theorem Inv.read (h : b.Inv) (len : ℕ) : (b.read len).Inv := by
  unfold Inbox.read Ring.readInto
  by_cases hunit : b.ring.hasUnit false = true
  · rw [if_pos hunit, if_neg Bool.false_ne_true]
    refine ⟨?_, fun hclosed hdeaf => ?_, h.left, h.due⟩
    · simp [h.bytes]
    · have hclosed := h.closed hclosed hdeaf
      exact ⟨by simp [hclosed.1], hclosed.2⟩
  · rwa [if_neg hunit]

theorem Inv.act {a : Action} (h : b.Inv)
    (hdrained : a = .shutWrite → b.ring.buf = [] ∧ b.checked = 0) (hb : b.act a = some b') :
    b'.Inv := by
  cases a with
  | check =>
    rw [Inbox.act] at hb
    split_ifs at hb with hclosed
    · cases hb
      exact h
    · cases hb
      exact ⟨h.bytes, fun hclosed' => absurd hclosed' hclosed, h.left, h.due⟩
  | write creds data =>
    rw [Inbox.act] at hb
    split_ifs at hb with hchecked
    cases hb
    exact h.write hchecked creds data
  | read len =>
    cases hb
    exact h.read len
  | shutRead =>
    cases hb
    exact ⟨h.bytes, nofun, h.left, h.due⟩
  | shutWrite =>
    cases hb
    obtain ⟨hbuf, hchecked⟩ := hdrained rfl
    exact ⟨h.bytes, fun _ _ => ⟨hbuf, hchecked, nofun⟩, nofun, by simp⟩
  | openRead | closeRead =>
    cases hb
    exact ⟨h.bytes, h.closed, h.left, h.due⟩
  | openWrite =>
    cases hb
    exact ⟨h.bytes, h.closed, nofun, h.due⟩
  | closeWrite =>
    cases hb
    refine ⟨h.bytes, fun hclosed hdeaf => ?_, fun hwriters => ?_, fun n hn => ?_⟩
    · obtain ⟨hbuf, hchecked, hdue⟩ := h.closed hclosed hdeaf
      refine ⟨hbuf, hchecked, ?_⟩
      split_ifs
      exacts [nofun, hdue]
    · rw [if_pos hwriters]
      nofun
    · split_ifs at hn
      · cases hn
        exact le_rfl
      · exact h.due n hn

end Inbox

/-- **Data arrives.**  In every run of sections on the two inboxes of a stream pair in which an end
is shut down for writing only when its data has been read. -/
theorem data_arrives (actions : List (Bool × Action))
    (h : Runs.Meets step Drained actions fun _ => .new) :
    Runs.Always step (fun s => ∀ e, (s e).Arrives) actions fun _ => .new := by
  refine Runs.always_of_invariant (I := fun s => ∀ e, (s e).Inv) ?_ (fun s hs e => (hs e).arrives)
    (fun _ => ⟨rfl, nofun, nofun, nofun⟩) h
  rintro s ⟨e, a⟩ s' hs hdrained hstep
  obtain ⟨b, hb, rfl⟩ := Option.map_eq_some_iff.1 hstep
  have hinv : b.Inv := by
    refine (hs e).act (fun ha => ?_) hb
    subst ha
    exact hdrained
  intro e'
  rcases eq_or_ne e' e with rfl | hne
  · rwa [Function.update_self]
  · rw [Function.update_of_ne hne]
    exact hs e'

/-- A byte is written and read before the writer is shut down. -/
theorem data_arrives_drained :
    Runs.Always step (fun s => ∀ e, (s e).Arrives)
      ([(true, .check), (true, .write ⟨1, 0, 0⟩ [7]), (true, .read 16)] ++ shutdownDirs false 1)
      fun _ => .new := by
  exact data_arrives _ (by decide)

/-- A byte is written, and the writer shut down: the reader finds the end of the file. -/
theorem data_lost : ¬ Runs.Always step (fun s => ∀ e, (s e).Arrives)
    ([(true, .check), (true, .write ⟨1, 0, 0⟩ [7])] ++ shutdownDirs false 1) fun _ => .new := by
  intro h
  obtain ⟨n, hdue, hle⟩ := (h.exec rfl true).2 (.inl rfl) rfl
  cases hdue
  cases hle

/-! ### Messages keep their bounds -/

/-- A call on the ring of a seqpacket socket. -/
inductive Call
  | writeFrom (creds : Ucred) (data : List UInt8)
  | readInto (len : ℕ)

/-- A call on a framed ring: a write returns a count or blocks, a read returns bytes. -/
def Ring.call : Call → StateM Ring (Option ℕ ⊕ List UInt8)
  | .writeFrom creds data => fun r =>
    match r.writeFrom true creds data with
    | none => (.inl none, r)
    | some (n, r) => (.inl (some n), r)
  | .readInto len => fun r => Prod.map .inr id (r.readInto true len)

/-- The same call on a queue of whole messages. -/
def fifo : Call → StateM (List (List UInt8)) (Option ℕ ⊕ List UInt8)
  | .writeFrom _ data => fun q =>
    if (q ++ [data]).flatten.length ≤ unixCapacity then (.inl (some data.length), q ++ [data])
    else (.inl none, q)
  | .readInto len => fun q => (.inr ((q.headD []).take len), q.tail)

/-- The ring holds the messages of the queue. -/
structure Ring.Holds (r : Ring) (q : List (List UInt8)) : Prop where
  buf : r.buf = q.flatten
  bounds : r.bounds = q.map List.length
  sum : r.bounds.sum = r.buf.length
  fits : r.buf.length ≤ unixCapacity
  written : r.written = r.read + r.bounds.sum

theorem Ring.holds_iff {r : Ring} {q : List (List UInt8)} : r.Holds q ↔
    r.buf = q.flatten ∧ r.bounds = q.map List.length ∧ q.flatten.length ≤ unixCapacity ∧
      r.written = r.read + q.flatten.length := by
  constructor
  · rintro ⟨hbuf, hbounds, hsum, hfits, hwritten⟩
    rw [hsum, hbuf] at hwritten
    exact ⟨hbuf, hbounds, hbuf ▸ hfits, hwritten⟩
  · rintro ⟨hbuf, hbounds, hfits, hwritten⟩
    have hsum : r.bounds.sum = r.buf.length := by rw [hbounds, hbuf, List.length_flatten]
    exact ⟨hbuf, hbounds, hsum, hbuf ▸ hfits, by rw [hwritten, hsum, hbuf]⟩

theorem Ring.Holds.call {r : Ring} {q : List (List UInt8)} (h : r.Holds q) (c : Call) :
    (Ring.call c r).1 = (fifo c q).1 ∧ (Ring.call c r).2.Holds (fifo c q).2 := by
  obtain ⟨hbuf, hbounds, hfits, hwritten⟩ := holds_iff.1 h
  cases c with
  | writeFrom creds data =>
    have hlength : (q ++ [data]).flatten.length = q.flatten.length + data.length := by simp
    simp only [Ring.call, fifo, Ring.writeFrom, hbuf, hlength, if_true]
    by_cases hroom : unixCapacity - q.flatten.length < data.length
    · rw [if_pos hroom, if_neg (by omega)]
      exact ⟨rfl, h⟩
    rw [if_neg hroom, if_pos (by omega)]
    refine ⟨rfl, holds_iff.2 ⟨by simp, by simp [hbounds], ?_, ?_⟩⟩
    · rw [hlength]
      omega
    · rw [hlength, hwritten, Nat.add_assoc]
  | readInto len =>
    simp only [Ring.call, fifo, Ring.readInto, if_true, hbounds]
    cases q with
    | nil => exact ⟨by simp, h⟩
    | cons msg q =>
      -- the bytes that a read takes are those of the first message
      have hbytes : (List.range (min msg.length len)).map (r.buf.getD · 0) = msg.take len := by
        refine List.ext_getElem (by simp [min_comm]) fun i hi _ => ?_
        have hi : i < msg.length := by simp_all
        simp [hbuf, List.getElem?_append_left hi, hi]
      rw [List.flatten_cons, List.length_append] at hfits hwritten
      refine ⟨congrArg Sum.inr hbytes, holds_iff.2 ⟨?_, rfl, ?_, ?_⟩⟩
      · simp [hbuf]
      · exact (Nat.le_add_left _ _).trans hfits
      · simp [hwritten, Nat.add_assoc]

/-- **Seqpacket rings keep message boundaries.**  After every list of calls a framed ring has returned
what the queue of messages returns, and it holds the messages of the queue. -/
theorem framed_ring_is_fifo (calls : List Call) :
    (calls.mapM Ring.call Ring.new).1 = (calls.mapM fifo []).1 ∧
      (calls.mapM Ring.call Ring.new).2.Holds (calls.mapM fifo []).2 := by
  suffices ∀ r q, r.Holds q → (calls.mapM Ring.call r).1 = (calls.mapM fifo q).1 ∧
      (calls.mapM Ring.call r).2.Holds (calls.mapM fifo q).2 from
    this _ _ ⟨rfl, rfl, rfl, by decide, rfl⟩
  induction calls with
  | nil => exact fun r q h => ⟨rfl, h⟩
  | cons c calls ih =>
    intro r q h
    obtain ⟨hret, hnext⟩ := h.call c
    obtain ⟨hrets, hend⟩ := ih _ _ hnext
    rw [List.mapM_cons, List.mapM_cons]
    exact ⟨congrArg₂ List.cons hret hrets, hend⟩

end CypheraKernel.Unix
