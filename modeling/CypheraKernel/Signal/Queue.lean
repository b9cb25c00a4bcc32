import CypheraKernel.Signal.Handler

/-!
# Pending signals

`SignalContext` of `kernel/src/process_model/context.rs`: the signals that wait for a thread.  A
signal is a bit of a mask, with one record of information; only a real-time signal that comes again
while it is pending gets a place in a queue.
-/

namespace CypheraKernel.Signal

open Bytes Function

/-! ### Bits of a mask -/

/-- `mask & (1u64 << s) != 0`. -/
def has (mask : UInt64) (s : Signo) : Bool := mask &&& bit s != 0

variable (s : Signo) {mask : UInt64} (a b : UInt64)

theorem toBitVec_bit : (bit s).toBitVec = BitVec.twoPow 64 s := by
  revert s
  decide

theorem has_eq_getLsbD (mask : UInt64) (s : Signo) : has mask s = mask.toBitVec.getLsbD s := by
  have hbit : (BitVec.twoPow 64 s.val).getLsbD s = true := by
    rw [BitVec.getLsbD_twoPow]
    simp
  have hzero : mask &&& bit s = 0 ↔ mask.toBitVec.getLsbD s = false := by
    rw [← UInt64.toBitVec_inj, UInt64.toBitVec_and, toBitVec_bit, BitVec.and_twoPow]
    split_ifs with h
    · refine iff_of_false (fun heq => ?_) (by simp [h])
      rw [heq] at hbit
      simp at hbit
    · exact iff_of_true rfl (by simpa using h)
  rw [has, Bool.eq_iff_iff, bne_iff_ne, ne_eq, hzero, Bool.not_eq_false]

@[simp] theorem has_and (s : Signo) : has (a &&& b) s = (has a s && has b s) := by
  simp [has_eq_getLsbD]

@[simp] theorem has_or (s : Signo) : has (a ||| b) s = (has a s || has b s) := by
  simp [has_eq_getLsbD]

@[simp] theorem has_not (a : UInt64) (s : Signo) : has (~~~a) s = !has a s := by
  simp [has_eq_getLsbD]

@[simp] theorem has_bit (t : Signo) : has (bit t) s = decide (s = t) := by
  rw [has_eq_getLsbD, toBitVec_bit, BitVec.getLsbD_twoPow]
  simp [Fin.ext_iff, eq_comm]

/-- `trailing_zeros`: the first signal of a mask; the empty mask has none. -/
@[irreducible] def lowest (mask : UInt64) : Option Signo := Fin.find? (has mask)

theorem lowest_eq_some_iff {s : Signo} :
    lowest mask = some s ↔ has mask s = true ∧ ∀ t < s, has mask t = false := by
  unfold lowest
  exact Fin.find?_eq_some_iff

theorem lowest_eq_none_iff : lowest mask = none ↔ ∀ s, has mask s = false := by
  unfold lowest
  exact Fin.find?_eq_none_iff

/-! ### Information -/

def siKernel : UInt32 := 0x80
def siTimer : UInt32 := 0 - 2
def auditArch : UInt32 := 0xC000003E

/-- `PendingSigInfo`; the signed field is given by its bits. -/
structure PendingSigInfo where
  (siCode pad : UInt32)
  (aux sival : UInt64)
  deriving DecidableEq, Repr

namespace PendingSigInfo

/-- `PendingSigInfo::default()`. -/
def zero : PendingSigInfo := ⟨0, 0, 0, 0⟩

def forKill (senderPid : UInt32) : PendingSigInfo := ⟨0, 0, senderPid.toUInt64, 0⟩

def forKernel : PendingSigInfo := ⟨siKernel, 0, 0, 0⟩

def forTkill (senderPid : UInt32) : PendingSigInfo := ⟨0 - 6, 0, senderPid.toUInt64, 0⟩

def forTimer (timerId overrun : UInt32) (sival : UInt64) : PendingSigInfo :=
  ⟨siTimer, overrun, timerId.toUInt64, sival⟩

def forQueue (siCode senderPid : UInt32) (sival : UInt64) : PendingSigInfo :=
  ⟨siCode, 0, senderPid.toUInt64, sival⟩

def forFault (faultAddr : UInt64) : PendingSigInfo := ⟨siKernel, 0, faultAddr, 0⟩

def forChild (childPid status code : UInt32) : PendingSigInfo :=
  ⟨code, 0, childPid.toUInt64 <<< 32 ||| status.toUInt64, 0⟩

/-- The bytes of `sifields` that `expand` sets. -/
def expandFields (p : PendingSigInfo) (signal : Signo) : List (ℕ × List UInt8) :=
  if signal = 17 then [(0, word32 (p.aux >>> 32).toUInt32), (8, word32 p.aux.toUInt32)]
  else if signal = 11 ∨ signal = 7 ∨ signal = 8 ∨ signal = 4 then [(0, word64 p.aux)]
  else if signal = 31 ∧ p.siCode = 1 then
    [(0, word64 p.aux), (8, word32 p.sival.toUInt32), (12, word32 auditArch)]
  else if p.siCode = siTimer then
    [(0, word32 p.aux.toUInt32), (4, word32 p.pad), (8, word64 p.sival)]
  else [(0, word32 p.aux.toUInt32), (8, word64 p.sival)]

def expand (p : PendingSigInfo) (signal : Signo) : SigInfo where
  siSigno := .ofNat signal
  siErrno := if signal = 31 ∧ p.siCode = 1 then p.pad else 0
  siCode := p.siCode
  pad0 := 0
  sifields := .ofFn fun i => writeAll zeros (p.expandFields signal) i

end PendingSigInfo

/-! ### The context -/

theorem setBlocked_setBlocked (mask : UInt64) : setBlocked (setBlocked mask) = setBlocked mask := by
  rw [setBlocked, setBlocked, UInt64.and_assoc, UInt64.and_self]

def sigcont : Signo := 18
def sigchld : Signo := 17

/-- `STOP_SIGNAL_MASK`. -/
def stopSignalMask : UInt64 := bit 19 ||| bit 20 ||| bit 21 ||| bit 22

/-- `is_rt_signal`. -/
def isRtSignal (s : Signo) : Bool := 32 ≤ s.val

/-- The part of `SignalContext` that does not belong to the interval timers. -/
structure SignalContext where
  pending : UInt64
  blocked : BlockedMask
  siginfo : Signo → PendingSigInfo
  rtQueue : List (Signo × PendingSigInfo)
  altstack : AltStack
  groupStopRemaining : ℕ
  (groupStopNotified continuedLatch : Bool)

namespace SignalContext

/-- `SignalContext::new()`. -/
def new : SignalContext where
  pending := 0
  blocked := ⟨0, rfl⟩
  siginfo := fun _ => .zero
  rtQueue := []
  altstack := .disabled
  groupStopRemaining := 0
  groupStopNotified := false
  continuedLatch := false

variable (c : SignalContext)

/-- The pending signals not blocked. -/
def deliverable : UInt64 := c.pending &&& ~~~c.blocked.val

/-- `set_blocked`. -/
def withBlocked (mask : UInt64) : SignalContext :=
  { c with blocked := ⟨setBlocked mask, setBlocked_setBlocked mask⟩ }

/-- `rt_pending_count`. -/
def rtPendingCount : ℕ :=
  (Finset.univ.filter fun s => isRtSignal s && has c.pending s).card + c.rtQueue.length

/-- `enqueue_signal` with `usize::MAX` for the limit, which no queue reaches. -/
def enqueueSignal (s : Signo) (info : PendingSigInfo) : SignalContext :=
  if isRtSignal s && has c.pending s then { c with rtQueue := c.rtQueue ++ [(s, info)] }
  else
    { c with pending := c.pending ||| bit s, siginfo := update c.siginfo s info }

/-- Take one instance of a signal. -/
def dequeueSignal (s : Signo) : PendingSigInfo × SignalContext :=
  if has c.pending s then
    match if isRtSignal s then c.rtQueue.find? (·.1 = s) else none with
    | some next =>
      (c.siginfo s, { c with
        rtQueue := c.rtQueue.eraseP (·.1 = s)
        siginfo := update c.siginfo s next.2 })
    | none =>
      (c.siginfo s, { c with
        pending := c.pending &&& ~~~bit s
        siginfo := update c.siginfo s .zero })
  else (.zero, c)

def discardSignal (s : Signo) : SignalContext :=
  { c with
    pending := c.pending &&& ~~~bit s
    siginfo := update c.siginfo s .zero
    rtQueue := if isRtSignal s then c.rtQueue.filter (·.1 ≠ s) else c.rtQueue }

def discardStopSignals : SignalContext :=
  { c with
    pending := c.pending &&& ~~~stopSignalMask
    siginfo := fun s => if has stopSignalMask s then .zero else c.siginfo s }

/-- `enqueue_with_annihilation`: `SIGCONT` and the stop signals drive each other out. -/
def enqueueWithAnnihilation (s : Signo) (info : PendingSigInfo) : SignalContext :=
  if s = sigcont then c.discardStopSignals.enqueueSignal s info
  else if has stopSignalMask s then (c.discardSignal sigcont).enqueueSignal s info
  else c.enqueueSignal s info

def armGroupStop (remaining : ℕ) : SignalContext :=
  { c with groupStopRemaining := remaining, groupStopNotified := false }

/-- `group_stop_arrive`; the answer tells whether the parent is to be notified. -/
def groupStopArrive : Bool × SignalContext :=
  let c := { c with groupStopRemaining := c.groupStopRemaining - 1 }
  if c.groupStopRemaining = 0 ∧ c.groupStopNotified = false then
    (true, { c with groupStopNotified := true })
  else (false, c)

def clearGroupStop : SignalContext :=
  { c with groupStopRemaining := 0, groupStopNotified := false }

def setContinuedLatch : SignalContext := { c with continuedLatch := true }

/-! ### What the operations do to the pending signals -/

@[simp] theorem has_deliverable (s : Signo) :
    has c.deliverable s = (has c.pending s && !has c.blocked s) := by
  rw [deliverable, has_and, has_not]

/-- `SIGKILL` and `SIGSTOP` are never blocked. -/
theorem has_blocked_eq_false (mask : BlockedMask) {s : Signo} (h : s = sigkill ∨ s = sigstop) :
    has mask s = false := by
  obtain ⟨mask, hmask⟩ := mask
  have hs : (decide (s = sigkill) || decide (s = sigstop)) = true := by
    rcases h with rfl | rfl <;> rfl
  dsimp only
  rw [← hmask, setBlocked, has_and, has_not, has_or, has_bit, has_bit, hs, Bool.not_true,
    Bool.and_false]

section

variable (info : PendingSigInfo)

include c

@[simp] theorem blocked_discardSignal : (c.discardSignal s).blocked = c.blocked := by
  simp [discardSignal]

theorem has_pending_discardSignal (t : Signo) :
    has (c.discardSignal s).pending t = (has c.pending t && decide (t ≠ s)) := by
  simp [discardSignal]

@[simp] theorem blocked_dequeueSignal : (c.dequeueSignal s).2.blocked = c.blocked := by
  unfold dequeueSignal
  split
  · split <;> rfl
  · rfl

@[simp] theorem altstack_dequeueSignal : (c.dequeueSignal s).2.altstack = c.altstack := by
  unfold dequeueSignal
  split
  · split <;> rfl
  · rfl

theorem siginfo_dequeueSignal {s t : Signo} (h : t ≠ s) :
    (c.dequeueSignal s).2.siginfo t = c.siginfo t := by
  unfold dequeueSignal
  split
  · split <;> exact update_of_ne h _ _
  · rfl

theorem fst_dequeueSignal {s : Signo} (h : has c.pending s = true) :
    (c.dequeueSignal s).1 = c.siginfo s := by
  rw [dequeueSignal, if_pos h]
  split <;> rfl

/-- A signal that is not queued is gone when it has been taken. -/
theorem has_pending_dequeueSignal {s : Signo} (h : isRtSignal s = false)
    (t : Signo) : has (c.dequeueSignal s).2.pending t = (has c.pending t && decide (t ≠ s)) := by
  unfold dequeueSignal
  rw [h, if_neg Bool.false_ne_true]
  split_ifs with hpending
  · simp
  · rcases eq_or_ne t s with rfl | hne
    · simpa using hpending
    · simp [hne]

end

end SignalContext

end CypheraKernel.Signal
