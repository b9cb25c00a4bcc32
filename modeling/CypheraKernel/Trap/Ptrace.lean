import CypheraKernel.Lib.Lists
import CypheraKernel.Trap.Frame

/-!
# Registers in the hands of a tracer

`kernel/src/ptrace.rs` with the registers of `TraceContext` (`kernel/src/process_model/context.rs`),
and the handlers of the debug exceptions in `frame/src/arch/x86_64/idt.rs`.

A thread that is traced stops at system calls, at signals and at debug exceptions.  Before a stop
its registers are saved (`saveTfToProc`, `recordTrapRegs`), the tracer may replace them with
`PTRACE_SETREGS` as often as it likes, and after the stop the thread goes on with what it finds
(`restoreTfFromProc`, `traceTrapHook`).
-/

namespace CypheraKernel.Trap

open Bytes

/-- `user_regs_struct`. -/
structure UserRegs where
  (r15 r14 r13 r12 rbp rbx r11 r10 r9 r8 rax rcx rdx rsi rdi origRax rip : UInt64)
  cs : UInt16
  (rflags rsp : UInt64)
  ss : UInt16
  (fsBase gsBase : UInt64)
  deriving DecidableEq, Repr

namespace UserRegs

/-- `UserRegs::default()`. -/
def zero : UserRegs where
  r15 := 0
  r14 := 0
  r13 := 0
  r12 := 0
  rbp := 0
  rbx := 0
  r11 := 0
  r10 := 0
  r9 := 0
  r8 := 0
  rax := 0
  rcx := 0
  rdx := 0
  rsi := 0
  rdi := 0
  origRax := 0
  rip := 0
  cs := 0
  rflags := 0
  rsp := 0
  ss := 0
  fsBase := 0
  gsBase := 0

/-- The registers that `setregs` finds in the 216 bytes of the tracer. -/
def ofBytes (buf : Memory) : UserRegs where
  r15 := readWord buf 0
  r14 := readWord buf 8
  r13 := readWord buf 16
  r12 := readWord buf 24
  rbp := readWord buf 32
  rbx := readWord buf 40
  r11 := readWord buf 48
  r10 := readWord buf 56
  r9 := readWord buf 64
  r8 := readWord buf 72
  rax := readWord buf 80
  rcx := readWord buf 88
  rdx := readWord buf 96
  rsi := readWord buf 104
  rdi := readWord buf 112
  origRax := readWord buf 120
  rip := readWord buf 128
  cs := (readWord buf 136).toUInt16
  rflags := readWord buf 144
  rsp := readWord buf 152
  ss := (readWord buf 160).toUInt16
  fsBase := readWord buf 168
  gsBase := readWord buf 176

/-- `enable_single_step`. -/
def enableSingleStep (regs : UserRegs) : UserRegs := { regs with rflags := regs.rflags ||| 0x100 }

end UserRegs

/-- What `save_tf_to_proc` saves. -/
def saveTfToProc (tf : TrapFrame) : UserRegs where
  r15 := tf.r15
  r14 := tf.r14
  r13 := tf.r13
  r12 := tf.r12
  rbp := tf.rbp
  rbx := tf.rbx
  r11 := 0
  r10 := tf.r10
  r9 := tf.r9
  r8 := tf.r8
  rax := tf.rax
  rcx := 0
  rdx := tf.rdx
  rsi := tf.rsi
  rdi := tf.rdi
  origRax := tf.origRax
  rip := tf.ripUser
  cs := 0x33
  rflags := tf.rflagsUser
  rsp := tf.rspUser
  ss := 0x2b
  fsBase := 0
  gsBase := 0

/-- `restore_tf_from_proc`. -/
def restoreTfFromProc (regs : UserRegs) (tf : TrapFrame) : TrapFrame :=
  { tf with
    r15 := regs.r15
    r14 := regs.r14
    r13 := regs.r13
    r12 := regs.r12
    rbp := regs.rbp
    rbx := regs.rbx
    r10 := regs.r10
    r9 := regs.r9
    r8 := regs.r8
    rax := regs.rax
    rdx := regs.rdx
    rsi := regs.rsi
    rdi := regs.rdi
    origRax := regs.origRax
    ripUser := regs.rip
    rflagsUser := regs.rflags
    rspUser := regs.rsp }

/-- What a tracer does to the registers in a stop: the buffers it hands to `PTRACE_SETREGS`, one
after the other, and whether it resumes the thread with `PTRACE_SINGLESTEP`.  A stop that is given
up, because there is no tracer any more or the thread is to be killed, is one in which nothing is
done. -/
structure Tracer where
  setregs : List Memory
  singleStep : Bool

/-- The registers that a stop leaves. -/
def Tracer.leave (t : Tracer) (saved : UserRegs) : UserRegs :=
  let regs := t.setregs.foldl (fun _ buf => UserRegs.ofBytes buf) saved
  if t.singleStep then regs.enableSingleStep else regs

/-- A stop in the kernel: `save_tf_to_proc`, `park_for_trace_stop`, `restore_tf_from_proc`. -/
def traceStop (tf : TrapFrame) (t : Tracer) : TrapFrame :=
  restoreTfFromProc (t.leave (saveTfToProc tf)) tf

/-! ### The trace context -/

/-- Why a tracee stopped. -/
inductive TraceStop
  | attach
  | syscallEntry
  | syscallExit
  | signal (signo : ℕ)
  | eventStop (event : ℕ)
  deriving DecidableEq, Repr

/-- `TraceContext`: what a process keeps as a tracee, and the processes that it traces itself. -/
structure TraceContext where
  tracerPid : Option ℕ
  tracees : List ℕ
  stop : Option TraceStop
  options : UInt64
  inSyscallStopMode : Bool
  pendingEventStop : Option TraceStop
  pendingInject : ℕ
  waitConsumed : Bool
  eventMsg : UInt64
  savedRegs : Option UserRegs
  pendingAttachStop : Bool

namespace TraceContext

/-- `TraceContext::default()`. -/
def untraced : TraceContext where
  tracerPid := none
  tracees := []
  stop := none
  options := 0
  inSyscallStopMode := false
  pendingEventStop := none
  pendingInject := 0
  waitConsumed := false
  eventMsg := 0
  savedRegs := none
  pendingAttachStop := false

variable (t : TraceContext) (tracer : ℕ)

def isTraced : Bool := t.tracerPid.isSome

def enterStop (reason : TraceStop) : TraceContext :=
  { t with stop := some reason, waitConsumed := false }

def tracedBy : Bool := t.tracerPid = some tracer

def addTracee (tracee : ℕ) : TraceContext :=
  { t with tracees := Lists.pushNew t.tracees tracee }

def removeTracee (tracee : ℕ) : TraceContext :=
  { t with tracees := t.tracees.filter (· ≠ tracee) }

def setTracer : TraceContext := { t with tracerPid := some tracer }

def attach (t : TraceContext) (tracer : ℕ) : TraceContext :=
  { t with tracerPid := some tracer, stop := some .attach, waitConsumed := false }

def attachDeferred : TraceContext :=
  { t with tracerPid := some tracer, pendingAttachStop := true }

def inheritTrace (options : UInt64) : TraceContext :=
  { t with tracerPid := some tracer, inSyscallStopMode := true, options := options }

def detach : TraceContext :=
  { t with
    tracerPid := none
    stop := none
    options := 0
    inSyscallStopMode := false
    waitConsumed := false
    pendingInject := 0
    pendingAttachStop := false }

def setOptions (options : UInt64) : TraceContext := { t with options := options }

def clearStop : TraceContext := { t with stop := none, waitConsumed := false }

def resume (traceSyscall : Bool) : TraceContext :=
  { t with
    stop := none
    inSyscallStopMode := traceSyscall
    waitConsumed := false
    pendingAttachStop := false }

def markWaitConsumed : TraceContext := { t with waitConsumed := true }

def postEventStop (stop : TraceStop) (msg : UInt64) : TraceContext :=
  { t with eventMsg := msg, pendingEventStop := some stop }

/-- `stop_status_signal` of `kernel/src/ptrace.rs`: the signal that a stop is reported with.  The
mark that `PTRACE_O_TRACESYSGOOD` asks for is the bit `0x80`. -/
def stopStatusSignal : Option ℕ :=
  t.stop.map fun
    | .attach => 19
    | .signal signo => signo
    | .syscallEntry | .syscallExit => if t.options &&& 1 ≠ 0 then 5 ||| 0x80 else 5
    | .eventStop event => 5 ||| event <<< 8

end TraceContext

/-! ### Debug exceptions -/

/-- The part of the interrupt frame that the handlers change. -/
structure InterruptFrame where
  (rip rflags : UInt64)
  deriving DecidableEq, Repr

/-- `record_trap_regs`. -/
def recordTrapRegs (saved : Option UserRegs) (frame : InterruptFrame) : UserRegs :=
  { saved.getD .zero with rip := frame.rip, rflags := frame.rflags &&& ~~~0x100 }

/-- `trace_trap_hook`: the address and the flags with which a traced thread goes on. -/
def traceTrapHook (traced : Bool) (saved : Option UserRegs) (frame : InterruptFrame) (t : Tracer) :
    Option (UInt64 × UInt64) :=
  if traced then
    let regs := t.leave (recordTrapRegs saved frame)
    some (regs.rip, regs.rflags)
  else none

/-- The bits that `RFlags::from_bits_truncate` keeps. -/
def rflagsBits : UInt64 := 0x3F7FD5

/-- The new interrupt frame of both handlers. -/
def rewriteFrame (rip rflags : UInt64) : Except Panic InterruptFrame :=
  if canonical rip then .ok ⟨rip, rflags &&& rflagsBits⟩ else .error .virtAddrNew

/-- `handle_debug`, from user mode. -/
def handleDebug (traced : Bool) (saved : Option UserRegs) (frame : InterruptFrame) (t : Tracer) :
    Except Panic InterruptFrame :=
  match traceTrapHook traced saved frame t with
  | some (rip, rflags) => rewriteFrame rip rflags
  | none => .error .debugException

/-- `handle_breakpoint`, from user mode. -/
def handleBreakpoint (traced : Bool) (saved : Option UserRegs) (frame : InterruptFrame)
    (t : Tracer) : Except Panic InterruptFrame :=
  match traceTrapHook traced saved frame t with
  | some (rip, rflags) => rewriteFrame rip rflags
  | none => .ok frame

end CypheraKernel.Trap
