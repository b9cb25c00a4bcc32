import CypheraKernel.Signal.Handler
import CypheraKernel.Trap.Ptrace

/-!
# Registers from user control on the way back to user mode

There are three ways by which registers that a process or its tracer has chosen reach the frame with
which a thread returns to ring 3: a signal frame through `rt_sigreturn`, a stop in the kernel, and a
stop at a debug exception.

`returnsSanitised_iff`: only the flags of a signal frame are masked; an address, and the flags of
a tracer, arrive as they are.
-/

namespace CypheraKernel.Trap

open Bytes Signal

/-! ### Flags -/

/-- Bits that are set for certain do not matter for the others. -/
theorem or_and_eq_iff {f c m d : UInt64} (hd : d &&& c = 0) :
    (f ||| c) &&& m = d ||| (c &&& m) ↔ f &&& (m &&& ~~~c) = d := by
  have hbit (i : ℕ) : (d.toBitVec.getLsbD i && c.toBitVec.getLsbD i) = false := by
    have hi := congrArg (fun x => x.toBitVec.getLsbD i) hd
    simpa using hi
  simp only [← UInt64.toBitVec_inj, UInt64.toBitVec_and, UInt64.toBitVec_or, UInt64.toBitVec_not]
  constructor
  all_goals
    intro h
    apply BitVec.eq_of_getLsbD_eq
    intro i hi
    have hbits := congrArg (fun x => x.getLsbD i) h
    grind

/-- The trap flag, which the kernel sets for a single step. -/
def stepFlag (step : Bool) : UInt64 := if step then 0x100 else 0

/-- What the flags have to be outside `userRflagsMask`: bit 1, which is always set, the interrupt
flag, and the trap flag for a single step. -/
def fixedFlags (step : Bool) : UInt64 := 0x200 ||| (stepFlag step ||| 2)

/-- The address and the flags of a frame are fit for user mode. -/
structure Sanitised (step : Bool) (rip rflags : UInt64) : Prop where
  rip : userHalf rip = true
  rflags : (rflags ||| 2) &&& ~~~userRflagsMask = fixedFlags step

/-- The flags of a tracer are those of user mode already. -/
def FlagsClean (step : Bool) (rflags : UInt64) : Prop :=
  rflags &&& (~~~userRflagsMask &&& ~~~(stepFlag step ||| 2)) = 0x200
  deriving Decidable

theorem flags_iff (step : Bool) (rflags : UInt64) :
    (rflags ||| stepFlag step ||| 2) &&& ~~~userRflagsMask = fixedFlags step ↔
      FlagsClean step rflags := by
  have hdisjoint : (0x200 : UInt64) &&& (stepFlag step ||| 2) = 0 := by cases step <;> decide
  have hfixed : fixedFlags step = 0x200 ||| ((stepFlag step ||| 2) &&& ~~~userRflagsMask) := by
    cases step <;> decide
  rw [FlagsClean, ← or_and_eq_iff hdisjoint, ← hfixed, UInt64.or_assoc]

/-- The flags of a signal frame are masked. -/
theorem masked_flags (flags : UInt64) :
    (flags &&& userRflagsMask ||| 0x202 ||| 2) &&& ~~~userRflagsMask = fixedFlags false := by
  have hmask : userRflagsMask &&& ~~~userRflagsMask = 0 := by decide
  have hfixed : (0x202 : UInt64) &&& ~~~userRflagsMask = fixedFlags false := by decide
  have hone : fixedFlags false ||| 2 &&& ~~~userRflagsMask = fixedFlags false := by decide
  grind [Rust.or_and_mask, UInt64.and_assoc, UInt64.and_zero, UInt64.zero_or]

/-! ### The three ways -/

/-- A return to user mode with registers from user control: from `rt_sigreturn`, from a stop in a
system call or at a fault, and from the two debug exceptions of a traced thread. -/
inductive Way
  | sigreturn (tf : TrapFrame) (mem : UserMemory)
  | syscallStop (tf : TrapFrame) (t : Tracer)
  | faultStop (tf : TrapFrame) (t : Tracer)
  | debug (saved : Option UserRegs) (frame : InterruptFrame) (t : Tracer)
  | breakpoint (saved : Option UserRegs) (frame : InterruptFrame) (t : Tracer)

/-- The registers that the tracer has written last; without a write, those that were saved. -/
def Tracer.regs (t : Tracer) (saved : UserRegs) : UserRegs :=
  t.setregs.foldl (fun _ buf => UserRegs.ofBytes buf) saved

theorem rip_leave (t : Tracer) (saved : UserRegs) : (t.leave saved).rip = (t.regs saved).rip := by
  unfold Tracer.leave
  split_ifs <;> rfl

theorem rflags_leave (t : Tracer) (saved : UserRegs) :
    (t.leave saved).rflags = (t.regs saved).rflags ||| stepFlag t.singleStep := by
  unfold Tracer.leave stepFlag
  split_ifs
  · rfl
  · rw [UInt64.or_zero]
    rfl

/-- The thread returns with a sanitised frame, and loading it does not stop the kernel.  A process
whose signal frame is not there ends. -/
def ReturnsSanitised : Way → Prop
  | .sigreturn tf mem => ∀ tf' mask, restoreFromFrame tf mem = some (tf', mask) →
      Sanitised false tf'.ripUser tf'.rflagsUser ∧ ∃ u, sysretq tf' = .ok u
  | .syscallStop tf t =>
      Sanitised t.singleStep (traceStop tf t).ripUser (traceStop tf t).rflagsUser ∧
        ∃ u, sysretq (traceStop tf t) = .ok u
  | .faultStop tf t =>
      Sanitised t.singleStep (traceStop tf t).ripUser (traceStop tf t).rflagsUser ∧
        ∃ u, resumeUserFromTf (traceStop tf t) = .ok u
  | .debug saved frame t => ∃ f, handleDebug true saved frame t = .ok f ∧
      Sanitised t.singleStep f.rip f.rflags
  | .breakpoint saved frame t => ∃ f, handleBreakpoint true saved frame t = .ok f ∧
      Sanitised t.singleStep f.rip f.rflags

/-- The registers are fit for user mode as they come: the address of a signal frame lies in the user
half, and so does that of a tracer's registers, whose flags are clean as well.  At a debug exception
the bits that are no flags are dropped. -/
def Clean : Way → Prop
  | .sigreturn tf mem => ∀ buf, mem.copyFromUser tf.rspUser ucSize = some buf →
      userHalf (readSigcontextFromUcontext buf).rip = true
  | .syscallStop tf t | .faultStop tf t =>
      userHalf (t.regs (saveTfToProc tf)).rip = true ∧
        FlagsClean t.singleStep (t.regs (saveTfToProc tf)).rflags
  | .debug saved frame t | .breakpoint saved frame t =>
      userHalf (t.regs (recordTrapRegs saved frame)).rip = true ∧
        FlagsClean t.singleStep ((t.regs (recordTrapRegs saved frame)).rflags &&& rflagsBits)

theorem exists_sysretq {tf : TrapFrame} (h : userHalf tf.ripUser = true) :
    ∃ u, sysretq tf = .ok u := ⟨_, dif_pos (canonical_of_userHalf h)⟩

/-- After a stop the frame has the address and the flags that the tracer has left. -/
theorem sanitised_traceStop_iff (tf : TrapFrame) (t : Tracer) :
    Sanitised t.singleStep (traceStop tf t).ripUser (traceStop tf t).rflagsUser ↔
      userHalf (t.regs (saveTfToProc tf)).rip = true ∧
        FlagsClean t.singleStep (t.regs (saveTfToProc tf)).rflags := by
  have hrip : (traceStop tf t).ripUser = (t.regs (saveTfToProc tf)).rip := rip_leave t _
  have hrflags : (traceStop tf t).rflagsUser =
      (t.regs (saveTfToProc tf)).rflags ||| stepFlag t.singleStep := rflags_leave t _
  rw [← flags_iff, hrip, hrflags]
  exact ⟨fun h => ⟨h.rip, h.rflags⟩, fun h => ⟨h.1, h.2⟩⟩

/-- After a debug exception the frame has the address that the tracer has left, and those of its
flags that have a name. -/
theorem sanitised_rewriteFrame_iff (saved : UserRegs) (t : Tracer) :
    (∃ f, rewriteFrame (t.leave saved).rip (t.leave saved).rflags = .ok f ∧
        Sanitised t.singleStep f.rip f.rflags) ↔
      userHalf (t.regs saved).rip = true ∧
        FlagsClean t.singleStep ((t.regs saved).rflags &&& rflagsBits) := by
  have hstep : stepFlag t.singleStep &&& rflagsBits = stepFlag t.singleStep := by
    cases t.singleStep <;> decide
  rw [← flags_iff, rip_leave, rflags_leave, rewriteFrame, Rust.or_and_mask, hstep]
  constructor
  · rintro ⟨f, hf, hrip, hrflags⟩
    grind
  · rintro ⟨hrip, hrflags⟩
    exact ⟨_, if_pos (canonical_of_userHalf hrip), hrip, hrflags⟩

/-- **Registers from user control.**  A thread returns with a sanitised frame exactly if the
registers were fit for user mode as they came. -/
theorem returnsSanitised_iff (w : Way) : ReturnsSanitised w ↔ Clean w := by
  cases w with
  | sigreturn tf mem =>
    constructor
    · intro h buf hbuf
      exact (h _ _ (restoreFromFrame_of_copy hbuf)).1.rip
    intro h tf' mask hrestore
    rw [restoreFromFrame, Option.bind_eq_bind, Option.bind_eq_some_iff] at hrestore
    obtain ⟨buf, hbuf, hrest⟩ := hrestore
    obtain ⟨rfl, -⟩ := Prod.mk.inj (Option.some.inj hrest)
    have hrip : userHalf (restoreContext tf (readSigcontextFromUcontext buf)).ripUser = true :=
      h buf hbuf
    exact ⟨⟨hrip, masked_flags (readSigcontextFromUcontext buf).eflags⟩, exists_sysretq hrip⟩
  | syscallStop tf t =>
    rw [ReturnsSanitised, Clean, ← sanitised_traceStop_iff]
    exact ⟨And.left, fun h => ⟨h, exists_sysretq h.rip⟩⟩
  | faultStop tf t =>
    rw [ReturnsSanitised, Clean, ← sanitised_traceStop_iff]
    exact ⟨And.left, fun h => ⟨h, _, dif_pos (canonical_of_userHalf h.rip)⟩⟩
  | debug saved frame t => exact sanitised_rewriteFrame_iff (recordTrapRegs saved frame) t
  | breakpoint saved frame t => exact sanitised_rewriteFrame_iff (recordTrapRegs saved frame) t

/-- Registers whose address is not canonical and whose flags give the ports to user mode: they are
taken over by a stop, and stop the kernel when they are loaded. -/
def hostileRegs : Memory :=
  writeAll zeros [(128, word64 0x8000_0000_0000), (144, word64 0x3202)]

/-- One write of the tracer, and the kernel stops at the return. -/
theorem hostile_registers_panic :
    sysretq (traceStop (syscallEntry thread) ⟨[hostileRegs], false⟩) = .error .generalProtection ∧
      (traceStop (syscallEntry thread) ⟨[hostileRegs], false⟩).rflagsUser = 0x3202 ∧
      handleDebug true none ⟨0x400000, 0x302⟩ ⟨[hostileRegs], false⟩ = .error .virtAddrNew ∧
      ¬ ReturnsSanitised (.syscallStop (syscallEntry thread) ⟨[hostileRegs], false⟩) := by
  refine ⟨by decide +kernel, by decide +kernel, by decide +kernel, fun h => ?_⟩
  exact absurd h.1.rip (by decide +kernel)

end CypheraKernel.Trap
