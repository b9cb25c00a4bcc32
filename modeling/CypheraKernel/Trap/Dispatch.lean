import CypheraKernel.Security.Seccomp
import CypheraKernel.Trap.Sanitised

/-!
# Which system call is executed

`dispatch` of `kernel/src/syscall/mod.rs` up to the handler: the filters of the process are asked
about the call (`apply_seccomp`), a traced process stops (`syscall_entry_hook`), and the handler is
chosen by the registers that it finds then.

`dispatch_checked_iff`: the filters come before the stop, so they have seen the call that is
executed exactly if the tracer leaves the number and the arguments alone.

What the handlers do, and the stops after them, are left out: no other handler runs in the same
dispatch.
-/

namespace CypheraKernel.Trap

open Bytes Signal Seccomp
open Rust (ok_bind)

/-! ### Dispatch -/

/-- `ENOSYS` as `tf.rax` holds it. -/
def enosysRet : UInt64 := 0 - 38

/-- A system call: its number and its arguments. -/
abbrev Call := UInt64 × Vector UInt64 6

variable (p : Tracee) (tf : TrapFrame)

/-- What the registers ask for. -/
def TrapFrame.call : Call := (tf.syscallNr, tf.args)

/-- The numbers of `kernel/src/syscall/numbers.rs`, each of which has a handler; a pair stands for
the numbers between its members. -/
def handledRanges : List (ℕ × ℕ) :=
  [(0, 63), (67, 67), (72, 131), (133, 178), (180, 205), (211, 215), (217, 219), (221, 239),
    (246, 250), (253, 273), (275, 281), (283, 297), (302, 302), (305, 305), (308, 311), (313, 320),
    (322, 322), (324, 332), (334, 334), (424, 424), (434, 437), (439, 439), (441, 441), (449, 450),
    (452, 452), (454, 456), (463, 466)]

def handled (nr : UInt64) : Bool := handledRanges.any fun r => r.1 ≤ nr.toNat && nr.toNat ≤ r.2

/-- What `dispatch` reads of the current process: its filters, whether it is traced, and whether it
stops at system calls. -/
structure Tracee where
  filters : Option (List Filter)
  (traced inSyscallStopMode : Bool)

/-- The part of the frame that `evaluate_for_syscall` reads. -/
def TrapFrame.toSeccomp : Seccomp.TrapFrame := ⟨tf.syscallNr, tf.ripUser, tf.args⟩

/-- `syscall_entry_hook`. -/
def syscallEntryHook (t : Tracer) : TrapFrame :=
  if p.traced && p.inSyscallStopMode then
    let tf := traceStop { tf with rax := enosysRet } t
    { tf with rax := tf.origRax }
  else tf

/-- What is known after a dispatch: the description that the filters have seen, what became of it,
and the call whose handler has been executed, if there was one. -/
structure Dispatched where
  checked : SeccompData
  verdict : Disposition
  executed : Option Call

def dispatch (t : Tracer) : Except Rust.Panic Dispatched := do
  let verdict ← applySeccomp p.filters tf.toSeccomp
  if verdict.allowed then
    let call := (syscallEntryHook p tf t).call
    return ⟨tf.toSeccomp.seccompData, verdict, if handled call.1 then some call else none⟩
  else return ⟨tf.toSeccomp.seccompData, verdict, none⟩

/-! ### The filters and the call -/

/-- The description is that of the call. -/
structure Describes (data : SeccompData) (call : Call) : Prop where
  nr : data.nr.toInt = call.1.toNat
  args : data.args = call.2

/-- Whatever is executed has been described to the filters, and they have let it proceed. -/
def Checked (t : Tracer) : Prop :=
  ∃ d, dispatch p tf t = .ok d ∧
    ∀ call, d.executed = some call → Describes d.checked call ∧ d.verdict.allowed = true

/-- The tracer leaves the call alone: if the filters let it proceed and the process stops, then the
registers ask for the number that the filters have seen, with the same arguments, or for none. -/
def CallKept (t : Tracer) : Prop :=
  (∃ verdict, applySeccomp p.filters tf.toSeccomp = .ok verdict ∧ verdict.allowed = true) →
    p.traced = true → p.inSyscallStopMode = true →
      let regs := t.regs (saveTfToProc { tf with rax := enosysRet })
      handled regs.origRax = true → regs.origRax.toNat = tf.rax.toNat % 2 ^ 32 ∧
        #v[regs.rdi, regs.rsi, regs.rdx, regs.r10, regs.r8, regs.r9] = tf.args

theorem toNat_lt_of_handled {nr : UInt64} (h : handled nr = true) : nr.toNat ≤ 466 := by
  obtain ⟨r, hr, hle⟩ := List.any_eq_true.1 h
  have hmax : ∀ r ∈ handledRanges, r.2 ≤ 466 := by decide
  have hr2 := hmax r hr
  have := of_decide_eq_true (Bool.and_eq_true_iff.1 hle).2
  omega

/-- The filters always have a verdict. -/
theorem exists_applySeccomp (current : Option (List Filter)) (tf : Seccomp.TrapFrame) :
    ∃ verdict, applySeccomp current tf = .ok verdict := by
  unfold applySeccomp evaluateForSyscall
  split
  · exact ⟨_, rfl⟩
  · split_ifs
    · exact ⟨_, rfl⟩
    · rw [evaluateChain_eq]
      exact ⟨_, rfl⟩

/-- The number that the filters see is the lower half of `rax`, as a signed word. -/
theorem toInt_nr : tf.toSeccomp.seccompData.nr.toInt =
    if tf.rax.toNat % 2 ^ 32 < 2 ^ 31 then ((tf.rax.toNat % 2 ^ 32 : ℕ) : ℤ)
    else ((tf.rax.toNat % 2 ^ 32 : ℕ) : ℤ) - 2 ^ 32 := by
  have hlow : tf.rax.toUInt32.toBitVec.toNat = tf.rax.toNat % 2 ^ 32 := UInt64.toNat_toUInt32 tf.rax
  have hint := BitVec.toInt_eq_toNat_cond tf.rax.toUInt32.toBitVec
  rw [hlow] at hint
  rw [show tf.toSeccomp.seccompData.nr.toInt = tf.rax.toUInt32.toBitVec.toInt from rfl, hint]
  split_ifs <;> omega

/-- A call with a handler is described exactly if its number is that of the filters and its
arguments are. -/
theorem describes_iff {tf : TrapFrame} {call : Call} (h : handled call.1 = true) :
    Describes tf.toSeccomp.seccompData call ↔
      call.1.toNat = tf.rax.toNat % 2 ^ 32 ∧ call.2 = tf.args := by
  have hle := toNat_lt_of_handled h
  have hnr : tf.toSeccomp.seccompData.nr.toInt = call.1.toNat ↔
      call.1.toNat = tf.rax.toNat % 2 ^ 32 := by
    rw [toInt_nr]
    split_ifs <;> omega
  constructor
  · rintro ⟨hnr', hargs⟩
    exact ⟨hnr.1 hnr', hargs.symm⟩
  · rintro ⟨hnr', hargs⟩
    exact ⟨hnr.2 hnr', hargs.symm⟩

/-- The call that a process asks for after the entry hook. -/
theorem call_syscallEntryHook (t : Tracer) : (syscallEntryHook p tf t).call =
      if p.traced && p.inSyscallStopMode then
        let regs := t.regs (saveTfToProc { tf with rax := enosysRet })
        (regs.origRax, #v[regs.rdi, regs.rsi, regs.rdx, regs.r10, regs.r8, regs.r9])
      else tf.call := by
  unfold syscallEntryHook
  split_ifs
  · unfold traceStop Tracer.leave
    split_ifs <;> rfl
  · rfl

section

variable {p} {tf} {verdict : Disposition} (t : Tracer)
  (hverdict : applySeccomp p.filters tf.toSeccomp = .ok verdict) (hallowed : verdict.allowed = true)

include hverdict hallowed

/-- A call that the filters let proceed is executed as the registers ask for it after the stop. -/
theorem dispatch_of_allowed :
    dispatch p tf t = .ok ⟨tf.toSeccomp.seccompData, verdict,
      if handled (syscallEntryHook p tf t).call.1 then some (syscallEntryHook p tf t).call
      else none⟩ := by
  rw [dispatch, hverdict, ok_bind, if_pos hallowed]
  rfl

/-- A dispatch whose call the filters let proceed has checked what it executes exactly if the call
of the registers after the stop, when it has a handler, is that of the filters. -/
theorem checked_iff_of_allowed :
    Checked p tf t ↔ (handled (syscallEntryHook p tf t).call.1 = true →
      (syscallEntryHook p tf t).call.1.toNat = tf.rax.toNat % 2 ^ 32 ∧
        (syscallEntryHook p tf t).call.2 = tf.args) := by
  have hdispatch := dispatch_of_allowed t hverdict hallowed
  constructor
  · rintro ⟨d, hd, hchecked⟩ hhandled
    cases hdispatch.symm.trans hd
    exact (describes_iff hhandled).1 (hchecked _ (if_pos hhandled)).1
  · intro h
    refine ⟨_, hdispatch, fun call hcall => ?_⟩
    grind [describes_iff]

end

/-- **The filters and the call.**  Whatever a dispatch executes has been checked exactly if the
tracer has left the call alone. -/
theorem dispatch_checked_iff (p : Tracee) (tf : TrapFrame) (t : Tracer) :
    Checked p tf t ↔ CallKept p tf t := by
  obtain ⟨verdict, hverdict⟩ := exists_applySeccomp p.filters tf.toSeccomp
  by_cases hallowed : verdict.allowed = true
  · rw [checked_iff_of_allowed t hverdict hallowed, call_syscallEntryHook]
    have hproceeds : ∃ verdict, applySeccomp p.filters tf.toSeccomp = .ok verdict ∧
        verdict.allowed = true := ⟨verdict, hverdict, hallowed⟩
    by_cases hstop : (p.traced && p.inSyscallStopMode) = true
    · rw [if_pos hstop]
      obtain ⟨htraced, hmode⟩ := Bool.and_eq_true_iff.1 hstop
      exact ⟨fun h _ _ _ => h, fun h => h hproceeds htraced hmode⟩
    -- without a stop the registers are those that the filters have seen
    rw [if_neg hstop]
    refine iff_of_true (fun hhandled => ⟨?_, rfl⟩) fun _ htraced hmode => ?_
    · have hle := toNat_lt_of_handled hhandled
      exact (Nat.mod_eq_of_lt (by omega)).symm
    · exact absurd (Bool.and_eq_true_iff.2 ⟨htraced, hmode⟩) hstop
  · refine iff_of_true ⟨⟨tf.toSeccomp.seccompData, verdict, none⟩, ?_, nofun⟩ ?_
    · simp_all [dispatch]
    · rintro ⟨verdict', hverdict', hallowed'⟩
      grind

/-- A filter under which `read` proceeds and every other call fails with `EPERM`. -/
def readOnlyFilter : Filter where
  prog := ⟨[⟨0x20, 0, 0, 0⟩, ⟨0x15, 1, 0, 0⟩, ⟨0x06, 0, 0, seccompRetErrno ||| 1⟩,
    ⟨0x06, 0, 0, seccompRetAllow⟩]⟩
  verified := by decide

/-- A process with this filter that is traced at its system calls. -/
def readOnlyTracee : Tracee := ⟨some [readOnlyFilter], true, true⟩

/-- Registers that ask for `execve`. -/
def execveRegs : Memory := writeAll zeros [(120, word64 59)]

/-- The verdict on this process is that of its one filter. -/
theorem applySeccomp_readOnly {tf : TrapFrame} (r : UInt32)
    (hrun : Bpf.run readOnlyFilter.prog tf.toSeccomp.seccompData.toBytes = .ok r)
    (hr : action r < action seccompRetAllow ∨ r = seccompRetAllow) :
    applySeccomp readOnlyTracee.filters tf.toSeccomp = .ok (dispose r) := by
  rw [applySeccomp, readOnlyTracee, evaluateForSyscall, if_neg (by decide), evaluateChain,
    if_neg (by decide), List.foldlM_cons, hrun, ok_bind]
  rcases hr with hr | rfl
  · rw [if_pos hr]
    rfl
  · rfl

theorem readOnly_allows_read :
    applySeccomp readOnlyTracee.filters (syscallEntry thread).toSeccomp = .ok .run :=
  applySeccomp_readOnly seccompRetAllow (by decide +kernel) (.inr rfl)

/-- The filter refuses `execve`; a tracer that turns a `read` into it has it executed. -/
theorem execve_unchecked :
    applySeccomp readOnlyTracee.filters (syscallEntry { thread with rax := 59 }).toSeccomp =
        .ok (.fail 1) ∧
      (∃ d, dispatch readOnlyTracee (syscallEntry thread) ⟨[execveRegs], false⟩ = .ok d ∧
        d.executed.map Prod.fst = some 59) ∧
      ¬ Checked readOnlyTracee (syscallEntry thread) ⟨[execveRegs], false⟩ := by
  refine ⟨applySeccomp_readOnly (seccompRetErrno ||| 1) (by decide +kernel) (.inl (by decide)), ?_,
    fun h => ?_⟩
  · refine ⟨_, dispatch_of_allowed _ readOnly_allows_read rfl, ?_⟩
    decide +kernel
  · rw [checked_iff_of_allowed _ readOnly_allows_read rfl] at h
    exact absurd (h (by decide +kernel)).1 (by decide +kernel)

end CypheraKernel.Trap
