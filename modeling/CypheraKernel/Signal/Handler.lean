import CypheraKernel.Signal.Context

/-!
# Running a signal handler and returning from it

`deliver_to_handler` and `restore_from_frame` of `kernel/src/core/signal.rs`, with `rt_sigreturn` of
`kernel/src/core/signals.rs`.

* `sigreturn_unnoticed_iff`: a handler that only returns is noticed exactly in `rcx` and `r11` after
  a fault, because the way back of `rt_sigreturn` is that of a system call;
* `restartsInterrupted_iff`: the registers saved at a fault are those of the fault unless `rax` is
  what a system call returns for `EINTR`.
-/

namespace CypheraKernel.Signal

open Bytes Trap
open Rust hiding Panic

/-! ### Masks -/

/-- The signals; number `0` is none. -/
abbrev Signo := Fin 64

instance neZero_signo : NeZero 64 := ⟨by decide⟩

def sigkill : Signo := 9
def sigstop : Signo := 19

/-- `1u64 << signal`. -/
def bit (s : Signo) : UInt64 := 1 <<< UInt64.ofNat s

/-- What `set_blocked` stores. -/
def setBlocked (mask : UInt64) : UInt64 := mask &&& ~~~(bit sigkill ||| bit sigstop)

/-- The masks that a process can have: without `SIGKILL` and `SIGSTOP`. -/
abbrev BlockedMask := { mask : UInt64 // setBlocked mask = mask }

/-! ### Delivery -/

/-- `-4`, what a system call returns for `EINTR`. -/
def eintrRet : UInt64 := 0 - 4

/-- The system calls that are not made again. -/
def neverRestart (origRax : UInt64) : Bool :=
  [7, 23, 34, 128, 130, 232, 270, 271, 281, 441].contains origRax

variable (tf : TrapFrame)

/-- The first part of `deliver_to_handler`: go back to the system call. -/
def restartSyscall (action : SigAction) : TrapFrame :=
  if tf.rax == eintrRet && action.flags &&& saRestart != 0 && !neverRestart tf.origRax then
    { tf with ripUser := tf.ripUser - 2, rax := tf.origRax }
  else tf

/-- `a + b` on 64-bit words. -/
def checkedAdd (a b : UInt64) : Except Panic UInt64 :=
  if a.toNat + b.toNat < 2 ^ 64 then .ok (a + b) else .error .addOverflow

def isOnAltstack (rsp : UInt64) (alt : AltStack) : Except Panic Bool :=
  if alt.isEnabled && rsp ≥ alt.sp then do return decide (rsp < (← checkedAdd alt.sp alt.size))
  else .ok false

/-- `on_alt`: whether the frame goes to the top of the alternate stack. -/
def onAlt (rsp : UInt64) (action : SigAction) (alt : AltStack) : Except Panic Bool :=
  if action.flags &&& saOnstack != 0 && alt.isEnabled then do return !(← isOnAltstack rsp alt)
  else .ok false

/-- `base_rsp`. -/
def baseRsp (rsp : UInt64) (action : SigAction) (alt : AltStack) : Except Panic UInt64 := do
  if ← onAlt rsp action alt then checkedAdd alt.sp alt.size else return rsp

def frameTotal : UInt64 := 8 + .ofNat ucSize + .ofNat SigInfo.size

/-- The addresses of the three parts of a frame. -/
structure FrameAddrs where
  (pretcode uc info : UInt64)
  deriving DecidableEq, Repr

def frameAddrs (base : UInt64) : Except Panic FrameAddrs := do
  let aligned := base &&& ~~~15
  let frameBase := (aligned - frameTotal) &&& ~~~15
  let frameBase := frameBase - 8
  let ucAddr ← checkedAdd frameBase 8
  let infoAddr ← checkedAdd ucAddr (.ofNat ucSize)
  return ⟨frameBase, ucAddr, infoAddr⟩

/-- Copies to user memory, one after the other up to the first that fails: the memory, the copies
that have been made, and whether all have. -/
def copyAll (mem : UserMemory) :
    List (UInt64 × List UInt8) → UserMemory × List (UInt64 × List UInt8) × Bool
  | [] => (mem, [], true)
  | c :: cs =>
    match mem.copyToUser c.1 c.2 with
    | none => (mem, [], false)
    | some mem' => ((copyAll mem' cs).1, c :: (copyAll mem' cs).2.1, (copyAll mem' cs).2.2)

/-- The bytes of the context of a thread, as they stand in a frame. -/
def contextBytes (preBlocked : UInt64) (alt : AltStack) : List UInt8 :=
  read (writeUcontext preBlocked alt (SigContext.fromTrapFrame tf preBlocked)) 0 ucSize

@[simp] theorem length_contextBytes (preBlocked : UInt64) (alt : AltStack) :
    (contextBytes tf preBlocked alt).length = ucSize := length_read _ _ _

/-- The copies of `deliver_to_handler`. -/
def frameCopies (addrs : FrameAddrs) (tf : TrapFrame) (action : SigAction) (preBlocked : UInt64)
    (info : SigInfo) (alt : AltStack) : List (UInt64 × List UInt8) :=
  [(addrs.pretcode, word64 action.restorer),
    (addrs.uc, contextBytes tf preBlocked alt), (addrs.info, info.toBytes)]

/-- The last part of `deliver_to_handler`: go to the handler. -/
def enterHandler (addrs : FrameAddrs) (signal : Signo) (action : SigAction) : TrapFrame :=
  { tf with
    ripUser := action.handler
    rspUser := addrs.pretcode
    rdi := .ofNat signal
    rsi := addrs.info
    rdx := addrs.uc
    rax := 0
    r8 := 0
    r9 := 0
    r10 := 0
    rflagsUser := tf.rflagsUser ||| 0x202 }

/-- The mask while the handler runs. -/
def newBlocked (preBlocked : UInt64) (action : SigAction) (signal : Signo) : UInt64 :=
  let blocked := preBlocked ||| action.mask
  if action.flags &&& saNodefer == 0 then blocked ||| bit signal else blocked

/-- What a delivery leaves: the registers, the memory with the copies that have been made, and the
new mask, unless a copy has failed. -/
structure Delivery where
  tf : TrapFrame
  mem : UserMemory
  written : List (UInt64 × List UInt8)
  result : Option UInt64

def deliverToHandler (mem : UserMemory) (signal : Signo) (action : SigAction)
    (preBlocked : UInt64) (info : SigInfo) (alt : AltStack) : Except Panic Delivery := do
  let tf := restartSyscall tf action
  let base ← baseRsp tf.rspUser action alt
  let addrs ← frameAddrs base
  let r := copyAll mem (frameCopies addrs tf action preBlocked info alt)
  if r.2.2 then
    return ⟨enterHandler tf addrs signal action, r.1, r.2.1,
      some (newBlocked preBlocked action signal)⟩
  else return ⟨tf, r.1, r.2.1, none⟩

/-! ### Return -/

def userRflagsMask : UInt64 := 0x00200CD5

/-- The registers of the frame. -/
def restoreContext (ctx : SigContext) : TrapFrame :=
  { tf with
    r8 := ctx.r8
    r9 := ctx.r9
    r10 := ctx.r10
    r11 := ctx.r11
    rcx := ctx.rcx
    r12 := ctx.r12
    r13 := ctx.r13
    r14 := ctx.r14
    r15 := ctx.r15
    rdi := ctx.rdi
    rsi := ctx.rsi
    rbp := ctx.rbp
    rbx := ctx.rbx
    rdx := ctx.rdx
    rax := ctx.rax
    rspUser := ctx.rsp
    ripUser := ctx.rip
    rflagsUser := ctx.eflags &&& userRflagsMask ||| 0x202 }

/-- `restore_from_frame`. -/
def restoreFromFrame (mem : UserMemory) : Option (TrapFrame × UInt64) := do
  let buf ← mem.copyFromUser tf.rspUser ucSize
  return (restoreContext tf (readSigcontextFromUcontext buf), readSigmaskFromUcontext buf)

variable {mem : UserMemory} {tf} {action : SigAction} {preBlocked blocked base : UInt64}
  {alt : AltStack} {d : Delivery} {addrs : FrameAddrs} {signal : Signo} {info : SigInfo}
  {u : UserState}

theorem restoreFromFrame_of_copy {buf : Memory}
    (h : mem.copyFromUser tf.rspUser ucSize = some buf) :
    restoreFromFrame tf mem =
      some (restoreContext tf (readSigcontextFromUcontext buf), readSigmaskFromUcontext buf) := by
  rw [restoreFromFrame, h]
  rfl

/-- `rt_sigreturn`: the registers and the new mask.  Without a frame the process ends. -/
def rtSigreturn (tf : TrapFrame) (mem : UserMemory) : Option (TrapFrame × UInt64) :=
  (restoreFromFrame tf mem).map fun r => (r.1, setBlocked r.2)

/-! ### What a delivery has done -/

theorem toNat_of_checkedAdd {a b c : UInt64} (h : checkedAdd a b = .ok c) :
    c.toNat = a.toNat + b.toNat := by grind [checkedAdd, UInt64.toNat_add]

/-- The addresses of a frame: the context follows the return address, and the information follows
the context. -/
theorem frameAddrs_eq (h : frameAddrs base = .ok addrs) :
    addrs.pretcode = (((base &&& ~~~15) - frameTotal) &&& ~~~15) - 8 ∧
      addrs.uc.toNat = addrs.pretcode.toNat + 8 ∧ addrs.info.toNat = addrs.uc.toNat + ucSize := by
  obtain ⟨uc, huc, h⟩ := bind_eq_ok.1 h
  obtain ⟨info, hinfo, h⟩ := bind_eq_ok.1 h
  cases h
  exact ⟨rfl, toNat_of_checkedAdd huc, toNat_of_checkedAdd hinfo⟩

/-- Copies that have all been made are all in the memory. -/
theorem copyAll_eq {cs : List (UInt64 × List UInt8)} (h : (copyAll mem cs).2.2 = true) :
    (copyAll mem cs).1.bytes = writeAll mem.bytes (cs.map fun c => (c.1.toNat, c.2)) := by
  induction cs generalizing mem with
  | nil => rfl
  | cons c cs ih =>
    rw [copyAll] at h ⊢
    split at h
    · cases h
    rename_i mem' hcopy
    have hmem : mem' = { mem with bytes := write mem.bytes c.1.toNat c.2 } := by
      grind [UserMemory.copyToUser]
    rw [ih h, hmem]
    rfl

/-- The three parts of a frame do not overlap. -/
theorem pairwise_apart_frameCopies (h : frameAddrs base = .ok addrs) (tf : TrapFrame)
    (action : SigAction) (preBlocked : UInt64) (info : SigInfo) (alt : AltStack) :
    (((frameCopies addrs tf action preBlocked info alt).map fun c => (c.1.toNat, c.2)).map
      block).Pairwise Apart := by
  obtain ⟨-, huc, hinfo⟩ := frameAddrs_eq h
  simp_all [frameCopies, block, Apart]

/-- **Delivery.**  When all copies have been made, the context of the thread is in the frame above
the stack pointer of the handler. -/
theorem read_of_deliverToHandler
    (h : deliverToHandler tf mem signal action preBlocked info alt = .ok d)
    (hresult : d.result = some blocked) :
    read d.mem.bytes (d.tf.rspUser + 8).toNat ucSize =
      contextBytes (restartSyscall tf action) preBlocked alt := by
  obtain ⟨base, -, h⟩ := bind_eq_ok.1 h
  obtain ⟨addrs, haddrs, h⟩ := bind_eq_ok.1 h
  obtain ⟨-, huc, -⟩ := frameAddrs_eq haddrs
  dsimp only at h
  split_ifs at h with hall
  · cases h
    have hadd : (addrs.pretcode + 8).toNat = addrs.uc.toNat := by
      grind [UInt64.toNat_add, addrs.uc.toNat_lt]
    have hmem : (addrs.uc.toNat, contextBytes (restartSyscall tf action) preBlocked alt) ∈
        (frameCopies addrs (restartSyscall tf action) action preBlocked info alt).map
          fun c => (c.1.toNat, c.2) := by
      simp [frameCopies]
    have hread := read_writeAll mem.bytes
      (pairwise_apart_frameCopies haddrs (restartSyscall tf action) action preBlocked info alt) hmem
    dsimp only at hread
    rw [← copyAll_eq hall, ← hadd, length_contextBytes] at hread
    exact hread
  · cases h
    cases hresult

/-- The buffer into which `restore_from_frame` copies `ucSize` bytes. -/
def frameBuffer (mem : UserMemory) (addr : UInt64) : Memory :=
  write zeros 0 (read mem.bytes addr.toNat ucSize)

theorem read_frameBuffer {addr : UInt64}
    (h : read mem.bytes addr.toNat ucSize = contextBytes tf preBlocked alt)
    (a n : ℕ) (hn : a + n ≤ ucSize) :
    read (frameBuffer mem addr) a n =
      read (writeUcontext preBlocked alt (SigContext.fromTrapFrame tf preBlocked)) a n := by
  rw [contextBytes] at h
  have hpart := read_part h hn
  grind [read_write_read, frameBuffer]

/-- What `restore_from_frame` finds in a frame that holds the context of a thread. -/
theorem restoreFromFrame_eq {tf' : TrapFrame} (hread : mem.accessOk tf.rspUser ucSize .read = true)
    (hbytes : read mem.bytes tf.rspUser.toNat ucSize = contextBytes tf' preBlocked alt) :
    restoreFromFrame tf mem =
      some (restoreContext tf (SigContext.fromTrapFrame tf' preBlocked), preBlocked) := by
  have hcopy : mem.copyFromUser tf.rspUser ucSize = some (frameBuffer mem tf.rspUser) :=
    if_pos hread
  rw [restoreFromFrame_of_copy hcopy, readSigcontext_eq (read_frameBuffer hbytes),
    readSigmask_eq (read_frameBuffer hbytes)]

/-- The registers that a delivery has saved for `rt_sigreturn`. -/
def Delivery.saved (d : Delivery) : SigContext :=
  readSigcontextFromUcontext (frameBuffer d.mem (d.tf.rspUser + 8))

theorem saved_of_deliverToHandler
    (h : deliverToHandler tf mem signal action preBlocked info alt = .ok d)
    (hresult : d.result = some blocked) :
    d.saved = SigContext.fromTrapFrame (restartSyscall tf action) preBlocked :=
  readSigcontext_eq (read_frameBuffer (read_of_deliverToHandler h hresult))

/-! ### Where signals are delivered -/

/-- The place at which a signal is delivered: after a system call, made in the state `u`, that has
returned `ret`, or at an instruction that has faulted in the state `u`. -/
inductive Origin
  | syscall (u : UserState) (ret : UInt64)
  | fault (u : UserState)

namespace Origin

def frame : Origin → TrapFrame
  | syscall u ret => (syscallEntry u).setRet ret
  | fault u => faultTrapframe u

/-- The registers of the thread as the signal finds them; a system call has overwritten two of them.
-/
def state : Origin → UserState
  | syscall u ret => { u with rax := ret }
  | fault u => u

end Origin

/-- User mode goes on as if there had been no signal: with the same address, stack, flags, mask and
registers, but for the two that a system call overwrites. -/
structure Unnoticed (o : Origin) (preBlocked : UInt64) (u : UserState) (blocked : UInt64) :
    Prop where
  rip : u.rip = o.state.rip
  rsp : u.rsp = o.state.rsp
  rflags : u.rflags &&& userRflagsMask = o.state.rflags &&& userRflagsMask
  blocked : blocked = preBlocked
  rax : u.rax = o.state.rax
  rbx : u.rbx = o.state.rbx
  rdx : u.rdx = o.state.rdx
  rsi : u.rsi = o.state.rsi
  rdi : u.rdi = o.state.rdi
  rbp : u.rbp = o.state.rbp
  r8 : u.r8 = o.state.r8
  r9 : u.r9 = o.state.r9
  r10 : u.r10 = o.state.r10
  r12 : u.r12 = o.state.r12
  r13 : u.r13 = o.state.r13
  r14 : u.r14 = o.state.r14
  r15 : u.r15 = o.state.r15
  fault : ∀ v, o = .fault v → u.rcx = v.rcx ∧ u.r11 = v.r11

/-- A return from the handler in the state `h`, with the memory `mem`, goes back unnoticed. -/
def ReturnsUnnoticed (o : Origin) (preBlocked : UInt64) (h : UserState) (mem : UserMemory) : Prop :=
  ∃ tf blocked u, rtSigreturn (syscallEntry h) mem = some (tf, blocked) ∧ sysretq tf = .ok u ∧
    Unnoticed o preBlocked u blocked

/-- After a fault `rcx` and `r11` hold what the way back of a system call puts there. -/
def Origin.ClobberedAnyway : Origin → Prop
  | syscall _ _ => True
  | fault u => u.rcx = u.rip ∧ u.r11 = u.rflags &&& userRflagsMask ||| 0x202

/-- The flags that the way back loads keep what a user may change. -/
theorem loaded_and_mask (flags : UInt64) :
    ((flags &&& userRflagsMask ||| 0x202) &&& 0x3C7FD7 ||| 2) &&& userRflagsMask =
      flags &&& userRflagsMask := by
  have hmask : userRflagsMask &&& (0x3C7FD7 &&& userRflagsMask) = userRflagsMask := by decide
  have hfixed : (0x202 : UInt64) &&& (0x3C7FD7 &&& userRflagsMask) = 0 := by decide
  have hone : (2 : UInt64) &&& userRflagsMask = 0 := by decide
  grind [or_and_mask, UInt64.or_zero]

section

variable {o : Origin} {mem mem' : UserMemory} {signal : Signo} {action : SigAction}
  {preBlocked : BlockedMask} {info : SigInfo} {alt : AltStack} {d : Delivery} {blocked : UInt64}

/-- A frame that the handler has left alone, from the state in which it makes the system call
`rt_sigreturn`: the stack pointer is above the return address. -/
structure Kept (d : Delivery) (h : UserState) (mem' : UserMemory) : Prop where
  rsp : h.rsp = d.tf.rspUser + 8
  readable : mem'.accessOk h.rsp ucSize .read = true
  bytes : read mem'.bytes h.rsp.toNat ucSize = read d.mem.bytes h.rsp.toNat ucSize

section

variable {h : UserState} (hrestart : action.flags &&& saRestart = 0)
  (hdeliver : deliverToHandler o.frame mem signal action preBlocked info alt = .ok d)
  (hresult : d.result = some blocked) (hkept : Kept d h mem')
include hrestart hdeliver hresult hkept

/-- The registers and the mask that `rt_sigreturn` takes from the frame. -/
theorem rtSigreturn_eq :
    rtSigreturn (syscallEntry h) mem' =
      some (restoreContext (syscallEntry h) (SigContext.fromTrapFrame o.frame preBlocked.1),
        preBlocked.1) := by
  have hbytes := read_of_deliverToHandler hdeliver hresult
  grind [restartSyscall, hkept.rsp, hkept.bytes, syscallEntry, restoreFromFrame_eq,
    hkept.readable, rtSigreturn]

/-- What is noticed: the way back has put its own values in `rcx` and `r11`. -/
theorem clobberedAnyway_of_returnsUnnoticed
    (hreturns : ReturnsUnnoticed o preBlocked h mem') : o.ClobberedAnyway := by
  obtain ⟨tf, blocked', u, htf, hu, hsame⟩ := hreturns
  rw [rtSigreturn_eq hrestart hdeliver hresult hkept] at htf
  obtain ⟨rfl, -⟩ := Prod.mk.inj (Option.some.inj htf)
  obtain ⟨hrcx, hr11⟩ := rcx_r11_of_sysretq hu
  cases o with
  | syscall v ret => trivial
  | fault v =>
    obtain ⟨hrcx', hr11'⟩ := hsame.fault v rfl
    exact ⟨hrcx'.symm.trans hrcx, hr11'.symm.trans hr11⟩

end

/-- **A handler that only returns.**  Its return goes unnoticed exactly if the signal was delivered
at a system call, or if the two registers that a system call overwrites held at the fault what the
way back puts there. -/
theorem sigreturn_unnoticed_iff {h : UserState} (hrestart : action.flags &&& saRestart = 0)
    (hdeliver : deliverToHandler o.frame mem signal action preBlocked info alt = .ok d)
    (hresult : d.result = some blocked) (hkept : Kept d h mem') :
    ReturnsUnnoticed o preBlocked h mem' ↔ o.ClobberedAnyway := by
  refine ⟨clobberedAnyway_of_returnsUnnoticed hrestart hdeliver hresult hkept, fun hclobbered => ?_⟩
  have hreturn := rtSigreturn_eq hrestart hdeliver hresult hkept
  cases o with
  | syscall u | fault u =>
    refine ⟨_, _, _, hreturn, dif_pos u.canonical_rip, ?_⟩
    constructor
    case rflags => exact loaded_and_mask u.rflags
    case fault => rintro v ⟨⟩ <;> exact ⟨hclobbered.1.symm, hclobbered.2.symm⟩
    all_goals rfl

end

/-- A thread with a stack below `0x7000`. -/
def thread : UserState where
  rax := 0
  rbx := 1
  rcx := 2
  rdx := 3
  rsi := 4
  rdi := 5
  rbp := 6
  r8 := 8
  r9 := 9
  r10 := 10
  r11 := 11
  r12 := 12
  r13 := 13
  r14 := 14
  r15 := 15
  rsp := 0x7000
  rip := 0x400000
  rflags := 0x246
  canonical_rip := by decide

/-- A memory that is open everywhere. -/
def openMemory : UserMemory := ⟨zeros, fun _ => true, fun _ => true⟩

def handlerAt (flags : UInt64) : SigAction := ⟨0x500000, flags, 0x600000, 0⟩

def noneBlocked : BlockedMask := ⟨0, by decide⟩

/-- Delivery of `SIGUSR1` to a handler. -/
def deliverUsr1 (o : Origin) (flags : UInt64) : Except Panic Delivery :=
  deliverToHandler o.frame openMemory 10 (handlerAt flags) noneBlocked SigInfo.zero
    AltStack.disabled

/-- The handler at its return, 1072 bytes below the stack of the thread. -/
def handlerReturn : UserState := { thread with rsp := 0x7000 - 1072 }

theorem exists_delivered {x : Except Panic Delivery}
    (h : x.toOption.map (fun d => (d.result.isSome, d.tf.rspUser,
      d.mem.accessOk handlerReturn.rsp ucSize .read)) = some (true, 0x7000 - 1080, true)) :
    ∃ d blocked, x = .ok d ∧ d.result = some blocked ∧ Kept d handlerReturn d.mem := by
  obtain ⟨d, hd, hvalues⟩ := exists_ok h
  simp only [Prod.mk.injEq] at hvalues
  obtain ⟨blocked, hresult⟩ := Option.isSome_iff_exists.1 hvalues.1
  refine ⟨d, blocked, hd, hresult, ?_, hvalues.2.2, rfl⟩
  rw [hvalues.2.1]
  decide

/-- After a system call that has written 5 bytes nothing is noticed. -/
theorem sigreturn_unnoticed_syscall :
    ∃ d, deliverUsr1 (.syscall thread 5) 0 = .ok d ∧ Kept d handlerReturn d.mem ∧
      ReturnsUnnoticed (.syscall thread 5) noneBlocked handlerReturn d.mem := by
  obtain ⟨d, blocked, hd, hresult, hkept⟩ :=
    exists_delivered (x := deliverUsr1 (.syscall thread 5) 0) (by decide +kernel)
  refine ⟨d, hd, hkept, ?_⟩
  exact (sigreturn_unnoticed_iff (by decide) hd hresult hkept).2 trivial

/-- After a fault with `rcx = 2` the thread goes on with another value in `rcx`. -/
theorem sigreturn_noticed_fault :
    ∃ d, deliverUsr1 (.fault thread) 0 = .ok d ∧ Kept d handlerReturn d.mem ∧
      ¬ ReturnsUnnoticed (.fault thread) noneBlocked handlerReturn d.mem := by
  obtain ⟨d, blocked, hd, hresult, hkept⟩ :=
    exists_delivered (x := deliverUsr1 (.fault thread) 0) (by decide +kernel)
  refine ⟨d, hd, hkept, fun hreturns => ?_⟩
  have hclobbered := clobberedAnyway_of_returnsUnnoticed (by decide) hd hresult hkept hreturns
  exact absurd hclobbered.1 (by decide)

/-! ### Restarting system calls -/

/-- The registers are moved only for a system call that has returned `EINTR`; at a fault the saved
address and `rax` are those of the fault. -/
def RestartsInterrupted (o : Origin) (saved : SigContext) : Prop :=
  match o with
  | .syscall u ret => ¬ (saved.rip = u.rip ∧ saved.rax = ret) → ret = eintrRet
  | .fault u => saved.rip = u.rip ∧ saved.rax = u.rax

/-- The fault does not look like an interrupted system call. -/
def Origin.NotTaken : Origin → Prop
  | syscall _ _ => True
  | fault u => u.rax ≠ eintrRet

theorem restartSyscall_of_ne (h : tf.rax ≠ eintrRet) : restartSyscall tf action = tf := by
  simp [restartSyscall, h]

theorem ripUser_restartSyscall_ne (hrax : u.rax = eintrRet)
    (hrestart : action.flags &&& saRestart ≠ 0) :
    (restartSyscall (faultTrapframe u) action).ripUser = u.rip - 2 := by
  have hnever : neverRestart eintrRet = false := by decide
  simp [restartSyscall, faultTrapframe, hrax, hrestart, hnever]

section

variable {o : Origin} {mem : UserMemory} {signal : Signo} {action : SigAction}
  {preBlocked : UInt64} {info : SigInfo} {alt : AltStack} {d : Delivery} {blocked : UInt64}

/-- A fault with the value of `EINTR` in `rax` is taken for a system call. -/
theorem not_restartsInterrupted_fault (hrestart : action.flags &&& saRestart ≠ 0)
    (hdeliver : deliverToHandler (Origin.fault u).frame mem signal action preBlocked info alt =
      .ok d) (hresult : d.result = some blocked) (hrax : u.rax = eintrRet) :
    ¬ RestartsInterrupted (.fault u) d.saved := by
  rintro ⟨hrip, -⟩
  rw [saved_of_deliverToHandler hdeliver hresult] at hrip
  have hmoved : u.rip - 2 = u.rip := (ripUser_restartSyscall_ne hrax hrestart).symm.trans hrip
  grind

/-- **Restarting.**  A delivery with `SA_RESTART` moves the registers only after an interrupted
system call exactly if it is at a system call, or at a fault whose `rax` is not the value of
`EINTR`. -/
theorem restartsInterrupted_iff (hrestart : action.flags &&& saRestart ≠ 0)
    (hdeliver : deliverToHandler o.frame mem signal action preBlocked info alt = .ok d)
    (hresult : d.result = some blocked) :
    RestartsInterrupted o d.saved ↔ o.NotTaken := by
  have hsaved := saved_of_deliverToHandler hdeliver hresult
  cases o with
  | syscall u ret =>
    refine iff_of_true (fun hmoved => ?_) trivial
    by_contra hret
    have hsame :
        restartSyscall (Origin.syscall u ret).frame action = (Origin.syscall u ret).frame :=
      restartSyscall_of_ne hret
    rw [hsaved, hsame] at hmoved
    exact hmoved ⟨rfl, rfl⟩
  | fault u =>
    constructor
    · intro hsame hrax
      exact not_restartsInterrupted_fault hrestart hdeliver hresult hrax hsame
    intro hrax
    have hsame : restartSyscall (Origin.fault u).frame action = (Origin.fault u).frame :=
      restartSyscall_of_ne hrax
    rw [hsaved, hsame]
    exact ⟨rfl, rfl⟩

end

/-- A system call that has returned `EINTR` is made again. -/
theorem restartsInterrupted_syscall :
    ∃ d, deliverUsr1 (.syscall thread eintrRet) saRestart = .ok d ∧ d.result.isSome ∧
      RestartsInterrupted (.syscall thread eintrRet) d.saved := by
  obtain ⟨d, hd, hsome⟩ := exists_ok (x := deliverUsr1 (.syscall thread eintrRet) saRestart)
    (f := fun d => d.result.isSome) (b := true) (by decide +kernel)
  obtain ⟨blocked, hresult⟩ := Option.isSome_iff_exists.1 hsome
  exact ⟨d, hd, hsome, (restartsInterrupted_iff (by decide) hd hresult).2 trivial⟩

/-- A fault with `rax = -4` resumes two bytes before the instruction. -/
theorem fault_taken_for_interrupted_syscall :
    ∃ d, deliverUsr1 (.fault { thread with rax := eintrRet }) saRestart = .ok d ∧
      d.result.isSome ∧ ¬ RestartsInterrupted (.fault { thread with rax := eintrRet }) d.saved := by
  obtain ⟨d, hd, hsome⟩ :=
    exists_ok (x := deliverUsr1 (.fault { thread with rax := eintrRet }) saRestart)
      (f := fun d => d.result.isSome) (b := true) (by decide +kernel)
  obtain ⟨blocked, hresult⟩ := Option.isSome_iff_exists.1 hsome
  exact ⟨d, hd, hsome, not_restartsInterrupted_fault (by decide) hd hresult rfl⟩

end CypheraKernel.Signal
