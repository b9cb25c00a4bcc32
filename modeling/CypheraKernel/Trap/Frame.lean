import CypheraKernel.Lib.Bytes

/-!
# The way into the kernel and back

`frame/src/user/mod.rs` with `frame/src/arch/x86_64/syscall.s` and `fault.s`.

`sysretq`, `resumeUserFromTf`: the two ways back.  Both instructions check the address at which
they are to go on while the processor is still in ring 0, so that a bad one stops the kernel.

A system call overwrites `rcx` and `r11`, and its way back loads them with the address and the flags
at which user mode goes on.
-/

namespace CypheraKernel.Trap

open Bytes

/-- What stops the kernel. -/
inductive Panic
  /-- A checked addition. -/
  | addOverflow
  /-- `VirtAddr::new` of an address that is not canonical. -/
  | virtAddrNew
  /-- A general protection fault in ring 0. -/
  | generalProtection
  /-- A debug exception that nobody traces. -/
  | debugException
  deriving DecidableEq, Repr

/-! ### Addresses -/

/-- The end of the user half of the address space. -/
def userEnd : ℕ := 0x0000_8000_0000_0000

/-- The upper 17 bits of the address are equal. -/
def canonical (a : UInt64) : Bool := a.toNat < userEnd || 2 ^ 64 - userEnd ≤ a.toNat

/-- An address of the user half. -/
def userHalf (a : UInt64) : Bool := a.toNat < userEnd

theorem canonical_of_userHalf {a : UInt64} (h : userHalf a = true) : canonical a = true := by
  rw [canonical, Bool.or_eq_true]
  exact .inl h

/-! ### Registers -/

/-- The registers of a thread in user mode, which is always at a canonical address. -/
structure UserState where
  (rax rbx rcx rdx rsi rdi rbp r8 r9 r10 r11 r12 r13 r14 r15 rsp rip rflags : UInt64)
  canonical_rip : canonical rip = true
  deriving DecidableEq

/-- The registers saved at a trap. -/
structure TrapFrame where
  (rax rdi rsi rdx r10 r8 r9 ripUser rflagsUser rspUser rbx rbp r12 r13 r14 r15 origRax : UInt64)
  (rcx r11 : UInt64)
  deriving DecidableEq, Repr

namespace TrapFrame

def syscallNr (tf : TrapFrame) : UInt64 := tf.rax

/-- `arg` for the six arguments. -/
def args (tf : TrapFrame) : Vector UInt64 6 := #v[tf.rdi, tf.rsi, tf.rdx, tf.r10, tf.r8, tf.r9]

def setRet (tf : TrapFrame) (v : UInt64) : TrapFrame := { tf with rax := v }

end TrapFrame

/-- `syscall_entry` and the first line of `syscall_dispatch_entry`.  The address of `u` is that of
the next instruction. -/
def syscallEntry (u : UserState) : TrapFrame where
  rax := u.rax
  rdi := u.rdi
  rsi := u.rsi
  rdx := u.rdx
  r10 := u.r10
  r8 := u.r8
  r9 := u.r9
  ripUser := u.rip
  rflagsUser := u.rflags
  rspUser := u.rsp
  rbx := u.rbx
  rbp := u.rbp
  r12 := u.r12
  r13 := u.r13
  r14 := u.r14
  r15 := u.r15
  origRax := u.rax
  rcx := 0
  r11 := 0

/-- `fault_trapframe`, the snapshot of `fault.s` being that of `u`. -/
def faultTrapframe (u : UserState) : TrapFrame where
  rax := u.rax
  rdi := u.rdi
  rsi := u.rsi
  rdx := u.rdx
  r10 := u.r10
  r8 := u.r8
  r9 := u.r9
  ripUser := u.rip
  rflagsUser := u.rflags
  rspUser := u.rsp
  rbx := u.rbx
  rbp := u.rbp
  r12 := u.r12
  r13 := u.r13
  r14 := u.r14
  r15 := u.r15
  origRax := u.rax
  rcx := u.rcx
  r11 := u.r11

/-! ### Back to user mode -/

/-- The registers popped by `syscall_entry` after the call, and `sysretq`, which takes the address
and the flags from `rcx` and `r11`. -/
def sysretq (tf : TrapFrame) : Except Panic UserState :=
  if h : canonical tf.ripUser then
    .ok {
      rax := tf.rax
      rdi := tf.rdi
      rsi := tf.rsi
      rdx := tf.rdx
      r10 := tf.r10
      r8 := tf.r8
      r9 := tf.r9
      rcx := tf.ripUser
      r11 := tf.rflagsUser
      rsp := tf.rspUser
      rbx := tf.rbx
      rbp := tf.rbp
      r12 := tf.r12
      r13 := tf.r13
      r14 := tf.r14
      r15 := tf.r15
      rip := tf.ripUser
      rflags := tf.rflagsUser &&& 0x3C7FD7 ||| 2
      canonical_rip := h }
  else .error .generalProtection

theorem rcx_r11_of_sysretq {tf : TrapFrame} {u : UserState} (h : sysretq tf = .ok u) :
    u.rcx = tf.ripUser ∧ u.r11 = tf.rflagsUser := by
  unfold sysretq at h
  split_ifs at h
  cases h
  exact ⟨rfl, rfl⟩

/-- `resume_user_from_tf`: every register from the frame, and `iretq`. -/
def resumeUserFromTf (tf : TrapFrame) : Except Panic UserState :=
  if h : canonical tf.ripUser then
    .ok {
      rax := tf.rax
      rdi := tf.rdi
      rsi := tf.rsi
      rdx := tf.rdx
      r10 := tf.r10
      r8 := tf.r8
      r9 := tf.r9
      rcx := tf.rcx
      r11 := tf.r11
      rsp := tf.rspUser
      rbx := tf.rbx
      rbp := tf.rbp
      r12 := tf.r12
      r13 := tf.r13
      r14 := tf.r14
      r15 := tf.r15
      rip := tf.ripUser
      rflags := tf.rflagsUser ||| 2
      canonical_rip := h }
  else .error .generalProtection

/-! ### User memory -/

inductive AccessKind
  | read
  | write
  deriving DecidableEq, Repr

/-- The memory that a thread sees, and the pages that it may read and write, those included that are
first brought in by the fault handler. -/
structure UserMemory where
  bytes : Memory
  (readable writable : ℕ → Bool)

namespace UserMemory

variable (mem : UserMemory)

def accessible : AccessKind → ℕ → Bool
  | .read => mem.readable
  | .write => mem.writable

/-- `access_ok`. -/
def accessOk (addr : UInt64) (len : ℕ) (kind : AccessKind) : Bool :=
  if len = 0 then true
  else if 2 ^ 64 ≤ addr.toNat + len then false
  else if userEnd < addr.toNat + len then false
  else
    let page := addr.toNat / 4096
    let lastPage := (addr.toNat + len - 1) / 4096
    (List.range' page (lastPage - page + 1)).all (mem.accessible kind)

def copyToUser (addr : UInt64) (src : List UInt8) : Option UserMemory :=
  if mem.accessOk addr src.length .write then
    some { mem with bytes := write mem.bytes addr.toNat src }
  else none

/-- `copy_from_user` into a buffer of `len` bytes. -/
def copyFromUser (addr : UInt64) (len : ℕ) : Option Memory :=
  if mem.accessOk addr len .read then some (write zeros 0 (read mem.bytes addr.toNat len)) else none

end UserMemory

end CypheraKernel.Trap
