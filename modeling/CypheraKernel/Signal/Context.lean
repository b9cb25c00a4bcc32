import CypheraKernel.Trap.Frame

/-!
# The signal frame as bytes

`kernel/src/core/signal.rs`: what the kernel writes on the user stack before it runs a signal
handler.

`readSigcontext_eq`, `readSigmask_eq`: what is read from the bytes is what has
been written.
-/

namespace CypheraKernel.Signal

open Bytes Trap

/-! ### Records -/

/-- `SigAction`, with the address of the handler. -/
structure SigAction where
  (handler flags restorer mask : UInt64)
  deriving DecidableEq, Repr

def saOnstack : UInt64 := 0x08000000
def saRestart : UInt64 := 0x10000000
def saNodefer : UInt64 := 0x40000000

/-- `AltStack`; the flags are the bits of the `i32`. -/
structure AltStack where
  sp : UInt64
  flags : UInt32
  size : UInt64
  deriving DecidableEq, Repr

namespace AltStack

def ssDisable : UInt32 := 0x2

def minSize : UInt64 := 2048

def disabled : AltStack := ⟨0, ssDisable, 0⟩

def isEnabled (alt : AltStack) : Bool := alt.flags &&& ssDisable == 0 && alt.size ≥ minSize

end AltStack

/-- `SigInfo`; the signed fields are given by their bits. -/
structure SigInfo where
  (siSigno siErrno siCode pad0 : UInt32)
  sifields : Vector UInt8 112

namespace SigInfo

def size : ℕ := 128

def zero : SigInfo := ⟨0, 0, 0, 0, .replicate 112 0⟩

def fields (info : SigInfo) : List (ℕ × List UInt8) :=
  [(0, word32 info.siSigno), (4, word32 info.siErrno), (8, word32 info.siCode),
    (12, word32 info.pad0), (16, info.sifields.toList)]

def toBytes (info : SigInfo) : List UInt8 := read (writeAll zeros info.fields) 0 size

@[simp] theorem length_toBytes (info : SigInfo) : info.toBytes.length = 128 := length_read _ _ _

end SigInfo

/-- The registers in a signal frame. -/
@[ext]
structure SigContext where
  (r8 r9 r10 r11 r12 r13 r14 r15 rdi rsi rbp rbx rdx rax rcx rsp rip eflags : UInt64)
  (cs gs fs ss : UInt16)
  (err trapno oldmask cr2 fpstate : UInt64)
  reserved : Vector UInt64 8
  deriving DecidableEq, Repr

namespace SigContext

def size : ℕ := 256

def fromTrapFrame (tf : TrapFrame) (oldmask : UInt64) : SigContext where
  r8 := tf.r8
  r9 := tf.r9
  r10 := tf.r10
  r11 := tf.r11
  r12 := tf.r12
  r13 := tf.r13
  r14 := tf.r14
  r15 := tf.r15
  rdi := tf.rdi
  rsi := tf.rsi
  rbp := tf.rbp
  rbx := tf.rbx
  rdx := tf.rdx
  rax := tf.rax
  rcx := tf.rcx
  rsp := tf.rspUser
  rip := tf.ripUser
  eflags := tf.rflagsUser
  cs := 0x23
  gs := 0
  fs := 0
  ss := 0x1B
  err := 0
  trapno := 0
  oldmask := oldmask
  cr2 := 0
  fpstate := 0
  reserved := .replicate 8 0

/-- What `to_bytes` writes, and where. -/
def fields (c : SigContext) : List (ℕ × List UInt8) :=
  [(0, word64 c.r8), (8, word64 c.r9), (16, word64 c.r10), (24, word64 c.r11), (32, word64 c.r12),
    (40, word64 c.r13), (48, word64 c.r14), (56, word64 c.r15), (64, word64 c.rdi),
    (72, word64 c.rsi), (80, word64 c.rbp), (88, word64 c.rbx), (96, word64 c.rdx),
    (104, word64 c.rax), (112, word64 c.rcx), (120, word64 c.rsp), (128, word64 c.rip),
    (136, word64 c.eflags), (152, word64 c.err), (160, word64 c.trapno), (168, word64 c.oldmask),
    (176, word64 c.cr2), (184, word64 c.fpstate), (144, word16 c.cs), (146, word16 c.gs),
    (148, word16 c.fs), (150, word16 c.ss)] ++
  (List.finRange 8).map fun i : Fin 8 => (192 + (i : ℕ) * 8, word64 c.reserved[i])

/-- `to_bytes`. -/
def toBytes (c : SigContext) : Memory := writeAll zeros c.fields

/-- `from_bytes`. -/
def fromBytes (buf : Memory) : SigContext where
  r8 := readWord buf 0
  r9 := readWord buf 8
  r10 := readWord buf 16
  r11 := readWord buf 24
  r12 := readWord buf 32
  r13 := readWord buf 40
  r14 := readWord buf 48
  r15 := readWord buf 56
  rdi := readWord buf 64
  rsi := readWord buf 72
  rbp := readWord buf 80
  rbx := readWord buf 88
  rdx := readWord buf 96
  rax := readWord buf 104
  rcx := readWord buf 112
  rsp := readWord buf 120
  rip := readWord buf 128
  eflags := readWord buf 136
  cs := readWord16 buf 144
  gs := readWord16 buf 146
  fs := readWord16 buf 148
  ss := readWord16 buf 150
  err := readWord buf 152
  trapno := readWord buf 160
  oldmask := readWord buf 168
  cr2 := readWord buf 176
  fpstate := readWord buf 184
  reserved := .ofFn fun i => readWord buf (192 + i * 8)

/-- The blocks of the fields, which do not depend on their content. -/
def layout : List (ℕ × ℕ) :=
  [(0, 8), (8, 8), (16, 8), (24, 8), (32, 8), (40, 8), (48, 8), (56, 8), (64, 8), (72, 8), (80, 8),
    (88, 8), (96, 8), (104, 8), (112, 8), (120, 8), (128, 8), (136, 8), (152, 8), (160, 8),
    (168, 8), (176, 8), (184, 8), (144, 2), (146, 2), (148, 2), (150, 2), (192, 8), (200, 8),
    (208, 8), (216, 8), (224, 8), (232, 8), (240, 8), (248, 8)]

theorem map_block_fields (c : SigContext) : c.fields.map block = layout := rfl

theorem pairwise_apart_layout : layout.Pairwise Apart := by decide

theorem block_le_size : ∀ b ∈ layout, b.1 + b.2 ≤ size := by decide

section

variable {c : SigContext} {buf : Memory}
  (h : ∀ a n, a + n ≤ size → read buf a n = read c.toBytes a n) {a : ℕ}
include h

/-- A field is found in every buffer that has the bytes of the record. -/
theorem read_field {bs : List UInt8} (hmem : (a, bs) ∈ c.fields) : read buf a bs.length = bs := by
  have hapart : (c.fields.map block).Pairwise Apart := by
    rw [map_block_fields]
    exact pairwise_apart_layout
  have hle : a + bs.length ≤ size := by
    refine block_le_size (a, bs.length) ?_
    rw [← map_block_fields c]
    exact List.mem_map_of_mem hmem
  rw [h a _ hle]
  exact read_writeAll zeros hapart hmem

theorem readWord_field {v : UInt64} (hmem : (a, word64 v) ∈ c.fields) : readWord buf a = v := by
  have hread := read_field h hmem
  rw [length_word64] at hread
  exact readWord_eq hread

theorem readWord16_field {v : UInt16} (hmem : (a, word16 v) ∈ c.fields) : readWord16 buf a = v := by
  have hread := read_field h hmem
  rw [length_word16] at hread
  exact readWord16_eq hread

/-- **The decoder undoes the encoder.** -/
theorem fromBytes_eq : fromBytes buf = c := by
  have hreserved : (Vector.ofFn fun i : Fin 8 => readWord buf (192 + i * 8)) = c.reserved := by
    refine Vector.ext fun i hi => ?_
    rw [Vector.getElem_ofFn]
    refine readWord_field h (List.mem_append_right _ ?_)
    exact List.mem_map.2 ⟨⟨i, hi⟩, List.mem_finRange _, rfl⟩
  apply SigContext.ext
  case reserved => exact hreserved
  case cs | gs | fs | ss => exact readWord16_field h (by simp [fields])
  all_goals exact readWord_field h (by simp [fields])

end

end SigContext

/-! ### The context of a handler -/

def ucSize : ℕ := 424 + 512
def ucOffFlags : ℕ := 0
def ucOffLink : ℕ := 8
def ucOffStackSp : ℕ := 16
def ucOffStackFlags : ℕ := 24
def ucOffStackSize : ℕ := 32
def ucOffMcontext : ℕ := 40
def ucOffSigmask : ℕ := 296

/-- What `write_ucontext` writes, and where. -/
def ucontextFields (sigmask : UInt64) (alt : AltStack) (ctx : SigContext) : List (ℕ × List UInt8) :=
  [(ucOffFlags, .replicate 8 0), (ucOffLink, .replicate 8 0), (ucOffStackSp, word64 alt.sp),
    (ucOffStackFlags, word32 alt.flags), (ucOffStackFlags + 4, .replicate 4 0),
    (ucOffStackSize, word64 alt.size), (ucOffMcontext, read ctx.toBytes 0 SigContext.size),
    (ucOffSigmask, word64 sigmask), (ucOffSigmask + 8, .replicate 120 0)]

/-- `write_ucontext` into an empty buffer. -/
def writeUcontext (sigmask : UInt64) (alt : AltStack) (ctx : SigContext) : Memory :=
  writeAll zeros (ucontextFields sigmask alt ctx)

def readSigcontextFromUcontext (buf : Memory) : SigContext :=
  SigContext.fromBytes (write zeros 0 (read buf ucOffMcontext SigContext.size))

def readSigmaskFromUcontext (buf : Memory) : UInt64 := readWord buf ucOffSigmask

theorem pairwise_apart_ucontextFields (sigmask : UInt64) (alt : AltStack) (ctx : SigContext) :
    ((ucontextFields sigmask alt ctx).map block).Pairwise Apart := by
  have hblocks : (ucontextFields sigmask alt ctx).map block =
      [(0, 8), (8, 8), (16, 8), (24, 4), (28, 4), (32, 8), (40, 256), (296, 8), (304, 120)] := by
    simp [ucontextFields, block, ucOffFlags, ucOffLink, ucOffStackSp, ucOffStackFlags,
      ucOffStackSize, ucOffMcontext, ucOffSigmask, SigContext.size]
  rw [hblocks]
  decide

section

variable {sigmask : UInt64} {alt : AltStack} {ctx : SigContext} {buf : Memory}
  (h : ∀ a n, a + n ≤ ucSize → read buf a n = read (writeUcontext sigmask alt ctx) a n)
include h

theorem readSigmask_eq : readSigmaskFromUcontext buf = sigmask := by
  have hmem : (ucOffSigmask, word64 sigmask) ∈ ucontextFields sigmask alt ctx := by
    simp [ucontextFields]
  have hfield := read_writeAll zeros (pairwise_apart_ucontextFields sigmask alt ctx) hmem
  rw [length_word64] at hfield
  refine readWord_eq ?_
  rw [h _ _ (by decide)]
  exact hfield

theorem readSigcontext_eq : readSigcontextFromUcontext buf = ctx := by
  have hmem : (ucOffMcontext, read ctx.toBytes 0 SigContext.size) ∈
      ucontextFields sigmask alt ctx := by
    simp [ucontextFields]
  have hfield := read_writeAll zeros (pairwise_apart_ucontextFields sigmask alt ctx) hmem
  rw [length_read] at hfield
  refine SigContext.fromBytes_eq fun a n hn => ?_
  have hcopy := read_write_read zeros buf 0 ucOffMcontext hn
  rw [zero_add] at hcopy
  have hpart := read_part hfield hn
  rw [zero_add] at hpart
  have hle : ucOffMcontext + a + n ≤ ucSize := by
    have hroom : ucOffMcontext + SigContext.size ≤ ucSize := by decide
    omega
  rw [hcopy, h _ _ hle]
  exact hpart

end

end CypheraKernel.Signal
