import CypheraKernel.Errno
import CypheraKernel.Lib.Rust

/-!
# The BPF verifier and interpreter

`kernel/src/security/bpf.rs`: a filter is a list of 8-byte instructions, `verify` looks at each of
them once, and `run` interprets them over a packet with two registers and sixteen scratch words.

`runFrom`, `run`: the loop itself.  It needs no fuel, since every turn increases the program
counter (`pc_lt_of_step`).

Indexing and 64-bit additions are checked, so an interpreter that left its tables would show up as
a `Panic`.
-/

namespace CypheraKernel.Bpf

open Rust

/-- One instruction, `struct sock_filter`. -/
structure SockFilter where
  code : UInt16
  (jt jf : UInt8)
  k : UInt32
  deriving DecidableEq, Repr

/-! ### Opcodes -/

def bpfLd : UInt16 := 0x00
def bpfLdx : UInt16 := 0x01
def bpfSt : UInt16 := 0x02
def bpfStx : UInt16 := 0x03
def bpfAlu : UInt16 := 0x04
def bpfJmp : UInt16 := 0x05
def bpfRet : UInt16 := 0x06
def bpfMisc : UInt16 := 0x07

def bpfW : UInt16 := 0x00
def bpfH : UInt16 := 0x08
def bpfB : UInt16 := 0x10

def bpfImm : UInt16 := 0x00
def bpfAbs : UInt16 := 0x20
def bpfInd : UInt16 := 0x40
def bpfMem : UInt16 := 0x60
def bpfLen : UInt16 := 0x80
def bpfMsh : UInt16 := 0xa0

def bpfAdd : UInt16 := 0x00
def bpfSub : UInt16 := 0x10
def bpfMul : UInt16 := 0x20
def bpfDiv : UInt16 := 0x30
def bpfOr : UInt16 := 0x40
def bpfAnd : UInt16 := 0x50
def bpfLsh : UInt16 := 0x60
def bpfRsh : UInt16 := 0x70
def bpfNeg : UInt16 := 0x80
def bpfMod : UInt16 := 0x90
def bpfXor : UInt16 := 0xa0

def bpfJa : UInt16 := 0x00
def bpfJeq : UInt16 := 0x10
def bpfJgt : UInt16 := 0x20
def bpfJge : UInt16 := 0x30
def bpfJset : UInt16 := 0x40

def bpfK : UInt16 := 0x00
def bpfA : UInt16 := 0x10

def bpfTax : UInt16 := 0x00
def bpfTxa : UInt16 := 0x80

def scratchLen : ℕ := 16

def bpfMaxinsns : ℕ := 4096

namespace SockFilter

variable (ins : SockFilter)

/-- The instruction class, `code & 0x07`. -/
def cls : UInt16 := ins.code &&& 0x07

/-- The addressing mode of a load, `code & 0xe0`. -/
def mode : UInt16 := ins.code &&& 0xe0

/-- The access width of a load, `code & 0x18`. -/
def size : UInt16 := ins.code &&& 0x18

/-- The operation of an arithmetic or jump instruction, `code & 0xf0`. -/
def op : UInt16 := ins.code &&& 0xf0

/-- The second operand of an arithmetic or jump instruction: the constant or `X`. -/
def operand (x : UInt32) : UInt32 :=
  if ins.code &&& 0x08 = bpfK then ins.k else x

end SockFilter

/-! ### The verifier -/

/-- `k.saturating_add(size)`. -/
def saturatingAdd (k size : UInt32) : UInt32 :=
  if k.toNat + size.toNat < 2 ^ 32 then k + size else 0xffffffff

/-- The number of bytes of an access width, when it is one of the three known ones. -/
def widthBytes (size : UInt16) : Option UInt32 :=
  if size = bpfW then some 4 else if size = bpfH then some 2 else if size = bpfB then some 1 else none

/-- The check of a load: absolute packet loads stay below `packetLen`, scratch loads inside the
scratch memory.  `BPF_LD` and `BPF_LDX` share this check. -/
def checkLoad (packetLen : UInt32) (ins : SockFilter) : Except Errno Unit :=
  if ins.mode = bpfImm then .ok ()
  else if ins.mode = bpfAbs then
    match widthBytes ins.size with
    | none => .error .inval
    | some n => if saturatingAdd ins.k n > packetLen then .error .inval else .ok ()
  else if ins.mode = bpfInd then .ok ()
  else if ins.mode = bpfMem then
    if ins.k.toNat ≥ scratchLen then .error .inval else .ok ()
  else if ins.mode = bpfLen then .ok ()
  else if ins.mode = bpfMsh then .ok ()
  else .error .inval

/-- The check of a jump at `pc` in a program of `len` instructions. -/
def checkJump (len pc : ℕ) (ins : SockFilter) : Except Errno Unit :=
  let max := len - pc - 1
  if ins.op = bpfJa then
    if ins.k.toNat > max then .error .inval else .ok ()
  else if ins.op = bpfJeq ∨ ins.op = bpfJgt ∨ ins.op = bpfJge ∨ ins.op = bpfJset then
    if ins.jt.toNat > max ∨ ins.jf.toNat > max then .error .inval else .ok ()
  else .error .inval

/-- The arithmetic operations. -/
def aluOps : List UInt16 :=
  [bpfAdd, bpfSub, bpfMul, bpfDiv, bpfOr, bpfAnd, bpfLsh, bpfRsh, bpfNeg, bpfMod, bpfXor]

/-- The check of the instruction at `pc`. -/
def checkInsn (len : ℕ) (packetLen : UInt32) (pc : ℕ) (ins : SockFilter) : Except Errno Unit :=
  if ins.cls = bpfLd ∨ ins.cls = bpfLdx then checkLoad packetLen ins
  else if ins.cls = bpfSt ∨ ins.cls = bpfStx then
    if ins.k.toNat ≥ scratchLen then .error .inval else .ok ()
  else if ins.cls = bpfJmp then checkJump len pc ins
  else if ins.cls = bpfAlu then
    if ins.op ∉ aluOps then .error .inval else .ok ()
  else if ins.cls = bpfRet then .ok ()
  else if ins.cls = bpfMisc then
    if ins.code &&& 0xf8 ≠ bpfTax ∧ ins.code &&& 0xf8 ≠ bpfTxa then .error .inval else .ok ()
  else .error .inval

/-- The loop of `verify` over the instructions from `pc` on. -/
def checkFrom (len : ℕ) (packetLen : UInt32) : ℕ → List SockFilter → Except Errno Unit
  | _, [] => .ok ()
  | pc, ins :: rest => do
      checkInsn len packetLen pc ins
      checkFrom len packetLen (pc + 1) rest

/-- A program that `verify` accepts. -/
structure BpfProgram where
  insns : List SockFilter
  deriving DecidableEq

/-- `BpfProgram::verify`. -/
def verify (insns : List SockFilter) (packetLen : UInt32) : Except Errno BpfProgram :=
  if insns.isEmpty then .error .inval
  else if insns.length > bpfMaxinsns then .error .inval
  else do
    checkFrom insns.length packetLen 0 insns
    match insns.getLast? with
    | some last => if last.cls ≠ bpfRet then .error .inval else .ok ⟨insns⟩
    | none => .error .inval

/-! ### The interpreter -/

/-- The packet bytes of one load, zero when the packet is too short. -/
def readPacket (packet : List UInt8) (offset : ℕ) (size : UInt16) : Except Panic UInt32 :=
  if size = bpfW then do
    if (← usizeAdd offset 4) > packet.length then return 0
    let b0 ← index packet offset
    let b1 ← index packet (← usizeAdd offset 1)
    let b2 ← index packet (← usizeAdd offset 2)
    let b3 ← index packet (← usizeAdd offset 3)
    return .ofNat (leNat [b0, b1, b2, b3])
  else if size = bpfH then do
    if (← usizeAdd offset 2) > packet.length then return 0
    let b0 ← index packet offset
    let b1 ← index packet (← usizeAdd offset 1)
    return .ofNat (leNat [b0, b1])
  else if size = bpfB then do
    if offset ≥ packet.length then return 0
    let b0 ← index packet offset
    return .ofNat (leNat [b0])
  else return 0

/-- The registers, the scratch memory and the program counter. -/
structure State where
  (a x : UInt32)
  m : Vector UInt32 scratchLen
  pc : ℕ
  deriving DecidableEq

/-- The state before the first instruction. -/
def initial : State := ⟨0, 0, .replicate scratchLen 0, 0⟩

/-- Why the interpreter stopped; `pc` is the index of the instruction it stopped at. -/
inductive Halt
  | ret (pc : ℕ) (value : UInt32)
  | divByZero (pc : ℕ)
  | unimplemented (pc : ℕ)
  | leftProgram
  deriving DecidableEq

/-- The number `run` returns. -/
def Halt.value : Halt → UInt32
  | .ret _ v => v
  | _ => 0

/-- `m[k as usize]`. -/
def scratchGet (m : Vector UInt32 scratchLen) (k : UInt32) : Except Panic UInt32 :=
  if h : k.toNat < scratchLen then .ok m[k.toNat] else .error .indexOutOfBounds

/-- `m[k as usize] = v`. -/
def scratchSet (m : Vector UInt32 scratchLen) (k v : UInt32) :
    Except Panic (Vector UInt32 scratchLen) :=
  if h : k.toNat < scratchLen then .ok (m.set k.toNat v) else .error .indexOutOfBounds

section Exec

/- `s` is the state after the instruction at `pc` has been fetched, so `s.pc = pc + 1`. -/
variable (packet : List UInt8) (pc : ℕ) (ins : SockFilter) (s : State)

/-- The value a `BPF_LD` instruction puts into `A`, if the mode is one the interpreter knows. -/
def loadA : Except Panic (Option UInt32) :=
  if ins.mode = bpfImm then return some ins.k
  else if ins.mode = bpfAbs then some <$> readPacket packet ins.k.toNat ins.size
  else if ins.mode = bpfInd then some <$> readPacket packet (ins.k + s.x).toNat ins.size
  else if ins.mode = bpfMem then some <$> scratchGet s.m ins.k
  else if ins.mode = bpfLen then return some (.ofNat packet.length)
  else return none

/-- The value a `BPF_LDX` instruction puts into `X`, if the mode is one the interpreter knows. -/
def loadX : Except Panic (Option UInt32) :=
  if ins.mode = bpfImm then return some ins.k
  else if ins.mode = bpfMem then some <$> scratchGet s.m ins.k
  else if ins.mode = bpfLen then return some (.ofNat packet.length)
  else if ins.mode = bpfMsh then
    (fun v : UInt32 => some ((v &&& 0x0f) <<< 2)) <$> readPacket packet ins.k.toNat bpfB
  else return none

/-- The outcome of an arithmetic instruction. -/
inductive Alu
  | value (a : UInt32)
  | divByZero
  | unimplemented

/-- The arithmetic operation `op` on `a` and the second operand `v`. -/
def alu (op : UInt16) (a v : UInt32) : Alu :=
  if op = bpfAdd then .value (a + v)
  else if op = bpfSub then .value (a - v)
  else if op = bpfMul then .value (a * v)
  else if op = bpfDiv then if v = 0 then .divByZero else .value (a / v)
  else if op = bpfOr then .value (a ||| v)
  else if op = bpfAnd then .value (a &&& v)
  else if op = bpfLsh then .value (a <<< (v &&& 31))
  else if op = bpfRsh then .value (a >>> (v &&& 31))
  else if op = bpfNeg then .value (0 - a)
  else if op = bpfMod then if v = 0 then .divByZero else .value (a % v)
  else if op = bpfXor then .value (a ^^^ v)
  else .unimplemented

/-- The distance a jump instruction adds to the program counter, for the known operations. -/
def jumpOffset : Option ℕ :=
  let v := ins.operand s.x
  let branch (take : Bool) : Option ℕ := some (if take then ins.jt.toNat else ins.jf.toNat)
  if ins.op = bpfJa then some ins.k.toNat
  else if ins.op = bpfJeq then branch (s.a == v)
  else if ins.op = bpfJgt then branch (s.a > v)
  else if ins.op = bpfJge then branch (s.a ≥ v)
  else if ins.op = bpfJset then branch (s.a &&& v != 0)
  else none

def execMisc : State :=
  if ins.code &&& 0xf8 = bpfTax then { s with x := s.a }
  else if ins.code &&& 0xf8 = bpfTxa then { s with a := s.x }
  else s

/-- The body of the loop after the fetch. -/
def exec : Except Panic (State ⊕ Halt) :=
  if ins.cls = bpfLd then do
    match ← loadA packet ins s with
    | some v => return .inl { s with a := v }
    | none => return .inr (.unimplemented pc)
  else if ins.cls = bpfLdx then do
    match ← loadX packet ins s with
    | some v => return .inl { s with x := v }
    | none => return .inr (.unimplemented pc)
  else if ins.cls = bpfSt then do return .inl { s with m := ← scratchSet s.m ins.k s.a }
  else if ins.cls = bpfStx then do return .inl { s with m := ← scratchSet s.m ins.k s.x }
  else if ins.cls = bpfAlu then
    match alu ins.op s.a (ins.operand s.x) with
    | .value a => return .inl { s with a := a }
    | .divByZero => return .inr (.divByZero pc)
    | .unimplemented => return .inr (.unimplemented pc)
  else if ins.cls = bpfJmp then
    match jumpOffset ins s with
    | some d => do return .inl { s with pc := ← usizeAdd s.pc d }
    | none => return .inr (.unimplemented pc)
  else if ins.cls = bpfRet then
    return .inr (.ret pc (if ins.size = bpfA then s.a else ins.k))
  else if ins.cls = bpfMisc then return .inl (execMisc ins s)
  else return .inr (.unimplemented pc)

end Exec

/-- One turn of the loop `while pc < self.insns.len()`. -/
def step (p : BpfProgram) (packet : List UInt8) (s : State) : Except Panic (State ⊕ Halt) :=
  if s.pc < p.insns.length then do
    let ins ← index p.insns s.pc
    let pc' ← usizeAdd s.pc 1
    exec packet s.pc ins { s with pc := pc' }
  else return .inr .leftProgram

/-! ### The loop -/

@[simp] theorem execMisc_pc (ins : SockFilter) (s : State) : (execMisc ins s).pc = s.pc := by
  unfold execMisc
  split_ifs <;> rfl

variable {packet : List UInt8} {s s' : State} {p : BpfProgram}

/-- After the fetch an instruction leaves the program counter alone or, if it is a jump, adds the
distance of the jump to it. -/
theorem exec_pc {pc : ℕ} {ins : SockFilter} (h : exec packet pc ins s = .ok (.inl s')) :
    (ins.cls ≠ bpfRet ∧ s'.pc = s.pc) ∨
      (ins.cls = bpfJmp ∧ ∃ d, jumpOffset ins s = some d ∧ s'.pc = s.pc + d) := by
  unfold exec at h
  split_ifs at h with h1 h2 h3 h4 h5 h6 h7
  · obtain ⟨v, -, h⟩ := bind_eq_ok.1 h
    cases v <;> cases h
    exact .inl ⟨by rw [h1]; decide, rfl⟩
  · obtain ⟨v, -, h⟩ := bind_eq_ok.1 h
    cases v <;> cases h
    exact .inl ⟨by rw [h2]; decide, rfl⟩
  · obtain ⟨m, -, h⟩ := bind_eq_ok.1 h
    cases h
    exact .inl ⟨by rw [h3]; decide, rfl⟩
  · obtain ⟨m, -, h⟩ := bind_eq_ok.1 h
    cases h
    exact .inl ⟨by rw [h4]; decide, rfl⟩
  · split at h <;> cases h
    exact .inl ⟨by rw [h5]; decide, rfl⟩
  · split at h
    · rename_i d hd
      obtain ⟨t, ht, h⟩ := bind_eq_ok.1 h
      cases h
      exact .inr ⟨h6, d, hd, usizeAdd_eq_ok ht⟩
    · cases h
  · cases h
  · cases h
  · cases h
    exact .inl ⟨h7, execMisc_pc ins s⟩
  · cases h

/-- A turn of the loop that goes on has executed the instruction at the program counter. -/
theorem step_eq_inl (h : step p packet s = .ok (.inl s')) :
    ∃ ins, p.insns[s.pc]? = some ins ∧
      exec packet s.pc ins { s with pc := s.pc + 1 } = .ok (.inl s') := by
  unfold step at h
  split_ifs at h with hlt
  · grind [bind_eq_ok, usizeAdd_eq_ok, index_eq_ok]
  · cases h

/-- Every turn of the loop increases the program counter. -/
theorem pc_lt_of_step
    (h : step p packet s = .ok (.inl s')) : s.pc < p.insns.length ∧ s.pc < s'.pc := by
  obtain ⟨ins, hins, h⟩ := step_eq_inl h
  refine ⟨(List.getElem?_eq_some_iff.1 hins).1, ?_⟩
  rcases exec_pc h with ⟨-, hpc⟩ | ⟨-, d, -, hpc⟩ <;> simp only at hpc <;> omega

/-- The loop from a given state on. -/
def runFrom (p : BpfProgram) (packet : List UInt8) (s : State) : Except Panic Halt :=
  match _h : step p packet s with
  | .error e => .error e
  | .ok (.inr halt) => .ok halt
  | .ok (.inl s') => runFrom p packet s'
termination_by p.insns.length - s.pc
decreasing_by have := pc_lt_of_step _h; omega

/-- `BpfProgram::run`. -/
def run (p : BpfProgram) (packet : List UInt8) : Except Panic UInt32 := do
  return (← runFrom p packet initial).value

end CypheraKernel.Bpf
