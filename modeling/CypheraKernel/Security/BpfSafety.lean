import CypheraKernel.Security.Bpf

/-!
# Verified BPF programs run safely

What an accepted program can do.  `Verified` collects what `verify` has checked, `exec_checked`
says what a checked instruction can do (go on inside the program, or stop for one of three
reasons), and an induction over the turns of the loop carries this to whole runs:

* `run_stops`: a run stops at a return, at a division by zero, or after a jump to the end of the
  program, provided that it comes to no load that the verifier knows and the interpreter does not
  (`UnsupportedLoad`);
* `run_bounded_safe`: no run panics, every scratch access is in bounds, at most as many
  instructions are executed as the program has, and absolute loads read the packet in
  little-endian order.
-/

namespace CypheraKernel.Bpf

open Rust

/-! ### What the verifier has checked -/

/-- The facts `verify` establishes about an accepted program. -/
structure Verified (p : BpfProgram) (packetLen : UInt32) : Prop where
  pos : 0 < p.insns.length
  length_le : p.insns.length ≤ bpfMaxinsns
  checked : ∀ pc ins, p.insns[pc]? = some ins →
    checkInsn p.insns.length packetLen pc ins = .ok ()
  last_ret : ∀ ins, p.insns.getLast? = some ins → ins.cls = bpfRet

variable {packetLen : UInt32} {ins : SockFilter} {len pc offset : ℕ} {s : State}
  {insns : List SockFilter} {size : UInt16}

theorem checkFrom_eq_ok (h : checkFrom len packetLen pc insns = .ok ()) (i : ℕ) (ins : SockFilter)
    (hi : insns[i]? = some ins) : checkInsn len packetLen (pc + i) ins = .ok () := by
  induction insns generalizing pc i with
  | nil => simp at hi
  | cons ins' rest ih =>
    obtain ⟨⟨⟩, h1, h2⟩ := bind_eq_ok.1 h
    cases i with
    | zero =>
      obtain rfl : ins' = ins := by simpa using hi
      exact h1
    | succ i =>
      rw [show pc + (i + 1) = pc + 1 + i by omega]
      exact ih h2 i (by simpa using hi)

theorem verified_of_verify {p : BpfProgram}
    (h : verify insns packetLen = .ok p) : p.insns = insns ∧ Verified p packetLen := by
  unfold verify at h
  split_ifs at h with h1 h2
  obtain ⟨⟨⟩, hc, h⟩ := bind_eq_ok.1 h
  split at h
  · split_ifs at h with h3
    cases h
    refine ⟨rfl, ?_, by simpa using h2, ?_, ?_⟩
    · exact List.length_pos_iff.2 (by simpa using h1)
    · intro pc ins hi
      simpa using checkFrom_eq_ok hc pc ins hi
    · grind
  · cases h

/-! ### Checked instructions -/

theorem usizeAdd_lt {a b : ℕ} (h : a < 2 ^ 32) (hb : b ≤ 2 ^ 32) : usizeAdd a b = .ok (a + b) :=
  usizeAdd_eq (by unfold usizeBound; omega)

/-- A load inside the packet reads the bytes there, least significant first. -/
theorem readPacket_inside {packet : List UInt8} {n : UInt32} (ho : offset < 2 ^ 32)
    (hn : widthBytes size = some n) (hle : offset + n.toNat ≤ packet.length) :
    readPacket packet offset size = .ok (.ofNat (leNat ((packet.drop offset).take n.toNat))) := by
  have add (b : ℕ) (hb : b ≤ 4) : usizeAdd offset b = .ok (offset + b) := usizeAdd_lt ho (by omega)
  have get (b : ℕ) := index_add packet offset b
  have get0 : index packet offset = index (packet.drop offset) 0 := get 0
  have hd : n.toNat ≤ (packet.drop offset).length := by rw [List.length_drop]; omega
  unfold widthBytes at hn
  unfold readPacket
  split_ifs at hn ⊢ with h1 h2 h3 h4 <;> cases hn
  · obtain ⟨b0, b1, b2, b3, rest, hb⟩ : ∃ b0 b1 b2 b3 rest,
        packet.drop offset = b0 :: b1 :: b2 :: b3 :: rest := by
      match h : packet.drop offset, hd with
      | b0 :: b1 :: b2 :: b3 :: rest, _ => exact ⟨b0, b1, b2, b3, rest, rfl⟩
    have hle : ¬ offset + 4 > packet.length := by simpa using hle
    simp [add, get, get0, hb, hle]
  · obtain ⟨b0, b1, rest, hb⟩ : ∃ b0 b1 rest, packet.drop offset = b0 :: b1 :: rest := by
      match h : packet.drop offset, hd with
      | b0 :: b1 :: rest, _ => exact ⟨b0, b1, rest, rfl⟩
    have hle : ¬ offset + 2 > packet.length := by simpa using hle
    simp [add, get, get0, hb, hle]
  · grind
  · obtain ⟨b0, rest, hb⟩ : ∃ b0 rest, packet.drop offset = b0 :: rest := by
      match h : packet.drop offset, hd with
      | b0 :: rest, _ => exact ⟨b0, rest, rfl⟩
    simp [get0, hb]

variable (packet : List UInt8) {m : Vector UInt32 scratchLen}

/-- No load from a packet panics. -/
theorem readPacket_ok (ho : offset < 2 ^ 32) (size : UInt16) :
    ∃ v, readPacket packet offset size = .ok v := by
  cases hn : widthBytes size with
  | none =>
    unfold widthBytes at hn
    split_ifs at hn with h1 h2 h3
    exact ⟨0, by simp [readPacket, h1, h2, h3]⟩
  | some n =>
    by_cases hle : offset + n.toNat ≤ packet.length
    · exact ⟨_, readPacket_inside ho hn hle⟩
    refine ⟨0, ?_⟩
    have add (b : ℕ) (hb : b ≤ 4) : usizeAdd offset b = .ok (offset + b) :=
      usizeAdd_lt ho (by omega)
    unfold widthBytes at hn
    unfold readPacket
    split_ifs at hn ⊢ with h1 h2 h3 <;> cases hn
    · simp_all
    · simp_all
    · rfl
    · grind

/-- The value of a load of at most four bytes fits into a register. -/
theorem toNat_ofNat_leNat {bs : List UInt8} (h : bs.length ≤ 4) :
    (UInt32.ofNat (leNat bs)).toNat = leNat bs := by
  have h1 := leNat_lt bs
  have h2 : 256 ^ bs.length ≤ 256 ^ 4 := Nat.pow_le_pow_right (by decide) h
  rw [UInt32.toNat_ofNat', Nat.mod_eq_of_lt (by omega)]

theorem widthBytes_le {w : UInt32} (h : widthBytes size = some w) : w.toNat ≤ 4 := by
  unfold widthBytes at h
  split_ifs at h <;> cases h <;> decide

theorem scratchGet_ok {k : UInt32} (h : k.toNat < scratchLen) :
    ∃ v, scratchGet m k = .ok v := ⟨_, dif_pos h⟩

theorem scratchSet_ok {k v : UInt32} (h : k.toNat < scratchLen) :
    ∃ m', scratchSet m k v = .ok m' := ⟨_, dif_pos h⟩

/-- A load with a mode that `verify` accepts for its class and `run` does not implement. -/
def UnsupportedLoad (ins : SockFilter) : Prop :=
  (ins.cls = bpfLd ∧ ins.mode = bpfMsh) ∨
    (ins.cls = bpfLdx ∧ (ins.mode = bpfAbs ∨ ins.mode = bpfInd))
  deriving Decidable

/-- The instructions that address the scratch memory. -/
def UsesScratch (ins : SockFilter) : Prop :=
  ((ins.cls = bpfLd ∨ ins.cls = bpfLdx) ∧ ins.mode = bpfMem) ∨ ins.cls = bpfSt ∨ ins.cls = bpfStx

section

variable (h : checkLoad packetLen ins = .ok ())

include h

/-- The scratch index of a checked scratch load is in bounds. -/
theorem mem_lt_of_checkLoad (hm : ins.mode = bpfMem) : ins.k.toNat < scratchLen := by
  simp_all [checkLoad, bpfMem, bpfImm, bpfAbs, bpfInd]

/-- The end of a checked absolute load, saturated to 32 bits, is inside the packet. -/
theorem abs_le_of_checkLoad (hm : ins.mode = bpfAbs) :
    ∃ w, widthBytes ins.size = some w ∧ saturatingAdd ins.k w ≤ packetLen := by
  rw [checkLoad, hm, if_neg (by decide), if_pos rfl] at h
  grind

/-- The modes that pass the check. -/
theorem mode_of_checkLoad : ins.mode ∈ [bpfImm, bpfAbs, bpfInd, bpfMem, bpfLen, bpfMsh] := by
  unfold checkLoad at h
  split_ifs at h <;> simp [*]

end

/-- Every scratch index of a checked instruction is in bounds. -/
theorem UsesScratch.lt_scratchLen (h : UsesScratch ins)
    (hc : checkInsn len packetLen pc ins = .ok ()) : ins.k.toNat < scratchLen := by
  unfold checkInsn at hc
  rcases h with ⟨hcls, hmode⟩ | hcls
  · rw [if_pos hcls] at hc
    exact mem_lt_of_checkLoad hc hmode
  · rw [if_neg (by rcases hcls with h | h <;> rw [h] <;> decide), if_pos hcls] at hc
    split_ifs at hc with hk
    exact Nat.not_le.1 hk

/-- A checked `BPF_LD` delivers a value, unless its mode is `BPF_MSH`. -/
theorem loadA_checked (s : State) (h : checkLoad packetLen ins = .ok ()) :
    (∃ v, loadA packet ins s = .ok (some v)) ∨
      (ins.mode = bpfMsh ∧ loadA packet ins s = .ok none) := by
  have hk : ins.k.toNat < 2 ^ 32 := ins.k.toNat_lt
  have hx : (ins.k + s.x).toNat < 2 ^ 32 := (ins.k + s.x).toNat_lt
  have hmode := mode_of_checkLoad h
  unfold loadA
  split_ifs with h1 h2 h3 h4 h5
  · exact .inl ⟨_, rfl⟩
  · obtain ⟨v, hv⟩ := readPacket_ok packet hk ins.size
    exact .inl ⟨v, by rw [hv]; rfl⟩
  · obtain ⟨v, hv⟩ := readPacket_ok packet hx ins.size
    exact .inl ⟨v, by rw [hv]; rfl⟩
  · obtain ⟨v, hv⟩ := scratchGet_ok (m := s.m) (mem_lt_of_checkLoad h h4)
    exact .inl ⟨v, by rw [hv]; rfl⟩
  · exact .inl ⟨_, rfl⟩
  · exact .inr ⟨by simpa [h1, h2, h3, h4, h5] using hmode, rfl⟩

/-- A checked `BPF_LDX` delivers a value, unless its mode is that of a packet load. -/
theorem loadX_checked (s : State) (h : checkLoad packetLen ins = .ok ()) :
    (∃ v, loadX packet ins s = .ok (some v)) ∨
      ((ins.mode = bpfAbs ∨ ins.mode = bpfInd) ∧ loadX packet ins s = .ok none) := by
  have hk : ins.k.toNat < 2 ^ 32 := ins.k.toNat_lt
  have hmode := mode_of_checkLoad h
  unfold loadX
  split_ifs with h1 h2 h3 h4
  · exact .inl ⟨_, rfl⟩
  · obtain ⟨v, hv⟩ := scratchGet_ok (m := s.m) (mem_lt_of_checkLoad h h2)
    exact .inl ⟨v, by rw [hv]; rfl⟩
  · exact .inl ⟨_, rfl⟩
  · obtain ⟨v, hv⟩ := readPacket_ok packet hk bpfB
    exact .inl ⟨_, by rw [hv]; rfl⟩
  · exact .inr ⟨by simpa [h1, h2, h3, h4] using hmode, rfl⟩

/-- An accepted arithmetic operation has a value, unless it divides by zero. -/
theorem alu_checked {op : UInt16} (h : op ∈ aluOps) (a v : UInt32) :
    (∃ r, alu op a v = .value r) ∨
      ((op = bpfDiv ∨ op = bpfMod) ∧ v = 0 ∧ alu op a v = .divByZero) := by
  simp only [aluOps, List.mem_cons, List.not_mem_nil, or_false] at h
  rcases h with rfl | rfl | rfl | rfl | rfl | rfl | rfl | rfl | rfl | rfl | rfl
  case inr.inr.inr.inl =>
    by_cases hv : v = 0
    · exact .inr ⟨.inl rfl, hv, if_pos hv⟩
    · exact .inl ⟨_, if_neg hv⟩
  case inr.inr.inr.inr.inr.inr.inr.inr.inr.inl =>
    by_cases hv : v = 0
    · exact .inr ⟨.inr rfl, hv, if_pos hv⟩
    · exact .inl ⟨_, if_neg hv⟩
  all_goals exact .inl ⟨_, rfl⟩

/-- A checked jump has a target, at most the end of the program. -/
theorem jumpOffset_checked (h : checkJump len pc ins = .ok ())
    (s : State) : ∃ d, jumpOffset ins s = some d ∧ d ≤ len - pc - 1 := by
  grind [checkJump, jumpOffset]

/-- The reasons for which a checked instruction at `pc` stops the interpreter in state `s`. -/
inductive Stops (pc : ℕ) (ins : SockFilter) (s : State) : Halt → Prop
  | ret (h : ins.cls = bpfRet) : Stops pc ins s (.ret pc (if ins.size = bpfA then s.a else ins.k))
  | divByZero (h : ins.cls = bpfAlu) (hop : ins.op = bpfDiv ∨ ins.op = bpfMod)
      (hv : ins.operand s.x = 0) : Stops pc ins s (.divByZero pc)
  | unsupported (h : UnsupportedLoad ins) : Stops pc ins s (.unimplemented pc)

/-- A checked instruction goes on inside the program or stops for a known reason; it never
panics. -/
theorem exec_checked (hc : checkInsn len packetLen pc ins = .ok ()) (hlen : len ≤ bpfMaxinsns)
    (hpc : pc < len) (hs : s.pc = pc + 1) :
    (∃ s', exec packet pc ins s = .ok (.inl s') ∧ s'.pc ≤ len) ∨
      (∃ h, exec packet pc ins s = .ok (.inr h) ∧ Stops pc ins s h) := by
  have hle : s.pc ≤ len := by omega
  unfold checkInsn at hc
  unfold exec
  split_ifs at hc with h1 h2 h3 h4 h5 h6 h7 h8 h9
  · rcases h1 with h1 | h1
    · rw [if_pos h1]
      rcases loadA_checked packet s hc with ⟨v, hv⟩ | ⟨hm, hv⟩
      · exact .inl ⟨{ s with a := v }, by simp [hv], hle⟩
      · exact .inr ⟨_, by simp [hv], .unsupported (.inl ⟨h1, hm⟩)⟩
    · rw [if_neg (by rw [h1]; decide), if_pos h1]
      rcases loadX_checked packet s hc with ⟨v, hv⟩ | ⟨hm, hv⟩
      · exact .inl ⟨{ s with x := v }, by simp [hv], hle⟩
      · exact .inr ⟨_, by simp [hv], .unsupported (.inr ⟨h1, hm⟩)⟩
  · rw [if_neg (fun h => h1 (.inl h)), if_neg (fun h => h1 (.inr h))]
    rcases h2 with h2 | h2
    · obtain ⟨m, hm⟩ := scratchSet_ok (m := s.m) (v := s.a) (Nat.not_le.1 h3)
      simp_all
    · obtain ⟨m, hm⟩ := scratchSet_ok (m := s.m) (v := s.x) (Nat.not_le.1 h3)
      rw [if_neg (by rw [h2]; decide), if_pos h2]
      exact .inl ⟨{ s with m := m }, by simp [hm], hle⟩
  · obtain ⟨d, hd, hdle⟩ := jumpOffset_checked hc s
    have ht : usizeAdd s.pc d = .ok (s.pc + d) := by
      refine usizeAdd_eq ?_
      unfold usizeBound bpfMaxinsns at *
      omega
    rw [h4]
    exact .inl ⟨{ s with pc := s.pc + d },
      by simp [bpfJmp, bpfLd, bpfLdx, bpfSt, bpfStx, bpfAlu, hd, ht], by simp only; omega⟩
  · rw [h5]
    rcases alu_checked h6 s.a (ins.operand s.x) with ⟨r, hr⟩ | ⟨hop, hv, hr⟩
    · simp_all
    · exact .inr ⟨_, by simp [bpfLd, bpfLdx, bpfSt, bpfStx, bpfAlu, hr], .divByZero h5 hop hv⟩
  · rw [h7]
    exact .inr ⟨_, by simp [bpfJmp, bpfLd, bpfLdx, bpfSt, bpfStx, bpfAlu, bpfRet], .ret h7⟩
  · rw [h8]
    exact .inl ⟨execMisc ins s,
      by simp [bpfJmp, bpfLd, bpfLdx, bpfSt, bpfStx, bpfAlu, bpfRet, bpfMisc],
      by rw [execMisc_pc]; exact hle⟩

/-! ### Whole runs -/

/-- Compare the first packet word with one and return one of two constants. -/
def compareProgram : List SockFilter :=
  [⟨bpfLd ||| bpfW ||| bpfAbs, 0, 0, 0⟩, ⟨bpfJmp ||| bpfJeq ||| bpfK, 0, 1, 1⟩,
    ⟨bpfRet, 0, 0, 0x7fff0000⟩, ⟨bpfRet, 0, 0, 0⟩]

/-- Divide by the constant zero. -/
def divProgram : List SockFilter :=
  [⟨bpfLd ||| bpfImm, 0, 0, 100⟩, ⟨bpfAlu ||| bpfDiv ||| bpfK, 0, 0, 0⟩, ⟨bpfRet, 0, 0, 0xbad⟩]

/-- Jump over the last instruction. -/
def jumpProgram : List SockFilter := [⟨bpfJmp ||| bpfJa, 0, 0, 1⟩, ⟨bpfRet, 0, 0, 1⟩]

/-- A load into the accumulator with the mode `BPF_MSH`. -/
def mshProgram : List SockFilter := [⟨bpfLd ||| bpfMsh, 0, 0, 0⟩, ⟨bpfRet, 0, 0, 1⟩]

/-- Jump over such a load. -/
def skipProgram : List SockFilter :=
  [⟨bpfJmp ||| bpfJa, 0, 0, 1⟩, ⟨bpfLd ||| bpfMsh, 0, 0, 0⟩, ⟨bpfRet, 0, 0, 1⟩]

/-- The state `s` is reached after `n` turns of the loop. -/
inductive Reaches (p : BpfProgram) (packet : List UInt8) : ℕ → State → Prop
  | start : Reaches p packet 0 initial
  | turn {n : ℕ} {s s' : State} (h : Reaches p packet n s) (hs : step p packet s = .ok (.inl s')) :
      Reaches p packet (n + 1) s'

variable {p : BpfProgram} {packetLen : UInt32} {packet} {n : ℕ}

/-- The program counter is at least the number of executed instructions. -/
theorem Reaches.le_pc (h : Reaches p packet n s) : n ≤ s.pc := by
  induction h with
  | start => exact Nat.zero_le _
  | turn _ hs ih => have := pc_lt_of_step hs; omega

theorem step_inside (hi : p.insns[s.pc]? = some ins) (hlen : p.insns.length ≤ bpfMaxinsns) :
    step p packet s = exec packet s.pc ins { s with pc := s.pc + 1 } := by
  obtain ⟨hlt, rfl⟩ := List.getElem?_eq_some_iff.1 hi
  have ht : usizeAdd s.pc 1 = .ok (s.pc + 1) := by
    refine usizeAdd_eq ?_
    unfold usizeBound bpfMaxinsns at *
    omega
  simp [step, hlt, index_eq hlt, ht]

section

variable (hv : Verified p packetLen)

include hv

section

variable (packet)

/-- What one turn of the loop of a verified program does. -/
theorem Verified.step_cases (s : State) :
    (p.insns.length ≤ s.pc ∧ step p packet s = .ok (.inr .leftProgram)) ∨
      ∃ ins, p.insns[s.pc]? = some ins ∧
        ((∃ s', step p packet s = .ok (.inl s') ∧ s'.pc ≤ p.insns.length) ∨
          (∃ h, step p packet s = .ok (.inr h) ∧ Stops s.pc ins { s with pc := s.pc + 1 } h)) := by
  by_cases hlt : s.pc < p.insns.length
  · have hi : p.insns[s.pc]? = some p.insns[s.pc] := List.getElem?_eq_getElem hlt
    refine .inr ⟨_, hi, ?_⟩
    rw [step_inside hi hv.length_le]
    exact exec_checked packet (hv.checked _ _ hi) hv.length_le hlt rfl
  · exact .inl ⟨Nat.not_lt.1 hlt, by simp [step, hlt]⟩

theorem Verified.step_ok (s : State) : ∃ r, step p packet s = .ok r := by
  rcases hv.step_cases packet s with ⟨-, h⟩ | ⟨ins, -, ⟨s', h, -⟩ | ⟨h', h, -⟩⟩
  exacts [⟨_, h⟩, ⟨_, h⟩, ⟨_, h⟩]

/-- A run of a verified program stops after some number of turns. -/
theorem Verified.exists_halt (hr : Reaches p packet n s) :
    ∃ m t h, Reaches p packet m t ∧ step p packet t = .ok (.inr h) ∧
      runFrom p packet s = .ok h := by
  induction hd : p.insns.length - s.pc using Nat.strong_induction_on generalizing n s with
  | _ d ih =>
    obtain ⟨s' | h, hs⟩ := hv.step_ok packet s
    · obtain ⟨hlt, hpc⟩ := pc_lt_of_step hs
      obtain ⟨m, t, h, hm, ht, hrun⟩ := ih (p.insns.length - s'.pc) (by omega) (hr.turn hs) rfl
      refine ⟨m, t, h, hm, ht, ?_⟩
      rw [runFrom]
      split <;> simp_all
    · grind [runFrom]

theorem Verified.run_ok : ∃ v, run p packet = .ok v := by
  obtain ⟨m, t, h, -, -, hrun⟩ := hv.exists_halt packet .start
  exact ⟨h.value, by rw [run, hrun]; rfl⟩

end

/-- The loop can only be left at the end of the program, and only a jump leads there: the last
instruction is a return, so it has no successor. -/
theorem Verified.jump_of_end (hr : Reaches p packet n s) (he : p.insns.length ≤ s.pc) :
    s.pc = p.insns.length ∧ ∃ m t ins d, Reaches p packet m t ∧ step p packet t = .ok (.inl s) ∧
      p.insns[t.pc]? = some ins ∧ ins.cls = bpfJmp ∧ jumpOffset ins t = some d ∧
        t.pc + 1 + d = p.insns.length := by
  have hpos := hv.pos
  cases hr with
  | start => simp only [initial] at he; omega
  | @turn m t s hr hs =>
    have hle : s.pc ≤ p.insns.length := by
      rcases hv.step_cases packet t with ⟨-, h⟩ | ⟨ins, -, ⟨s', h, hle⟩ | ⟨h', h, -⟩⟩ <;>
        rw [hs] at h <;> cases h
      exact hle
    obtain ⟨ins, hi, hex⟩ := step_eq_inl hs
    refine ⟨by omega, m, t, ins, ?_⟩
    rcases exec_pc hex with ⟨hcls, hpc⟩ | ⟨hcls, d, hd, hpc⟩ <;> simp only at hpc
    · -- falling through to the end would mean that `ins` is the last instruction
      refine absurd (hv.last_ret ins ?_) hcls
      rw [List.getLast?_eq_getElem?, ← hi]
      congr 1
      omega
    · exact ⟨d, hr, hs, hi, hcls, hd, by omega⟩

end

/-- **How a run ends.**  A verified program without unsupported loads stops at one of its return
instructions, with the constant or the accumulator as the result, or at a division or modulo by a
zero operand, or after a jump whose target is the end of the program. -/
theorem run_stops {insns : List SockFilter} (hv : verify insns packetLen = .ok p)
    (packet : List UInt8) (hload : ∀ n s, Reaches p packet n s → ∀ ins ∈ insns[s.pc]?,
      ¬ UnsupportedLoad ins) :
    ∃ n s h, Reaches p packet n s ∧ step p packet s = .ok (.inr h) ∧ run p packet = .ok h.value ∧
      ((∃ ins, insns[s.pc]? = some ins ∧ ins.cls = bpfRet ∧
          h = .ret s.pc (if ins.size = bpfA then s.a else ins.k)) ∨
        (∃ ins, insns[s.pc]? = some ins ∧ ins.cls = bpfAlu ∧ (ins.op = bpfDiv ∨ ins.op = bpfMod) ∧
          ins.operand s.x = 0 ∧ h = .divByZero s.pc) ∨
        (h = .leftProgram ∧ s.pc = insns.length ∧ ∃ m t ins d, Reaches p packet m t ∧
          step p packet t = .ok (.inl s) ∧ insns[t.pc]? = some ins ∧ ins.cls = bpfJmp ∧
            jumpOffset ins t = some d ∧ t.pc + 1 + d = insns.length)) := by
  obtain ⟨rfl, hp⟩ := verified_of_verify hv
  obtain ⟨n, s, h, hr, hs, hrun⟩ := hp.exists_halt packet .start
  refine ⟨n, s, h, hr, hs, by rw [run, hrun]; rfl, ?_⟩
  rcases hp.step_cases packet s with ⟨he, h'⟩ | ⟨ins, hi, ⟨s', h', -⟩ | ⟨h'', h', hstop⟩⟩ <;>
    rw [hs] at h' <;> cases h'
  · exact .inr (.inr ⟨rfl, hp.jump_of_end hr he⟩)
  · cases hstop with
    | ret hcls => exact .inl ⟨ins, hi, hcls, rfl⟩
    | divByZero hcls hop hz => exact .inr (.inl ⟨ins, hi, hcls, hop, hz, rfl⟩)
    | unsupported hu => exact absurd hu (hload n s hr ins hi)

/-- A program stops at its return although it has a load that is not supported. -/
theorem run_stops_skip : ∃ n s h, Reaches ⟨skipProgram⟩ [] n s ∧
    step ⟨skipProgram⟩ [] s = .ok (.inr h) ∧ run ⟨skipProgram⟩ [] = .ok h.value := by
  have hreached (n : ℕ) (s : State) (hr : Reaches ⟨skipProgram⟩ [] n s) :
      s = initial ∨ s = { initial with pc := 2 } := by
    induction hr with
    | start => exact .inl rfl
    | turn hr hs ih =>
      rcases ih with rfl | rfl <;> cases hs
      exact .inr rfl
  have hload (n : ℕ) (s : State) (hr : Reaches ⟨skipProgram⟩ [] n s) :
      ∀ ins ∈ skipProgram[s.pc]?, ¬ UnsupportedLoad ins := by
    rcases hreached n s hr with rfl | rfl <;> decide
  obtain ⟨n, s, h, hr, hs, hrun, -⟩ :=
    run_stops (show verify skipProgram 0 = .ok ⟨skipProgram⟩ by decide) [] hload
  exact ⟨n, s, h, hr, hs, hrun⟩

/-- Accepted programs that stop elsewhere than at a return or a division by a zero `X`: at a
division by the constant zero, behind a jump to the end of the program, and at an unsupported
load. -/
theorem run_stops_elsewhere :
    (verify divProgram 0 = .ok ⟨divProgram⟩ ∧
        runFrom ⟨divProgram⟩ [] initial = .ok (.divByZero 1) ∧
        divProgram[1]?.map (fun ins => ins.code &&& 0x08) = some bpfK) ∧
      (verify jumpProgram 0 = .ok ⟨jumpProgram⟩ ∧
        runFrom ⟨jumpProgram⟩ [] initial = .ok .leftProgram) ∧
      (verify mshProgram 0 = .ok ⟨mshProgram⟩ ∧
        runFrom ⟨mshProgram⟩ [] initial = .ok (.unimplemented 0)) := by
  decide +kernel

/-- **Bounded and memory-safe execution.**  A verified program returns on every packet that is long
enough; no turn of its loop panics and it executes at most as many instructions as it has; every
scratch index is in bounds; and an absolute load whose end is a 32-bit offset puts the packet bytes
at its offset, in little-endian order, into the accumulator. -/
theorem run_bounded_safe {insns : List SockFilter} (hv : verify insns packetLen = .ok p)
    {packet : List UInt8} (hlen : packetLen.toNat ≤ packet.length) :
    (∃ v, run p packet = .ok v) ∧
      ∀ n s, Reaches p packet n s →
        (∃ r, step p packet s = .ok r) ∧ (s.pc < insns.length → n < insns.length) ∧
        ∀ ins, insns[s.pc]? = some ins →
          (UsesScratch ins → ins.k.toNat < scratchLen) ∧
          (ins.cls = bpfLd → ins.mode = bpfAbs → ∃ w, widthBytes ins.size = some w ∧
            (ins.k.toNat + w.toNat < 2 ^ 32 → ins.k.toNat + w.toNat ≤ packet.length ∧
              ∃ s', step p packet s = .ok (.inl s') ∧
                s'.a.toNat = leNat ((packet.drop ins.k.toNat).take w.toNat))) := by
  obtain ⟨rfl, hp⟩ := verified_of_verify hv
  refine ⟨hp.run_ok packet, fun n s hr => ⟨hp.step_ok packet s, ?_, fun ins hi => ⟨?_, ?_⟩⟩⟩
  · intro hlt
    exact lt_of_le_of_lt hr.le_pc hlt
  · exact fun hu => hu.lt_scratchLen (hp.checked _ _ hi)
  intro hcls hmode
  have hc := hp.checked _ _ hi
  rw [checkInsn, if_pos (.inl hcls)] at hc
  obtain ⟨w, hw, hle⟩ := abs_le_of_checkLoad hc hmode
  refine ⟨w, hw, fun hsmall => ?_⟩
  -- without saturation the check bounds the real end of the load
  have hend : ins.k.toNat + w.toNat ≤ packet.length := by
    rw [saturatingAdd, if_pos hsmall, UInt32.le_iff_toNat_le, UInt32.toNat_add,
      Nat.mod_eq_of_lt hsmall] at hle
    omega
  refine ⟨hend, { s with
    a := .ofNat (leNat ((packet.drop ins.k.toNat).take w.toNat)), pc := s.pc + 1 }, ?_, ?_⟩
  · rw [step_inside hi hp.length_le, exec, if_pos hcls, loadA, hmode, if_neg (by decide), if_pos rfl,
      readPacket_inside (UInt32.toNat_lt _) hw hend]
    rfl
  · grind [widthBytes_le, toNat_ofNat_leNat]

theorem run_bounded_safe_compare :
    verify compareProgram 4 = .ok ⟨compareProgram⟩ ∧
      ∃ v, run ⟨compareProgram⟩ [1, 0, 0, 0] = .ok v :=
  ⟨by decide, (run_bounded_safe (show verify compareProgram 4 = .ok ⟨compareProgram⟩ by decide)
    (show (4 : UInt32).toNat ≤ [(1 : UInt8), 0, 0, 0].length by decide)).1⟩

/-- An absolute load does not read the packet in big-endian order: the word `1, 0, 0, 0` gives
`1`. -/
theorem absolute_load_not_big_endian :
    ¬ ∀ (insns : List SockFilter) (packetLen : UInt32) (p : BpfProgram) (packet : List UInt8),
      verify insns packetLen = .ok p → packetLen.toNat ≤ packet.length →
      ∀ n s s' ins w, Reaches p packet n s → insns[s.pc]? = some ins → ins.cls = bpfLd →
        ins.mode = bpfAbs → widthBytes ins.size = some w → step p packet s = .ok (.inl s') →
        s'.a.toNat = leNat ((packet.drop ins.k.toNat).take w.toNat).reverse := by
  intro h
  have := h compareProgram 4 ⟨compareProgram⟩ [1, 0, 0, 0] (by decide) (by decide) 0 initial
    ⟨1, 0, .replicate scratchLen 0, 1⟩ ⟨bpfLd ||| bpfW ||| bpfAbs, 0, 0, 0⟩ 4 .start rfl
    (by decide) (by decide) (by decide) (by decide)
  exact absurd this (by decide)

end CypheraKernel.Bpf
