import CypheraKernel.Errno
import CypheraKernel.Signal.Handler

/-!
# Where signal frames go

`deliver_to_handler` of `kernel/src/core/signal.rs` puts the frame below the stack pointer of the
thread, or on the alternate stack that `sigaltstack` has set.

`usesFreeStack_iff`: exactly when the frame uses free stack (`UsesFreeStack`).  It ends 8 to 23
bytes below the stack pointer, so on the normal stack it is only so when it cannot be written.
-/

namespace CypheraKernel.Signal

open Bytes Trap
open Rust hiding Panic

/-! ### Addresses in numbers -/

/-- `& !15` on numbers. -/
def alignDown (n : ℕ) : ℕ := n / 16 * 16

theorem toNat_and_not_15 (x : UInt64) : (x &&& ~~~15).toNat = alignDown x.toNat := by
  have hmask : (~~~15 : UInt64).toNat = (2 ^ 60 - 1) * 2 ^ 4 := rfl
  rw [UInt64.toNat_and, hmask, and_high_bits x.toNat_lt]
  rfl

/-- The return address of a frame, with the wrapping subtractions. -/
theorem toNat_pretcode (base : UInt64) :
    ((((base &&& ~~~15) - frameTotal) &&& ~~~15) - 8).toNat =
      (2 ^ 64 - 1080 + alignDown base.toNat) % 2 ^ 64 := by
  have htotal : frameTotal.toNat = 1072 := rfl
  grind [UInt64.toNat_sub, toNat_and_not_15, alignDown]

/-- The addresses of a frame are those of the integers. -/
structure Exact (base : UInt64) (addrs : FrameAddrs) : Prop where
  pretcode : addrs.pretcode.toNat + 1080 = alignDown base.toNat
  uc : addrs.uc.toNat + 1072 = alignDown base.toNat
  info : addrs.info.toNat + 136 = alignDown base.toNat

variable {base : UInt64} {addrs : FrameAddrs} {kind : AccessKind} {mem : UserMemory}

theorem frameAddrs_exact (h : 1088 ≤ base.toNat) :
    ∃ addrs, frameAddrs base = .ok addrs ∧ Exact base addrs := by
  have hpretcode := toNat_pretcode base
  set pretcode := (((base &&& ~~~15) - frameTotal) &&& ~~~15) - 8 with hp
  have hlt := base.toNat_lt
  have hexact : pretcode.toNat + 1080 = alignDown base.toNat := by
    rw [hpretcode]
    unfold alignDown
    omega
  have height : (8 : UInt64).toNat = 8 := rfl
  have hsize : (UInt64.ofNat ucSize).toNat = 936 := rfl
  have huc : (pretcode + 8).toNat + 1072 = alignDown base.toNat := by
    rw [UInt64.toNat_add, height]
    unfold alignDown at hexact ⊢
    omega
  refine ⟨⟨pretcode, pretcode + 8, pretcode + 8 + .ofNat ucSize⟩, ?_, hexact, huc, ?_⟩
  · have h8 : checkedAdd pretcode 8 = .ok (pretcode + 8) := if_pos (by
      rw [height]
      unfold alignDown at hexact
      omega)
    have h936 : checkedAdd (pretcode + 8) (.ofNat ucSize) = .ok (pretcode + 8 + .ofNat ucSize) :=
      if_pos (by
        rw [hsize]
        unfold alignDown at huc
        omega)
    rw [frameAddrs, ← hp, h8, ok_bind, h936]
    rfl
  · rw [UInt64.toNat_add, hsize]
    unfold alignDown at huc ⊢
    omega

/-- Close to the bottom of the address space the addresses wrap. -/
theorem le_of_exact (h : Exact base addrs) : 1088 ≤ base.toNat := by grind [h.pretcode, alignDown]

/-- The stack pointer lies in the alternate stack. -/
def AltStack.Holds (alt : AltStack) (rsp : UInt64) : Prop :=
  alt.sp.toNat ≤ rsp.toNat ∧ rsp.toNat < alt.sp.toNat + alt.size.toNat
  deriving Decidable

/-- The action asks for the alternate stack and there is one. -/
def usesAlt (action : SigAction) (alt : AltStack) : Bool :=
  action.flags &&& saOnstack != 0 && alt.isEnabled

/-- Where the frame begins. -/
theorem baseRsp_eq (rsp : UInt64) (action : SigAction) (alt : AltStack) :
    baseRsp rsp action alt =
      if usesAlt action alt then
        if alt.sp.toNat + alt.size.toNat < 2 ^ 64 then
          .ok (if alt.Holds rsp then rsp else alt.sp + alt.size)
        else .error .addOverflow
      else .ok rsp := by
  unfold baseRsp onAlt isOnAltstack
  by_cases huses : usesAlt action alt = true
  · have henabled : alt.isEnabled = true := (Bool.and_eq_true_iff.1 huses).2
    have huses' : (action.flags &&& saOnstack != 0 && alt.isEnabled) = true := huses
    rw [if_pos huses', if_pos huses, henabled, Bool.true_and]
    by_cases hsum : alt.sp.toNat + alt.size.toNat < 2 ^ 64
    · have hadd : (alt.sp + alt.size).toNat = alt.sp.toNat + alt.size.toNat := by
        rw [UInt64.toNat_add, Nat.mod_eq_of_lt hsum]
      rw [if_pos hsum, checkedAdd, if_pos hsum]
      by_cases hle : alt.sp ≤ rsp
      · have hholds : alt.Holds rsp ↔ rsp < alt.sp + alt.size := by
          rw [UInt64.lt_iff_toNat_lt, hadd, AltStack.Holds,
            and_iff_right (UInt64.le_iff_toNat_le.1 hle)]
        by_cases hlt : rsp < alt.sp + alt.size <;> simp [hle, hlt, hholds]
      · have hholds : ¬ alt.Holds rsp := fun h => hle (UInt64.le_iff_toNat_le.2 h.1)
        simp [hle, hholds]
    · rw [if_neg hsum, checkedAdd, if_neg hsum]
      by_cases hle : alt.sp ≤ rsp <;> simp [hle, bind, Except.bind]
  · have huses' : ¬ (action.flags &&& saOnstack != 0 && alt.isEnabled) = true := huses
    rw [if_neg huses', if_neg huses]
    rfl

/-! ### What is written -/

theorem accessOk_iff {addr : UInt64} {len : ℕ}
    (hlen : 0 < len) : mem.accessOk addr len kind = true ↔ addr.toNat + len ≤ userEnd ∧
      ∀ page, addr.toNat / 4096 ≤ page → page ≤ (addr.toNat + len - 1) / 4096 →
        mem.accessible kind page = true := by
  have hend : userEnd < 2 ^ 64 := by decide
  rw [UserMemory.accessOk, if_neg (by omega)]
  split_ifs with hwrap hhigh
  · grind
  · grind
  · simp only [List.all_eq_true, List.mem_range'_1, and_imp]
    constructor
    · grind
    · grind

/-- Two adjoining blocks are accessible if the block of both is. -/
theorem accessOk_add {a b : UInt64} {m n : ℕ} (hm : 0 < m)
    (hn : 0 < n) (hab : b.toNat = a.toNat + m) :
    mem.accessOk a (m + n) kind = true ↔
      mem.accessOk a m kind = true ∧ mem.accessOk b n kind = true := by
  rw [accessOk_iff (by omega), accessOk_iff hm, accessOk_iff hn]
  constructor
  · grind
  rintro ⟨⟨-, hfirst⟩, hend, hsecond⟩
  refine ⟨by omega, fun page h h' => ?_⟩
  by_cases hpage : page ≤ (a.toNat + m - 1) / 4096
  · exact hfirst page h hpage
  · refine hsecond page ?_ ?_ <;> omega

/-- The copies are made up to the first block that is not writable. -/
theorem copyAll_written (mem : UserMemory) (cs : List (UInt64 × List UInt8)) :
    (copyAll mem cs).2.1 = cs.takeWhile fun c => mem.accessOk c.1 c.2.length .write := by
  induction cs generalizing mem with
  | nil => rfl
  | cons c cs ih =>
    rw [copyAll, UserMemory.copyToUser, List.takeWhile_cons]
    split_ifs with hok
    · exact congrArg (c :: ·) (ih _)
    · rfl

theorem forall_mem_takeWhile_cons {α : Type} {p : α → Bool} {Q : α → Prop} {x : α} {xs : List α} :
    (∀ y ∈ (x :: xs).takeWhile p, Q y) ↔ (p x = true → Q x ∧ ∀ y ∈ xs.takeWhile p, Q y) := by
  rw [List.takeWhile_cons]
  split_ifs with hx <;> simp [hx]

@[simp] theorem rspUser_restartSyscall (tf : TrapFrame) (action : SigAction) :
    (restartSyscall tf action).rspUser = tf.rspUser := by
  unfold restartSyscall
  split_ifs <;> rfl

/-- A delivery with its frame at known addresses. -/
theorem deliverToHandler_eq {tf : TrapFrame} {action : SigAction} {alt : AltStack}
    (mem : UserMemory) (signal : Signo) (preBlocked : UInt64) (info : SigInfo)
    (hbase : baseRsp tf.rspUser action alt = .ok base) (haddrs : frameAddrs base = .ok addrs) :
    ∃ d, deliverToHandler tf mem signal action preBlocked info alt = .ok d ∧
      d.written =
        (frameCopies addrs (restartSyscall tf action) action preBlocked info alt).takeWhile
          (fun c => mem.accessOk c.1 c.2.length .write) ∧
      (d.result.isSome → d.tf.rspUser = addrs.pretcode) := by
  rw [deliverToHandler, rspUser_restartSyscall, hbase, ok_bind, haddrs, ok_bind]
  dsimp only
  split_ifs
  · exact ⟨_, rfl, copyAll_written _ _, fun _ => rfl⟩
  · refine ⟨_, rfl, copyAll_written _ _, ?_⟩
    nofun

section

variable {tf : TrapFrame} {mem : UserMemory} {action : SigAction} {preBlocked : UInt64}
  {info : SigInfo} {alt : AltStack} {base : UInt64} {addrs : FrameAddrs}

/-- The three blocks of a frame, one after the other up to the first that is not writable. -/
theorem forall_written {Q : ℕ × ℕ → Prop} (hexact : Exact base addrs) :
    (∀ c ∈ (frameCopies addrs tf action preBlocked info alt).takeWhile
        (fun c => mem.accessOk c.1 c.2.length .write), Q (c.1.toNat, c.2.length)) ↔
      (mem.accessOk addrs.pretcode 8 .write = true → Q (alignDown base.toNat - 1080, 8) ∧
        (mem.accessOk addrs.uc 936 .write = true → Q (alignDown base.toNat - 1072, 936) ∧
          (mem.accessOk addrs.info 128 .write = true → Q (alignDown base.toNat - 136, 128)))) := by
  have hpretcode : addrs.pretcode.toNat = alignDown base.toNat - 1080 := by
    have := hexact.pretcode
    omega
  have huc : addrs.uc.toNat = alignDown base.toNat - 1072 := by
    have := hexact.uc
    omega
  have hinfo : addrs.info.toNat = alignDown base.toNat - 136 := by
    have := hexact.info
    omega
  simp_all [ucSize, frameCopies, forall_mem_takeWhile_cons]

/-- The whole frame is writable if its three blocks are. -/
theorem accessOk_frame (hexact : Exact base addrs) :
    mem.accessOk addrs.pretcode 1072 .write = true ↔ mem.accessOk addrs.pretcode 8 .write = true ∧
      mem.accessOk addrs.uc 936 .write = true ∧ mem.accessOk addrs.info 128 .write = true := by
  have hpretcode := hexact.pretcode
  have huc := hexact.uc
  have hinfo := hexact.info
  rw [accessOk_add (m := 8) (n := 1064) (by decide) (by decide) (b := addrs.uc) (by omega),
    accessOk_add (m := 936) (n := 128) (by decide) (by decide) (b := addrs.info) (by omega)]

end

/-! ### The frame and the stack -/

/-- The frame is built on the alternate stack, whether it begins at its top or the thread is on it.
-/
def OnAltStack (rsp : UInt64) (action : SigAction) (alt : AltStack) : Prop :=
  usesAlt action alt = true ∨ alt.isEnabled = true ∧ alt.Holds rsp
  deriving Decidable

/-- The block is free: on the alternate stack it lies in that stack, on the normal stack below the
red zone. -/
def Free (rsp : UInt64) (action : SigAction) (alt : AltStack) (b : ℕ × ℕ) : Prop :=
  if OnAltStack rsp action alt then
    alt.sp.toNat ≤ b.1 ∧ b.1 + b.2 ≤ alt.sp.toNat + alt.size.toNat
  else b.1 + b.2 + 128 ≤ rsp.toNat

/-- The delivery does not stop the kernel, no address overflows, only free stack is written, and the
handler gets the alignment that it expects. -/
def UsesFreeStack (tf : TrapFrame) (mem : UserMemory) (signal : Signo) (action : SigAction)
    (preBlocked : UInt64) (info : SigInfo) (alt : AltStack) : Prop :=
  ∃ base addrs d, baseRsp tf.rspUser action alt = .ok base ∧ frameAddrs base = .ok addrs ∧
    deliverToHandler tf mem signal action preBlocked info alt = .ok d ∧ Exact base addrs ∧
    (∀ c ∈ d.written, Free tf.rspUser action alt (c.1.toNat, c.2.length)) ∧
    (d.result.isSome → d.tf.rspUser.toNat % 16 = 8)

/-- The end of the alternate stack is an address if it is used; and the frame goes to the top of
that stack, or has room in the address space and in the alternate stack if the thread is on it, or
cannot be written. -/
def FrameFits (rsp : UInt64) (mem : UserMemory) (action : SigAction) (alt : AltStack) : Prop :=
  (usesAlt action alt = true → alt.sp.toNat + alt.size.toNat < 2 ^ 64) ∧
    (usesAlt action alt = true ∧ ¬ alt.Holds rsp ∨
      1088 ≤ rsp.toNat ∧
        if alt.isEnabled = true ∧ alt.Holds rsp then
          alt.sp.toNat + 1080 ≤ alignDown rsp.toNat ∨
            mem.accessOk (.ofNat (alignDown rsp.toNat - 1080)) 8 .write = false
        else mem.accessOk (.ofNat (alignDown rsp.toNat - 1080)) 1072 .write = false)

section

variable {tf : TrapFrame} {mem : UserMemory} {signal : Signo} {action : SigAction}
  {preBlocked : UInt64} {info : SigInfo} {alt : AltStack} {base : UInt64} {addrs : FrameAddrs}

/-- With the place of the frame known, the question is which blocks are written. -/
theorem usesFreeStack_iff_of_exact (hbase : baseRsp tf.rspUser action alt = .ok base)
    (haddrs : frameAddrs base = .ok addrs) (hexact : Exact base addrs) :
    UsesFreeStack tf mem signal action preBlocked info alt ↔
      (mem.accessOk addrs.pretcode 8 .write = true →
        Free tf.rspUser action alt (alignDown base.toNat - 1080, 8) ∧
        (mem.accessOk addrs.uc 936 .write = true →
          Free tf.rspUser action alt (alignDown base.toNat - 1072, 936) ∧
          (mem.accessOk addrs.info 128 .write = true →
            Free tf.rspUser action alt (alignDown base.toNat - 136, 128)))) := by
  obtain ⟨d, hd, hwritten, hrsp⟩ := deliverToHandler_eq mem signal preBlocked info hbase haddrs
  rw [← forall_written hexact, ← hwritten]
  constructor
  · rintro ⟨base', addrs', d', hbase', haddrs', hd', -, hfree, -⟩
    cases hd.symm.trans hd'
    exact hfree
  · intro hfree
    refine ⟨base, addrs, d, hbase, haddrs, hd, hexact, hfree, fun hsome => ?_⟩
    grind [hexact.pretcode, alignDown]

/-- A frame at the top of the alternate stack has room there. -/
theorem usesFreeStack_of_fresh (huses : usesAlt action alt = true)
    (hsum : alt.sp.toNat + alt.size.toNat < 2 ^ 64) (hholds : ¬ alt.Holds tf.rspUser) :
    UsesFreeStack tf mem signal action preBlocked info alt := by
  have hbase : baseRsp tf.rspUser action alt = .ok (alt.sp + alt.size) := by
    rw [baseRsp_eq, if_pos huses, if_pos hsum, if_neg hholds]
  have hadd : (alt.sp + alt.size).toNat = alt.sp.toNat + alt.size.toNat := by
    rw [UInt64.toNat_add, Nat.mod_eq_of_lt hsum]
  have hsize : 2048 ≤ alt.size.toNat := by
    have henabled := (Bool.and_eq_true_iff.1 huses).2
    have hmin := (Bool.and_eq_true_iff.1 henabled).2
    exact UInt64.le_iff_toNat_le.1 (of_decide_eq_true hmin)
  have hroom : 1088 ≤ (alt.sp + alt.size).toNat := by omega
  obtain ⟨addrs, haddrs, hexact⟩ := frameAddrs_exact hroom
  rw [usesFreeStack_iff_of_exact hbase haddrs hexact]
  have hon : OnAltStack tf.rspUser action alt := .inl huses
  simp only [Free, if_pos hon, hadd]
  grind [alignDown]

/-- A frame below the stack pointer of the thread. -/
theorem usesFreeStack_iff_of_rsp (hbase : baseRsp tf.rspUser action alt = .ok tf.rspUser)
    (hon : OnAltStack tf.rspUser action alt ↔ alt.isEnabled = true ∧ alt.Holds tf.rspUser) :
    UsesFreeStack tf mem signal action preBlocked info alt ↔
      1088 ≤ tf.rspUser.toNat ∧
        if alt.isEnabled = true ∧ alt.Holds tf.rspUser then
          alt.sp.toNat + 1080 ≤ alignDown tf.rspUser.toNat ∨
            mem.accessOk (.ofNat (alignDown tf.rspUser.toNat - 1080)) 8 .write = false
        else mem.accessOk (.ofNat (alignDown tf.rspUser.toNat - 1080)) 1072 .write = false := by
  by_cases hlow : 1088 ≤ tf.rspUser.toNat
  · obtain ⟨addrs, haddrs, hexact⟩ := frameAddrs_exact hlow
    have hpretcode : UInt64.ofNat (alignDown tf.rspUser.toNat - 1080) = addrs.pretcode := by
      rw [← hexact.pretcode, Nat.add_sub_cancel, UInt64.ofNat_toNat]
    rw [usesFreeStack_iff_of_exact hbase haddrs hexact, and_iff_right hlow, hpretcode]
    by_cases hin : alt.isEnabled = true ∧ alt.Holds tf.rspUser
    · -- on the alternate stack only its lower end can be in the way
      obtain ⟨hsp, hend⟩ := hin.2
      have haligned : alignDown tf.rspUser.toNat ≤ tf.rspUser.toNat ∧
          1088 ≤ alignDown tf.rspUser.toNat := by
        unfold alignDown
        omega
      simp only [Free, if_pos (hon.2 hin), if_pos hin]
      constructor
      · intro hfree
        by_cases hok : mem.accessOk addrs.pretcode 8 .write = true
        · grind
        · exact .inr (Bool.eq_false_iff.2 hok)
      · rintro (hroom | hfalse) hok
        · refine ⟨⟨?_, ?_⟩, fun _ => ⟨⟨?_, ?_⟩, fun _ => ⟨?_, ?_⟩⟩⟩ <;> omega
        · exact absurd hok (Bool.eq_false_iff.1 hfalse)
    · -- on the normal stack the last block lies in the red zone
      simp only [Free, if_neg (mt hon.1 hin), if_neg hin]
      have h2 : alignDown tf.rspUser.toNat - 1072 + 936 + 128 ≤ tf.rspUser.toNat := by
        unfold alignDown
        omega
      have h3 : ¬ alignDown tf.rspUser.toNat - 136 + 128 + 128 ≤ tf.rspUser.toNat := by
        unfold alignDown
        omega
      rw [← Bool.not_eq_true, accessOk_frame hexact]
      constructor
      · grind
      · grind
  · refine iff_of_false ?_ fun h => hlow h.1
    rintro ⟨base, addrs, d, hbase', -, -, hexact, -⟩
    grind [le_of_exact]

end

/-- **Signal frames.**  A delivery uses only free stack exactly if the frame fits; on the normal
stack a frame that is written always reaches into the red zone. -/
theorem usesFreeStack_iff (tf : TrapFrame) (mem : UserMemory) (signal : Signo) (action : SigAction)
    (preBlocked : UInt64) (info : SigInfo) (alt : AltStack) :
    UsesFreeStack tf mem signal action preBlocked info alt ↔
      FrameFits tf.rspUser mem action alt := by
  by_cases huses : usesAlt action alt = true
  · by_cases hsum : alt.sp.toNat + alt.size.toNat < 2 ^ 64
    · by_cases hholds : alt.Holds tf.rspUser
      · have hbase : baseRsp tf.rspUser action alt = .ok tf.rspUser := by
          rw [baseRsp_eq, if_pos huses, if_pos hsum, if_pos hholds]
        have hin : alt.isEnabled = true ∧ alt.Holds tf.rspUser :=
          ⟨(Bool.and_eq_true_iff.1 huses).2, hholds⟩
        rw [usesFreeStack_iff_of_rsp hbase (iff_of_true (.inl huses) hin), FrameFits]
        tauto
      · exact iff_of_true (usesFreeStack_of_fresh huses hsum hholds)
          ⟨fun _ => hsum, .inl ⟨huses, hholds⟩⟩
    · refine iff_of_false ?_ fun h => hsum (h.1 huses)
      rintro ⟨base, -, -, hbase, -⟩
      simp_all [baseRsp_eq, if_neg]
  · have hbase : baseRsp tf.rspUser action alt = .ok tf.rspUser := by
      rw [baseRsp_eq, if_neg huses]
    simp_all [OnAltStack, usesFreeStack_iff_of_rsp, FrameFits]

/-- A signal after a system call, with no alternate stack, overwrites the red zone. -/
theorem redZone_overwritten :
    ¬ UsesFreeStack (syscallEntry thread) openMemory 10 (handlerAt 0) noneBlocked SigInfo.zero
      AltStack.disabled := by
  rw [usesFreeStack_iff_of_rsp rfl (or_iff_right (by decide))]
  decide +kernel

end CypheraKernel.Signal
