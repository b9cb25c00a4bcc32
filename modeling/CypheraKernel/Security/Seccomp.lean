import CypheraKernel.Lib.Lists
import CypheraKernel.Security.BpfSafety

/-!
# Seccomp filter chains

`kernel/src/security/seccomp.rs` and `apply_seccomp` of `kernel/src/syscall/creds.rs`: every
system call of a process with filters is described by a `SeccompData` record, every filter of the
chain is run on its 64 bytes, and the verdict with the smallest action code decides what happens.

A filter's verdict is a 32-bit word; its upper half is the action.  The intended order of the
actions is that of their codes as *signed* words (`restrictiveness`), in which `KILL_PROCESS`,
with the top bit set, comes first; the fold of `evaluateChain` compares the codes as unsigned
words.  `evaluateChain_mostRestrictive_iff` says exactly for which chains the two agree.
-/

namespace CypheraKernel.Seccomp

open Rust CypheraKernel.Lists Bpf

def seccompRetKillProcess : UInt32 := 0x80000000
def seccompRetKillThread : UInt32 := 0x00000000
def seccompRetTrap : UInt32 := 0x00030000
def seccompRetErrno : UInt32 := 0x00050000
def seccompRetLog : UInt32 := 0x7ffc0000
def seccompRetAllow : UInt32 := 0x7fff0000

def seccompRetAction : UInt32 := 0xffff0000
def seccompRetData : UInt32 := 0x0000ffff

/-- The description of a system call that the filters see. -/
structure SeccompData where
  nr : Int32
  arch : UInt32
  instructionPointer : UInt64
  args : Vector UInt64 6

namespace SeccompData

def size : UInt32 := 64

/-- The 64 bytes of the record. -/
def toBytes (d : SeccompData) : List UInt8 :=
  leBytes 4 d.nr.toUInt32.toNat ++ leBytes 4 d.arch.toNat ++
    leBytes 8 d.instructionPointer.toNat ++ d.args.toList.flatMap (fun a => leBytes 8 a.toNat)

end SeccompData

/-- An installed filter: filters only enter a chain through `BpfProgram::verify`. -/
structure Filter where
  prog : BpfProgram
  verified : verify prog.insns SeccompData.size = .ok prog

/-- The action part of a verdict. -/
def action (r : UInt32) : UInt32 := r &&& seccompRetAction

/-- `evaluate_chain`. -/
def evaluateChain (chain : List Filter) (data : SeccompData) : Except Panic UInt32 :=
  if chain.isEmpty then .ok seccompRetAllow
  else
    let bytes := data.toBytes
    chain.foldlM (fun best f => do
      let r ← run f.prog bytes
      return if action r < action best then r else best) seccompRetAllow

/-- What becomes of a system call. -/
inductive Disposition
  | run
  | logAndRun
  | fail (errno : UInt32)
  | trap (data : UInt32)
  | kill
  deriving DecidableEq

/-- Whether the system call is executed: the value `apply_seccomp` returns. -/
def Disposition.allowed : Disposition → Bool
  | .run => true
  | .logAndRun => true
  | _ => false

/-- The part of `apply_seccomp` that acts on a verdict.  The two kill actions and every action it
does not know end in `terminate_current_with_signal`. -/
def dispose (r : UInt32) : Disposition :=
  let data := r &&& seccompRetData
  if action r = seccompRetAllow then .run
  else if action r = seccompRetLog then .logAndRun
  else if action r = seccompRetErrno then .fail (min data 4095)
  else if action r = seccompRetTrap then .trap data
  else .kill

def auditArchX8664 : UInt32 := 0xC000003E

/-- What the trap frame of a system call holds for the filters. -/
structure TrapFrame where
  (syscallNr userIp : UInt64)
  arg : Vector UInt64 6

def TrapFrame.seccompData (tf : TrapFrame) : SeccompData where
  nr := tf.syscallNr.toUInt32.toInt32
  arch := auditArchX8664
  instructionPointer := tf.userIp
  args := tf.arg

/-- `evaluate_for_syscall`, the current process's chain being `current`. -/
def evaluateForSyscall (current : Option (List Filter)) (tf : TrapFrame) : Except Panic UInt32 :=
  match current with
  | none => .ok seccompRetAllow
  | some chain =>
    if chain.isEmpty then .ok seccompRetAllow else evaluateChain chain tf.seccompData

/-- `apply_seccomp`. -/
def applySeccomp (current : Option (List Filter)) (tf : TrapFrame) : Except Panic Disposition := do
  return dispose (← evaluateForSyscall current tf)

/-- `strict_mode_program`: the filter that `SECCOMP_SET_MODE_STRICT` installs. -/
def strictModeProgram : List SockFilter :=
  [⟨0x20, 0, 0, 0⟩, ⟨0x15, 5, 0, 0⟩, ⟨0x15, 4, 0, 1⟩, ⟨0x15, 3, 0, 15⟩, ⟨0x15, 2, 0, 60⟩,
    ⟨0x15, 1, 0, 231⟩, ⟨0x06, 0, 0, seccompRetKillProcess⟩, ⟨0x06, 0, 0, seccompRetAllow⟩]

def strictFilter : Filter where
  prog := ⟨strictModeProgram⟩
  verified := by decide

/-! ### The order of actions -/

/-- How restrictive the action of a verdict is: the less the value, the more restrictive. -/
def restrictiveness (r : UInt32) : ℤ := (action r).toInt32.toInt

example :
    ([seccompRetKillProcess, seccompRetKillThread, seccompRetTrap, seccompRetErrno, seccompRetLog,
      seccompRetAllow].map restrictiveness).IsChain (· < ·) := by
  decide

theorem toNat_action (r : UInt32) : (action r).toNat = r.toNat / 2 ^ 16 * 2 ^ 16 := by
  have hmask : seccompRetAction.toNat = (2 ^ 16 - 1) * 2 ^ 16 := rfl
  rw [action, UInt32.toNat_and, hmask, and_high_bits r.toNat_lt]

variable {r : UInt32}

/-- The two orders agree on verdicts without the top bit. -/
theorem restrictiveness_of_lt (h : r.toNat < 2 ^ 31) : restrictiveness r = (action r).toNat := by
  have ha := toNat_action r
  have hi := BitVec.toInt_eq_toNat_cond (action r).toBitVec
  rw [if_pos (by rw [UInt32.toNat_toBitVec]; omega)] at hi
  exact hi

theorem restrictiveness_neg (h : ¬ r.toNat < 2 ^ 31) : restrictiveness r < 0 := by
  have ha := toNat_action r
  have hr : r.toNat < 2 ^ 32 := r.toNat_lt
  have hi := BitVec.toInt_eq_toNat_cond (action r).toBitVec
  rw [if_neg (by rw [UInt32.toNat_toBitVec]; omega), UInt32.toNat_toBitVec] at hi
  have : restrictiveness r = ((action r).toNat : ℤ) - 2 ^ 32 := hi
  omega

/-! ### The fold -/

/-- The verdict of a filter.  A verified filter always has one (`run_eq_verdict`). -/
def Filter.verdict (f : Filter) (packet : List UInt8) : UInt32 :=
  match run f.prog packet with
  | .ok r => r
  | .error _ => 0

theorem Filter.run_eq_verdict (f : Filter) (packet : List UInt8) :
    run f.prog packet = .ok (f.verdict packet) := by
  obtain ⟨v, hv⟩ := (verified_of_verify f.verified).2.run_ok packet
  rw [Filter.verdict, hv]

/-- The chain keeps the verdict with the least action code, read as an unsigned number. -/
theorem evaluateChain_eq (chain : List Filter) (data : SeccompData) :
    evaluateChain chain data = .ok ((chain.map (·.verdict data.toBytes)).foldl
      (keepLess fun r => (action r).toNat) seccompRetAllow) := by
  have fold (b : UInt32) : chain.foldlM (fun best f => do
      let r ← run f.prog data.toBytes
      return if action r < action best then r else best) b =
        (.ok ((chain.map (·.verdict data.toBytes)).foldl
          (keepLess fun r => (action r).toNat) b) : Except Panic UInt32) := by
    induction chain generalizing b with
    | nil => rfl
    | cons f chain ih =>
      rw [List.foldlM_cons, f.run_eq_verdict, List.map_cons, List.foldl_cons, ← ih]
      rfl
  grind [evaluateChain]

/-! ### The most restrictive action -/

/-- Some filter of the chain returns `v`. -/
def Returns (chain : List Filter) (data : SeccompData) (v : UInt32) : Prop :=
  ∃ f ∈ chain, run f.prog data.toBytes = .ok v

theorem returns_iff {chain : List Filter} {data : SeccompData} {v : UInt32} :
    Returns chain data v ↔ v ∈ chain.map (·.verdict data.toBytes) := by
  simp only [Returns, Filter.run_eq_verdict, List.mem_map, Except.ok.injEq]

/-- The chain's verdict on `data` is the most restrictive one of its filters, no further filter
makes it less restrictive, and a kill verdict of some filter keeps the system call from running. -/
structure MostRestrictive (chain : List Filter) (data : SeccompData) : Prop where
  least : ∃ r, evaluateChain chain data = .ok r ∧
    (∀ v, Returns chain data v → restrictiveness r ≤ restrictiveness v) ∧
    (if chain = [] then r = seccompRetAllow else ∃ v, Returns chain data v ∧ action v = action r)
  append : ∀ f : Filter, ∃ r r', evaluateChain chain data = .ok r ∧
    evaluateChain (chain ++ [f]) data = .ok r' ∧ restrictiveness r' ≤ restrictiveness r
  kill : ∀ v, Returns chain data v →
    action v = seccompRetKillProcess ∨ action v = seccompRetKillThread →
    ∃ r, evaluateChain chain data = .ok r ∧ (dispose r).allowed = false

/-- The fold never keeps a verdict with the top bit, so its result is comparable in both orders. -/
theorem foldl_keepLess_lt (vs : List UInt32) {b : UInt32} (hb : b.toNat < 2 ^ 31) :
    (vs.foldl (keepLess fun r => (action r).toNat) b).toNat < 2 ^ 31 := by
  have hle := (key_foldl_keepLess_le (fun r => (action r).toNat) vs b).1
  simp only [toNat_action] at hle ⊢
  omega

theorem seccompRetAllow_lt : seccompRetAllow.toNat < 2 ^ 31 := by decide

/-- Without the top bit no action comes after `ALLOW`. -/
theorem toNat_action_le_allow {v : UInt32} (h : v.toNat < 2 ^ 31) :
    (action v).toNat ≤ (action seccompRetAllow).toNat := by
  have hallow : (action seccompRetAllow).toNat = 0x7fff0000 := by decide
  rw [hallow, toNat_action]
  omega

theorem allowed_false_of_restrictiveness
    (h : restrictiveness r ≤ restrictiveness seccompRetKillThread) :
    (dispose r).allowed = false := by
  have hne (a : UInt32) (ha : restrictiveness seccompRetKillThread < a.toInt32.toInt) :
      action r ≠ a := by
    rintro rfl
    exact absurd h (not_le.2 ha)
  rw [dispose, if_neg (hne _ (by decide)), if_neg (hne _ (by decide)),
    if_neg (hne _ (by decide)), if_neg (hne _ (by decide))]
  rfl

/-- **The chain picks the most restrictive verdict exactly when no filter of it returns a verdict
with the top bit set**; `KILL_PROCESS` is the one named action that has it. -/
theorem evaluateChain_mostRestrictive_iff (chain : List Filter) (data : SeccompData) :
    MostRestrictive chain data ↔ ∀ v, Returns chain data v → v.toNat < 2 ^ 31 := by
  have heval := evaluateChain_eq chain data
  have hlt := foldl_keepLess_lt (chain.map (·.verdict data.toBytes)) seccompRetAllow_lt
  obtain ⟨hinit, hle⟩ := key_foldl_keepLess_le (fun r => (action r).toNat)
    (chain.map (·.verdict data.toBytes)) seccompRetAllow
  have hmem := foldl_keepLess_mem (fun r => (action r).toNat)
    (chain.map (·.verdict data.toBytes)) seccompRetAllow
  set r := (chain.map (·.verdict data.toBytes)).foldl
    (keepLess fun r => (action r).toNat) seccompRetAllow with hr
  constructor
  · rintro ⟨⟨r', hr', hmin, -⟩, -, -⟩ v hv
    cases heval.symm.trans hr'
    by_contra hneg
    have h1 := hmin v hv
    have h2 := restrictiveness_neg hneg
    rw [restrictiveness_of_lt hlt] at h1
    omega
  · intro hv
    have hmin (v : UInt32) (h : Returns chain data v) : restrictiveness r ≤ restrictiveness v := by
      grind [restrictiveness_of_lt, returns_iff]
    refine ⟨⟨r, heval, hmin, ?_⟩, fun f => ?_, fun v h hkill => ⟨r, heval, ?_⟩⟩
    · split_ifs with hnil
      · rw [hr, hnil]; rfl
      rcases hmem with h | h
      · -- the initial `ALLOW` survives: every filter allows
        obtain ⟨f, hf⟩ := List.exists_mem_of_ne_nil chain hnil
        have hf' : Returns chain data (f.verdict data.toBytes) := ⟨f, hf, f.run_eq_verdict _⟩
        refine ⟨_, hf', ?_⟩
        have h1 := hle _ (returns_iff.1 hf')
        have h2 := toNat_action_le_allow (hv _ hf')
        rw [← h] at h2
        exact UInt32.toNat_inj.1 (le_antisymm h2 h1)
      · exact ⟨r, returns_iff.2 h, rfl⟩
    · grind [evaluateChain_eq, restrictiveness_of_lt, foldl_keepLess_lt, key_keepLess_le]
    · apply allowed_false_of_restrictiveness
      refine (hmin v h).trans ?_
      rcases hkill with hk | hk <;> rw [restrictiveness, hk] <;> decide

/-- The call `open` (number 2) as the filters see it. -/
def openCall : SeccompData := ⟨2, auditArchX8664, 0, .replicate 6 0⟩

theorem run_strict_open : run strictFilter.prog openCall.toBytes = .ok seccompRetKillProcess := by
  decide +kernel

theorem evaluateChain_strict : evaluateChain [strictFilter] openCall = .ok seccompRetAllow := by
  rw [evaluateChain, if_neg (by decide), List.foldlM_cons, run_strict_open]
  rfl

/-- In strict mode `open` is to be killed, and it runs. -/
theorem strict_not_mostRestrictive :
    Returns [strictFilter] openCall seccompRetKillProcess ∧
      evaluateChain [strictFilter] openCall = .ok seccompRetAllow ∧
      (dispose seccompRetAllow).allowed = true ∧
      ¬ MostRestrictive [strictFilter] openCall := by
  have hret : Returns [strictFilter] openCall seccompRetKillProcess :=
    ⟨strictFilter, List.mem_singleton_self _, run_strict_open⟩
  refine ⟨hret, evaluateChain_strict, by decide, fun h => ?_⟩
  obtain ⟨r, hr, hmin, -⟩ := h.least
  cases evaluateChain_strict.symm.trans hr
  exact absurd (hmin _ hret) (by decide)

end CypheraKernel.Seccomp
