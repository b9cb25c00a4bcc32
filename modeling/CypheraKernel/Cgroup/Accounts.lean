import CypheraKernel.Cgroup.Cpu
import CypheraKernel.Lib.Lists

/-!
# The pids and memory controllers of control groups

`kernel/src/cgroup.rs`: the processes attached to a group, and the bytes charged to it.  Memory is
charged to a group and to all groups above it; when one of them refuses, the groups below that have
been charged already are given the bytes back.
-/

namespace CypheraKernel.Cgroup

open Rust Lists List

/-- The counters of `memory.*`. -/
structure MemoryController where
  (current peak : ℕ)
  max : Option ℕ
  (eventsOom eventsOomKill : ℕ)
  deriving DecidableEq, Repr

/-- The counters of `pids.*`. -/
structure PidsController where
  current : ℕ
  max : Option ℕ
  deriving DecidableEq, Repr

/-- A control group: the processes attached to it and two of its controllers. -/
structure Group where
  pids : Finset ℕ
  pidsCtl : PidsController
  memory : MemoryController
  deriving DecidableEq

instance : Inhabited Group := ⟨⟨∅, ⟨0, none⟩, ⟨0, 0, none, 0, 0⟩⟩⟩

/-- The groups of the tree, by their paths. -/
abbrev Groups := Path → Group

namespace Groups

/-! ### Processes -/

variable (gs : Groups) (g : Path)

def attachPid (pid : ℕ) : Except Errno Groups :=
  let pc := (gs g).pidsCtl
  if pc.max.any fun max => pc.current + 1 > max then .error .again
  else
    .ok (Function.update gs g
      { gs g with pids := insert pid (gs g).pids, pidsCtl := { pc with current := pc.current + 1 } })

def detachPid (pid : ℕ) : Groups :=
  if pid ∈ (gs g).pids then
    Function.update gs g
      { gs g with
        pids := (gs g).pids.erase pid
        pidsCtl := { (gs g).pidsCtl with current := (gs g).pidsCtl.current - 1 } }
  else gs

/-! ### Memory -/

def setMemory (m : MemoryController) : Groups :=
  Function.update gs g { gs g with memory := m }

/-- The groups with `bytes` taken off each group of the list. -/
def unchargeEach (bytes : ℕ) (chain : List Path) : Groups :=
  chain.foldl (fun gs cg =>
    gs.setMemory cg { (gs cg).memory with current := (gs cg).memory.current - bytes }) gs

/-- The loop of `try_charge_memory`; the groups `charged` have been charged. -/
def chargeEach (bytes : ℕ) : List Path → List Path → Groups → Except Errno Unit × Groups
  | _, [], gs => (.ok (), gs)
  | charged, cg :: rest, gs =>
    let m := (gs cg).memory
    let new := saturatingAddU64 m.current bytes
    if m.max.any fun max => new > max then
      let gs := gs.unchargeEach bytes charged
      (.error .nomem,
        gs.setMemory cg { (gs cg).memory with eventsOom := (gs cg).memory.eventsOom + 1 })
    else
      chargeEach bytes (charged ++ [cg]) rest
        (gs.setMemory cg { m with current := new, peak := max m.peak new })

def tryChargeMemory (bytes : ℕ) : Except Errno Unit × Groups :=
  chargeEach bytes [] (ancestorChain g) gs

def unchargeMemory (bytes : ℕ) : Groups :=
  gs.unchargeEach bytes (ancestorChain g)

/-! ### What the operations change -/

theorem self_mem_ancestorChain : g ∈ ancestorChain g :=
  (mem_tails _ _).2 (suffix_refl g)

theorem nodup_ancestorChain : (ancestorChain g).Nodup := by
  unfold ancestorChain
  induction g with
  | nil => simp
  | cons a g ih =>
    rw [tails_cons]
    refine nodup_cons.2 ⟨fun h => ?_, ih⟩
    -- a tail of `g` is not longer than `g`
    have hle := (mem_tails _ _).1 h |>.length_le
    simp at hle

variable {gs} {g c : Path} {bytes : ℕ} {chain : List Path}

/-- Two families of groups that differ in the memory charged and in its statistics only. -/
structure SameLimits (gs gs' : Groups) : Prop where
  pids : ∀ c, (gs' c).pids = (gs c).pids
  pidsCtl : ∀ c, (gs' c).pidsCtl = (gs c).pidsCtl
  max : ∀ c, (gs' c).memory.max = (gs c).memory.max

theorem SameLimits.trans {gs' gs'' : Groups} (h : SameLimits gs gs') (h' : SameLimits gs' gs'') :
    SameLimits gs gs'' where
  pids c := (h'.pids c).trans (h.pids c)
  pidsCtl c := (h'.pidsCtl c).trans (h.pidsCtl c)
  max c := (h'.max c).trans (h.max c)

theorem sameLimits_setMemory {m : MemoryController} (hm : m.max = (gs g).memory.max) :
    SameLimits gs (gs.setMemory g m) := by
  constructor <;> intro c <;> by_cases hc : c = g
  all_goals first
    | subst hc; simp [setMemory, hm]
    | simp [setMemory, hc]

theorem current_setMemory {m : MemoryController} (hm : m.current = (gs g).memory.current) (c : Path) :
    (gs.setMemory g m c).memory.current = (gs c).memory.current := by
  by_cases hc : c = g
  · subst hc
    simp [setMemory, hm]
  · simp [setMemory, hc]

theorem memory_unchargeEach (hl : chain.Nodup) (c : Path) :
    gs.unchargeEach bytes chain c = if c ∈ chain then
        { gs c with memory := { (gs c).memory with current := (gs c).memory.current - bytes } }
      else gs c := by
  unfold unchargeEach setMemory
  convert foldl_update (fun g : Group =>
    { g with memory := { g.memory with current := g.memory.current - bytes } }) hl gs c

theorem current_unchargeMemory (gs : Groups) (g : Path) (bytes : ℕ) (c : Path) :
    (gs.unchargeMemory g bytes c).memory.current =
      (gs c).memory.current - if c ∈ ancestorChain g then bytes else 0 := by
  rw [unchargeMemory, memory_unchargeEach (nodup_ancestorChain g)]
  split_ifs
  · rfl
  · exact (Nat.sub_zero _).symm

theorem unchargeMemory_zero (gs : Groups) (g : Path) : gs.unchargeMemory g 0 = gs := by
  funext c
  rw [unchargeMemory, memory_unchargeEach (nodup_ancestorChain g)]
  split_ifs <;> rfl

theorem sameLimits_unchargeEach (hl : chain.Nodup) :
    SameLimits gs (gs.unchargeEach bytes chain) := by
  constructor <;> intro c <;> rw [memory_unchargeEach hl] <;> split_ifs <;> rfl

theorem sameLimits_unchargeMemory (gs : Groups) (g : Path) (bytes : ℕ) :
    SameLimits gs (gs.unchargeMemory g bytes) :=
  sameLimits_unchargeEach (nodup_ancestorChain g)

/-- The group takes the bytes without going over its limit. -/
def Takes (gs : Groups) (bytes : ℕ) (c : Path) : Prop :=
  ∀ max ∈ (gs c).memory.max, saturatingAddU64 (gs c).memory.current bytes ≤ max
  deriving Decidable

theorem takes_iff : gs.Takes bytes c ↔
    ¬ ((gs c).memory.max.any fun max => saturatingAddU64 (gs c).memory.current bytes > max) = true := by
  unfold Takes
  cases (gs c).memory.max <;> simp

/-- The loop over `rest`, when the groups `charged` have been charged already. -/
theorem chargeEach_spec (gs₀ : Groups) (bytes : ℕ) (charged rest : List Path)
    (hl : (charged ++ rest).Nodup) (hlimits : SameLimits gs₀ gs)
    (hcur : ∀ c, (gs c).memory.current = if c ∈ charged then
      saturatingAddU64 (gs₀ c).memory.current bytes else (gs₀ c).memory.current) :
    SameLimits gs₀ (chargeEach bytes charged rest gs).2 ∧
    ((chargeEach bytes charged rest gs).1 = .ok () ↔ ∀ c ∈ rest, gs₀.Takes bytes c) ∧
    ∀ c, ((chargeEach bytes charged rest gs).2 c).memory.current =
      if ∀ c ∈ rest, gs₀.Takes bytes c then
        if c ∈ charged ++ rest then saturatingAddU64 (gs₀ c).memory.current bytes
        else (gs₀ c).memory.current
      else
        if c ∈ charged ++ rest.takeWhile fun c => gs₀.Takes bytes c then
          saturatingAddU64 (gs₀ c).memory.current bytes - bytes
        else (gs₀ c).memory.current := by
  induction rest generalizing charged gs with
  | nil => simpa [chargeEach] using ⟨hlimits, hcur⟩
  | cons cg rest ih =>
    have hcg : cg ∉ charged := fun h =>
      disjoint_of_nodup_append hl h mem_cons_self
    -- the group is looked at for the first time
    have hsame : gs.Takes bytes cg ↔ gs₀.Takes bytes cg := by
      unfold Takes
      rw [hlimits.max, hcur, if_neg hcg]
    by_cases htakes : gs₀.Takes bytes cg
    · let m : MemoryController :=
        { (gs cg).memory with
          current := saturatingAddU64 (gs cg).memory.current bytes
          peak := max (gs cg).memory.peak (saturatingAddU64 (gs cg).memory.current bytes) }
      have hstep : chargeEach bytes charged (cg :: rest) gs =
          chargeEach bytes (charged ++ [cg]) rest (gs.setMemory cg m) := by
        rw [chargeEach]
        exact if_neg (takes_iff.1 (hsame.2 htakes))
      have hl' : ((charged ++ [cg]) ++ rest).Nodup := by
        rwa [append_assoc, singleton_append]
      have hlimits' : SameLimits gs₀ (gs.setMemory cg m) := hlimits.trans (sameLimits_setMemory rfl)
      have hrest := ih (charged ++ [cg]) hl' hlimits' fun c => by
        by_cases hc : c = cg
        · subst hc
          simp [setMemory, m, hcur, hcg]
        · simp [setMemory, hcur, hc]
      rw [hstep]
      simpa [htakes] using hrest
    · have hstep : chargeEach bytes charged (cg :: rest) gs = (.error .nomem,
          (gs.unchargeEach bytes charged).setMemory cg
            { (gs.unchargeEach bytes charged cg).memory with
              eventsOom := (gs.unchargeEach bytes charged cg).memory.eventsOom + 1 }) := by
        rw [chargeEach]
        exact if_pos (not_not.1 (mt takes_iff.2 (mt hsame.1 htakes)))
      have hcharged : charged.Nodup := (nodup_append.1 hl).1
      rw [hstep]
      refine ⟨?_, ?_, fun c => ?_⟩
      · exact (hlimits.trans (sameLimits_unchargeEach hcharged)).trans (sameLimits_setMemory rfl)
      · simp [htakes]
      by_cases hc : c = cg
      · simp_all [setMemory, memory_unchargeEach]
      · by_cases hmem : c ∈ charged
        · simp [setMemory, hc, memory_unchargeEach hcharged, hcur, htakes, hmem]
        · simp [setMemory, hc, memory_unchargeEach hcharged, hcur, htakes, hmem]

section TryCharge

variable (gs g bytes)

theorem tryChargeMemory_spec :
    SameLimits gs (gs.tryChargeMemory g bytes).2 ∧
    ((gs.tryChargeMemory g bytes).1 = .ok () ↔ ∀ c ∈ ancestorChain g, gs.Takes bytes c) ∧
    ∀ c, ((gs.tryChargeMemory g bytes).2 c).memory.current =
      if ∀ c ∈ ancestorChain g, gs.Takes bytes c then
        if c ∈ ancestorChain g then saturatingAddU64 (gs c).memory.current bytes
        else (gs c).memory.current
      else
        if c ∈ (ancestorChain g).takeWhile fun c => gs.Takes bytes c then
          saturatingAddU64 (gs c).memory.current bytes - bytes
        else (gs c).memory.current := by
  have h := chargeEach_spec gs bytes [] (ancestorChain g)
    (nodup_ancestorChain g) ⟨fun _ => rfl, fun _ => rfl, fun _ => rfl⟩ fun c => by simp
  simp only [nil_append] at h
  exact h

/-- The charge succeeds when every group on the way takes it. -/
theorem tryChargeMemory_fst :
    (gs.tryChargeMemory g bytes).1 = .ok () ↔ ∀ c ∈ ancestorChain g, gs.Takes bytes c :=
  (tryChargeMemory_spec gs g bytes).2.1

theorem sameLimits_tryChargeMemory : SameLimits gs (gs.tryChargeMemory g bytes).2 :=
  (tryChargeMemory_spec gs g bytes).1

end TryCharge

/-- What is charged after a charge that succeeds. -/
theorem current_tryChargeMemory (h : (gs.tryChargeMemory g bytes).1 = .ok ()) (c : Path) :
    ((gs.tryChargeMemory g bytes).2 c).memory.current =
      if c ∈ ancestorChain g then saturatingAddU64 (gs c).memory.current bytes
      else (gs c).memory.current := by
  rw [(tryChargeMemory_spec gs g bytes).2.2 c, if_pos ((tryChargeMemory_fst gs g bytes).1 h)]

/-- A charge that is refused changes nothing, if no sum is too large for a word. -/
theorem current_tryChargeMemory_error (h : (gs.tryChargeMemory g bytes).1 ≠ .ok ())
    (hsmall : ∀ c ∈ ancestorChain g, (gs c).memory.current + bytes < usizeBound) (c : Path) :
    ((gs.tryChargeMemory g bytes).2 c).memory.current = (gs c).memory.current := by
  rw [(tryChargeMemory_spec gs g bytes).2.2 c, if_neg (mt (tryChargeMemory_fst gs g bytes).2 h)]
  split_ifs with hc
  · grind [takeWhile_sublist, saturatingAddU64]
  · rfl

end Groups

end CypheraKernel.Cgroup
