import CypheraKernel.Lib.Rust
import CypheraKernel.Lib.SortedMap
import CypheraKernel.Sched.State

/-!
# The run queues of a CPU

`RunQueues` of `kernel/src/core/runqueue.rs`: the runnable processes of one CPU by scheduling class.
Fair processes are ordered by virtual runtime, deadline processes by absolute deadline, and
real-time processes wait in one queue for each of the 99 priorities.
-/

namespace CypheraKernel.Sched

open Rust List SortedMap

inductive SchedClass
  | cfs
  | rt (priority : UInt8) (roundRobin : Bool)
  | deadline (runtimeNs deadlineNs periodNs : ℕ)
  deriving DecidableEq, Repr

def SchedClass.isDeadline : SchedClass → Bool
  | deadline _ _ _ => true
  | _ => false

/-- The real-time priority, 0 for the other classes. -/
def SchedClass.priority : SchedClass → UInt8
  | rt priority _ => priority
  | _ => 0

/-- Why a process enters the queue. -/
inductive CfsPlace
  | new
  | wake
  | continuing
  deriving DecidableEq, Repr

structure EnqueueData where
  schedClass : SchedClass
  (vruntime weight dlDeadline : ℕ)
  deriving DecidableEq, Repr

def schedLatencyNs : ℕ := 24000000
def schedMinGranularityNs : ℕ := 3000000
def schedWakeupVruntimeThreshNs : ℕ := schedLatencyNs / 2
def rtPrioCount : ℕ := 99
def rtPrioMin : ℕ := 1
def rtPrioMax : ℕ := 99
def dlBwScale : ℕ := 1000000
def dlBwMax : ℕ := 950000

/-- The queues of one CPU.  `rtCount` is the number of processes in the real-time bands. -/
structure RunQueues where
  cfs : SortedMap (ℕ ×ₗ Pid) ℕ
  (cfsMinVruntime cfsLoad : ℕ)
  rt : List (List Pid)
  rtCount : ℕ
  deadline : SortedMap (ℕ ×ₗ Pid) Unit
  dlTotalBw : ℕ
  length_rt : rt.length = rtPrioCount
  count_rt : rtCount = rt.flatten.length

namespace RunQueues

def new : RunQueues where
  cfs := .empty
  cfsMinVruntime := 0
  cfsLoad := 0
  rt := List.replicate rtPrioCount []
  rtCount := 0
  deadline := .empty
  dlTotalBw := 0
  length_rt := List.length_replicate
  count_rt := by simp

variable (q : RunQueues) (pid : Pid)

/-- The processes queued, in the order in which the classes are served. -/
def pids : List Pid :=
  q.deadline.keys.map (fun k => (ofLex k).2) ++ (q.rt.flatten ++ q.cfs.keys.map fun k => (ofLex k).2)

/-- Raise the least virtual runtime to that of the first entry. -/
def raiseMinVruntime (cfs : SortedMap (ℕ ×ₗ Pid) ℕ) (floor : ℕ) : ℕ :=
  match cfs.keys with
  | k :: _ => if (ofLex k).1 > floor then (ofLex k).1 else floor
  | [] => floor

/-- `enqueue_cfs`, with the virtual runtime at which the process was placed. -/
def enqueueCfs (vruntime weight : ℕ) (kind : CfsPlace) : RunQueues × ℕ :=
  let placed := match kind with
    | .new => max vruntime q.cfsMinVruntime
    | .wake => max vruntime (q.cfsMinVruntime - schedWakeupVruntimeThreshNs)
    | .continuing => vruntime
  let prev := q.cfs.get? (toLex (placed, pid))
  let cfs := q.cfs.insert (toLex (placed, pid)) weight
  ({ q with
      cfs := cfs
      cfsLoad := saturatingAddU64 q.cfsLoad weight - prev.getD 0
      cfsMinVruntime := raiseMinVruntime cfs q.cfsMinVruntime }, placed)

def cfsSliceFor (weight : ℕ) : ℕ :=
  let total := saturatingAddU64 q.cfsLoad weight
  if total = 0 then schedLatencyNs
  else max (saturatingMulU64 schedLatencyNs weight / total) schedMinGranularityNs

/-- The band of a priority. -/
def bandOf (priority : UInt8) : ℕ := min (max priority.toNat rtPrioMin) rtPrioMax - 1

theorem bandOf_lt (priority : UInt8) : bandOf priority < rtPrioCount := by
  unfold bandOf rtPrioMax rtPrioCount
  omega

theorem perm_flatten_modify {α : Type} {l : List (List α)} {i : ℕ} (h : i < l.length) (a : α) :
    (l.modify i (· ++ [a])).flatten.Perm (a :: l.flatten) := by
  induction l generalizing i with
  | nil => simp at h
  | cons b l ih =>
    cases i with
    | zero =>
      rw [modify_zero_cons, flatten_cons, flatten_cons, append_assoc,
        singleton_append]
      exact perm_middle
    | succ i =>
      rw [modify_succ_cons, flatten_cons, flatten_cons]
      exact ((ih (Nat.lt_of_succ_lt_succ h)).append_left b).trans perm_middle

theorem perm_flatten_enqueueRt (priority : UInt8) :
    (q.rt.modify (bandOf priority) (· ++ [pid])).flatten.Perm (pid :: q.rt.flatten) :=
  perm_flatten_modify (q.length_rt ▸ bandOf_lt priority) pid

def enqueueRt (priority : UInt8) : RunQueues :=
  { q with
    rt := q.rt.modify (bandOf priority) (· ++ [pid])
    rtCount := q.rtCount + 1
    length_rt := by rw [List.length_modify, q.length_rt]
    count_rt := by rw [(perm_flatten_enqueueRt q pid priority).length_eq, q.count_rt]; rfl }

/-- The highest priority with a process queued, counted from `i` at the head of the list. -/
def topBand (i : ℕ) : List (List Pid) → Option ℕ
  | [] => none
  | band :: rest =>
    match topBand (i + 1) rest with
    | some t => some t
    | none => if band.isEmpty then none else some (i + 1)

def rtTopPriority : Option ℕ := if q.rtCount = 0 then none else topBand 0 q.rt

def enqueueDeadline (absoluteDeadline : ℕ) : RunQueues :=
  { q with deadline := q.deadline.insert (toLex (absoluteDeadline, pid)) () }

/-- `admit_dl_bandwidth`; `none` when the bandwidth is refused. -/
def admitDlBandwidth (runtimeNs periodNs : ℕ) : Option RunQueues :=
  if periodNs = 0 ∨ runtimeNs > periodNs then none
  else
    let bw := saturatingMulU64 runtimeNs dlBwScale / periodNs
    if saturatingAddU64 q.dlTotalBw bw > dlBwMax then none
    else some { q with dlTotalBw := saturatingAddU64 q.dlTotalBw bw }

def releaseDlBandwidth (runtimeNs periodNs : ℕ) : RunQueues :=
  if periodNs = 0 then q
  else { q with dlTotalBw := q.dlTotalBw - saturatingMulU64 runtimeNs dlBwScale / periodNs }

/-- `enqueue`, with the virtual runtime that the process gets. -/
def enqueue (data : EnqueueData) (kind : CfsPlace) : RunQueues × ℕ :=
  match data.schedClass with
  | .cfs => q.enqueueCfs pid data.vruntime data.weight kind
  | .rt priority _ => (q.enqueueRt pid priority, data.vruntime)
  | .deadline _ _ _ => (q.enqueueDeadline pid data.dlDeadline, data.vruntime)

/-- Take the first process of the highest band that has one. -/
def popBand : List (List Pid) → Option (Pid × List (List Pid))
  | [] => none
  | band :: rest =>
    match popBand rest with
    | some (p, rest') => some (p, band :: rest')
    | none =>
      match band with
      | [] => none
      | p :: tail => some (p, tail :: rest)

theorem popBand_spec {l l' : List (List Pid)} {p : Pid} (h : popBand l = some (p, l')) :
    l'.length = l.length ∧ l.flatten.Perm (p :: l'.flatten) := by
  induction l generalizing p l' with
  | nil => cases h
  | cons band rest ih =>
    unfold popBand at h
    split at h
    · next q rest' hrest =>
      cases h
      obtain ⟨hlen, hperm⟩ := ih hrest
      refine ⟨congrArg Nat.succ hlen, ?_⟩
      rw [flatten_cons, flatten_cons]
      exact (hperm.append_left band).trans perm_middle
    · grind

/-- The real-time half of `pick_next`. -/
def pickRt : Option (Pid × RunQueues) :=
  if q.rtCount > 0 then
    match h : popBand q.rt with
    | some (p, rt) =>
      some (p, { q with
        rt := rt
        rtCount := q.rtCount - 1
        length_rt := by rw [(popBand_spec h).1, q.length_rt]
        count_rt := by rw [q.count_rt, (popBand_spec h).2.length_eq]; rfl })
    | none => none
  else none

/-- The fair half of `pick_next`. -/
def pickCfs : Option (Pid × RunQueues) :=
  match q.cfs.popFirst with
  | some ((k, w), cfs) =>
    some ((ofLex k).2, { q with
      cfs := cfs
      cfsLoad := q.cfsLoad - w
      cfsMinVruntime :=
        if cfs.isEmpty then max q.cfsMinVruntime (ofLex k).1
        else raiseMinVruntime cfs q.cfsMinVruntime })
  | none => none

/-- `pick_next`: the process to run next and the queues without it. -/
def pickNext (rtOk : Bool) : Option (Pid × RunQueues) :=
  if rtOk then
    match q.deadline.popFirst with
    | some ((k, _), deadline) => some ((ofLex k).2, { q with deadline := deadline })
    | none =>
      match q.pickRt with
      | some r => some r
      | none => q.pickCfs
  else q.pickCfs

def isEmpty (q : RunQueues) : Bool := q.rtCount = 0 && q.deadline.isEmpty && q.cfs.isEmpty

/-- The map without the first key of the process, and how many entries went. -/
def removeKey {ν : Type} (target : Pid) (m : SortedMap (ℕ ×ₗ Pid) ν) :
    SortedMap (ℕ ×ₗ Pid) ν × ℕ :=
  match m.keys.find? fun k => (ofLex k).2 = target with
  | some k => (m.eraseKey k, 1)
  | none => (m, 0)

/-- The real-time bands without a process. -/
def removeRt (target : Pid) : RunQueues :=
  let rt := q.rt.map fun band => band.filter fun p => p ≠ target
  { q with
    rt := rt
    rtCount := rt.flatten.length
    length_rt := by rw [List.length_map, q.length_rt]
    count_rt := rfl }

/-- `remove_pid`, with the numbers of real-time, deadline and fair entries that went. -/
def removePid (target : Pid) : RunQueues × ℕ × ℕ × ℕ :=
  let q₁ := q.removeRt target
  let dl := removeKey target q₁.deadline
  let weight := match q₁.cfs.keys.find? fun k => (ofLex k).2 = target with
    | some k => (q₁.cfs.get? k).getD 0
    | none => 0
  let cfs := removeKey target q₁.cfs
  ({ q₁ with deadline := dl.1, cfs := cfs.1, cfsLoad := q₁.cfsLoad - weight },
    q.rtCount - q₁.rtCount, dl.2, cfs.2)

def cfsLeftmostVruntimePub : ℕ :=
  match q.cfs.keys with
  | k :: _ => (ofLex k).1
  | [] => q.cfsMinVruntime

/-! ### The processes queued -/

variable {q q' : RunQueues} {pid} (target : Pid)

theorem pids_congr (hdl : q'.deadline = q.deadline) (hrt : q'.rt = q.rt)
    (hcfs : q'.cfs = q.cfs) : q'.pids = q.pids := by
  rw [pids, hdl, hrt, hcfs, pids]

@[simp] theorem pids_new : new.pids = [] := by decide

/-- A process that was not queued is queued once. -/
theorem perm_enqueue (h : pid ∉ q.pids) (data : EnqueueData)
    (kind : CfsPlace) : (q.enqueue pid data kind).1.pids.Perm (pid :: q.pids) := by
  unfold enqueue
  split
  · -- a fair process: its key is new because no key of the process is there
    have hkey (v : ℕ) : toLex (v, pid) ∉ q.cfs.keys := fun hk =>
      h (mem_append_right _ (mem_append_right _ (mem_map_of_mem hk)))
    refine (List.Perm.append_left _ (List.Perm.append_left _
      ((perm_keys_insert _ (hkey _)).map _))).trans ?_
    rw [map_cons]
    exact (List.Perm.append_left _ perm_middle).trans perm_middle
  · refine (List.Perm.append_left _ (List.Perm.append_right _ (perm_flatten_enqueueRt q pid _))).trans
      ?_
    exact perm_middle
  · have hkey : toLex (data.dlDeadline, pid) ∉ q.deadline.keys :=
      fun hk => h (mem_append_left _ (mem_map_of_mem hk))
    exact List.Perm.append_right _ ((perm_keys_insert _ hkey).map _)

theorem perm_pickRt (h : q.pickRt = some (pid, q')) : q.pids.Perm (pid :: q'.pids) := by
  unfold pickRt at h
  split_ifs at h
  split at h
  · next p rt hpop =>
    cases h
    exact (List.Perm.append_left _ (List.Perm.append_right _ (popBand_spec hpop).2)).trans
      perm_middle
  · cases h

theorem perm_pickCfs (h : q.pickCfs = some (pid, q')) : q.pids.Perm (pid :: q'.pids) := by
  unfold pickCfs at h
  split at h
  · next k w cfs hpop =>
    cases h
    unfold pids
    rw [keys_popFirst hpop, map_cons]
    exact (List.Perm.append_left _ perm_middle).trans perm_middle
  · cases h

/-- The process picked leaves the queues. -/
theorem perm_pickNext {rtOk : Bool}
    (h : q.pickNext rtOk = some (pid, q')) : q.pids.Perm (pid :: q'.pids) := by
  unfold pickNext at h
  split_ifs at h
  · split at h
    · next k u deadline hpop =>
      cases h
      unfold pids
      rw [keys_popFirst hpop, map_cons, cons_append]
    · grind [perm_pickRt, perm_pickCfs]
  · exact perm_pickCfs h

@[simp] theorem pids_releaseDlBandwidth (q : RunQueues) (runtimeNs periodNs : ℕ) :
    (q.releaseDlBandwidth runtimeNs periodNs).pids = q.pids := by
  grind [releaseDlBandwidth, pids_congr]

theorem pids_admitDlBandwidth {runtimeNs periodNs : ℕ}
    (h : q.admitDlBandwidth runtimeNs periodNs = some q') : q'.pids = q.pids := by
  unfold admitDlBandwidth at h
  split_ifs at h
  dsimp only at h
  split_ifs at h
  rw [← Option.some.inj h]
  exact pids_congr rfl rfl rfl

theorem map_keys_removeKey {ν : Type} {m : SortedMap (ℕ ×ₗ Pid) ν}
    (h : (m.keys.map fun k => (ofLex k).2).Nodup) :
    (removeKey target m).1.keys.map (fun k => (ofLex k).2) =
      (m.keys.map fun k => (ofLex k).2).filter fun p => p ≠ target := by
  unfold removeKey
  rw [filter_map]
  split
  · next k hk =>
    rw [keys_eraseKey]
    refine congrArg _ (filter_congr fun j hj => ?_)
    -- the process has one key only, so the others are kept
    grind [inj_on_of_nodup_map]
  · grind [filter_eq_self]

/-- When no process is queued twice, all of a process is removed. -/
theorem pids_removePid (h : q.pids.Nodup) :
    (q.removePid target).1.pids = q.pids.filter fun p => p ≠ target := by
  grind [removePid, pids, removeRt, map_keys_removeKey]

end RunQueues

end CypheraKernel.Sched
