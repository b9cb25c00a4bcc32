import CypheraKernel.Lib.Lists
import CypheraKernel.Sched.State

/-!
# Families of processes

What a process table has to keep so that every termination reaches the parent: who is whose child,
who traces whom, who has ended, and what each process is in the middle of.

`Inv.settled`: **no termination is lost or returned twice**.

The calls of the kernel are steps of this machine only if no process but the parent collects a
child; `CypheraKernel.Wait.Reports` says when they are.
-/

namespace CypheraKernel.Wait

open Function Option Nat List

open Sched (Pid)
open Lists

/-! ### The state -/

/-- What ties a process to others. -/
structure Kin where
  tgid : Pid
  parent : Option Pid
  children : List Pid
  ended : Bool
  tracer : Option Pid
  tracees : List Pid

/-- What a process is in the middle of: a wait call that has chosen a child, or its own end, with the
children that still have to be given to the reaper. -/
inductive Duty
  | free
  | reaping (child : Pid)
  | leaving (reaper : Pid) (orphans : List Pid)
  | corpse

/-- A termination that a wait call has returned to `caller`.  `parent` is the parent of the child at
that time, and `delivered` tells whether the status reached the memory of the caller. -/
structure Termination where
  (caller child : Pid)
  parent : Option Pid
  status : ℕ
  delivered : Bool
  deriving DecidableEq, Repr

/-- The processes that are there, the next pid, and the history of deaths and returned
terminations. -/
structure Family where
  kin : Pid → Option Kin
  next : ℕ
  duty : Pid → Duty
  deaths : List Pid
  terminations : List Termination

namespace Family

/-- No process at all. -/
def nobody : Family where
  kin _ := none
  next := 1
  duty _ := .free
  deaths := []
  terminations := []

variable (F : Family) (c : Pid)

/-- Change what ties each process. -/
def mapKin (g : Pid → Kin → Kin) : Family :=
  { F with kin := fun q => (F.kin q).map (g q) }

def setDuty (p : Pid) (d : Duty) : Family :=
  { F with duty := Function.update F.duty p d }

/-! ### The steps -/

/-- Give `q` the new child or tracee `n`, if it is the heir or the tracer. -/
def welcome (n : Pid) (heir tracer : Option Pid) (q : Pid) (k : Kin) : Kin :=
  { k with
    children := if heir = some q then k.children ++ [n] else k.children
    tracees := if tracer = some q then pushNew k.tracees n else k.tracees }

/-- A new process, with the next pid. -/
def born (tgid : Pid) (parent heir tracer : Option Pid) : Family :=
  { F with
    kin := Function.update (fun q => (F.kin q).map (welcome F.next heir tracer q)) F.next
      (some ⟨tgid, parent, [], false, tracer, []⟩)
    next := F.next + 1 }

/-- A pid that is used up by a call that fails. -/
def spoilt (tracer : Option Pid) : Family :=
  { F.mapKin (welcome F.next none tracer) with next := F.next + 1 }

/-- The process `t` becomes the tracer of `c`. -/
def trace (t c : Pid) : Family :=
  F.mapKin fun q k => { k with
    tracer := if q = c then some t else k.tracer
    tracees := if q = t then pushNew k.tracees c else k.tracees }

/-- The process `t` gives up `c`. -/
def untrace (t c : Pid) : Family :=
  F.mapKin fun q k => { k with
    tracer := if q = c ∧ k.tracer = some t then none else k.tracer
    tracees := if q = t then k.tracees.filter (· ≠ c) else k.tracees }

/-- The process `t` gives up all that it traces. -/
def release (t : Pid) (tracees : List Pid) : Family :=
  F.mapKin fun q k => { k with
    tracer := if q ∈ tracees ∧ k.tracer = some t then none else k.tracer
    tracees := if q = t then [] else k.tracees }

/-- What is left of `q` when `c` dies. -/
def bereaved (q : Pid) (k : Kin) : Kin := { k with ended := if q = c then true else k.ended }

def die (leader : Bool) : Family :=
  { F.mapKin (bereaved c) with
    deaths := if leader then F.deaths ++ [c] else F.deaths }

/-- The processes that satisfy `P` leave the table. -/
def remove (P : Pid → Kin → Bool) : Family :=
  { F with kin := fun q => (F.kin q).bind fun k => if P q k then none else some k }

/-- What `q` is when `r` has become the parent of `c`. -/
def adopted (r c q : Pid) (k : Kin) : Kin :=
  { k with
    parent := if q = c then some r else k.parent
    children := if q = r then pushNew k.children c else k.children }

def adopt (r c : Pid) : Family := F.mapKin (adopted r c)

/-- What `q` is when `p` has struck `c` off its lists. -/
def struck (p c q : Pid) (k : Kin) : Kin :=
  { k with
    children := if q = p then k.children.filter (· ≠ c) else k.children
    tracees := if q = p then k.tracees.filter (· ≠ c) else k.tracees }

def strike (p c : Pid) : Family := F.mapKin (struck p c)

def tell (r : Termination) : Family :=
  { F with terminations := F.terminations ++ [r] }

/-- The members of the thread group `tgid` that have ended, and `c` itself. -/
def swept (tgid : Pid) (q : Pid) (k : Kin) : Bool :=
  q = c || (k.tgid = tgid && k.ended)

inductive Step : Family → Family → Prop
  | quiet (F : Family) : Step F F
  | register (F : Family) : Step F (F.born F.next none none none)
  | fork (F : Family) {p : Pid} {k : Kin} {t : Option Pid} (hp : F.kin p = some k)
      (ht : t = none ∨ t = k.tracer) : Step F (F.born F.next (some p) (some p) t)
  | thread (F : Family) {p : Pid} {k : Kin} {t : Option Pid} (hp : F.kin p = some k)
      (ht : t = none ∨ t = k.tracer) : Step F (F.born k.tgid k.parent none t)
  | spoilt (F : Family) (t : Option Pid) : Step F (F.spoilt t)
  | trace (F : Family) {t c : Pid} {k : Kin} (ht : F.kin t = some k) : Step F (F.trace t c)
  | untrace (F : Family) (t c : Pid) : Step F (F.untrace t c)
  | die (F : Family) {c : Pid} {k : Kin} (hc : F.kin c = some k)
      (hleader : k.tgid = c) (hduty : ∀ r os, F.duty c ≠ .leaving r os) : Step F (F.die c true)
  | dieThread (F : Family) {c : Pid} {k : Kin} (hc : F.kin c = some k)
      (hleader : k.tgid ≠ c) (hduty : ∀ r os, F.duty c ≠ .leaving r os) : Step F (F.die c false)
  | bury (F : Family) {c : Pid} {k : Kin} (hc : F.kin c = some k) (hleader : k.tgid ≠ c) :
      Step F (F.remove fun q _ => q = c)
  | exit (F : Family) {p r : Pid} {k : Kin} (hp : F.kin p = some k) (hlive : k.ended = false)
      (hduty : F.duty p = .free) (hr : r < F.next) : Step F (F.setDuty p (.leaving r k.children))
  | fatal (F : Family) {p r : Pid} {k : Kin} (hp : F.kin p = some k) (hduty : F.duty p = .free)
      (hr : r < F.next) : Step F (F.setDuty p (.leaving r []))
  | adopt (F : Family) {p r c : Pid} {k : Kin} {os : List Pid} (hp : F.kin p = some k)
      (hduty : F.duty p = .leaving r (c :: os)) : Step F ((F.adopt r c).setDuty p (.leaving r os))
  | letGo (F : Family) {p r : Pid} {k : Kin} (hp : F.kin p = some k)
      (hduty : F.duty p = .leaving r []) : Step F ((F.release p k.tracees).setDuty p .corpse)
  | claim (F : Family) {p c : Pid} {k kc : Kin} (hp : F.kin p = some k) (hlive : k.ended = false)
      (hduty : F.duty p = .free) (hmem : c ∈ k.children) (hc : F.kin c = some kc)
      (hended : kc.ended = true) : Step F ((F.strike p c).setDuty p (.reaping c))
  | collect (F : Family) {p c : Pid} {k kc : Kin} (hp : F.kin p = some k) (hlive : k.ended = false)
      (hduty : F.duty p = .reaping c) (hc : F.kin c = some kc) (status : ℕ) :
      Step F (((F.remove (swept c kc.tgid)).setDuty p .free).tell
        ⟨p, c, kc.parent, status, true⟩)

/-! ### The invariant -/

/-- Exactly one wait call has returned the termination of `c`, and it was a call of its parent. -/
def ReturnedOnce : Prop :=
  ∃ r, F.terminations.filter (·.child = c) = [r] ∧ r.parent = some r.caller ∧ r.delivered = true

/-- The pids that `k` names are below `n`. -/
structure Kin.Below (k : Kin) (n : ℕ) : Prop where
  tgid : k.tgid < n
  parent : ∀ p, k.parent = some p → p < n
  children : ∀ c ∈ k.children, c < n
  tracer : ∀ t, k.tracer = some t → t < n

/-- Pids are not used twice, the lists of the children agree with the parents, and a child that has
ended stays until its parent has got its status. -/
structure Inv (F : Family) : Prop where
  positive : 0 < F.next
  known : ∀ q k, F.kin q = some k → 0 < q ∧ q < F.next ∧ Kin.Below k F.next
  fresh : ∀ q, F.next ≤ q → F.duty q = .free
  due : ∀ p r os, F.duty p = .leaving r os → r < F.next ∧ ∀ c ∈ os, c < F.next
  dead : ∀ c ∈ F.deaths, c < F.next
  told : ∀ r ∈ F.terminations, r.child < F.next
  heads : ∀ q k c kc, F.kin q = some k → c ∈ k.children → F.kin c = some kc → kc.tgid = c
  nodup : ∀ q k, F.kin q = some k → k.children.Nodup
  parents : ∀ p k c kc, F.kin p = some k → k.ended = false → (∀ r os, F.duty p ≠ .leaving r os) →
    F.duty p ≠ .corpse → c ∈ k.children → F.kin c = some kc → kc.parent = some p
  orphans : ∀ p r os, F.duty p = .leaving r os → os.Nodup ∧
    ∀ c ∈ os, ∀ kc, F.kin c = some kc → kc.tgid = c ∧ kc.parent = some p
  listed : ∀ c kc p k, F.kin c = some kc → kc.tgid = c → kc.parent = some p → F.kin p = some k →
    k.ended = false → c ∈ k.children ∨ F.duty p = .reaping c
  reaped : ∀ p c k, F.duty p = .reaping c → F.kin p = some k → k.ended = false →
    ∃ kc, F.kin c = some kc ∧ kc.ended = true ∧ kc.tgid = c ∧ kc.parent = some p ∧ c ∉ k.children
  traced : ∀ c kc t k, F.kin c = some kc → kc.tracer = some t → F.kin t = some k →
    k.ended = false → c ∈ k.tracees ∨ F.duty t = .reaping c
  untold : ∀ c kc, F.kin c = some kc → ∀ r ∈ F.terminations, r.child ≠ c
  buried : ∀ c ∈ F.deaths, (∃ kc, F.kin c = some kc ∧ kc.ended = true ∧ kc.tgid = c) ∨
    F.kin c = none ∧ F.ReturnedOnce c

theorem inv_nobody : nobody.Inv := by
  constructor <;> simp [nobody]

variable {F F' : Family} {p q r c t : Pid} {k kc : Kin} {g : Pid → Kin → Kin} {P : Pid → Kin → Bool}
  {d : Pid → Duty}

theorem kin_mapKin : (F.mapKin g).kin q = some k ↔ ∃ k₀, F.kin q = some k₀ ∧ g q k₀ = k := by
  simp [mapKin]

theorem kin_remove : (F.remove P).kin q = some k ↔ F.kin q = some k ∧ P q k = false := by
  cases hq : F.kin q with
  | none => simp [remove, hq]
  | some k₀ =>
    simp only [remove, hq, bind_some]
    split_ifs with hP
    · simp only [some.injEq, false_iff, not_and, Bool.not_eq_false]
      rintro rfl
      exact hP
    · simp only [some.injEq, iff_self_and]
      rintro rfl
      simpa using hP

/-! ### Changes of the table -/

/-- What a change of the processes by `g` and of their duties to `d` has to respect. -/
structure Amends (F : Family) (g : Pid → Kin → Kin) (d : Pid → Duty) : Prop where
  tgid : ∀ q k, (g q k).tgid = k.tgid
  live : ∀ q k, (g q k).ended = false → k.ended = false
  below : ∀ q k, F.kin q = some k → Kin.Below (g q k) F.next
  fresh : ∀ q, F.next ≤ q → d q = .free
  due : ∀ p r os, d p = .leaving r os → r < F.next ∧ ∀ c ∈ os, c < F.next
  heads : ∀ q k c kc, F.kin q = some k → c ∈ (g q k).children → F.kin c = some kc → kc.tgid = c
  nodup : ∀ q k, F.kin q = some k → (g q k).children.Nodup
  parents : ∀ p k c kc, F.kin p = some k → k.ended = false → (∀ r os, d p ≠ .leaving r os) →
    d p ≠ .corpse → c ∈ (g p k).children → F.kin c = some kc → (g c kc).parent = some p
  orphans : ∀ p r os, d p = .leaving r os → os.Nodup ∧
    ∀ c ∈ os, ∀ kc, F.kin c = some kc → kc.tgid = c ∧ (g c kc).parent = some p
  listed : ∀ c kc p k, F.kin c = some kc → kc.tgid = c → (g c kc).parent = some p →
    F.kin p = some k → k.ended = false → c ∈ (g p k).children ∨ d p = .reaping c
  reaped : ∀ p c k, d p = .reaping c → F.kin p = some k → k.ended = false →
    ∃ kc, F.kin c = some kc ∧ kc.ended = true ∧ kc.tgid = c ∧ (g c kc).parent = some p ∧
      c ∉ (g p k).children
  traced : ∀ c kc t k, F.kin c = some kc → (g c kc).tracer = some t → F.kin t = some k →
    k.ended = false → c ∈ (g t k).tracees ∨ d t = .reaping c

theorem Amends.ended (h : F.Amends g d) (hk : k.ended = true) : (g q k).ended = true := by
  by_contra hlive
  simp [h.live q k (Bool.eq_false_iff.2 hlive)] at hk

theorem Kin.Below.mono {n m : ℕ} (h : Kin.Below k n) (hnm : n ≤ m) : Kin.Below k m where
  tgid := h.tgid.trans_le hnm
  parent p hp := (h.parent p hp).trans_le hnm
  children c hc := (h.children c hc).trans_le hnm
  tracer t ht := (h.tracer t ht).trans_le hnm

section

variable (h : F.Inv)

include h

/-- **A change of the table keeps the invariant.** -/
theorem Inv.amend (hg : F.Amends g d) : { F.mapKin g with duty := d }.Inv := { h with
  known q k hq := by
    obtain ⟨k, hq', rfl⟩ := kin_mapKin.1 hq
    exact ⟨(h.known q k hq').1, (h.known q k hq').2.1, hg.below q k hq'⟩
  fresh := hg.fresh
  due := hg.due
  heads q k c kc hq hmem hc := by
    obtain ⟨k, hq', rfl⟩ := kin_mapKin.1 hq
    obtain ⟨kc, hc', rfl⟩ := kin_mapKin.1 hc
    exact (hg.tgid c kc).trans (hg.heads q k c kc hq' hmem hc')
  nodup q k hq := by
    obtain ⟨k, hq', rfl⟩ := kin_mapKin.1 hq
    exact hg.nodup q k hq'
  parents p k c kc hp hlive hleaving hcorpse hmem hc := by
    obtain ⟨k, hp', rfl⟩ := kin_mapKin.1 hp
    obtain ⟨kc, hc', rfl⟩ := kin_mapKin.1 hc
    exact hg.parents p k c kc hp' (hg.live p k hlive) hleaving hcorpse hmem hc'
  orphans p r os hduty := by
    refine ⟨(hg.orphans p r os hduty).1, fun c hmem kc hc => ?_⟩
    obtain ⟨kc, hc', rfl⟩ := kin_mapKin.1 hc
    rw [hg.tgid]
    exact (hg.orphans p r os hduty).2 c hmem kc hc'
  listed c kc p k hc hleader hparent hp hlive := by
    obtain ⟨kc, hc', rfl⟩ := kin_mapKin.1 hc
    obtain ⟨k, hp', rfl⟩ := kin_mapKin.1 hp
    rw [hg.tgid] at hleader
    exact hg.listed c kc p k hc' hleader hparent hp' (hg.live p k hlive)
  reaped p c k hduty hp hlive := by
    obtain ⟨k, hp', rfl⟩ := kin_mapKin.1 hp
    obtain ⟨kc, hc, hended, hleader, hrest⟩ := hg.reaped p c k hduty hp' (hg.live p k hlive)
    exact ⟨_, kin_mapKin.2 ⟨kc, hc, rfl⟩, hg.ended hended, (hg.tgid c kc).trans hleader, hrest⟩
  traced c kc t k hc htracer ht hlive := by
    obtain ⟨kc, hc', rfl⟩ := kin_mapKin.1 hc
    obtain ⟨k, ht', rfl⟩ := kin_mapKin.1 ht
    exact hg.traced c kc t k hc' htracer ht' (hg.live t k hlive)
  untold c kc hc := by
    obtain ⟨kc, hc', rfl⟩ := kin_mapKin.1 hc
    exact h.untold c kc hc'
  buried c hdead := by
    rcases h.buried c hdead with ⟨kc, hc, hended, hleader⟩ | ⟨hc, hreturned⟩
    · exact .inl ⟨_, kin_mapKin.2 ⟨kc, hc, rfl⟩, hg.ended hended, (hg.tgid c kc).trans hleader⟩
    · exact .inr ⟨by simp [mapKin, hc], hreturned⟩ }

/-- The invariant, as a change that changes nothing. -/
theorem Inv.amends : F.Amends (fun _ k => k) F.duty := { h with
  tgid _ _ := rfl
  live _ _ := id
  below q k hq := (h.known q k hq).2.2 }

/-- The duties of pids that are not in use stay free. -/
theorem Inv.fresh_update (hp : F.kin p = some k) (d : Duty) (q : Pid)
    (hq : F.next ≤ q) : Function.update F.duty p d q = .free := by
  have hne : q ≠ p := fun heq => absurd (heq ▸ hq) (not_le.2 (h.known p k hp).2.1)
  exact (update_of_ne hne ..).trans (h.fresh q hq)

/-! ### Tracing -/

/-- A process that gets another tracer, other tracees or another end. -/
theorem Inv.below (hq : F.kin q = some k) {ended : Bool} {tracer : Option Pid}
    {tracees : List Pid} (ht : ∀ t, tracer = some t → t < F.next) :
    Kin.Below { k with ended := ended, tracer := tracer, tracees := tracees } F.next := by
  obtain ⟨-, -, hk⟩ := h.known q k hq
  exact ⟨hk.tgid, hk.parent, hk.children, ht⟩

theorem Inv.tracer_lt (hq : F.kin q = some k) : ∀ t, k.tracer = some t → t < F.next :=
  (h.known q k hq).2.2.tracer

theorem Inv.trace (ht : F.kin t = some k) (c : Pid) : (F.trace t c).Inv := by
  refine h.amend { h.amends with
    below := fun q k' hq => h.below hq fun t' htracer => ?_, traced := ?_ }
  · split_ifs at htracer with hqc
    · simp_all [h.known]
    · exact h.tracer_lt hq t' htracer
  · grind [mem_pushNew, h.traced]

theorem Inv.untrace (t c : Pid) : (F.untrace t c).Inv := by
  refine h.amend { h.amends with
    below := fun q k' hq => h.below hq fun t' htracer => h.tracer_lt hq t' ?_, traced := ?_ }
  · grind
  · -- A process that `t` still traces is not the one that it has given up.
    grind [h.traced]

theorem Inv.release (ht : F.kin t = some k) (hduty : ∀ c, F.duty t ≠ .reaping c) :
    (F.release t k.tracees).Inv := by
  refine h.amend { h.amends with
    below := fun q k' hq => h.below hq fun t' htracer => h.tracer_lt hq t' ?_, traced := ?_ }
  · grind
  · grind [h.traced]

/-! ### Births -/

/-- A pid that nobody gets. -/
theorem Inv.skip : { F with next := F.next + 1 }.Inv := { h with
  positive := succ_pos _
  known q k hq := by
    obtain ⟨hpos, hlt, hk⟩ := h.known q k hq
    exact ⟨hpos, lt_succ_of_lt hlt, hk.mono (le_succ _)⟩
  fresh q hq := h.fresh q (le_of_succ_le hq)
  due p r os hduty := by
    obtain ⟨hr, hos⟩ := h.due p r os hduty
    exact ⟨lt_succ_of_lt hr, fun c hc => lt_succ_of_lt (hos c hc)⟩
  dead c hc := lt_succ_of_lt (h.dead c hc)
  told r hr := lt_succ_of_lt (h.told r hr) }

theorem Inv.spoilt (t : Option Pid) : (F.spoilt t).Inv := by
  refine Inv.skip (h.amend { h.amends with
    below := fun q k hq => h.below hq (h.tracer_lt hq), traced := ?_ })
  grind [h.traced, welcome, mem_pushNew]

end

section Born

variable {tgid : Pid} {parent heir tracer : Option Pid}

/-- The relatives of the new process are the ones that its kind of birth gives it. -/
structure Birth (F : Family) (tgid : Pid) (parent heir tracer : Option Pid) : Prop where
  tgid_le : tgid ≤ F.next
  parent_lt : ∀ p, parent = some p → p < F.next
  tracer_lt : ∀ t, tracer = some t → t < F.next
  of_heir : ∀ p, heir = some p → tgid = F.next ∧ parent = some p
  of_leader : tgid = F.next → parent = heir

theorem kin_born_self :
    (F.born tgid parent heir tracer).kin F.next = some ⟨tgid, parent, [], false, tracer, []⟩ :=
  by simp [born]

theorem kin_born_of_ne (h : q ≠ F.next) :
    (F.born tgid parent heir tracer).kin q = (F.kin q).map (welcome F.next heir tracer q) :=
  by simp [born, h]

theorem kin_born_eq (q : Pid) : (F.born tgid parent heir tracer).kin q =
    if q = F.next then some ⟨tgid, parent, [], false, tracer, []⟩
    else (F.kin q).map (welcome F.next heir tracer q) := by
  split_ifs with hq
  · rw [hq, kin_born_self]
  · exact kin_born_of_ne hq

/-- Every process after a birth is the new one or one of the old ones. -/
theorem kin_born (hq : (F.born tgid parent heir tracer).kin q = some k) :
    q = F.next ∧ k = ⟨tgid, parent, [], false, tracer, []⟩ ∨
      q ≠ F.next ∧ ∃ k₀, F.kin q = some k₀ ∧ welcome F.next heir tracer q k₀ = k := by
  rcases eq_or_ne q F.next with rfl | hne
  · grind [kin_born_self]
  · rw [kin_born_of_ne hne, map_eq_some_iff] at hq
    exact .inr ⟨hne, hq⟩

theorem mem_children_welcome {n : Pid} :
    c ∈ (welcome n heir tracer q k).children ↔ c ∈ k.children ∨ heir = some q ∧ c = n := by
  dsimp only [welcome]
  split_ifs with hq <;> simp [hq]

theorem mem_tracees_welcome {n : Pid} :
    c ∈ (welcome n heir tracer q k).tracees ↔ c ∈ k.tracees ∨ tracer = some q ∧ c = n := by
  dsimp only [welcome]
  split_ifs with hq <;> simp [hq, mem_pushNew]

theorem Inv.born (h : F.Inv) (hb : Birth F tgid parent heir tracer) :
    (F.born tgid parent heir tracer).Inv := { h.skip with
  known q k hq := by
    rcases kin_born hq with ⟨rfl, rfl⟩ | ⟨-, k, hq', rfl⟩
    · refine ⟨h.positive, lt_succ_self _, lt_succ_of_le hb.tgid_le, ?_, by simp, ?_⟩
      · exact fun p hp => lt_succ_of_lt (hb.parent_lt p hp)
      · exact fun t ht => lt_succ_of_lt (hb.tracer_lt t ht)
    obtain ⟨hpos, hlt, hk⟩ := h.known q k hq'
    have hk' := hk.mono (le_succ F.next)
    refine ⟨hpos, lt_succ_of_lt hlt, hk'.tgid, hk'.parent, ?_, hk'.tracer⟩
    intro c hc
    rcases mem_children_welcome.1 hc with hc | ⟨-, rfl⟩
    · exact hk'.children c hc
    · exact lt_succ_self _
  heads q k c kc hq hmem hc := by
    rcases kin_born hq with ⟨rfl, rfl⟩ | ⟨-, k, hq', rfl⟩
    · simp at hmem
    rcases mem_children_welcome.1 hmem with hmem | ⟨hheir, rfl⟩
    · rcases kin_born hc with ⟨rfl, rfl⟩ | ⟨-, kc, hc', rfl⟩
      · exact absurd ((h.known q k hq').2.2.children _ hmem) (lt_irrefl _)
      · exact h.heads q k c kc hq' hmem hc'
    · grind [kin_born_self, hb.of_heir]
  nodup q k hq := by
    rcases kin_born hq with ⟨rfl, rfl⟩ | ⟨-, k, hq', rfl⟩
    · exact nodup_nil
    have hnodup := h.nodup q k hq'
    have hfresh : F.next ∉ k.children := fun hmem =>
      absurd ((h.known q k hq').2.2.children _ hmem) (lt_irrefl _)
    grind [welcome]
  parents p k c kc hp hlive hleaving hcorpse hmem hc := by
    rcases kin_born hp with ⟨rfl, rfl⟩ | ⟨-, k, hp', rfl⟩
    · simp at hmem
    rcases mem_children_welcome.1 hmem with hmem | ⟨hheir, rfl⟩
    · rcases kin_born hc with ⟨rfl, rfl⟩ | ⟨-, kc, hc', rfl⟩
      · exact absurd ((h.known p k hp').2.2.children _ hmem) (lt_irrefl _)
      · exact h.parents p k c kc hp' hlive hleaving hcorpse hmem hc'
    · grind [kin_born_self, hb.of_heir]
  orphans p r os hduty := by
    obtain ⟨hnodup, hos⟩ := h.orphans p r os hduty
    refine ⟨hnodup, fun c hmem kc hc => ?_⟩
    rcases kin_born hc with ⟨rfl, rfl⟩ | ⟨-, kc, hc', rfl⟩
    · exact absurd ((h.due p r os hduty).2 _ hmem) (lt_irrefl _)
    · exact hos c hmem kc hc'
  listed c kc p k hc hleader hparent hp hlive := by
    rcases kin_born hp with ⟨rfl, rfl⟩ | ⟨-, k, hp', rfl⟩
    · -- The new process is nobody's parent.
      rcases kin_born hc with ⟨rfl, rfl⟩ | ⟨-, kc, hc', rfl⟩
      · exact absurd (hb.parent_lt _ hparent) (lt_irrefl _)
      · exact absurd ((h.known c kc hc').2.2.parent _ hparent) (lt_irrefl _)
    rw [mem_children_welcome]
    rcases kin_born hc with ⟨rfl, rfl⟩ | ⟨-, kc, hc', rfl⟩
    · exact .inl (.inr ⟨(hb.of_leader hleader).symm.trans hparent, rfl⟩)
    · exact (h.listed c kc p k hc' hleader hparent hp' hlive).imp_left .inl
  reaped p c k hduty hp hlive := by
    rcases kin_born hp with ⟨rfl, rfl⟩ | ⟨-, k, hp', rfl⟩
    · have hfree : F.duty F.next = .free := h.fresh _ le_rfl
      cases hfree.symm.trans hduty
    obtain ⟨kc, hc, hended, hleader, hparent, hmem⟩ := h.reaped p c k hduty hp' hlive
    have hne : c ≠ F.next := (h.known c kc hc).2.1.ne
    grind [welcome, kin_born_of_ne]
  traced c kc t k hc htracer ht hlive := by
    rcases kin_born ht with ⟨rfl, rfl⟩ | ⟨-, k, ht', rfl⟩
    · rcases kin_born hc with ⟨rfl, rfl⟩ | ⟨-, kc, hc', rfl⟩
      · exact absurd (hb.tracer_lt _ htracer) (lt_irrefl _)
      · exact absurd ((h.known c kc hc').2.2.tracer _ htracer) (lt_irrefl _)
    rw [mem_tracees_welcome]
    rcases kin_born hc with ⟨rfl, rfl⟩ | ⟨-, kc, hc', rfl⟩
    · exact .inl (.inr ⟨htracer, rfl⟩)
    · exact (h.traced c kc t k hc' htracer ht' hlive).imp_left .inl
  untold c kc hc r hr := by
    rcases kin_born hc with ⟨rfl, rfl⟩ | ⟨-, kc, hc', rfl⟩
    · exact (h.told r hr).ne
    · exact h.untold c kc hc' r hr
  buried c hdead := by
    have hne : c ≠ F.next := (h.dead c hdead).ne
    rw [kin_born_of_ne hne]
    rcases h.buried c hdead with ⟨kc, hc, hended, hleader⟩ | ⟨hc, hreturned⟩
    · exact .inl ⟨welcome F.next heir tracer c kc, by rw [hc, map_some], hended, hleader⟩
    · exact .inr ⟨by rw [hc, map_none], hreturned⟩ }

end Born

/-! ### Deaths and removals -/

theorem live_of_die (h : (bereaved c q k).ended = false) : k.ended = false := by
  dsimp only [bereaved] at h
  split_ifs at h
  exact h

theorem kept_of_leader (hP : ∀ q k, F.kin q = some k → P q k = true → k.tgid ≠ q)
    (hc : F.kin c = some kc) (hleader : kc.tgid = c) : P c kc = false :=
  Bool.eq_false_iff.2 fun h => hP c kc hc h hleader

theorem Inv.die (h : F.Inv) (hc : F.kin c = some kc) {leader : Bool}
    (hleader : leader = true → kc.tgid = c) : (F.die c leader).Inv := by
  have hmap : (F.mapKin (bereaved c)).Inv := h.amend { h.amends with
    live := fun _ _ => live_of_die
    below := fun q k hq => h.below hq (h.tracer_lt hq) }
  have hself : (F.mapKin (bereaved c)).kin c = some (bereaved c c kc) := by simp [mapKin, hc]
  refine { hmap with dead := fun c' hdead => ?_, buried := fun c' hdead => ?_ }
  all_goals
    have hold : c' ∈ F.deaths ∨ leader = true ∧ c' = c := by grind [Family.die]
    rcases hold with hdead | ⟨hlead, rfl⟩
  · exact h.dead c' hdead
  · exact (h.known c' kc hc).2.1
  · exact hmap.buried c' hdead
  · exact .inl ⟨_, hself, if_pos rfl, hleader hlead⟩

/-- Processes that lead no group may leave the table at any time. -/
theorem Inv.remove (h : F.Inv)
    (hP : ∀ q k, F.kin q = some k → P q k = true → k.tgid ≠ q) : (F.remove P).Inv := { h with
  known q k hq := h.known q k (kin_remove.1 hq).1
  heads q k c kc hq hmem hc := h.heads q k c kc (kin_remove.1 hq).1 hmem (kin_remove.1 hc).1
  nodup q k hq := h.nodup q k (kin_remove.1 hq).1
  parents p k c kc hp hlive hleaving hcorpse hmem hc :=
    h.parents p k c kc (kin_remove.1 hp).1 hlive hleaving hcorpse hmem (kin_remove.1 hc).1
  orphans p r os hduty := by
    obtain ⟨hnodup, hos⟩ := h.orphans p r os hduty
    exact ⟨hnodup, fun c hmem kc hc => hos c hmem kc (kin_remove.1 hc).1⟩
  listed c kc p k hc hleader hparent hp hlive :=
    h.listed c kc p k (kin_remove.1 hc).1 hleader hparent (kin_remove.1 hp).1 hlive
  reaped p c k hduty hp hlive := by
    obtain ⟨kc, hc, hended, hleader, hparent, hmem⟩ := h.reaped p c k hduty (kin_remove.1 hp).1 hlive
    exact ⟨kc, kin_remove.2 ⟨hc, kept_of_leader hP hc hleader⟩, hended, hleader, hparent, hmem⟩
  traced c kc t k hc htracer ht hlive :=
    h.traced c kc t k (kin_remove.1 hc).1 htracer (kin_remove.1 ht).1 hlive
  untold c kc hc := h.untold c kc (kin_remove.1 hc).1
  buried c hdead := by
    rcases h.buried c hdead with ⟨kc, hc, hended, hleader⟩ | ⟨hc, hreturned⟩
    · exact .inl ⟨kc, kin_remove.2 ⟨hc, kept_of_leader hP hc hleader⟩, hended, hleader⟩
    · exact .inr ⟨by simp [Family.remove, hc], hreturned⟩ }

/-! ### Leaving -/

/-- A process that is not in a wait call begins or goes on to leave. -/
theorem Inv.retire (h : F.Inv) {d : Duty} (hp : F.kin p = some k)
    (hduty : ∀ c, F.duty p ≠ .reaping c) (hd : d = .corpse ∨ ∃ r os, d = .leaving r os)
    (hdue : ∀ r os, d = .leaving r os → (r < F.next ∧ ∀ c ∈ os, c < F.next) ∧ os.Nodup ∧
      ∀ c ∈ os, ∀ kc, F.kin c = some kc → kc.tgid = c ∧ kc.parent = some p) :
    (F.setDuty p d).Inv := by
  have hsame : F.mapKin (fun _ k => k) = F := by simp [mapKin]
  have hother {q : Pid} (hne : q ≠ p) : update F.duty p d q = F.duty q := update_of_ne hne ..
  have hself : update F.duty p d p = d := update_self ..
  have hnew := h.amend (d := update F.duty p d) { h.amends with
    fresh := h.fresh_update hp d
    due := fun p' r os hduty' => by
      rcases eq_or_ne p' p with rfl | hne
      · exact (hdue r os (hself.symm.trans hduty')).1
      · exact h.due p' r os ((hother hne).symm.trans hduty')
    parents := fun p' k' c kc hp' hlive hleaving hcorpse hmem hc => by
      rcases eq_or_ne p' p with rfl | hne
      · grind
      · rw [hother hne] at hleaving hcorpse
        exact h.parents p' k' c kc hp' hlive hleaving hcorpse hmem hc
    orphans := fun p' r os hduty' => by
      rcases eq_or_ne p' p with rfl | hne
      · exact (hdue r os (hself.symm.trans hduty')).2
      · exact h.orphans p' r os ((hother hne).symm.trans hduty')
    listed := fun c kc p' k' hc hleader hparent hp' hlive => by
      have hlisted := h.listed c kc p' k' hc hleader hparent hp' hlive
      grind
    reaped := fun p' c k' hduty' hp' hlive => by
      rcases eq_or_ne p' p with rfl | hne
      · grind
      · exact h.reaped p' c k' ((hother hne).symm.trans hduty') hp' hlive
    traced := fun c kc t k' hc htracer ht hlive => by
      have htraced := h.traced c kc t k' hc htracer ht hlive
      grind }
  rwa [hsame] at hnew

theorem mem_children_adopted : c ∈ (adopted r p q k).children ↔ c ∈ k.children ∨ q = r ∧ c = p := by
  dsimp only [adopted]
  split_ifs with hq <;> simp [hq, mem_pushNew]

/-- The next orphan of a process that leaves gets the reaper as its parent. -/
theorem Inv.adopt {os : List Pid} (h : F.Inv) (hduty : F.duty p = .leaving r os) (hlt : c < F.next)
    (hos : c ∉ os) (hc : ∀ kc, F.kin c = some kc → kc.tgid = c ∧ kc.parent = some p) :
    (F.adopt r c).Inv := by
  -- The orphan is on no list but that of its old parent, which is leaving.
  have hother {q : Pid} {kc : Kin} (hc' : F.kin c = some kc)
      (hparent : kc.parent = some q) : F.duty q = .leaving r os := by
    rw [(hc kc hc').2] at hparent
    rw [← some.inj hparent, hduty]
  refine h.amend { h.amends with
    below := fun q k hq => ?_, heads := ?_, nodup := ?_, parents := ?_, orphans := ?_, listed := ?_,
    reaped := ?_ }
  · obtain ⟨-, -, hk⟩ := h.known q k hq
    refine ⟨hk.tgid, fun p' hp' => ?_, fun c' hc' => ?_, hk.tracer⟩
    · dsimp only [adopted] at hp'
      split_ifs at hp' with hqc
      · rw [← some.inj hp']
        exact (h.due p r os hduty).1
      · exact hk.parent p' hp'
    · rcases mem_children_adopted.1 hc' with hc' | ⟨-, rfl⟩
      · exact hk.children c' hc'
      · exact hlt
  · intro q k c' kc' hq hmem hc'
    rcases mem_children_adopted.1 hmem with hmem | ⟨-, rfl⟩
    · exact h.heads q k c' kc' hq hmem hc'
    · exact (hc kc' hc').1
  · grind [adopted, nodup_pushNew, h.nodup]
  · intro q k c' kc' hq hlive hleaving hcorpse hmem hc'
    rcases mem_children_adopted.1 hmem with hmem | ⟨rfl, rfl⟩
    · have hparent := h.parents q k c' kc' hq hlive hleaving hcorpse hmem hc'
      have hne : c' ≠ c := by
        rintro rfl
        exact hleaving r os (hother hc' hparent)
      exact (if_neg hne).trans hparent
    · exact if_pos rfl
  · intro p' r' os' hduty'
    obtain ⟨hnodup, hos'⟩ := h.orphans p' r' os' hduty'
    refine ⟨hnodup, fun c' hmem kc' hc' => ?_⟩
    obtain ⟨hleader, hparent⟩ := hos' c' hmem kc' hc'
    have hne : c' ≠ c := by
      rintro rfl
      cases (hother hc' hparent).symm.trans hduty'
      exact hos hmem
    exact ⟨hleader, (if_neg hne).trans hparent⟩
  · intro c' kc' p' k hc' hleader hparent hp' hlive
    rw [mem_children_adopted]
    dsimp only [adopted] at hparent
    split_ifs at hparent with heq
    · exact .inl (.inr ⟨(some.inj hparent).symm, heq⟩)
    · exact (h.listed c' kc' p' k hc' hleader hparent hp' hlive).imp_left .inl
  · intro p' c' k hduty' hp' hlive
    obtain ⟨kc', hc', hended, hleader, hparent, hmem⟩ := h.reaped p' c' k hduty' hp' hlive
    have hne : c' ≠ c := by
      rintro rfl
      cases (hother hc' hparent).symm.trans hduty'
    refine ⟨kc', hc', hended, hleader, (if_neg hne).trans hparent, ?_⟩
    grind [mem_children_adopted]

/-! ### Collecting a child -/

theorem mem_children_struck : r ∈ (struck p c q k).children ↔ r ∈ k.children ∧ (q = p → r ≠ c) := by
  dsimp only [struck]
  split_ifs with hq <;> simp [hq]

theorem mem_tracees_struck : r ∈ (struck p c q k).tracees ↔ r ∈ k.tracees ∧ (q = p → r ≠ c) := by
  dsimp only [struck]
  split_ifs with hq <;> simp [hq]

/-- A parent chooses a child that has ended. -/
theorem Inv.claim (h : F.Inv) (hp : F.kin p = some k) (hlive : k.ended = false)
    (hfree : F.duty p = .free) (hmem : c ∈ k.children) (hc : F.kin c = some kc)
    (hended : kc.ended = true) : ((F.strike p c).setDuty p (.reaping c)).Inv := by
  have hother {q : Pid} (hne : q ≠ p) :
      update F.duty p (.reaping c) q = F.duty q := update_of_ne hne ..
  have hself : update F.duty p (.reaping c) p = .reaping c := update_self ..
  have hparent := h.parents p k c kc hp hlive (by simp [hfree]) (by simp [hfree]) hmem hc
  have hleaves {q r : Pid} {os : List Pid}
      (hd : update F.duty p (.reaping c) q = .leaving r os) :
      F.duty q = .leaving r os := by grind
  refine h.amend (d := update F.duty p (.reaping c)) { h.amends with
    below := fun q k' hq => ?_, fresh := ?_, due := ?_, heads := ?_, nodup := ?_, parents := ?_,
    orphans := ?_, listed := ?_, reaped := ?_, traced := ?_ }
  · obtain ⟨-, -, hk⟩ := h.known q k' hq
    refine ⟨hk.tgid, hk.parent, fun c' hc' => ?_, hk.tracer⟩
    exact hk.children c' (mem_children_struck.1 hc').1
  · exact h.fresh_update hp _
  · exact fun p' r os hduty' => h.due p' r os (hleaves hduty')
  · exact fun q k' c' kc' hq hmem' => h.heads q k' c' kc' hq (mem_children_struck.1 hmem').1
  · intro q k' hq
    dsimp only [struck]
    split_ifs
    · exact (h.nodup q k' hq).filter _
    · exact h.nodup q k' hq
  · intro q k' c' kc' hq hlive' hleaving hcorpse hmem' hc'
    have hold := (mem_children_struck.1 hmem').1
    rcases eq_or_ne q p with rfl | hne
    · exact h.parents q k' c' kc' hq hlive' (by simp [hfree]) (by simp [hfree]) hold hc'
    · rw [hother hne] at hleaving hcorpse
      exact h.parents q k' c' kc' hq hlive' hleaving hcorpse hold hc'
  · exact fun p' r os hduty' => h.orphans p' r os (hleaves hduty')
  · intro c' kc' p' k' hc' hleader hparent' hp' hlive'
    have hlisted := h.listed c' kc' p' k' hc' hleader hparent' hp' hlive'
    rw [mem_children_struck]
    grind
  · intro p' c' k' hduty' hp' hlive'
    rcases eq_or_ne p' p with rfl | hne
    · cases hself.symm.trans hduty'
      exact ⟨kc, hc, hended, h.heads p' k c kc hp hmem hc, hparent, by simp [mem_children_struck]⟩
    · obtain ⟨kc', hc', hended', hleader, hparent', hmem'⟩ :=
        h.reaped p' c' k' ((hother hne).symm.trans hduty') hp' hlive'
      refine ⟨kc', hc', hended', hleader, hparent', ?_⟩
      exact fun hc'' => hmem' (mem_children_struck.1 hc'').1
  · intro c' kc' t k' hc' htracer ht hlive'
    have htraced := h.traced c' kc' t k' hc' htracer ht hlive'
    rw [mem_tracees_struck]
    grind

theorem kin_collect {d : Duty} {e : Termination} :
    (((F.remove fun q _ => q = c).setDuty p d).tell e).kin q = some k ↔ F.kin q = some k ∧ q ≠ c := by
  simp [kin_remove, tell, setDuty]

/-- The child that the parent has chosen leaves the table, and the parent is told. -/
theorem Inv.collect (h : F.Inv) (hp : F.kin p = some k) (hlive : k.ended = false)
    (hduty : F.duty p = .reaping c) (hc : F.kin c = some kc) (status : ℕ) :
    (((F.remove fun q _ => q = c).setDuty p .free).tell ⟨p, c, kc.parent, status, true⟩).Inv where
  positive := h.positive
  known q k' hq := h.known q k' (kin_collect.1 hq).1
  fresh := h.fresh_update hp _
  due p' r os hduty' := by
    rcases eq_or_ne p' p with rfl | hne
    · cases (update_self ..).symm.trans hduty'
    · exact h.due p' r os ((update_of_ne hne ..).symm.trans hduty')
  dead := h.dead
  told r hr := by
    rcases mem_append.1 hr with hr | hr
    · exact h.told r hr
    · rw [mem_singleton.1 hr]
      exact (h.known c kc hc).2.1
  heads q k' c' kc' hq hmem hc' :=
    h.heads q k' c' kc' (kin_collect.1 hq).1 hmem (kin_collect.1 hc').1
  nodup q k' hq := h.nodup q k' (kin_collect.1 hq).1
  parents q k' c' kc' hq hlive' hleaving hcorpse hmem hc' := by
    rcases eq_or_ne q p with rfl | hne
    · exact h.parents q k' c' kc' (kin_collect.1 hq).1 hlive' (by simp [hduty]) (by simp [hduty]) hmem
        (kin_collect.1 hc').1
    · simp only [tell, setDuty, update_of_ne hne] at hleaving hcorpse
      exact h.parents q k' c' kc' (kin_collect.1 hq).1 hlive' hleaving hcorpse hmem
        (kin_collect.1 hc').1
  orphans p' r os hduty' := by
    rcases eq_or_ne p' p with rfl | hne
    · cases (update_self ..).symm.trans hduty'
    obtain ⟨hnodup, hos⟩ := h.orphans p' r os ((update_of_ne hne ..).symm.trans hduty')
    exact ⟨hnodup, fun c' hmem kc' hc' => hos c' hmem kc' (kin_collect.1 hc').1⟩
  listed c' kc' p' k' hc' hleader hparent hp' hlive' := by
    obtain ⟨hc'', hne⟩ := kin_collect.1 hc'
    have hlisted := h.listed c' kc' p' k' hc'' hleader hparent (kin_collect.1 hp').1 hlive'
    rcases eq_or_ne p' p with rfl | hpp
    · grind
    · exact hlisted.imp_right (update_of_ne hpp ..).trans
  reaped p' c' k' hduty' hp' hlive' := by
    rcases eq_or_ne p' p with rfl | hpp
    · cases (update_self ..).symm.trans hduty'
    obtain ⟨kc', hc', hended', hleader, hparent, hmem⟩ := h.reaped p' c' k'
      ((update_of_ne hpp ..).symm.trans hduty') (kin_collect.1 hp').1 hlive'
    have hne : c' ≠ c := by grind [h.reaped]
    exact ⟨kc', kin_collect.2 ⟨hc', hne⟩, hended', hleader, hparent, hmem⟩
  traced c' kc' t k' hc' htracer ht hlive' := by
    obtain ⟨hc'', hne⟩ := kin_collect.1 hc'
    have htraced := h.traced c' kc' t k' hc'' htracer (kin_collect.1 ht).1 hlive'
    rcases eq_or_ne t p with rfl | htp
    · grind
    · exact htraced.imp_right (update_of_ne htp ..).trans
  untold c' kc' hc' r hr := by
    obtain ⟨hc'', hne⟩ := kin_collect.1 hc'
    rcases mem_append.1 hr with hr | hr
    · exact h.untold c' kc' hc'' r hr
    · grind
  buried c' hdead := by
    obtain ⟨kc', hc', hended, hleader, hparent, -⟩ := h.reaped p c k hduty hp hlive
    cases hc.symm.trans hc'
    rcases eq_or_ne c' c with rfl | hne
    · -- Nothing was told of the child before, so this is the only time.
      have hbefore : F.terminations.filter (·.child = c') = [] := by
        grind [filter_eq_nil_iff, h.untold]
      refine .inr ⟨by simp [tell, setDuty, Family.remove, hc], ⟨p, c', kc.parent, status, true⟩, ?_,
        hparent, rfl⟩
      simp [tell, setDuty, Family.remove, filter_append, hbefore]
    have hlast : ([⟨p, c, kc.parent, status, true⟩] : List Termination).filter (·.child = c') = [] :=
      by simp [hne.symm]
    rcases h.buried c' hdead with ⟨kc', hc', hended', hleader'⟩ | ⟨hc', r, hfilter, hr⟩
    · exact .inl ⟨kc', kin_collect.2 ⟨hc', hne⟩, hended', hleader'⟩
    · refine .inr ⟨by simp [tell, setDuty, Family.remove, hc'], r, ?_, hr⟩
      exact (filter_append ..).trans (by rw [hlast, append_nil]; exact hfilter)

/-! ### Runs -/

/-- The sweep removes the child and, apart from it, only processes that lead no group. -/
theorem remove_swept (hc : F.kin c = some kc) (hleader : kc.tgid = c) :
    F.remove (swept c kc.tgid) =
      (F.remove fun q k => q ≠ c ∧ k.tgid = c ∧ k.ended).remove fun q _ => q = c := by
  unfold Family.remove
  congr 1
  funext q
  cases hq : F.kin q with
  | none => simp [hq]
  | some k =>
    rcases eq_or_ne q c with rfl | hne
    · simp [swept, hq]
    · by_cases hk : k.tgid = c ∧ k.ended = true <;> simp [swept, hq, hne, hleader, hk]

/-- **Steps keep the invariant.** -/
theorem Step.inv (h : F.Inv) (hstep : Step F F') : F'.Inv := by
  cases hstep with
  | quiet => exact h
  | register =>
    exact h.born ⟨le_rfl, nofun, nofun, nofun, fun _ => rfl⟩
  | @fork p k t hp ht =>
    obtain ⟨-, hlt, hk⟩ := h.known p k hp
    refine h.born ⟨le_rfl, ?_, ?_, fun _ hp' => ⟨rfl, hp'⟩, fun _ => rfl⟩
    · rintro _ ⟨⟩
      exact hlt
    · rintro t rfl
      exact hk.tracer t (ht.resolve_left (by simp)).symm
  | @thread p k t hp ht =>
    obtain ⟨-, -, hk⟩ := h.known p k hp
    refine h.born ⟨hk.tgid.le, hk.parent, ?_, nofun, fun heq => absurd heq hk.tgid.ne⟩
    rintro t rfl
    exact hk.tracer t (ht.resolve_left (by simp)).symm
  | spoilt t => exact h.spoilt t
  | trace ht => exact h.trace ht _
  | untrace t c => exact h.untrace t c
  | die hc hleader => exact h.die hc fun _ => hleader
  | dieThread hc => exact h.die hc nofun
  | @bury c k hc hleader =>
    refine h.remove fun q k' hq heq => ?_
    obtain rfl : q = c := by simpa using heq
    cases hc.symm.trans hq
    exact hleader
  | @exit p r k hp hlive hduty hr =>
    refine h.retire hp (by simp [hduty]) (.inr ⟨r, _, rfl⟩) ?_
    rintro _ _ ⟨⟩
    refine ⟨⟨hr, (h.known p k hp).2.2.children⟩, h.nodup p k hp, fun c hmem kc hc => ?_⟩
    exact ⟨h.heads p k c kc hp hmem hc,
      h.parents p k c kc hp hlive (by simp [hduty]) (by simp [hduty]) hmem hc⟩
  | @fatal p r k hp hduty hr =>
    refine h.retire hp (by simp [hduty]) (.inr ⟨r, _, rfl⟩) ?_
    rintro _ _ ⟨⟩
    exact ⟨⟨hr, by simp⟩, nodup_nil, by simp⟩
  | @adopt p r c k os hp hduty =>
    obtain ⟨hr, hlt⟩ := h.due p r _ hduty
    obtain ⟨hnodup, hos⟩ := h.orphans p r _ hduty
    have hrest : (F.setDuty p (.leaving r os)).Inv := by
      refine h.retire hp (by simp [hduty]) (.inr ⟨r, os, rfl⟩) ?_
      rintro _ _ ⟨⟩
      exact ⟨⟨hr, fun c' hc' => hlt c' (.tail _ hc')⟩, hnodup.of_cons,
        fun c' hc' => hos c' (.tail _ hc')⟩
    exact hrest.adopt (update_self ..) (hlt c (.head _)) (nodup_cons.1 hnodup).1
      (hos c (.head _))
  | @letGo p r k hp hduty =>
    have hrel := h.release hp (by simp [hduty])
    exact hrel.retire (kin_mapKin.2 ⟨k, hp, rfl⟩) (by simp [release, mapKin, hduty]) (.inl rfl) nofun
  | claim hp hlive hduty hmem hc hended => exact h.claim hp hlive hduty hmem hc hended
  | @collect p c k kc hp hlive hduty hc status =>
    obtain ⟨kc', hc', hended, hleader, -⟩ := h.reaped p c k hduty hp hlive
    cases hc.symm.trans hc'
    rw [remove_swept hc hleader]
    have hrest := h.remove (P := fun q k => q ≠ c ∧ k.tgid = c ∧ k.ended) fun q k' _ hq heq => by
      simp only [decide_eq_true_eq] at hq
      exact hq.1 (heq.symm.trans hq.2.1)
    refine hrest.collect (kin_remove.2 ⟨hp, by simp [hlive]⟩) hlive hduty ?_ status
    exact kin_remove.2 ⟨hc, by simp⟩

/-- **No termination is lost or returned twice.**  A process that has ended has either been returned
to its parent by exactly one call, or it is still there, nothing has been told of it, and its parent
finds it among its children or is just collecting it. -/
theorem Inv.settled (h : F.Inv) (hdead : c ∈ F.deaths) :
    F.ReturnedOnce c ∨ ∃ kc, F.kin c = some kc ∧ kc.ended = true ∧
      (∀ r ∈ F.terminations, r.child ≠ c) ∧
      ∀ p k, kc.parent = some p → F.kin p = some k → k.ended = false →
        c ∈ k.children ∨ F.duty p = .reaping c := by
  rcases h.buried c hdead with ⟨kc, hc, hended, hleader⟩ | ⟨-, hreturned⟩
  · grind [h.untold, h.listed]
  · exact .inl hreturned

end Family

end CypheraKernel.Wait
