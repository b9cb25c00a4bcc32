import CypheraKernel.Errno
import CypheraKernel.Security.Credentials

/-!
# Set-id calls and the credential change of exec

`kernel/src/security/setid.rs`.
The main results are `confined_iff`, on runs that start without `CAP_SETUID`, and
`exec_noNewPrivs_iff`, on exec under `no_new_privs`.
-/

namespace CypheraKernel.Creds

open Credentials Ids

/-! ### The id part of the calls -/

/-- `check_setid_transition`, with the real, effective and saved id in `ids`. -/
def checkSetidTransition (current new : UInt32) (ids : Ids) (privileged : Bool) : Bool :=
  if new = setidKeep then true
  else if privileged then true
  else new = ids.r ∨ new = ids.e ∨ new = ids.s ∨ new = current

/-- The new value of an id whose argument may be `SETID_KEEP`. -/
def orKeep (k old : UInt32) : UInt32 := if k ≠ setidKeep then k else old

namespace Ids

variable (ids : Ids)

/-- The id part of `sys_setresuid` and `sys_setresgid`; `none` is `EPERM`. -/
def setres (kr ke ks : UInt32) (privileged : Bool) : Option Ids :=
  if !checkSetidTransition ids.r kr ids privileged || !checkSetidTransition ids.e ke ids privileged
      || !checkSetidTransition ids.s ks ids privileged then none
  else some ⟨orKeep kr ids.r, orKeep ke ids.e, orKeep ks ids.s, orKeep ke ids.fs⟩

/-- The id part of `sys_setreuid` and `sys_setregid`. -/
def setre (kr ke : UInt32) (privileged : Bool) : Option Ids :=
  if !checkSetidTransition ids.r kr ids privileged
      || !checkSetidTransition ids.e ke ids privileged then none
  else
    let rChanging := kr ≠ setidKeep ∧ kr ≠ ids.r
    let eChanging := ke ≠ setidKeep ∧ ke ≠ ids.e
    let e := orKeep ke ids.e
    some ⟨orKeep kr ids.r, e, if rChanging ∨ (eChanging ∧ ke ≠ ids.s) then e else ids.s,
      orKeep ke ids.fs⟩

/-- The id part of `sys_setuid` and `sys_setgid`. -/
def set (k : UInt32) (privileged : Bool) : Option Ids :=
  if privileged then some ⟨k, k, k, k⟩
  else if k = ids.r ∨ k = ids.e ∨ k = ids.s then some { ids with e := k, fs := k }
  else none

/-- The id part of `sys_setfsuid` and `sys_setfsgid`, which cannot fail. -/
def setfs (k : UInt32) (privileged : Bool) : Ids :=
  if (privileged ∨ k = ids.r ∨ k = ids.e ∨ k = ids.s ∨ k = ids.fs) ∧ k ≠ setidKeep then
    { ids with fs := k }
  else ids

end Ids

/-! ### The system calls -/

/-- `map_setuid_in` and `map_setgid_in`. -/
def mapSetIn (kind : IdMapKind) (c : Credentials) (id : UInt32) : Option UInt32 :=
  if id = setidKeep then some setidKeep else c.intoKernel kind id

variable (c : Credentials) (keepCaps : Bool)

/-- The end of a uid call: `EPERM`, or the new ids and their capability change. -/
def finishUid : Option Ids → ℤ × Credentials
  | none => (eperm, c)
  | some ids => (0, ({ c with uid := ids }).applyUidChangeCaps c.uid keepCaps)

/-- The end of a gid call: `EPERM`, or the new ids. -/
def finishGid : Option Ids → ℤ × Credentials
  | none => (eperm, c)
  | some ids => (0, { c with gid := ids })

def sysSetresuid (r e s : UInt32) : ℤ × Credentials :=
  match mapSetIn .uid c r, mapSetIn .uid c e, mapSetIn .uid c s with
  | some kr, some ke, some ks => finishUid c keepCaps (c.uid.setres kr ke ks (c.hasCap capSetuid))
  | _, _, _ => (einval, c)

def sysSetresgid (r e s : UInt32) : ℤ × Credentials :=
  match mapSetIn .gid c r, mapSetIn .gid c e, mapSetIn .gid c s with
  | some kr, some ke, some ks => finishGid c (c.gid.setres kr ke ks (c.hasCap capSetgid))
  | _, _, _ => (einval, c)

def sysSetuid (uid : UInt32) : ℤ × Credentials :=
  match c.intoKernel .uid uid with
  | some ku => finishUid c keepCaps (c.uid.set ku (c.hasCap capSetuid))
  | none => (einval, c)

def sysSetgid (gid : UInt32) : ℤ × Credentials :=
  match c.intoKernel .gid gid with
  | some kg => finishGid c (c.gid.set kg (c.hasCap capSetgid))
  | none => (einval, c)

def sysSetreuid (r e : UInt32) : ℤ × Credentials :=
  match mapSetIn .uid c r, mapSetIn .uid c e with
  | some kr, some ke => finishUid c keepCaps (c.uid.setre kr ke (c.hasCap capSetuid))
  | _, _ => (einval, c)

def sysSetregid (r e : UInt32) : ℤ × Credentials :=
  match mapSetIn .gid c r, mapSetIn .gid c e with
  | some kr, some ke => finishGid c (c.gid.setre kr ke (c.hasCap capSetgid))
  | _, _ => (einval, c)

/-- `sys_setfsuid` returns the former id, also when it changes nothing. -/
def sysSetfsuid (fsuid : UInt32) : ℤ × Credentials :=
  let old := c.fromKernel .uid c.uid.fs
  match mapSetIn .uid c fsuid with
  | none => (old.toNat, c)
  | some k => (old.toNat, { c with uid := c.uid.setfs k (c.hasCap capSetuid) })

def sysSetfsgid (fsgid : UInt32) : ℤ × Credentials :=
  let old := c.fromKernel .gid c.gid.fs
  match mapSetIn .gid c fsgid with
  | none => (old.toNat, c)
  | some k => (old.toNat, { c with gid := c.gid.setfs k (c.hasCap capSetgid) })

/-! ### Ids of an unprivileged caller -/

namespace Ids

/-- The set of the real, effective and saved id. -/
def res (ids : Ids) : List UInt32 := [ids.r, ids.e, ids.s]

/-- The ids `a` were chosen among the ids `b`. -/
structure Within (a b : Ids) : Prop where
  res : ∀ x ∈ a.res, x ∈ b.res
  fs : a.fs ∈ b.res ∨ a.fs = b.fs

theorem Within.refl (a : Ids) : Within a a := ⟨fun _ h => h, .inr rfl⟩

theorem Within.trans {a b c : Ids} (hab : Within a b) (hbc : Within b c) : Within a c := by
  refine ⟨fun x hx => hbc.res x (hab.res x hx), ?_⟩
  rcases hab.fs with h | h
  · exact .inl (hbc.res _ h)
  · rw [h]
    exact hbc.fs

section

variable {ids : Ids} {current k : UInt32} (hcur : current ∈ ids.res)
  (h : checkSetidTransition current k ids false = true)

include hcur h

/-- An id that passes the unprivileged check is the old one or one of the three. -/
theorem orKeep_mem (old : UInt32) : orKeep k old = old ∨ orKeep k old ∈ ids.res := by
  by_cases hk : k = setidKeep
  · exact .inl (if_neg (not_not.2 hk))
  right
  rw [orKeep, if_pos hk]
  rw [checkSetidTransition, if_neg hk, if_neg Bool.false_ne_true] at h
  rcases of_decide_eq_true h with rfl | rfl | rfl | rfl
  · simp [res]
  · simp [res]
  · simp [res]
  · exact hcur

theorem orKeep_mem_res : orKeep k current ∈ ids.res := by
  grind [orKeep_mem]

end

/-- Three members of the old set, and a file-system id that follows the effective one. -/
theorem within_mk {ids : Ids} {r e s fs : UInt32} (hr : r ∈ ids.res) (he : e ∈ ids.res)
    (hs : s ∈ ids.res) (hfs : fs = ids.fs ∨ fs ∈ ids.res) : Within ⟨r, e, s, fs⟩ ids := by
  refine ⟨fun x hx => ?_, hfs.symm⟩
  simp only [res, List.mem_cons, List.not_mem_nil, or_false] at hx
  rcases hx with rfl | rfl | rfl
  exacts [hr, he, hs]

theorem r_mem (ids : Ids) : ids.r ∈ ids.res := by simp [res]
theorem e_mem (ids : Ids) : ids.e ∈ ids.res := by simp [res]
theorem s_mem (ids : Ids) : ids.s ∈ ids.res := by simp [res]

variable {ids ids' : Ids}

theorem setres_within {kr ke ks : UInt32}
    (h : ids.setres kr ke ks false = some ids') : Within ids' ids := by
  unfold setres at h
  split_ifs at h with hc
  cases h
  simp only [Bool.or_eq_true, Bool.not_eq_true', not_or, Bool.not_eq_false] at hc
  obtain ⟨⟨hr, he⟩, hs⟩ := hc
  exact within_mk (orKeep_mem_res ids.r_mem hr) (orKeep_mem_res ids.e_mem he)
    (orKeep_mem_res ids.s_mem hs) (orKeep_mem ids.e_mem he ids.fs)

theorem setre_within {kr ke : UInt32}
    (h : ids.setre kr ke false = some ids') : Within ids' ids := by
  unfold setre at h
  split_ifs at h with hc
  cases h
  simp only [Bool.or_eq_true, Bool.not_eq_true', not_or, Bool.not_eq_false] at hc
  grind [ids.e_mem, within_mk, ids.r_mem, orKeep_mem, ids.s_mem]

theorem set_within {k : UInt32} (h : ids.set k false = some ids') : Within ids' ids := by
  rw [set, if_neg Bool.false_ne_true] at h
  grind [res, within_mk]

theorem setfs_within (ids : Ids) (k : UInt32) : Within (ids.setfs k false) ids := by
  simp only [setfs, Bool.false_eq_true, false_or]
  split_ifs with hk
  · refine ⟨fun _ h => h, ?_⟩
    grind [ids.r_mem, ids.e_mem, ids.s_mem]
  · exact Within.refl ids

end Ids

/-! ### Runs of uid calls -/

/-- The four uid calls with their arguments. -/
inductive Call
  | setuid (uid : UInt32)
  | setreuid (r e : UInt32)
  | setresuid (r e s : UInt32)
  | setfsuid (fsuid : UInt32)

/-- A call by a process with the given `keep_caps` flag: return value and new credentials. -/
def Call.exec (keepCaps : Bool) (c : Credentials) : Call → ℤ × Credentials
  | setuid uid => sysSetuid c keepCaps uid
  | setreuid r e => sysSetreuid c keepCaps r e
  | setresuid r e s => sysSetresuid c keepCaps r e s
  | setfsuid fsuid => sysSetfsuid c fsuid

/-- A uid call, or any change to the namespace maps through which the next call translates its
arguments. -/
inductive Event
  | call (keepCaps : Bool) (call : Call)
  | remap (ns : Option UserNamespace)

def Event.exec (c : Credentials) : Event → Credentials
  | call keepCaps k => (k.exec keepCaps c).2
  | remap ns => { c with userNs := ns }

variable (c : Credentials)

def runEvents (events : List Event) : Credentials := events.foldl Event.exec c

/-- What a call does: it fails or changes nothing, it sets only the file-system id, or it sets ids
and adjusts the capabilities; an unprivileged caller's new ids are within the old ones. -/
def Acts (keepCaps : Bool) (r : ℤ × Credentials) : Prop :=
  r.2 = c ∨ 0 ≤ r.1 ∧ ∃ ids : Ids, (c.hasCap capSetuid = false → ids.Within c.uid) ∧
    ((ids.res = c.uid.res ∧ r.2 = { c with uid := ids }) ∨
      r.2 = ({ c with uid := ids }).applyUidChangeCaps c.uid keepCaps)

theorem Call.acts_exec (k : Call) (keepCaps : Bool) (c : Credentials) :
    Acts c keepCaps (k.exec keepCaps c) := by
  have finish (o : Option Ids)
      (ho : ∀ ids, o = some ids → c.hasCap capSetuid = false → ids.Within c.uid) :
      Acts c keepCaps (finishUid c keepCaps o) := by
    cases o with
    | none => exact .inl rfl
    | some ids => exact .inr ⟨le_rfl, ids, ho ids rfl, .inr rfl⟩
  cases k with
  | setuid uid =>
    simp only [exec, sysSetuid]
    split
    · exact finish _ fun ids h hcap => set_within (hcap ▸ h)
    · exact .inl rfl
  | setreuid r e =>
    simp only [exec, sysSetreuid]
    split
    · exact finish _ fun ids h hcap => setre_within (hcap ▸ h)
    · exact .inl rfl
  | setresuid r e s =>
    simp only [exec, sysSetresuid]
    split
    · exact finish _ fun ids h hcap => setres_within (hcap ▸ h)
    · exact .inl rfl
  | setfsuid fsuid =>
    simp only [exec, sysSetfsuid]
    split
    · exact .inl rfl
    · grind [Acts, setfs, res, setfs_within]

/-- The confinement of an unprivileged process: in every state its uid calls lead to, the ids are
within the first ones, `CAP_SETUID` is absent, and a call that fails changes nothing. -/
def Confined : Prop :=
  ∀ events, (runEvents c events).uid.Within c.uid ∧
    (runEvents c events).hasCap capSetuid = false ∧
    ∀ (keepCaps : Bool) (k : Call), (k.exec keepCaps (runEvents c events)).1 < 0 →
      (k.exec keepCaps (runEvents c events)).2 = runEvents c events

/-- No uid call can raise `CAP_SETUID` from the permitted set: it is not there, or the effective uid
cannot become `0`, or it cannot be anything else. -/
def NoRaise : Prop :=
  capIn c.capsPerm capSetuid = false ∨ 0 ∉ c.uid.res ∨ ∀ x ∈ c.uid.res, x = 0
  deriving Decidable

variable {c}

/-- New ids within the old ones preserve `NoRaise` as long as the permitted set does not grow. -/
theorem NoRaise.mono {c' : Credentials} (h : NoRaise c) (hids : c'.uid.Within c.uid)
    (hperm : c'.capsPerm = c.capsPerm ∨ c'.capsPerm = 0) : NoRaise c' := by
  rcases hperm with hp | hp
  · rcases h with h | h | h
    · exact .inl (hp ▸ h)
    · exact .inr (.inl fun h0 => h (hids.res 0 h0))
    · exact .inr (.inr fun x hx => h x (hids.res x hx))
  · exact .inl (by rw [hp, capIn_zero])

/-- **One call** of a process without `CAP_SETUID` keeps the ids within the old ones and does not
gain the capability. -/
theorem Call.exec_confined (k : Call) (keepCaps : Bool)
    (hcap : c.hasCap capSetuid = false) (hno : NoRaise c) :
    (k.exec keepCaps c).2.uid.Within c.uid ∧
      (k.exec keepCaps c).2.hasCap capSetuid = false ∧ NoRaise (k.exec keepCaps c).2 := by
  rcases k.acts_exec keepCaps c with h | ⟨-, ids, hids, ⟨-, h⟩ | h⟩
  · rw [h]
    exact ⟨Within.refl _, hcap, hno⟩
  · rw [h]
    exact ⟨hids hcap, hcap, hno.mono (hids hcap) (.inl rfl)⟩
  have hin : (({ c with uid := ids }).applyUidChangeCaps c.uid keepCaps).uid.Within c.uid := by
    rw [applyUidChangeCaps_uid]
    exact hids hcap
  obtain ⟨hperm, heff⟩ := ({ c with uid := ids }).applyUidChangeCaps_caps c.uid keepCaps
  rw [h]
  refine ⟨hin, ?_, hno.mono hin hperm⟩
  rcases heff with he | he | ⟨hold, hnew, he⟩
  · rw [hasCap, he]
    exact hcap
  · rw [hasCap, he, capIn_zero]
  -- the effective uid went from a nonzero id to `0`, so both kinds are among the three ids
  have h0 : (0 : UInt32) ∈ c.uid.res := by
    have hmem := (hids hcap).res ids.e ids.e_mem
    rwa [show ids.e = 0 from hnew] at hmem
  rcases hno with hp | hz | hz
  · rw [hasCap, he]
    exact hp
  · exact absurd h0 hz
  · exact absurd (hz _ c.uid.e_mem) hold

theorem runEvents_confined (hcap : c.hasCap capSetuid = false) (hno : NoRaise c)
    (events : List Event) :
    (runEvents c events).uid.Within c.uid ∧ (runEvents c events).hasCap capSetuid = false := by
  induction events generalizing c with
  | nil => exact ⟨Within.refl _, hcap⟩
  | cons ev events ih =>
    cases ev with
    | call keepCaps k =>
      obtain ⟨h1, h2, h3⟩ := k.exec_confined keepCaps hcap hno
      obtain ⟨h4, h5⟩ := ih h2 h3
      exact ⟨h4.trans h1, h5⟩
    | remap ns => exact ih (c := { c with userNs := ns }) hcap hno

section Raise

variable {c : Credentials} (hns : c.userNs = none) (hcap : c.hasCap capSetuid = false) {x : UInt32}
include hns hcap

/-- `setuid` to one of the three ids changes the effective and the file-system uid. -/
theorem sysSetuid_mem (hx : x ∈ c.uid.res) :
    (sysSetuid c false x).2 =
      ({ c with uid := { c.uid with e := x, fs := x } }).applyUidChangeCaps c.uid false := by
  simp_all [Ids.set, Ids.res, sysSetuid, intoKernel, finishUid]

/-- Going back to effective uid `0` raises the permitted set. -/
theorem sysSetuid_raise (h0 : 0 ∈ c.uid.res) (he : c.uid.e ≠ 0) :
    (sysSetuid c false 0).2.capsEff = c.capsPerm := by
  rw [sysSetuid_mem hns hcap h0, applyUidChangeCaps, if_neg, if_pos ⟨he, rfl⟩]
  exact fun h => h.2 (.inr (.inl rfl))

/-- Leaving effective uid `0` while another uid remains `0` keeps the permitted set, so that going
back raises it. -/
theorem sysSetuid_drop_raise (hx : x ∈ c.uid.res) (hx0 : x ≠ 0) (he : c.uid.e = 0)
    (hroot : c.uid.r = 0 ∨ c.uid.s = 0) :
    (sysSetuid (sysSetuid c false x).2 false 0).2.capsEff = c.capsPerm := by
  have hdrop : (sysSetuid c false x).2 =
      { c with uid := { c.uid with e := x, fs := x }, capsEff := 0 } := by
    rw [sysSetuid_mem hns hcap hx, applyUidChangeCaps, if_neg, if_neg,
      if_pos ⟨he, hx0⟩]
    · exact fun h => h.1 he
    · exact fun h => h.2 (hroot.imp id fun hs => .inr (.inl hs))
  have hmem : 0 ∈ ({ c.uid with e := x, fs := x } : Ids).res := by
    rcases hroot with h | h <;> simp [res, h]
  rw [hdrop]
  exact sysSetuid_raise (c := { c with uid := { c.uid with e := x, fs := x }, capsEff := 0 }) hns
    (capIn_zero _) hmem hx0

/-- With effective uid `0` the real uid can be made `0` as well. -/
theorem sysSetresuid_real (he : c.uid.e = 0) :
    (sysSetresuid c false 0 setidKeep setidKeep).2 = { c with uid := { c.uid with r := 0 } } := by
  have hmap : mapSetIn .uid c 0 = some 0 := by
    rw [mapSetIn, if_neg (by decide), intoKernel, hns]
  have hkeep : mapSetIn .uid c setidKeep = some setidKeep := if_pos rfl
  have hset : c.uid.setres 0 setidKeep setidKeep false = some { c.uid with r := 0 } := by
    simp [setres, checkSetidTransition, orKeep, he, setidKeep]
  simp only [sysSetresuid, hmap, hkeep, hcap, hset, finishUid]
  rw [applyUidChangeCaps, if_neg, if_neg, if_neg]
  · exact fun h => h.2 he
  · exact fun h => h.1 he
  · exact fun h => h.2 (.inl rfl)

/-- A process of the host namespace that has both `0` and another id among its three uids can raise
its permitted set. -/
theorem exists_calls_raise (h0 : 0 ∈ c.uid.res) (hx : x ∈ c.uid.res) (hx0 : x ≠ 0) :
    ∃ events, (runEvents c events).capsEff = c.capsPerm := by
  by_cases he : c.uid.e = 0
  · by_cases hs : c.uid.s = 0
    · -- the other id is the real uid
      have hr : c.uid.r ≠ 0 := by simp_all [res]
      exact ⟨[.call false (.setuid c.uid.r), .call false (.setuid 0)],
        sysSetuid_drop_raise hns hcap c.uid.r_mem hr he (.inr hs)⟩
    -- make the real uid `0`, then leave `0` by the saved uid
    refine ⟨[.call false (.setresuid 0 setidKeep setidKeep), .call false (.setuid c.uid.s),
      .call false (.setuid 0)], ?_⟩
    have h := sysSetuid_drop_raise (c := { c with uid := { c.uid with r := 0 } }) hns hcap
      (s_mem _) hs he (.inl rfl)
    simp_all [runEvents, Event.exec, Call.exec, sysSetresuid_real]
  · exact ⟨[.call false (.setuid 0)], sysSetuid_raise hns hcap h0 he⟩

end Raise

theorem exists_raise (hcap : c.hasCap capSetuid = false) (hno : ¬ NoRaise c) :
    ∃ events, (runEvents c events).hasCap capSetuid = true := by
  simp only [NoRaise, not_or, Bool.not_eq_false, not_not, not_forall] at hno
  obtain ⟨hperm, h0, x, hx, hx0⟩ := hno
  obtain ⟨events, h⟩ := exists_calls_raise (c := { c with userNs := none }) rfl hcap h0 hx hx0
  refine ⟨.remap none :: events, ?_⟩
  rw [hasCap]
  exact (congrArg (capIn · capSetuid) h).trans hperm

/-- **Set-id confinement.**  A process without `CAP_SETUID` in its effective set is confined to its
uids, by any sequence of uid calls, exactly when no call can raise the capability from its permitted
set. -/
theorem confined_iff {c : Credentials} (hcap : c.hasCap capSetuid = false) :
    Confined c ↔ NoRaise c := by
  constructor
  · intro h
    by_contra hno
    obtain ⟨events, hraise⟩ := exists_raise hcap hno
    rw [(h events).2.1] at hraise
    exact Bool.false_ne_true hraise
  · intro hno events
    grind [runEvents_confined, Call.acts_exec, Acts]

/-- A process whose real and saved uid are `0`, with all capabilities permitted and none
effective. -/
def droppedRoot : Credentials :=
  { root with uid := ⟨0, 1000, 0, 1000⟩, capsEff := 0 }

/-- A process with three uids and no capability. -/
def threeUids : Credentials :=
  { root with uid := ⟨1000, 0, 1002, 1003⟩, capsEff := 0, capsPerm := 0 }

theorem confined_threeUids : threeUids.hasCap capSetuid = false ∧ Confined threeUids :=
  ⟨by decide, (confined_iff (by decide)).2 (by decide)⟩

/-- `setuid(0)` gives the effective `CAP_SETUID` back, and `setuid(5)` then sets a new id. -/
theorem droppedRoot_not_confined :
    droppedRoot.hasCap capSetuid = false ∧
      (runEvents droppedRoot [.call false (.setuid 0)]).hasCap capSetuid = true ∧
      (runEvents droppedRoot [.call false (.setuid 0), .call false (.setuid 5)]).uid =
        ⟨5, 5, 5, 5⟩ ∧
      ¬ Confined droppedRoot := by
  have hraise : (runEvents droppedRoot [.call false (.setuid 0)]).hasCap capSetuid = true := by
    decide
  refine ⟨by decide, hraise, by decide, fun h => ?_⟩
  rw [(h [.call false (.setuid 0)]).2.1] at hraise
  exact Bool.false_ne_true hraise

/-! ### Exec -/

structure ExecCredTransition where
  (postEuid postEgid : UInt32)
  secure : Bool
  (suidOwner sgidOwner : Option UInt32)

/-- The file that is executed: mode bits, owner, and the `nosuid` flag of its mount. -/
structure ExecFile where
  mode : UInt16
  (uid gid : UInt32)
  nosuid : Bool

/-- `exec_transition`. -/
def execTransition (f : ExecFile) (ruid preEuid rgid preEgid : UInt32) (noNewPrivs : Bool) :
    ExecCredTransition :=
  let grantSetid := !f.nosuid && !noNewPrivs
  let suidOwner := if grantSetid && f.mode &&& 0o4000 != 0 then some f.uid else none
  let sgidOwner := if grantSetid && f.mode &&& 0o2000 != 0 then some f.gid else none
  let postEuid := suidOwner.getD preEuid
  let postEgid := sgidOwner.getD preEgid
  { postEuid, postEgid, suidOwner, sgidOwner
    secure := ruid != postEuid || rgid != postEgid || suidOwner.any (· != ruid) ||
      sgidOwner.any (· != rgid) }

/-- An owner from a set-id bit becomes the effective, saved and file-system id. -/
def Ids.setOwner (ids : Ids) : Option UInt32 → Ids
  | some id => { ids with e := id, s := id, fs := id }
  | none => ids

/-- `apply_exec_transition`. -/
def applyExecTransition (c : Credentials) (t : ExecCredTransition) : Credentials :=
  let uid := c.uid.setOwner t.suidOwner
  let gid := c.gid.setOwner t.sgidOwner
  let capsPerm := if uid.e = 0 ∨ uid.r = 0 then c.capsBnd ||| c.capsInh else 0
  { c with uid, gid, capsPerm, capsEff := if uid.e = 0 then capsPerm else 0 }

/-- The credentials after exec of `f`. -/
def execCreds (c : Credentials) (f : ExecFile) (noNewPrivs : Bool) : Credentials :=
  applyExecTransition c (execTransition f c.uid.r c.uid.e c.gid.r c.gid.e noNewPrivs)

/-- Inclusion of capability sets. -/
def CapSubset (a b : UInt64) : Prop := a &&& b = a
  deriving Decidable

theorem capSubset_zero (a : UInt64) : CapSubset 0 a := by simp [CapSubset]

/-- Under `no_new_privs` exec changes no id and recomputes the capabilities from the bounding and
the inheritable set. -/
theorem execCreds_noNewPrivs (c : Credentials) (f : ExecFile) :
    execCreds c f true = { c with
      capsPerm := if c.uid.e = 0 ∨ c.uid.r = 0 then c.capsBnd ||| c.capsInh else 0
      capsEff := if c.uid.e = 0 then
        (if c.uid.e = 0 ∨ c.uid.r = 0 then c.capsBnd ||| c.capsInh else 0) else 0 } := by
  simp [execCreds, applyExecTransition, execTransition, setOwner]

/-- **Exec under `no_new_privs`** keeps all ids and gives no new capability exactly when the process
is not root by its effective or real uid, or it already holds everything exec grants: the bounding
and inheritable sets as permitted and, with effective uid `0`, as effective capabilities. -/
theorem exec_noNewPrivs_iff (c : Credentials) (f : ExecFile) :
    ((execCreds c f true).uid = c.uid ∧ (execCreds c f true).gid = c.gid ∧
        CapSubset (execCreds c f true).capsPerm c.capsPerm ∧
        CapSubset (execCreds c f true).capsEff c.capsEff) ↔
      (c.uid.e ≠ 0 ∧ c.uid.r ≠ 0) ∨
        (CapSubset (c.capsBnd ||| c.capsInh) c.capsPerm ∧
          (c.uid.e = 0 → CapSubset (c.capsBnd ||| c.capsInh) c.capsEff)) := by
  rw [execCreds_noNewPrivs]
  by_cases he : c.uid.e = 0
  · simp [he]
  · by_cases hr : c.uid.r = 0
    · simp [he, hr, capSubset_zero]
    · simp [he, hr, capSubset_zero]

/-- A root process that has given up its capabilities gets all of them back by exec of an ordinary
file, `no_new_privs` notwithstanding. -/
theorem exec_noNewPrivs_regains :
    (execCreds { root with capsEff := 0, capsPerm := 0 } ⟨0o755, 0, 0, false⟩
        true).capsEff = allCapsMask ∧
      ¬ CapSubset (execCreds { root with capsEff := 0, capsPerm := 0 }
        ⟨0o755, 0, 0, false⟩ true).capsPerm 0 := by
  decide

end CypheraKernel.Creds
