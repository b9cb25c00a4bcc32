import CypheraKernel.Lib.Runs
import CypheraKernel.Security.IdMap
import CypheraKernel.Security.SetId

/-!
# Runs of credential changes

All that changes the credentials of a process: the capability calls of
`kernel/src/security/mod.rs`, the uid and gid calls, exec, and the entry into a user namespace.

* `capSets_ordered`: **the effective capabilities stay among the permitted ones**, and only exec and
  the entry into a user namespace give permitted capabilities;
* `Mapped`, `ids_stay_mapped`: a process in a user namespace keeps to the ids of the namespace, as
  long as the owners of the set-id files that it executes are ids of the namespace too.
-/

namespace CypheraKernel.Creds

open Credentials

/-! ### Capability sets -/

variable {a b : UInt64}

theorem capSubset_iff :
    CapSubset a b ↔ ∀ i, a.toBitVec.getLsbD i = true → b.toBitVec.getLsbD i = true := by
  have hbits : CapSubset a b ↔ a.toBitVec &&& b.toBitVec = a.toBitVec := by
    rw [CapSubset, ← UInt64.toBitVec_inj, UInt64.toBitVec_and]
  rw [hbits]
  constructor
  · intro h i hi
    have hand := congrArg (BitVec.getLsbD · i) h
    simp only [BitVec.getLsbD_and, hi, Bool.true_and] at hand
    exact hand
  · intro h
    refine BitVec.eq_of_getLsbD_eq fun i _ => ?_
    grind

theorem CapSubset.refl (a : UInt64) : CapSubset a a := UInt64.and_self

theorem CapSubset.trans {c : UInt64} (hab : CapSubset a b) (hbc : CapSubset b c) : CapSubset a c :=
  capSubset_iff.2 fun i hi => capSubset_iff.1 hbc i (capSubset_iff.1 hab i hi)

/-- The test that `capset` makes. -/
theorem capSubset_of_and_not (h : a &&& ~~~b = 0) : CapSubset a b := by
  refine capSubset_iff.2 fun i hi => ?_
  have hbits : a.toBitVec &&& ~~~b.toBitVec = 0 := by
    rw [← UInt64.toBitVec_not, ← UInt64.toBitVec_and, h]
    rfl
  have hlt : i < 64 := BitVec.lt_of_getLsbD hi
  have hand := congrArg (BitVec.getLsbD · i) hbits
  simpa [hi, hlt] using hand

/-! ### The changes -/

def capSetpcap : UInt32 := 8

variable (c : Credentials)

/-- `capset`. -/
def capset (newEff newPerm newInh : UInt64) : ℤ × Credentials :=
  if newPerm &&& ~~~c.capsPerm ≠ 0 then (eperm, c)
  else if newEff &&& ~~~newPerm ≠ 0 then (eperm, c)
  else if newInh &&& ~~~(c.capsInh ||| c.capsPerm) ≠ 0 then (eperm, c)
  else if newInh &&& ~~~(c.capsBnd ||| c.capsInh) ≠ 0 then (eperm, c)
  else
    (0, { c with
      capsEff := newEff &&& allCapsMask
      capsPerm := newPerm &&& allCapsMask
      capsInh := newInh &&& allCapsMask })

/-- `prctl(PR_CAPBSET_DROP)` with `capbset_drop`. -/
def capbsetDrop (cap : UInt64) : ℤ × Credentials :=
  if cap > 63 then (einval, c)
  else if !c.hasCap capSetpcap then (eperm, c)
  else (0, { c with capsBnd := c.capsBnd &&& ~~~(1 <<< cap) })

/-- `enter_user_namespace`. -/
def enterUserNamespace (ns : UserNamespace) : Credentials :=
  { c with
    userNs := some ns
    capsEff := allCapsMask
    capsPerm := allCapsMask
    capsInh := allCapsMask
    capsBnd := allCapsMask }

/-- The four gid calls with their arguments. -/
inductive GidCall
  | setgid (gid : UInt32)
  | setregid (r e : UInt32)
  | setresgid (r e s : UInt32)
  | setfsgid (fsgid : UInt32)

def GidCall.exec : GidCall → ℤ × Credentials
  | setgid gid => sysSetgid c gid
  | setregid r e => sysSetregid c r e
  | setresgid r e s => sysSetresgid c r e s
  | setfsgid fsgid => sysSetfsgid c fsgid

/-- The calls that change credentials. -/
inductive Op
  | capset (eff perm inh : UInt64)
  | capbsetDrop (cap : UInt64)
  | uidCall (keepCaps : Bool) (call : Call)
  | gidCall (call : GidCall)
  | exec (file : ExecFile) (noNewPrivs : Bool)
  | enterUserNamespace (ns : UserNamespace)

def Op.apply : Op → Credentials
  | .capset eff perm inh => (Creds.capset c eff perm inh).2
  | .capbsetDrop cap => (Creds.capbsetDrop c cap).2
  | .uidCall keepCaps call => (call.exec keepCaps c).2
  | .gidCall call => (call.exec c).2
  | .exec file noNewPrivs => execCreds c file noNewPrivs
  | .enterUserNamespace ns => Creds.enterUserNamespace c ns

def runOps (ops : List Op) : Credentials := ops.foldl Op.apply c

/-- Exec and the entry into a user namespace set the permitted capabilities anew. -/
def Op.renews : Op → Bool
  | .exec _ _ | .enterUserNamespace _ => true
  | _ => false

/-! ### The ids of a namespace -/

variable {k : UInt32}

namespace Ids

def all (ids : Ids) : List UInt32 := [ids.r, ids.e, ids.s, ids.fs]

/-- Every id of `a` is one of `b` or has the property. -/
def From (S : UInt32 → Prop) (a b : Ids) : Prop := ∀ k ∈ a.all, k ∈ b.all ∨ S k

variable {S : UInt32 → Prop} {ids ids' : Ids}

theorem From.refl (ids : Ids) : From S ids ids := fun _ hk => .inl hk

theorem From.trans {a b c : Ids} (hab : From S a b) (hbc : From S b c) : From S a c := by
  intro k hk
  rcases hab k hk with hk | hk
  · exact hbc k hk
  · exact .inr hk

theorem from_mk {r e s fs : UInt32} (hr : r ∈ ids.all ∨ S r) (he : e ∈ ids.all ∨ S e)
    (hs : s ∈ ids.all ∨ S s) (hfs : fs ∈ ids.all ∨ S fs) : From S ⟨r, e, s, fs⟩ ids := by
  intro k hk
  simp only [all, List.mem_cons, List.not_mem_nil, or_false] at hk
  rcases hk with rfl | rfl | rfl | rfl
  exacts [hr, he, hs, hfs]

theorem r_mem_all (ids : Ids) : ids.r ∈ ids.all := by simp [all]
theorem e_mem_all (ids : Ids) : ids.e ∈ ids.all := by simp [all]
theorem s_mem_all (ids : Ids) : ids.s ∈ ids.all := by simp [all]
theorem fs_mem_all (ids : Ids) : ids.fs ∈ ids.all := by simp [all]

theorem orKeep_from {old : UInt32} (hk : k ≠ setidKeep → S k) (hold : old ∈ ids.all) :
    orKeep k old ∈ ids.all ∨ S (orKeep k old) := by grind [orKeep]

variable {privileged : Bool}

theorem setres_from {kr ke ks : UInt32} (hr : kr ≠ setidKeep → S kr) (he : ke ≠ setidKeep → S ke)
    (hs : ks ≠ setidKeep → S ks) (h : ids.setres kr ke ks privileged = some ids') :
    From S ids' ids := by
  unfold setres at h
  split_ifs at h
  cases h
  exact from_mk (orKeep_from hr ids.r_mem_all) (orKeep_from he ids.e_mem_all)
    (orKeep_from hs ids.s_mem_all) (orKeep_from he ids.fs_mem_all)

theorem setre_from {kr ke : UInt32} (hr : kr ≠ setidKeep → S kr) (he : ke ≠ setidKeep → S ke)
    (h : ids.setre kr ke privileged = some ids') : From S ids' ids := by
  unfold setre at h
  split_ifs at h
  cases h
  refine from_mk (orKeep_from hr ids.r_mem_all) (orKeep_from he ids.e_mem_all) ?_
    (orKeep_from he ids.fs_mem_all)
  split_ifs
  · exact orKeep_from he ids.e_mem_all
  · exact .inl ids.s_mem_all

theorem set_from (hk : S k) (h : ids.set k privileged = some ids') : From S ids' ids := by
  grind [set, from_mk, ids.r_mem_all, ids.s_mem_all]

theorem setfs_from (privileged : Bool) (hk : k ≠ setidKeep → S k) :
    From S (ids.setfs k privileged) ids := by
  unfold setfs
  split_ifs with h
  · exact from_mk (.inl ids.r_mem_all) (.inl ids.e_mem_all) (.inl ids.s_mem_all) (.inr (hk h.2))
  · exact .refl ids

theorem setOwner_from {owner : Option UInt32} (h : ∀ k, owner = some k → k ∈ ids.all ∨ S k) :
    From S (ids.setOwner owner) ids := by
  cases owner with
  | none => exact .refl ids
  | some k => exact from_mk (.inl ids.r_mem_all) (h k rfl) (h k rfl) (h k rfl)

end Ids

/-- The kernel id is the image of an id of the namespace. -/
def UserNamespace.Image (ns : UserNamespace) (kind : IdMapKind) (k : UInt32) : Prop :=
  ∃ id, ns.toKernel kind id = some k

section Calls

variable {c} {ns : UserNamespace} {kind : IdMapKind} {id k : UInt32}
  {S : UInt32 → Prop} {o : Option Ids}

theorem image_of_intoKernel (hns : c.userNs = some ns) (h : c.intoKernel kind id = some k) :
    ns.Image kind k := by
  rw [intoKernel, hns] at h
  exact ⟨id, h⟩

theorem image_of_mapSetIn (hns : c.userNs = some ns) (h : mapSetIn kind c id = some k)
    (hk : k ≠ setidKeep) : ns.Image kind k := by grind [mapSetIn, image_of_intoKernel]

theorem from_finishUid {keepCaps : Bool} (h : ∀ ids, o = some ids → ids.From S c.uid) :
    (finishUid c keepCaps o).2.uid.From S c.uid := by
  cases o with
  | none => exact .refl _
  | some ids =>
    rw [finishUid, applyUidChangeCaps_uid]
    exact h ids rfl

/-- A uid call brings no ids but those of the namespace. -/
theorem Call.exec_from (hns : c.userNs = some ns) (keepCaps : Bool) (call : Call) :
    (call.exec keepCaps c).2.uid.From (ns.Image .uid) c.uid := by
  cases call with
  | setuid uid =>
    simp only [exec, sysSetuid]
    split
    · rename_i ku hku
      exact from_finishUid fun ids => Ids.set_from (image_of_intoKernel hns hku)
    · exact .refl _
  | setreuid r e =>
    simp only [exec, sysSetreuid]
    split
    · grind [from_finishUid, Ids.setre_from, image_of_mapSetIn]
    · exact .refl _
  | setresuid r e s =>
    simp only [exec, sysSetresuid]
    split
    · grind [from_finishUid, Ids.setres_from, image_of_mapSetIn]
    · exact .refl _
  | setfsuid fsuid =>
    simp only [exec, sysSetfsuid]
    split
    · exact .refl _
    · rename_i k hk
      exact Ids.setfs_from _ (image_of_mapSetIn hns hk)

/-- What a gid call does: it sets gids only, and brings no ids but those of the namespace. -/
def Sets (c c' : Credentials) : Prop :=
  ∃ ids, c' = { c with gid := ids } ∧ ∀ ns, c.userNs = some ns → ids.From (ns.Image .gid) c.gid

theorem Sets.refl (c : Credentials) : Sets c c := ⟨c.gid, rfl, fun _ _ => .refl _⟩

theorem sets_finishGid
    (h : ∀ ns, c.userNs = some ns → ∀ ids, o = some ids → ids.From (ns.Image .gid) c.gid) :
    Sets c (finishGid c o).2 := by
  cases o with
  | none => exact .refl c
  | some ids => exact ⟨ids, rfl, fun ns hns => h ns hns ids rfl⟩

theorem GidCall.sets_exec (call : GidCall) : Sets c (call.exec c).2 := by
  cases call with
  | setgid gid =>
    simp only [exec, sysSetgid]
    split
    · rename_i kg hkg
      exact sets_finishGid fun ns hns ids => Ids.set_from (image_of_intoKernel hns hkg)
    · exact .refl c
  | setregid r e =>
    simp only [exec, sysSetregid]
    split
    · grind [sets_finishGid, Ids.setre_from, image_of_mapSetIn]
    · exact .refl c
  | setresgid r e s =>
    simp only [exec, sysSetresgid]
    split
    · grind [sets_finishGid, Ids.setres_from, image_of_mapSetIn]
    · exact .refl c
  | setfsgid fsgid =>
    simp only [exec, sysSetfsgid]
    split
    · exact .refl c
    · rename_i k hk
      exact ⟨_, rfl, fun ns hns => Ids.setfs_from _ (image_of_mapSetIn hns hk)⟩

/-- A uid call sets uids and capabilities only. -/
theorem Call.exec_rest (keepCaps : Bool) (call : Call) :
    (call.exec keepCaps c).2.gid = c.gid ∧ (call.exec keepCaps c).2.userNs = c.userNs := by
  have hcaps : ∀ ids : Ids,
      (({ c with uid := ids } : Credentials).applyUidChangeCaps c.uid keepCaps).gid = c.gid ∧
      (({ c with uid := ids } : Credentials).applyUidChangeCaps c.uid keepCaps).userNs =
        c.userNs := by
    intro ids
    unfold applyUidChangeCaps
    split_ifs <;> exact ⟨rfl, rfl⟩
  have hacts := call.acts_exec keepCaps c
  unfold Acts at hacts
  grind

end Calls

/-! ### Order -/

/-- The effective capabilities are among the permitted ones. -/
def Credentials.Ordered (c : Credentials) : Prop := CapSubset c.capsEff c.capsPerm
  deriving Decidable

/-- What a change leaves of the capabilities: the effective ones stay among the permitted ones, and
no permitted one is new. -/
structure Shrinks (c c' : Credentials) : Prop where
  ordered : c.Ordered → c'.Ordered
  perm : CapSubset c'.capsPerm c.capsPerm

theorem Shrinks.of_caps_eq {c c' : Credentials} (heff : c'.capsEff = c.capsEff)
    (hperm : c'.capsPerm = c.capsPerm) : Shrinks c c' := by
  refine ⟨fun h => ?_, ?_⟩
  · rwa [Ordered, heff, hperm]
  · rw [hperm]
    exact .refl _

variable (c : Credentials)

theorem shrinks_capset (eff perm inh : UInt64) : Shrinks c (capset c eff perm inh).2 := by
  unfold capset
  split_ifs with hperm heff hinh hbnd
  · exact .of_caps_eq rfl rfl
  · exact .of_caps_eq rfl rfl
  · exact .of_caps_eq rfl rfl
  · exact .of_caps_eq rfl rfl
  · have heff' := capSubset_of_and_not (not_not.1 heff)
    have hperm' := capSubset_of_and_not (not_not.1 hperm)
    refine ⟨fun _ => ?_, ?_⟩ <;> simp_all [capSubset_iff, Ordered]

theorem shrinks_capbsetDrop (cap : UInt64) : Shrinks c (capbsetDrop c cap).2 := by
  unfold capbsetDrop
  split_ifs <;> exact .of_caps_eq rfl rfl

theorem shrinks_applyUidChangeCaps (ids old : Ids) (keepCaps : Bool) :
    Shrinks c (({ c with uid := ids } : Credentials).applyUidChangeCaps old keepCaps) := by
  unfold applyUidChangeCaps
  split_ifs
  · exact ⟨fun _ => capSubset_zero _, .refl _⟩
  · exact ⟨fun _ => capSubset_zero _, capSubset_zero _⟩
  · exact ⟨fun _ => .refl _, .refl _⟩
  · exact ⟨fun _ => capSubset_zero _, .refl _⟩
  · exact .of_caps_eq rfl rfl

theorem shrinks_call (keepCaps : Bool) (call : Call) : Shrinks c (call.exec keepCaps c).2 := by
  rcases call.acts_exec keepCaps c with hsame | ⟨-, ids, -, ⟨-, hids⟩ | hids⟩
  · rw [hsame]
    exact .of_caps_eq rfl rfl
  · rw [hids]
    exact .of_caps_eq rfl rfl
  · rw [hids]
    exact shrinks_applyUidChangeCaps c ids c.uid keepCaps

theorem ordered_execCreds (file : ExecFile) (noNewPrivs : Bool) :
    (execCreds c file noNewPrivs).Ordered := by
  unfold execCreds applyExecTransition Ordered
  dsimp only
  split_ifs
  · exact .refl _
  · exact .refl _
  · exact capSubset_zero _
  · exact capSubset_zero _

/-- One change: the order is kept, and only a change that renews them gives permitted
capabilities. -/
theorem Op.apply_caps (op : Op) :
    (c.Ordered → (op.apply c).Ordered) ∧
      (op.renews = false → CapSubset (op.apply c).capsPerm c.capsPerm) := by
  cases op with
  | capset eff perm inh => exact ⟨(shrinks_capset c eff perm inh).1, fun _ => (shrinks_capset ..).2⟩
  | capbsetDrop cap => exact ⟨(shrinks_capbsetDrop c cap).1, fun _ => (shrinks_capbsetDrop ..).2⟩
  | uidCall keepCaps call =>
    exact ⟨(shrinks_call c keepCaps call).1, fun _ => (shrinks_call ..).2⟩
  | gidCall call =>
    obtain ⟨ids, heq, -⟩ := @GidCall.sets_exec c call
    have hshrinks : Shrinks c (call.exec c).2 := by
      rw [heq]
      exact .of_caps_eq rfl rfl
    exact ⟨hshrinks.1, fun _ => hshrinks.2⟩
  | exec file noNewPrivs => exact ⟨fun _ => ordered_execCreds c file noNewPrivs, nofun⟩
  | enterUserNamespace ns => exact ⟨fun _ => CapSubset.refl allCapsMask, nofun⟩

/-- **Capability sets stay ordered.**  After every run of changes the effective capabilities are
among the permitted ones, and a run without exec and without entries into a user namespace gives no
permitted capability. -/
theorem capSets_ordered {c : Credentials} (hc : c.Ordered) (ops : List Op) :
    (runOps c ops).Ordered ∧
      ((∀ op ∈ ops, op.renews = false) → CapSubset (runOps c ops).capsPerm c.capsPerm) := by
  induction ops generalizing c with
  | nil => exact ⟨hc, fun _ => .refl _⟩
  | cons op ops ih =>
    obtain ⟨hordered, hperm⟩ := op.apply_caps c
    obtain ⟨hordered', hperm'⟩ := ih (hordered hc)
    refine ⟨hordered', fun hops => ?_⟩
    have hrest := hperm' fun op' hop' => hops op' (.tail _ hop')
    exact hrest.trans (hperm (hops op (.head _)))

/-- Root gives up its uid, comes back to it, and drops all but one capability. -/
def dropsAndReturns : List Op :=
  [.uidCall true (.setresuid 1000 1000 0), .uidCall true (.setuid 0), .capset 0x80 0x80 0,
    .capbsetDrop 7]

theorem capSets_ordered_dropsAndReturns :
    root.Ordered ∧
      (runOps .root dropsAndReturns).Ordered ∧
      CapSubset (runOps .root dropsAndReturns).capsPerm root.capsPerm ∧
      (runOps .root dropsAndReturns).capsPerm = 0x80 := by
  obtain ⟨hordered, hperm⟩ := capSets_ordered (c := .root) (by decide) dropsAndReturns
  exact ⟨by decide, hordered, hperm (by decide), by decide⟩

/-! ### Confinement to a namespace -/

/-- The changes that set ids: the uid and gid calls and exec. -/
def Op.setsIds : Op → Bool
  | .uidCall _ _ | .gidCall _ | .exec _ _ => true
  | _ => false

/-- The owner and the group that a set-id file gives are ids of the namespace, or the process has
them already. -/
def ExecFile.Mapped (file : ExecFile) (noNewPrivs : Bool) (c : Credentials)
    (ns : UserNamespace) : Prop :=
  file.nosuid = false → noNewPrivs = false →
    (file.mode &&& 0o4000 ≠ 0 → file.uid ∈ c.uid.all ∨ ns.Image .uid file.uid) ∧
    (file.mode &&& 0o2000 ≠ 0 → file.gid ∈ c.gid.all ∨ ns.Image .gid file.gid)

/-- The change is a uid or gid call, or exec of a file whose set-id owners are mapped. -/
def Op.Mapped (ns : UserNamespace) (c : Credentials) : Op → Prop
  | .exec file noNewPrivs => file.Mapped noNewPrivs c ns
  | op => op.setsIds = true

/-- The process has no ids but its first ones and those of the namespace, and no capability of the
host. -/
structure KeptIn (ns : UserNamespace) (c₀ c : Credentials) : Prop where
  uid : ∀ k ∈ c.uid.all, k ∈ c₀.uid.all ∨ ns.Image .uid k
  gid : ∀ k ∈ c.gid.all, k ∈ c₀.gid.all ∨ ns.Image .gid k
  host : ∀ cap, c.capableHost cap = false

variable {c c₀ : Credentials} {ns : UserNamespace}

theorem execCreds_from {file : ExecFile} {noNewPrivs : Bool} (h : file.Mapped noNewPrivs c ns) :
    (execCreds c file noNewPrivs).uid.From (ns.Image .uid) c.uid ∧
      (execCreds c file noNewPrivs).gid.From (ns.Image .gid) c.gid := by
  have hgrant : (!file.nosuid && !noNewPrivs) = true →
      (file.mode &&& 0o4000 ≠ 0 → file.uid ∈ c.uid.all ∨ ns.Image .uid file.uid) ∧
      (file.mode &&& 0o2000 ≠ 0 → file.gid ∈ c.gid.all ∨ ns.Image .gid file.gid) := by
    intro hgrant
    simp only [Bool.and_eq_true, Bool.not_eq_true'] at hgrant
    exact h hgrant.1 hgrant.2
  unfold execCreds applyExecTransition execTransition
  dsimp only
  refine ⟨Ids.setOwner_from fun k hk => ?_, Ids.setOwner_from fun k hk => ?_⟩ <;>
    split_ifs at hk with hbits <;> obtain rfl := Option.some.inj hk <;>
    rw [Bool.and_eq_true, bne_iff_ne] at hbits
  · exact (hgrant hbits.1).1 hbits.2
  · exact (hgrant hbits.1).2 hbits.2

/-- One change of a process in the namespace. -/
theorem Op.apply_from {op : Op} (hns : c.userNs = some ns) (hop : op.Mapped ns c) :
    (op.apply c).userNs = some ns ∧ (op.apply c).uid.From (ns.Image .uid) c.uid ∧
      (op.apply c).gid.From (ns.Image .gid) c.gid := by
  cases op with
  | uidCall keepCaps call =>
    obtain ⟨hgid, huserNs⟩ := @Call.exec_rest c keepCaps call
    refine ⟨huserNs.trans hns, call.exec_from hns keepCaps, ?_⟩
    change Ids.From _ (call.exec keepCaps c).2.gid _
    rw [hgid]
    exact .refl _
  | gidCall call =>
    obtain ⟨ids, heq, hfrom⟩ := @GidCall.sets_exec c call
    rw [Op.apply, heq]
    exact ⟨hns, .refl _, hfrom ns hns⟩
  | exec file noNewPrivs => exact ⟨hns, execCreds_from hop⟩
  | capset | capbsetDrop | enterUserNamespace => cases hop

/-- The changes as steps of a machine. -/
def opStep (c : Credentials) (op : Op) : Option Credentials := some (op.apply c)

/-- **A process in a user namespace keeps to the ids of the namespace**, whatever uid and gid calls
it makes and whatever files it executes, as long as the owners of the set-id files are mapped. -/
theorem ids_stay_mapped (hns : c₀.userNs = some ns) (hlevel : ns.level ≠ 0) {ops : List Op}
    (hops : Runs.Meets opStep (Op.Mapped ns) ops c₀) :
    Runs.Always opStep (KeptIn ns c₀) ops c₀ := by
  refine Runs.always_of_invariant (I := fun c => c.userNs = some ns ∧
    c.uid.From (ns.Image .uid) c₀.uid ∧ c.gid.From (ns.Image .gid) c₀.gid)
    ?_ ?_ ⟨hns, .refl _, .refl _⟩ hops
  · rintro c op c' ⟨hns, huid, hgid⟩ hop hstep
    cases hstep
    obtain ⟨hns', huid', hgid'⟩ := op.apply_from hns hop
    exact ⟨hns', huid'.trans huid, hgid'.trans hgid⟩
  · rintro c ⟨hns, huid, hgid⟩
    refine ⟨huid, hgid, fun cap => ?_⟩
    simp [capableHost, inHostUserNs, hns, hlevel]

/-- A namespace that maps its id 0 to the id 1000 of the host, and its root. -/
def rootlessNs : UserNamespace := .child 1 (.host 0) 1000 [⟨0, 1000, 1⟩] [⟨0, 1000, 1⟩] true

def rootless : Credentials :=
  { root with
    uid := ⟨1000, 1000, 1000, 1000⟩, gid := ⟨1000, 1000, 1000, 1000⟩, userNs := some rootlessNs }

theorem ids_stay_mapped_rootless :
    Runs.Always opStep (KeptIn rootlessNs rootless)
      [.uidCall false (.setuid 0), .exec ⟨0o4755, 1000, 0, false⟩ false] rootless := by
  refine ids_stay_mapped rfl (by decide) ⟨rfl, ?_⟩
  rintro c hc
  cases hc
  refine ⟨fun _ _ => ⟨fun _ => .inr ⟨0, by decide⟩, fun h => absurd (by decide) h⟩, ?_⟩
  exact fun _ _ => trivial

theorem image_rootlessNs (h : rootlessNs.Image .uid k) : k = 1000 := by
  obtain ⟨id, hid⟩ := h
  have hdown := idMapDown_single 0 1000 id
  change (idMapDown [⟨0, 1000, 1⟩] id).bind some = some k at hid
  grind

/-- The root of the namespace executes a set-uid file of the root of the host, and gets its uid. -/
theorem rootless_becomes_root :
    (runOps rootless [.exec ⟨0o4755, 0, 0, false⟩ false]).uid = ⟨1000, 0, 0, 0⟩ ∧
      (∀ k, rootlessNs.Image .uid k → k = 1000) ∧
      ¬Runs.Always opStep (KeptIn rootlessNs rootless) [.exec ⟨0o4755, 0, 0, false⟩ false]
        rootless := by
  refine ⟨by decide, fun k => image_rootlessNs, fun h => ?_⟩
  have hkept := (h.2 _ rfl).uid 0 (by decide)
  rcases hkept with hmem | himage
  · exact absurd hmem (by decide)
  · exact absurd (image_rootlessNs himage) (by decide)

end CypheraKernel.Creds
