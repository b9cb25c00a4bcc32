import CypheraKernel.Lib.Rust

/-!
# Credentials and user namespaces

`kernel/src/process_model/creds.rs`.
The four ids of a kind are collected in `Ids`; `c.uid.r` is the `ruid` of the source, `c.gid.fs` its
`fsgid`, and so on.
-/

namespace CypheraKernel.Creds

open Rust

/-! ### Id maps -/

/-- One line of a uid or gid map. -/
structure IdMapping where
  (insideStart outsideStart length : UInt32)
  deriving DecidableEq, Repr

def overflowUid : UInt32 := 65534
def overflowGid : UInt32 := 65534

/-- `id_map_down`: from inside a namespace to its parent. -/
def idMapDown (map : List IdMapping) (id : UInt32) : Option UInt32 :=
  map.findSome? fun m => do
    let off ← checkedSub id m.insideStart
    if off < m.length then checkedAdd m.outsideStart off else none

/-- `id_map_up`: from the parent into a namespace. -/
def idMapUp (map : List IdMapping) (id : UInt32) : Option UInt32 :=
  map.findSome? fun m => do
    let off ← checkedSub id m.outsideStart
    if off < m.length then checkedAdd m.insideStart off else none

/-- Which of the two id maps of a namespace. -/
inductive IdMapKind
  | uid
  | gid
  deriving DecidableEq, Repr

/-! ### User namespaces -/

/-- A user namespace.  The number `ptr` stands for its address, which `Arc::ptr_eq` compares. -/
inductive UserNamespace
  | host (ptr : ℕ)
  | child (ptr : ℕ) (parent : UserNamespace) (creatorUid : UInt32)
      (uidMap gidMap : List IdMapping) (setgroupsAllowed : Bool)
  deriving DecidableEq, Repr

namespace UserNamespace

def level : UserNamespace → ℕ
  | host _ => 0
  | child _ parent _ _ _ _ => parent.level + 1

def ptr : UserNamespace → ℕ
  | host p => p
  | child p _ _ _ _ _ => p

def parent : UserNamespace → Option UserNamespace
  | host _ => none
  | child _ parent _ _ _ _ => some parent

/-- The map of the given kind; the host's are empty. -/
def map : IdMapKind → UserNamespace → List IdMapping
  | _, host _ => []
  | .uid, child _ _ _ uidMap _ _ => uidMap
  | .gid, child _ _ _ _ gidMap _ => gidMap

/-- `uid_to_kernel` and `gid_to_kernel`. -/
def toKernel (kind : IdMapKind) : UserNamespace → UInt32 → Option UInt32
  | host _, id => some id
  | child p parent u um gm sg, id => do
    let parentId ← idMapDown ((child p parent u um gm sg).map kind) id
    parent.toKernel kind parentId

/-- `uid_from_kernel` and `gid_from_kernel`. -/
def fromKernel (kind : IdMapKind) : UserNamespace → UInt32 → Option UInt32
  | host _, id => some id
  | child p parent u um gm sg, id => do
    let parentId ← parent.fromKernel kind id
    idMapUp ((child p parent u um gm sg).map kind) parentId

/-- Whether `ptr` is the address of the namespace or of one of its ancestors: the loop of
`dominates`. -/
def chainHas (ptr : ℕ) : UserNamespace → Bool
  | host p => p == ptr
  | child p parent _ _ _ _ => p == ptr || parent.chainHas ptr

end UserNamespace

/-! ### Credentials -/

/-- The real, effective, saved and file-system id of one kind. -/
structure Ids where
  (r e s fs : UInt32)
  deriving DecidableEq, Repr

/-- The credentials of a task. -/
structure Credentials where
  (uid gid : Ids)
  groups : List UInt32
  (capsEff capsPerm capsInh capsBnd : UInt64)
  userNs : Option UserNamespace
  loginuid : UInt32
  deriving DecidableEq, Repr

def setidKeep : UInt32 := 0xffffffff

def capKill : UInt32 := 5
def capSetgid : UInt32 := 6
def capSetuid : UInt32 := 7
def capLast : UInt32 := 40
def allCapsMask : UInt64 := 0x1ffffffffff

/-- The test of `has_cap` on one capability set. -/
def capIn (caps : UInt64) (cap : UInt32) : Bool :=
  if cap > capLast then false else caps &&& (1 <<< cap.toUInt64) != 0

@[simp] theorem capIn_zero (cap : UInt32) : capIn 0 cap = false := by simp [capIn]

namespace Credentials

def root : Credentials where
  uid := ⟨0, 0, 0, 0⟩
  gid := ⟨0, 0, 0, 0⟩
  groups := []
  capsEff := allCapsMask
  capsPerm := allCapsMask
  capsInh := 0
  capsBnd := allCapsMask
  userNs := none
  loginuid := 0xffffffff

variable (c : Credentials)

def hasCap (cap : UInt32) : Bool := capIn c.capsEff cap

/-- `dominates`: the caller is in the host namespace, or its namespace is the governing one or an
ancestor of it. -/
def dominates (governing : Option UserNamespace) : Bool :=
  match c.userNs with
  | none => true
  | some ns =>
    if ns.level = 0 then true
    else
      match governing with
      | none => false
      | some g => g.chainHas ns.ptr

def capableIn (cap : UInt32) (governing : Option UserNamespace) : Bool :=
  c.hasCap cap && c.dominates governing

def inHostUserNs : Bool :=
  match c.userNs with
  | none => true
  | some ns => ns.level = 0

def capableHost (cap : UInt32) : Bool := c.hasCap cap && c.inHostUserNs

def canSignal (target : Credentials) : Bool :=
  if c.capableHost capKill then true
  else
    c.uid.r = target.uid.r || c.uid.r = target.uid.s || c.uid.e = target.uid.r ||
      c.uid.e = target.uid.s

/-- `uid_into_kernel` and `gid_into_kernel`. -/
def intoKernel (kind : IdMapKind) (c : Credentials) (id : UInt32) : Option UInt32 :=
  match c.userNs with
  | none => some id
  | some ns => ns.toKernel kind id

/-- `uid_from_kernel` and `gid_from_kernel`; the two overflow ids are the same number. -/
def fromKernel (kind : IdMapKind) (c : Credentials) (id : UInt32) : UInt32 :=
  match c.userNs with
  | none => id
  | some ns =>
    (ns.fromKernel kind id).getD (match kind with | .uid => overflowUid | .gid => overflowGid)

/-- Some id of the four is root's. -/
def anyRoot (ids : Ids) : Prop := ids.r = 0 ∨ ids.e = 0 ∨ ids.s = 0 ∨ ids.fs = 0
  deriving Decidable

/-- `apply_uid_change_caps`: the capability side of a uid change, `old` being the former ids. -/
def applyUidChangeCaps (old : Ids) (keepCaps : Bool) : Credentials :=
  if anyRoot old ∧ ¬ anyRoot c.uid then
    { c with capsEff := 0, capsPerm := if keepCaps then c.capsPerm else 0 }
  else if old.e ≠ 0 ∧ c.uid.e = 0 then { c with capsEff := c.capsPerm }
  else if old.e = 0 ∧ c.uid.e ≠ 0 then { c with capsEff := 0 }
  else c

@[simp] theorem applyUidChangeCaps_uid (old : Ids) (keepCaps : Bool) :
    (c.applyUidChangeCaps old keepCaps).uid = c.uid := by
  unfold applyUidChangeCaps
  split_ifs <;> rfl

/-- What the capability change can do: the permitted set is kept or emptied, and the effective set
is kept, emptied or, only when the effective uid becomes `0`, raised to the permitted one. -/
theorem applyUidChangeCaps_caps (old : Ids) (keepCaps : Bool) :
    ((c.applyUidChangeCaps old keepCaps).capsPerm = c.capsPerm ∨
        (c.applyUidChangeCaps old keepCaps).capsPerm = 0) ∧
      ((c.applyUidChangeCaps old keepCaps).capsEff = c.capsEff ∨
        (c.applyUidChangeCaps old keepCaps).capsEff = 0 ∨
        (old.e ≠ 0 ∧ c.uid.e = 0 ∧ (c.applyUidChangeCaps old keepCaps).capsEff = c.capsPerm)) := by
  unfold applyUidChangeCaps
  split_ifs with hroot hkeep hraise hdrop
  · exact ⟨.inl rfl, .inr (.inl rfl)⟩
  · exact ⟨.inr rfl, .inr (.inl rfl)⟩
  · exact ⟨.inl rfl, .inr (.inr ⟨hraise.1, hraise.2, rfl⟩)⟩
  · exact ⟨.inl rfl, .inr (.inl rfl)⟩
  · exact ⟨.inl rfl, .inl rfl⟩

end Credentials

end CypheraKernel.Creds
