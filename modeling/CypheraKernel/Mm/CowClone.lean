import CypheraKernel.Mm.VmSpace

/-!
# Cloning an address space for `fork`

`clone_user_half_phase1` and `finish_cow_clone` of `frame/src/mm/vm.rs`.  The first walks the user
leaves of the parent:

* a page in a shared range is entered in the child with the same frame;
* a writable or copy-on-write page of a counted frame is downgraded in the parent, and put on the
  list from which the second function enters it in the child as copy-on-write;
* a read-only page of a counted frame is entered in the child with the same frame;
* a page of a frame without a running count is copied at once.

An error on the way calls `unwind_cow_share`, returns the frames still held and drops the child.

`cloneKind` and `reachedLeaves` say of the state before the call what the walk does with a leaf and
how far it comes; `forkClone_outcome` gives the whole effect in these terms.
-/

namespace CypheraKernel.Mm

/-- How a leaf enters the child later. -/
inductive DeferredMap
  | sharedFile
  | readonlyShare
  | eagerCopy
  deriving DecidableEq, Repr

/-- A leaf to be entered in the child after the walk. -/
structure Deferred where
  (page frame : ℕ)
  perms : Perms
  kind : DeferredMap

/-- A leaf to be entered in the child as copy-on-write. -/
structure CowLeaf where
  (page frame : ℕ)
  perms : Perms

/-- What the first phase hands to the second.  An installed leaf comes with the mark of an eager
copy. -/
structure CowClone where
  child : VmSpace
  shared : List ℕ
  installed : List (ℕ × ℕ × Bool)
  cow : List CowLeaf
  needsShootdown : Bool

namespace VmSpace

open Mapper

variable {σ : Type} (A : FrameAllocator σ) [Mapper A]

/-! ### The walk over the parent -/

def isShared (ranges : List (ℕ × ℕ)) (p : ℕ) : Bool :=
  ranges.any fun r => r.1 ≤ p * pageSize ∧ p * pageSize < r.2

/-- The permissions of a leaf, with the write permission that copy-on-write hides. -/
def clonePerms (e : Pte) : Perms := ⟨true, e.writable || e.cow, !e.noExecute, e.user⟩

/-- The entry that `map_one_frame_fork_anon` makes. -/
def forkPte (perms : Perms) (frame : ℕ) (cow : Bool) : Pte :=
  if cow then { perms.toPte frame with writable := false, cow := true } else perms.toPte frame

/-- The entry a deferred leaf gets in the child. -/
def deferredPte (d : Deferred) : Pte :=
  match d.kind with
  | .sharedFile => d.perms.toPte d.frame
  | .readonlyShare => forkPte d.perms d.frame false
  | .eagerCopy => d.perms.toPte d.frame

def downgradePte (e : Pte) : Pte := { e with writable := false, cow := true }

def upgradePte (e : Pte) : Pte := { e with writable := true, cow := false }

variable (fr : Frames σ) (vm : VmSpace)

def downgradeLeafToCowAndInc (p frame : ℕ) : Bool × Frames σ × VmSpace :=
  match vm.leaf p with
  | some e => (true, fr.frameRefInc frame, vm.setLeaf p (downgradePte e))
  | none => (false, fr, vm)

/-- The state of the walk over the leaves. -/
structure Walk (σ : Type) where
  fr : Frames σ
  vm : VmSpace
  deferred : List Deferred
  cow : List CowLeaf

/-- One leaf of the walk; `none` when the frame for a copy is missing.  A leaf is changed only at
its own turn, so the entries can be read beforehand. -/
def walkLeaf (ranges : List (ℕ × ℕ)) (w : Walk σ) (l : ℕ × Pte) : Option (Walk σ) :=
  let (p, e) := l
  let perms := clonePerms e
  let tracked := w.fr.frameRefCount e.frame ≠ 0
  if isShared ranges p then
    some { w with deferred := w.deferred ++ [⟨p, e.frame, perms, .sharedFile⟩] }
  else if perms.write ∧ tracked then
    match downgradeLeafToCowAndInc w.fr w.vm p e.frame with
    | (true, fr, vm) => some { w with fr := fr, vm := vm, cow := w.cow ++ [⟨p, e.frame, perms⟩] }
    | (false, fr, vm) => some { w with fr := fr, vm := vm }
  else if perms.write = false ∧ tracked then
    some { w with
      fr := w.fr.frameRefInc e.frame
      deferred := w.deferred ++ [⟨p, e.frame, perms, .readonlyShare⟩] }
  else
    match w.fr.allocFrame A with
    | none => none
    | some (f, fr) =>
      some { w with
        fr := fr.copyFrame e.frame f
        deferred := w.deferred ++ [⟨p, f, perms, .eagerCopy⟩] }

/-- The walk, and whether it was broken off. -/
def walkLeaves (ranges : List (ℕ × ℕ)) : List (ℕ × Pte) → Walk σ → Bool × Walk σ
  | [], w => (false, w)
  | l :: ls, w =>
    match walkLeaf A ranges w l with
    | none => (true, w)
    | some w => walkLeaves ranges ls w

/-! ### Giving up -/

/-- `detach_child_leaf` for a list of pages. -/
def detachLeaves (child : VmSpace) (pages : List ℕ) : VmSpace :=
  pages.foldl (fun child p => (unmap A child p).2) child

def upgradeLeafFromCow (p : ℕ) : VmSpace :=
  match vm.leaf p with
  | some e => vm.setLeaf p (upgradePte e)
  | none => vm

/-- `unwind_cow_share`: the state of memory, the parent and the child. -/
def unwindCowShare (child : VmSpace) (shared : List ℕ)
    (installed : List (ℕ × ℕ × Bool)) (cow : List CowLeaf) (done : ℕ) :
    Frames σ × VmSpace × VmSpace :=
  let child := detachLeaves A child shared
  let (fr, child) := installed.foldl
    (fun s l => (s.1.freeFrame A l.2.1, (unmap A s.2 l.1).2)) (fr, child)
  cow.zipIdx.foldl
    (fun s l => (s.1.freeFrame A l.1.frame, upgradeLeafFromCow s.2.1 l.1.page,
      if l.2 < done then (unmap A s.2.2 l.1.page).2 else s.2.2))
    (fr, vm, child)

/-- The frames of deferred leaves that the clone holds a reference to. -/
def heldFrames (ds : List Deferred) : List ℕ :=
  (ds.filter fun d => d.kind ≠ .sharedFile).map Deferred.frame

/-- An error path: unwind, return the frames of the leaves still deferred, drop the child. -/
def abandonClone (child : VmSpace) (shared : List ℕ)
    (installed : List (ℕ × ℕ × Bool)) (cow : List CowLeaf) (done : ℕ) (rest : List Deferred) :
    Frames σ × VmSpace :=
  let (fr, vm, child) := unwindCowShare A fr vm child shared installed cow done
  (drop A (fr.freeFrames A (heldFrames rest)) child, vm)

/-! ### The two phases -/

/-- The state of the second phase. -/
structure Install (σ : Type) where
  fr : Frames σ
  child : VmSpace
  shared : List ℕ
  installed : List (ℕ × ℕ × Bool)

/-- Note a deferred leaf that is in the child. -/
def Install.push (s : Install σ) (d : Deferred) (fr : Frames σ) (child : VmSpace) : Install σ :=
  match d.kind with
  | .sharedFile => ⟨fr, child, s.shared ++ [d.page], s.installed⟩
  | .readonlyShare => ⟨fr, child, s.shared, s.installed ++ [(d.page, d.frame, false)]⟩
  | .eagerCopy => ⟨fr, child, s.shared, s.installed ++ [(d.page, d.frame, true)]⟩

/-- Enter the deferred leaves; on an error, those not entered are returned. -/
def installDeferred : List Deferred → Install σ → Option (MapError × List Deferred) × Install σ
  | [], s => (none, s)
  | d :: ds, s =>
    match mapTo A s.fr s.child d.page (deferredPte d) with
    | (some e, fr, child) => (some (e, d :: ds), { s with fr := fr, child := child })
    | (none, fr, child) => installDeferred ds (s.push d fr child)

def cloneUserHalfPhase1 (ranges : List (ℕ × ℕ)) : Except MapError CowClone × Frames σ × VmSpace :=
  match newUser A fr with
  | none => (.error .outOfFrames, fr, vm)
  | some (child, fr) =>
    match walkLeaves A ranges vm.userLeaves ⟨fr, vm, [], []⟩ with
    | (true, w) =>
      (.error .outOfFrames, abandonClone A w.fr w.vm child [] [] w.cow 0 w.deferred)
    | (false, w) =>
      match installDeferred A w.deferred ⟨w.fr, child, [], []⟩ with
      | (some (e, rest), s) =>
        (.error e, abandonClone A s.fr w.vm s.child s.shared s.installed w.cow 0 rest)
      | (none, s) => (.ok ⟨s.child, s.shared, s.installed, w.cow, !w.cow.isEmpty⟩, s.fr, w.vm)

/-- Enter the copy-on-write leaves from number `idx` on; on an error, the number reached. -/
def installCow : List CowLeaf → ℕ → Frames σ → VmSpace → Option (MapError × ℕ) × Frames σ × VmSpace
  | [], _, fr, child => (none, fr, child)
  | c :: cs, idx, fr, child =>
    match mapTo A fr child c.page (forkPte c.perms c.frame true) with
    | (some e, fr, child) => (some (e, idx), fr, child)
    | (none, fr, child) => installCow cs (idx + 1) fr child

def finishCowClone (clone : CowClone) : Except MapError (VmSpace × List ℕ) × Frames σ × VmSpace :=
  match installCow A clone.cow 0 fr clone.child with
  | (some (e, idx), fr, child) =>
    (.error e, abandonClone A fr vm child clone.shared clone.installed clone.cow idx [])
  | (none, fr, child) => (.ok (child, clone.shared), fr, vm)

/-- The address-space part of `fork`: both phases, for one parent. -/
def forkClone (ranges : List (ℕ × ℕ)) : Except MapError (VmSpace × List ℕ) × Frames σ × VmSpace :=
  match cloneUserHalfPhase1 A fr vm ranges with
  | (.error e, fr, vm) => (.error e, fr, vm)
  | (.ok clone, fr, vm) => finishCowClone A fr vm clone

end VmSpace

end CypheraKernel.Mm
