import CypheraKernel.Syscall.CallSpecs
import CypheraKernel.Syscall.MapSections

/-!
# Threads that map and unmap at the same time

`sys_mmap`, `sys_munmap` and `sys_mremap` of `kernel/src/syscall/mm.rs`, as the sections they take
under the lock of the memory map one after the other.  What happens between two sections (page
tables, segments, files, the copying of bytes) is in `Oracle`.

* `ranges_stay_disjoint`: in every interleaving in which no section touches what another call has
  reserved, the ranges are disjoint and no placeholder is left;
* `concurrent_calls_disturb`: otherwise neither is so.
-/

namespace CypheraKernel.Syscall

open Mm Rust MmapState Sections

abbrev MapWork := Work mapInterface Ret

/-- A section, and what follows it. -/
def sect (a : Section) (k : a.Answer → MapWork) : MapWork := Work.act (I := mapInterface) a k

/-- How the work between the sections goes. -/
structure Oracle where
  world : World
  /-- The page tables of a segment, in `map_shared_segment`. -/
  mapped : Except Errno Unit
  /-- The copying of `mremap` goes through. -/
  copied : Bool

/-! ### munmap -/

def munmapWork (w : World) (addr length : ℕ) (k : Ret → MapWork) : MapWork :=
  if w.vforkBorrower then k (.error .nomem)
  else if length = 0 ∨ addr % pageSize ≠ 0 then k (.error .inval)
  else if addr + alignUpPage length ≥ usizeBound then .stop
  else
    sect (.cut addr (addr + alignUpPage length)) fun _ =>
      sect (.release addr (addr + alignUpPage length)) fun _ => k (.ok 0)

/-! ### mmap -/

variable (o : Oracle) (oldAddr : ℕ)

/-- `map_shared_segment` of a range that has been reserved. -/
def segmentWork (vaddr length : ℕ) (perms : Perms) (segment offset : ℕ)
    (k : Ret → MapWork) : MapWork :=
  if offset / pageSize + length / pageSize > (o.world.segmentFrames segment).length then
    sect (.release vaddr (vaddr + length)) fun _ => k (.error .inval)
  else
    match o.mapped with
    | .error e => sect (.release vaddr (vaddr + length)) fun _ => k (.error e)
    | .ok () =>
      sect (.enter ⟨vaddr, vaddr + length, perms, ⟨true, false, false, false, false⟩,
        .shm segment offset⟩) fun _ => k (.ok vaddr)

/-- The end of `mmap` for a segment, if there is one. -/
def maybeSegmentWork (vaddr length : ℕ) (perms : Perms) (segment : Option ℕ)
    (e : Errno) : MapWork :=
  match segment with
  | none => sect (.release vaddr (vaddr + length)) fun _ => .done (.error e)
  | some segment => segmentWork o vaddr length perms segment 0 .done

/-- With `MCL_FUTURE`, a new range is locked. -/
def lockNewWork (mlockall : UInt32) (lo hi : ℕ) (k : MapWork) : MapWork :=
  if mlockall &&& mclFuture ≠ 0 then sect (.lock lo hi) fun _ => k else k

/-- The end of `mmap` for a mapping that is neither a segment nor a device. -/
def plainWork (vaddr length : ℕ) (prot flags : UInt64) (backing : VmaBacking) : MapWork :=
  sect (.enter ⟨vaddr, vaddr + length, protToPerms prot,
      ⟨flags &&& mapShared ≠ 0, flags &&& mapAnonymous ≠ 0, false, false, false⟩, backing⟩)
    fun mlockall => lockNewWork mlockall vaddr (vaddr + length) <|
      if sealedMeanwhile o.world prot flags backing then
        munmapWork o.world vaddr length fun _ => .done (.error .perm)
      else .done (.ok vaddr)

/-- What `mmap` does with the place it has reserved. -/
def enterWork (vaddr length : ℕ) (prot flags : UInt64) (backing : VmaBacking) : MapWork :=
  match backing with
  | .anonymous =>
    if flags &&& mapShared ≠ 0 then
      maybeSegmentWork o vaddr length (protToPerms prot) (createAnonShared o.world length) .nomem
    else plainWork o vaddr length prot flags backing
  | .file inode base =>
    if o.world.isDrm inode then
      maybeSegmentWork o vaddr length (protToPerms prot)
        (if flags &&& mapShared ≠ 0 then o.world.drmSegment base length else none) .inval
    else plainWork o vaddr length prot flags backing
  | .shm _ _ => plainWork o vaddr length prot flags backing

/-- The part of `mmap` behind the checks of its arguments. -/
def placeWork (addr length : ℕ) (prot flags : UInt64) (backing : VmaBacking) : MapWork :=
  if isFixed flags ∧ addr + length > userVaEnd then .done (.error .nomem)
  else sect (.pick addr length flags) fun
    | .error e => .done (.error e)
    | .ok vaddr => enterWork o vaddr length prot flags backing

def mmapWork (addr length : ℕ) (prot flags fd offset : UInt64) : MapWork :=
  if o.world.vforkBorrower then .done (.error .nomem)
  else if length = 0 then .done (.error .inval)
  else if addr % pageSize ≠ 0 ∧ isFixed flags then .done (.error .inval)
  else if length + 0xfff ≥ usizeBound then .done (.error .nomem)
  else if mmapLength length > userVaEnd then .done (.error .nomem)
  else
    match mmapBacking o.world prot flags fd offset.toNat with
    | .error e => .done (.error e)
    | .ok backing => placeWork o (if isFixed flags then addr else addr / pageSize * pageSize)
        (mmapLength length) prot flags backing

/-! ### mremap -/

/-- The source range is unmapped if it is still the one that was found. -/
def dropSourceWork (oldAligned dest : ℕ) (v : Vma) : MapWork :=
  sect (.recheck oldAddr) fun (u : Option Vma) =>
    if u.any fun u => u.start = v.start ∧ u.stop = v.stop ∧ sameKind u.backing v.backing then
      munmapWork o.world oldAddr oldAligned fun _ => .done (.ok dest)
    else .done (.ok dest)

/-- What `mremap` does at the new place, which it has reserved. -/
def enterMovedWork (oldAligned dest newAligned : ℕ) (v : Vma) (backing : VmaBacking) : MapWork :=
  match backing with
  | .shm segment offset =>
    segmentWork o dest newAligned v.prot segment offset fun
      | .error e => .done (.error e)
      | .ok _ => dropSourceWork o oldAddr oldAligned dest v
  | _ =>
    sect (.enter ⟨dest, dest + newAligned, v.prot, v.flags, backing⟩) fun _ =>
      if v.flags.shared ∨ o.copied then dropSourceWork o oldAddr oldAligned dest v
      else munmapWork o.world dest newAligned fun _ => .done (.error .fault)

/-- `mremap` to another place: the one asked for, which is emptied first, or a gap. -/
def moveWork (oldAligned newAligned newAddr : ℕ) (flags : UInt64) (v : Vma)
    (backing : VmaBacking) : MapWork :=
  if flags &&& mremapFixed ≠ 0 then
    if flags &&& mremapMaymove = 0 ∨ newAddr % pageSize ≠ 0 then .done (.error .inval)
    else if newAddr + newAligned > userVaEnd then .done (.error .inval)
    else if newAddr < oldAddr + oldAligned ∧ oldAddr < newAddr + newAligned then
      .done (.error .inval)
    else if segmentHolds o.world backing newAligned = false then .done (.error .inval)
    else
      munmapWork o.world newAddr newAligned fun _ =>
        sect (.reserve newAddr (newAddr + newAligned)) fun _ =>
          enterMovedWork o oldAddr oldAligned newAddr newAligned v backing
  else sect (.gap newAligned) fun
    | none => .done (.error .nomem)
    | some dest => enterMovedWork o oldAddr oldAligned dest newAligned v backing

/-- Without `MREMAP_FIXED`, a range that is to grow grows in place if it can. -/
def growWork (oldAligned newAligned newAddr : ℕ) (flags : UInt64) (v : Vma)
    (backing : VmaBacking) : MapWork :=
  let move := if flags &&& mremapMaymove = 0 then .done (.error .nomem)
    else moveWork o oldAddr oldAligned newAligned newAddr flags v backing
  if extendable oldAddr oldAligned v then
    sect (.extend oldAddr (oldAddr + newAligned)) fun (grown : Bool) =>
      if grown then .done (.ok oldAddr) else move
  else move

/-- `mremap` of the range that was found. -/
def foundWork (oldAligned newAligned newAddr : ℕ) (flags : UInt64) (v : Vma) : MapWork :=
  if v.stop < oldAddr + oldAligned then .done (.error .inval)
  else
    match v.backing.shift (oldAddr - v.start) with
    | .error _ => .stop
    | .ok backing =>
      if flags &&& mremapFixed ≠ 0 then
        moveWork o oldAddr oldAligned newAligned newAddr flags v backing
      else if newAligned = oldAligned then .done (.ok oldAddr)
      else if newAligned < oldAligned then
        munmapWork o.world (oldAddr + newAligned) (oldAligned - newAligned)
          fun _ => .done (.ok oldAddr)
      else growWork o oldAddr oldAligned newAligned newAddr flags v backing

def mremapWork (oldSize newSize : ℕ) (flags : UInt64) (newAddr : ℕ) : MapWork :=
  if o.world.vforkBorrower then .done (.error .nomem)
  else if oldAddr % pageSize ≠ 0 ∨ newSize = 0 then .done (.error .inval)
  else if alignUpPage oldSize = 0 then .done (.error .inval)
  else if oldAddr + alignUpPage oldSize > userVaEnd ∨
      oldAddr + alignUpPage newSize > userVaEnd then .done (.error .inval)
  else sect (.find oldAddr) fun
    | none => .done (.error .fault)
    | some v => foundWork o oldAddr (alignUpPage oldSize) (alignUpPage newSize) newAddr flags v

/-! ### The sections are in their places -/

/-- The call, of which this is left, keeps to its places and holds the range now. -/
@[irreducible] def Keeps (held : Option (ℕ × ℕ)) (work : MapWork) : Prop :=
  mapDiscipline.Proper held work

variable {held : Option (ℕ × ℕ)} {backing : VmaBacking} {length : ℕ} {v : Vma} {newAligned : ℕ}
  {k : Ret → MapWork}

theorem keeps_iff {work : MapWork} : Keeps held work ↔ mapDiscipline.Proper held work := by
  rw [Keeps]

theorem keeps_sect {a : Section} {k : a.Answer → MapWork} (hfit : a.Fit held)
    (hk : ∀ x, a.Possible x → Keeps (a.holds held x) (k x)) : Keeps held (sect a k) :=
  keeps_iff.2 ⟨hfit, fun x hx => keeps_iff.1 (hk x hx)⟩

theorem keeps_done (r : Ret) : Keeps none (.done r) := keeps_iff.2 rfl

theorem keeps_stop (held : Option (ℕ × ℕ)) : Keeps held .stop := keeps_iff.2 trivial

theorem keeps_ite {c : Prop} {_ : Decidable c} {work work' : MapWork} (h : c → Keeps held work)
    (h' : ¬ c → Keeps held work') : Keeps held (if c then work else work') := by
  split_ifs with hc
  · exact h hc
  · exact h' hc

/-- A check of the arguments. -/
theorem keeps_guard {c : Prop} {_ : Decidable c} {r : Ret} {work : MapWork}
    (h : ¬ c → Keeps none work) : Keeps none (if c then .done r else work) :=
  keeps_ite (fun _ => keeps_done r) h

theorem keeps_munmapWork (w : World) (addr length : ℕ)
    (hk : ∀ r, Keeps none (k r)) : Keeps none (munmapWork w addr length k) := by
  unfold munmapWork
  split_ifs with hvfork hargs hbound
  · exact hk _
  · exact hk _
  · exact keeps_stop none
  · rw [not_or] at hargs
    have hlt : addr < addr + alignUpPage length := Nat.lt_add_of_pos_right (alignUpPage_pos hargs.1)
    refine keeps_sect ⟨rfl, hlt, not_le.1 hbound⟩ fun _ _ => ?_
    exact keeps_sect rfl fun _ _ => hk _

theorem keeps_release {lo hi : ℕ} {k : MapWork} (hk : Keeps none k) :
    Keeps (some (lo, hi)) (sect (.release lo hi) fun _ => k) :=
  keeps_sect rfl fun _ _ => hk

variable (o : Oracle) (vaddr : ℕ)

theorem keeps_segmentWork (length : ℕ) (perms : Perms) {segment offset : ℕ}
    (hoff : offset < usizeBound) (hk : ∀ r, Keeps none (k r)) :
    Keeps (some (vaddr, vaddr + length)) (segmentWork o vaddr length perms segment offset k) := by
  unfold segmentWork
  split_ifs
  · exact keeps_release (hk _)
  · cases o.mapped with
    | error e => exact keeps_release (hk _)
    | ok u => exact keeps_sect ⟨rfl, rfl, hoff⟩ fun _ _ => hk _

theorem keeps_maybeSegmentWork (length : ℕ) (perms : Perms) (segment : Option ℕ) (e : Errno) :
    Keeps (some (vaddr, vaddr + length)) (maybeSegmentWork o vaddr length perms segment e) := by
  cases segment with
  | none => exact keeps_release (keeps_done _)
  | some segment => exact keeps_segmentWork o vaddr length perms (by decide) fun _ => keeps_done _

section

variable (hpos : 0 < length) (prot flags : UInt64) (hoff : backing.Shiftable 0)

include hpos hoff

theorem keeps_plainWork :
    Keeps (some (vaddr, vaddr + length)) (plainWork o vaddr length prot flags backing) := by
  refine keeps_sect ⟨rfl, rfl, hoff⟩ fun mlockall _ => ?_
  have hrest : Keeps none (if sealedMeanwhile o.world prot flags backing then
      munmapWork o.world vaddr length fun _ => .done (.error .perm)
      else .done (.ok vaddr)) :=
    keeps_ite (fun _ => keeps_munmapWork _ _ _ fun _ => keeps_done _) fun _ => keeps_done _
  refine keeps_ite (fun _ => ?_) fun _ => hrest
  exact keeps_sect (Nat.lt_add_of_pos_right hpos) fun _ _ => hrest

theorem keeps_enterWork :
    Keeps (some (vaddr, vaddr + length)) (enterWork o vaddr length prot flags backing) := by
  have hplain := keeps_plainWork o vaddr hpos prot flags hoff
  have hsegment := fun segment e =>
    keeps_maybeSegmentWork o vaddr length (protToPerms prot) segment e
  cases backing with
  | anonymous | file => exact keeps_ite (fun _ => hsegment _ _) fun _ => hplain
  | shm segment offset => exact hplain

theorem keeps_placeWork (addr : ℕ) : Keeps none (placeWork o addr length prot flags backing) := by
  unfold placeWork
  split_ifs with hend
  · exact keeps_done _
  have hbound : isFixed flags = true → addr + length < usizeBound := by
    intro hfixed
    have hle : addr + length ≤ userVaEnd := not_lt.1 fun h => hend ⟨hfixed, h⟩
    exact hle.trans_lt (by decide)
  refine keeps_sect ⟨rfl, hpos, hbound⟩ fun x _ => ?_
  cases x with
  | error e => exact keeps_done _
  | ok vaddr => exact keeps_enterWork o vaddr hpos prot flags hoff

end

theorem shiftable_mmapBacking {w : World} {prot flags fd offset : UInt64}
    (h : mmapBacking w prot flags fd offset.toNat = .ok backing) : backing.Shiftable 0 := by
  unfold mmapBacking at h
  split_ifs at h
  · cases h
    trivial
  cases hfile : w.file fd.toUInt32 with
  | none =>
    rw [hfile] at h
    cases h
  | some file =>
    rw [hfile] at h
    dsimp only at h
    split_ifs at h
    cases h
    exact offset.toNat_lt

theorem keeps_mmapWork (addr length : ℕ) (prot flags fd offset : UInt64) :
    Keeps none (mmapWork o addr length prot flags fd offset) := by
  refine keeps_guard fun _ => ?_
  refine keeps_guard fun hzero => ?_
  refine keeps_guard fun _ => ?_
  refine keeps_guard fun _ => ?_
  refine keeps_guard fun _ => ?_
  grind [keeps_done, mmapLength, pageSize, keeps_placeWork, shiftable_mmapBacking]

variable (oldAddr oldAligned : ℕ)

theorem keeps_dropSourceWork (dest : ℕ) (v : Vma) :
    Keeps none (dropSourceWork o oldAddr oldAligned dest v) := by
  refine keeps_sect trivial fun u _ => ?_
  exact keeps_ite (fun _ => keeps_munmapWork _ _ _ fun _ => keeps_done _) fun _ => keeps_done _

theorem keeps_enterMovedWork (dest newAligned : ℕ) (hv : v.flags.reserved = false)
    (hoff : backing.Shiftable 0) :
    Keeps (some (dest, dest + newAligned))
      (enterMovedWork o oldAddr oldAligned dest newAligned v backing) := by
  have hplain : Keeps (some (dest, dest + newAligned))
      (sect (.enter ⟨dest, dest + newAligned, v.prot, v.flags, backing⟩) fun _ =>
        if v.flags.shared ∨ o.copied then dropSourceWork o oldAddr oldAligned dest v
        else munmapWork o.world dest newAligned fun _ => .done (.error .fault)) := by
    refine keeps_sect ⟨rfl, hv, hoff⟩ fun _ _ => keeps_ite (fun _ => ?_) fun _ => ?_
    · exact keeps_dropSourceWork _ _ _ _ _
    · exact keeps_munmapWork _ _ _ fun _ => keeps_done _
  cases backing with
  | anonymous | file => exact hplain
  | shm segment offset =>
    have hlt : offset < usizeBound := hoff
    rw [enterMovedWork]
    refine keeps_segmentWork o dest newAligned v.prot hlt fun r => ?_
    cases r with
    | error e => exact keeps_done _
    | ok a => exact keeps_dropSourceWork _ _ _ _ _

variable (newAddr : ℕ)

theorem keeps_moveWork (hpos : 0 < newAligned) (flags : UInt64) (hv : v.flags.reserved = false)
    (hoff : backing.Shiftable 0) :
    Keeps none (moveWork o oldAddr oldAligned newAligned newAddr flags v backing) := by
  have henter := fun dest => keeps_enterMovedWork o oldAddr oldAligned dest newAligned hv hoff
  refine keeps_ite (fun _ => ?_) fun _ => ?_
  · refine keeps_guard fun _ => ?_
    refine keeps_guard fun hend => ?_
    refine keeps_guard fun _ => keeps_guard fun _ => ?_
    refine keeps_munmapWork _ _ _ fun _ => keeps_sect ⟨rfl, ?_, ?_⟩ fun _ _ => henter newAddr
    · exact Nat.lt_add_of_pos_right hpos
    · exact (not_lt.1 hend).trans_lt userVaEnd_lt_usizeBound
  · refine keeps_sect ⟨rfl, hpos⟩ fun x _ => ?_
    cases x with
    | none => exact keeps_done _
    | some dest => exact henter dest

theorem shiftable_shift {b b' : VmaBacking} {d : ℕ} (h : b.shift d = .ok b') : b'.Shiftable 0 := by
  have hd := VmaBacking.shiftable_of_shift h
  rw [VmaBacking.shift_eq hd] at h
  cases h
  cases b <;> exact hd

section

variable (hpos : 0 < newAligned) (hend : oldAddr + newAligned < usizeBound) (flags : UInt64)
  (hv : v.flags.reserved = false)

include hpos hend flags hv

theorem keeps_growWork (hoff : backing.Shiftable 0) :
    Keeps none (growWork o oldAddr oldAligned newAligned newAddr flags v backing) := by
  have hmove : Keeps none (if flags &&& mremapMaymove = 0 then .done (.error .nomem)
      else moveWork o oldAddr oldAligned newAligned newAddr flags v backing) :=
    keeps_guard fun _ =>
      keeps_moveWork o oldAddr oldAligned newAddr hpos flags hv hoff
  refine keeps_ite (fun _ => ?_) fun _ => hmove
  refine keeps_sect hend fun grown _ => ?_
  cases grown with
  | true => exact keeps_done _
  | false => exact hmove

theorem keeps_foundWork :
    Keeps none (foundWork o oldAddr oldAligned newAligned newAddr flags v) := by
  refine keeps_guard fun _ => ?_
  cases hbacking : v.backing.shift (oldAddr - v.start) with
  | error e => exact keeps_stop none
  | ok backing =>
    have hoff := shiftable_shift hbacking
    refine keeps_ite (fun _ => ?_) fun _ => ?_
    · exact keeps_moveWork o oldAddr oldAligned newAddr hpos flags hv hoff
    refine keeps_guard fun _ => keeps_ite (fun _ => ?_) fun _ => ?_
    · exact keeps_munmapWork _ _ _ fun _ => keeps_done _
    · exact keeps_growWork o oldAddr oldAligned newAddr hpos hend flags hv hoff

end

theorem keeps_mremapWork (oldSize newSize : ℕ) (flags : UInt64) (newAddr : ℕ) :
    Keeps none (mremapWork o oldAddr oldSize newSize flags newAddr) := by
  refine keeps_guard fun _ => ?_
  refine keeps_guard fun hargs => ?_
  refine keeps_guard fun _ => keeps_guard fun hend => ?_
  rw [not_or] at hargs hend
  refine keeps_sect trivial fun x hx => ?_
  cases x with
  | none => exact keeps_done _
  | some v =>
    have hpos : 0 < alignUpPage newSize := alignUpPage_pos hargs.2
    have hbound : oldAddr + alignUpPage newSize < usizeBound :=
      (not_lt.1 hend.2).trans_lt userVaEnd_lt_usizeBound
    exact keeps_foundWork o oldAddr _ newAddr hpos hbound flags hx.1

/-! ### Interleavings -/

/-- The calls of a thread. -/
inductive MapCall
  | mmap (o : Oracle) (addr length : ℕ) (prot flags fd offset : UInt64)
  | munmap (w : World) (addr length : ℕ)
  | mremap (o : Oracle) (oldAddr oldSize newSize : ℕ) (flags : UInt64) (newAddr : ℕ)

def MapCall.work : MapCall → MapWork
  | mmap o addr length prot flags fd offset => mmapWork o addr length prot flags fd offset
  | munmap w addr length => munmapWork w addr length .done
  | mremap o oldAddr oldSize newSize flags newAddr =>
    mremapWork o oldAddr oldSize newSize flags newAddr

/-- Every call keeps to its places. -/
theorem proper_work (c : MapCall) : mapDiscipline.Proper none c.work := by
  rw [← keeps_iff]
  cases c with
  | mmap o addr length prot flags fd offset =>
    exact keeps_mmapWork o addr length prot flags fd offset
  | munmap w addr length => exact keeps_munmapWork w addr length keeps_done
  | mremap o oldAddr oldSize newSize flags newAddr =>
    exact keeps_mremapWork o oldAddr oldSize newSize flags newAddr

/-- The threads of a process, none of which is in a call. -/
def idle (m : MmapState) : System mapInterface Ret := ⟨m, fun _ => .done (.ok 0), fun _ => none⟩

theorem owned_idle {m : MmapState} (h : InOrder m) (hno : ∀ v ∈ m.vmas, v.flags.reserved = false) :
    mapDiscipline.Owned (idle m) where
  good := h
  proper _ := rfl
  token_iff r := by
    constructor
    · rintro ⟨v, hv, hres, -⟩
      exact absurd hres (Bool.eq_false_iff.1 (hno v hv))
    · rintro ⟨i, hi⟩
      cases hi
  unique := nofun

/-- **Memory maps under concurrency.**  In every interleaving of calls by any number of threads in
which the sections find the map undisturbed, the ranges are disjoint after every step, and there is
no placeholder when no call is in progress. -/
theorem ranges_stay_disjoint {m : MmapState} (h : InOrder m)
    (hno : ∀ v ∈ m.vmas, v.flags.reserved = false) {es : List (Event MapCall)}
    (hes : Runs.Meets (step MapCall.work) mapDiscipline.Calm es (idle m)) :
    Runs.Always (step MapCall.work)
      (fun s => s.shared.vmas.Pairwise Apart ∧
        (s.Quiet → ∀ v ∈ s.shared.vmas, v.flags.reserved = false)) es (idle m) := by
  refine Discipline.always proper_work (fun s hs => ⟨hs.good.apart, fun hquiet v hv => ?_⟩)
    (owned_idle h hno) hes
  by_contra hres
  exact hs.no_token hquiet (v.start, v.stop) ⟨v, hv, Bool.not_eq_false _ ▸ hres, rfl, rfl⟩

/-- A world in which nothing else happens. -/
def stillWorld : World where
  vforkBorrower := false
  largePage _ := false
  tryCharge _ := true
  pinOrLoad _ _ := none
  readAt _ _ := none
  file _ := none
  writeSealed _ := false
  writeSealedLater _ := false
  isDrm _ := false
  drmSegment _ _ := none
  anonSegment _ := none
  segmentFrames _ := []

def stillOracle : Oracle := ⟨stillWorld, .ok (), true⟩

/-- Four anonymous pages. -/
def fourPages : MmapState :=
  { forPid 1 with
    vmas := [⟨0x10000, 0x14000, ⟨true, true, false, true⟩, ⟨false, true, false, false, false⟩,
      .anonymous⟩] }

theorem inOrder_fourPages : InOrder fourPages :=
  ⟨⟨List.pairwise_singleton _ _, by decide, by decide⟩, by decide, by decide⟩

/-- One thread unmaps two pages while another maps a page. -/
def quietRun : List (Event MapCall) :=
  [.call 0 (.munmap stillWorld 0x10000 0x2000),
    .call 1 (.mmap stillOracle 0 0x1000 3 mapAnonymous 0 0), .go 0, .go 1, .go 0, .go 1]

theorem ranges_stay_disjoint_quietRun :
    Runs.Meets (step MapCall.work) mapDiscipline.Calm quietRun (idle fourPages) ∧
      Runs.Always (step MapCall.work)
        (fun s => s.shared.vmas.Pairwise Apart ∧
          (s.Quiet → ∀ v ∈ s.shared.vmas, v.flags.reserved = false)) quietRun (idle fourPages) :=
  have hmeets : Runs.Meets (step MapCall.work) mapDiscipline.Calm quietRun (idle fourPages) := by
    decide +kernel
  ⟨hmeets, ranges_stay_disjoint inOrder_fourPages (by decide) hmeets⟩

/-- One thread unmaps four pages, and before it is done another unmaps two of them. -/
def lossyRun : List (Event MapCall) :=
  [.call 0 (.munmap stillWorld 0x10000 0x4000), .call 1 (.munmap stillWorld 0x12000 0x2000),
    .go 0, .go 1, .go 1, .go 0]

/-- One thread maps a page at a fixed place while another does the same. -/
def overlapRun : List (Event MapCall) :=
  [.call 0 (.mmap stillOracle 0x20000 0x1000 3 (mapAnonymous ||| mapFixed) 0 0),
    .call 1 (.mmap stillOracle 0x20000 0x2000 3 (mapAnonymous ||| mapFixed) 0 0),
    .go 0, .go 1, .go 0, .go 1]

/-- **Lost and overlapping ranges.**  After the first run no call is in progress and a
placeholder is left; after the second two ranges overlap. -/
theorem concurrent_calls_disturb :
    (∃ s, Runs.exec (step MapCall.work) lossyRun (idle fourPages) = some s ∧ s.Quiet ∧
      s.shared.vmas.map (fun v => (v.start, v.stop, v.flags.reserved)) =
        [(0x10000, 0x12000, true)]) ∧
    (∃ s, Runs.exec (step MapCall.work) overlapRun (idle fourPages) = some s ∧
      ¬ s.shared.vmas.Pairwise Apart) := by
  constructor
  · have hrun : (Runs.exec (step MapCall.work) lossyRun (idle fourPages)).any (fun s =>
        (s.work 0).isDone ∧ (s.work 1).isDone ∧
          s.shared.vmas.map (fun v => (v.start, v.stop, v.flags.reserved)) =
            [(0x10000, 0x12000, true)]) = true := by
      decide +kernel
    obtain ⟨s, hs, hend⟩ := (Option.any_eq_true _ _).1 hrun
    obtain ⟨h0, h1, hvmas⟩ := of_decide_eq_true hend
    refine ⟨s, hs, fun i => ?_, hvmas⟩
    match i with
    | 0 => exact h0
    | 1 => exact h1
    | i + 2 =>
      have hother : ∀ e ∈ lossyRun, e.thread ≠ i + 2 := by
        simp [lossyRun, Event.thread]
      rw [exec_work_of_ne hother hs]
      rfl
  · have hrun : (Runs.exec (step MapCall.work) overlapRun (idle fourPages)).any
        (fun s => ¬ s.shared.vmas.Pairwise Apart) = true := by
      decide +kernel
    simp_all [Option.any_eq_true]

end CypheraKernel.Syscall
