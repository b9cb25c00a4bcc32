import CypheraKernel.Errno
import CypheraKernel.Mm.MmapFault

/-!
# The memory calls

`kernel/src/syscall/mm.rs`: `munmap`, `mprotect`, `mmap`, `mremap` and `madvise`.

Each call returns an error or a value.  A loop over the pages of a range builds the address of each
page, and that is where it can stop; what an unmapping loop has removed before it stops is not
tracked.  Left out are the bytes that `mremap` copies, the attach counts of segments, the write-back
of dirty pages and the accounting of present pages.
-/

namespace CypheraKernel.Syscall

open Mm Rust Program

/-- What a call returns. -/
abbrev Ret := Except Errno ℕ

variable {σ : Type} (A : FrameAllocator σ) [VmSpace.Mapper A] (w : World)

/-! ### Flags -/

def mapShared : UInt64 := 0x01
def mapFixed : UInt64 := 0x10
def mapAnonymous : UInt64 := 0x20
def mapPopulate : UInt64 := 0x8000
def mapFixedNoreplace : UInt64 := 0x100000

def mclFuture : UInt32 := 2
def mclOnfault : UInt32 := 4

def mremapMaymove : UInt64 := 1
def mremapFixed : UInt64 := 2

def madvDontneed : UInt64 := 4
def madvFree : UInt64 := 8

/-- The advice values that `madvise` knows. -/
def madvKnown : List UInt64 :=
  [0, 1, 2, 3, madvDontneed, madvFree, 9, 10, 11, 12, 13, 14, 15, 16, 17, 18, 19, 20, 21, 22, 23]

def shmMaxBytes : ℕ := 2 ^ 30

/-- The length in whole pages. -/
def alignUpPage (a : ℕ) : ℕ := saturatingAddU64 a 0xfff / pageSize * pageSize

/-- The `PROT_*` bits. -/
def protToPerms (prot : UInt64) : Perms where
  read := prot &&& 1 ≠ 0
  write := prot &&& 2 ≠ 0
  execute := prot &&& 4 ≠ 0
  user := true

/-! ### Loops over pages -/

/-- The addresses `base + i * 4096` for `i < pages`, built one after the other. -/
def pageAddresses (base pages : ℕ) : CallM σ PUnit :=
  forFrom (fun i => do
    let a ← addAddr base (i * pageSize)
    virtAddr a) 0 pages

/-- `while p < hi { body(p); p += 4096 }` from `p = lo` on. -/
def eachPage (lo hi : ℕ) (body : ℕ → CallM σ PUnit) : CallM σ PUnit :=
  forFrom (fun i => do
    body (lo + i * pageSize)
    discard <| addAddr (lo + i * pageSize) pageSize) 0 ((hi - lo + (pageSize - 1)) / pageSize)

/-- The same loop, ended by the first page without a mapping; whether there is none. -/
def allMapped (lo hi : ℕ) : CallM σ Bool := do
  let pages := (hi - lo + (pageSize - 1)) / pageSize
  let n ← countWhile (fun i => do
    if ← translate w (lo + i * pageSize) then
      discard <| addAddr (lo + i * pageSize) pageSize
      return true
    else return false) 0 pages
  return n = pages

/-- `unmap_pages_locked`. -/
def unmapPagesLocked (vaddr pages : ℕ) : CallM σ PUnit := do
  virtAddr vaddr
  if vaddr % pageSize = 0 then
    pageAddresses vaddr pages
    modify fun st =>
      let (fr, vm) := VmSpace.unmapPages A st.fr st.vm vaddr pages
      { st with fr := fr, vm := vm }
  else pure ⟨⟩

/-- One turn of `detach_shared_dropped`: the pages of a shared file that are mapped, or all pages of
a segment, lose their leaves and keep their frames. -/
def detachVma (addr stop : ℕ) (v : Vma) : CallM σ PUnit :=
  match v.backing with
  | .file _ base =>
    if v.flags.shared then
      eachPage (max v.start addr / pageSize * pageSize) (min v.stop stop) fun p => do
        if ← translate w p then
          unmapKeep A p
          discard <| addOffset base (p - v.start)
        else pure ⟨⟩
    else pure ⟨⟩
  | .shm _ _ =>
    forFrom (fun i => do
      let a ← addAddr v.start (i * pageSize)
      unmapKeep A a) 0 ((v.stop - v.start) / pageSize)
  | .anonymous => pure ⟨⟩

def detachSharedDropped (dropped : List Vma) (addr stop : ℕ) : CallM σ PUnit :=
  forEach (detachVma A w addr stop) dropped

/-! ### munmap -/

/-- The file range that `munmap` writes back for one range. -/
def writebackVma (addr hi : ℕ) (v : Vma) : CallM σ PUnit :=
  match v.backing with
  | .file _ base =>
    if v.flags.shared ∧ max v.start addr < min v.stop hi then do
      let fileLo ← addOffset base (max v.start addr - v.start)
      discard <| addOffset fileLo (min v.stop hi - max v.start addr)
    else pure ⟨⟩
  | _ => pure ⟨⟩

def sysMunmap (addr length : ℕ) : CallM σ Ret := do
  if w.vforkBorrower then return .error .nomem
  else if length = 0 ∨ addr % pageSize ≠ 0 then return .error .inval
  else
    let lengthAligned := alignUpPage length
    let pages := lengthAligned / pageSize
    pageAddresses addr pages
    let hi ← addAddr addr lengthAligned
    let st ← get
    let r ← onMap (st.mmap.unmapRangeReserve addr hi)
    setMap r.state
    forEach (writebackVma addr hi) r.removed
    detachSharedDropped A w r.removed addr hi
    unmapPagesLocked A addr pages
    let st ← get
    setMap (st.mmap.releaseReservation addr hi)
    return .ok 0

/-! ### mprotect -/

/-- A range over `[addr, hi)` is a shared file that forbids writing. -/
def writeSealedIn (m : MmapState) (addr hi : ℕ) : Bool :=
  m.vmas.any fun v => decide (v.start < hi) && decide (v.stop > addr) && v.flags.shared &&
    match v.backing with
    | .file inode _ => w.writeSealed inode
    | _ => false

/-- The final check of `mprotect`: every page of every gap is mapped. -/
def gapsMapped : List (ℕ × ℕ) → CallM σ Bool
  | [] => return true
  | (lo, hi) :: gaps => do
    if ← allMapped w lo hi then gapsMapped gaps else return false

def sysMprotect (addr length : ℕ) (prot : UInt64) : CallM σ Ret := do
  if w.vforkBorrower then return .error .nomem
  else if length = 0 ∨ addr % pageSize ≠ 0 then return .error .inval
  else if prot &&& ~~~7 ≠ 0 then return .error .inval
  else if addr + alignUpPage length ≥ usizeBound then return .error .nomem
  else
    let lengthAligned := alignUpPage length
    let pages := lengthAligned / pageSize
    let hi := addr + lengthAligned
    let perms := protToPerms prot
    let st ← get
    if prot &&& 2 ≠ 0 ∧ writeSealedIn w st.mmap addr hi then return .error .acces
    else
      let r ← onMap (st.mmap.protectRange addr hi perms)
      setMap r.state
      virtAddr addr
      pageAddresses addr pages
      let st ← get
      match VmSpace.changePerms A st.fr st.vm addr pages perms with
      | (.error _, _, _) => return .error .inval
      | (.ok result, fr, vm) =>
        set { st with fr := fr, vm := vm }
        if result.notPresent > 0 ∧ r.gaps ≠ [] then
          if ← gapsMapped w r.gaps then return .ok 0 else return .error .nomem
        else return .ok 0

/-! ### mmap -/

/-- The failure of `map_shared_segment`: the pages mapped so far are unmapped again. -/
def unmapMapped (vaddr mapped : ℕ) : CallM σ PUnit :=
  forFrom (fun j => do
    let a ← addAddr vaddr (j * pageSize)
    unmapKeep A a) 0 mapped

def releaseReserved (vaddr lengthAligned : ℕ) : CallM σ PUnit := do
  let hi ← addAddr vaddr lengthAligned
  let st ← get
  setMap (st.mmap.releaseReservation vaddr hi)

/-- `map_shared_segment` of a range that has been reserved. -/
def mapSharedSegment (vaddr lengthAligned : ℕ) (perms : Perms) (segment offset : ℕ) :
    CallM σ Ret := do
  let pages := lengthAligned / pageSize
  let frames := (w.segmentFrames segment).drop (offset / pageSize)
  if offset / pageSize + pages > (w.segmentFrames segment).length then
    releaseReserved vaddr lengthAligned
    return .error .inval
  else
    let mapped ← countWhile (fun i => do
      let a ← addAddr vaddr (i * pageSize)
      virtAddr a
      if a % pageSize ≠ 0 then return false
      else return (← mapOneFrame A a (frames.getD i 0) perms).isNone) 0 pages
    if mapped < pages then
      unmapMapped A vaddr mapped
      releaseReserved vaddr lengthAligned
      return .error .nomem
    else
      releaseReserved vaddr lengthAligned
      let hi ← addAddr vaddr lengthAligned
      let st ← get
      setMap (st.mmap.insert
        ⟨vaddr, hi, perms, ⟨true, false, false, false, false⟩, .shm segment offset⟩)
      return .ok vaddr

/-- `create_anon_shared`. -/
def createAnonShared (size : ℕ) : Option ℕ :=
  if size = 0 ∨ size > shmMaxBytes then none else w.anonSegment size

/-- The backing of a new mapping, or the error of a file that cannot be mapped. -/
def mmapBacking (prot flags fd : UInt64) (offset : ℕ) : Except Errno VmaBacking :=
  if flags &&& mapAnonymous ≠ 0 then .ok .anonymous
  else if fd = -1 then .error .inval
  else
    match w.file fd.toUInt32 with
    | none => .error .badf
    | some file =>
      if file.readable = false then .error .badf
      else if flags &&& mapShared ≠ 0 ∧ prot &&& 2 ≠ 0 ∧ w.writeSealed file.inode then .error .perm
      else .ok (.file file.inode offset)

/-- The flags ask for a fixed address. -/
def isFixed (flags : UInt64) : Bool := flags &&& (mapFixed ||| mapFixedNoreplace) ≠ 0

/-- The place of a mapping without a fixed address: the hint if it lies in the arena and is free,
otherwise the first gap. -/
def hintOrGap (m : MmapState) (addr lengthAligned : ℕ) : Option ℕ :=
  if addr ≠ 0 ∧ addr ≥ m.arenaLo ∧ addr + lengthAligned < usizeBound ∧
      addr + lengthAligned ≤ m.arenaHi ∧ m.overlaps addr (addr + lengthAligned) = false then
    some addr
  else m.findGap lengthAligned

/-- Where a new mapping goes, with the ranges it replaces and the map without them. -/
def pickPlace (m : MmapState) (addr lengthAligned : ℕ) (flags : UInt64) :
    CallM σ (Except Errno (ℕ × List Vma × MmapState)) := do
  if flags &&& mapFixedNoreplace ≠ 0 then
    if m.overlaps addr (addr + lengthAligned) then return .error .exist
    else return .ok (addr, [], m)
  else if flags &&& mapFixed ≠ 0 then
    let r ← onMap (m.unmapRange addr (addr + lengthAligned))
    return .ok (addr, r.removed, r.state)
  else
    match hintOrGap m addr lengthAligned with
    | none => return .error .nomem
    | some a => return .ok (a, [], m)

/-- With `MAP_FIXED`, the leaves of the replaced ranges go. -/
def replaceOld (flags : UInt64) (dropped : List Vma) (vaddr hi pages : ℕ) : CallM σ PUnit :=
  if flags &&& mapFixed ≠ 0 then do
    detachSharedDropped A w dropped vaddr hi
    unmapPagesLocked A vaddr pages
  else pure ⟨⟩

/-- With `MCL_FUTURE`, a new range is locked. -/
def lockNew (mlockall : UInt32) (vaddr hi : ℕ) : CallM σ PUnit :=
  if mlockall &&& mclFuture ≠ 0 then do
    let st ← get
    let r ← onMap (st.mmap.lockRange vaddr hi true)
    setMap r.state
  else pure ⟨⟩

/-- Whether the pages of a new range are faulted in at once. -/
def populates (mlockall : UInt32) (flags : UInt64) : Bool :=
  flags &&& mapPopulate ≠ 0 || (mlockall &&& mclFuture ≠ 0 && mlockall &&& mclOnfault = 0)

def populateNew (mlockall : UInt32) (flags : UInt64) (vaddr hi : ℕ) : CallM σ PUnit :=
  if populates mlockall flags then
    eachPage vaddr hi fun p => discard <| populateOnePage A w p
  else pure ⟨⟩

/-- The seals of a shared writable file are asked for again after the range has been entered. -/
def sealedMeanwhile (prot flags : UInt64) (backing : VmaBacking) : Bool :=
  match backing with
  | .file inode _ => flags &&& mapShared ≠ 0 && prot &&& 2 ≠ 0 && w.writeSealedLater inode
  | _ => false

/-- The end of `mmap` for a mapping that is neither a segment nor a device. -/
def finishMmap (vaddr lengthAligned : ℕ) (prot flags : UInt64) (backing : VmaBacking) :
    CallM σ Ret := do
  releaseReserved vaddr lengthAligned
  let hi ← addAddr vaddr lengthAligned
  let st ← get
  let mlockall := st.mmap.mlockallFlags
  setMap (st.mmap.insert ⟨vaddr, hi, protToPerms prot,
    ⟨flags &&& mapShared ≠ 0, flags &&& mapAnonymous ≠ 0, false, false, false⟩, backing⟩)
  lockNew mlockall vaddr hi
  if sealedMeanwhile w prot flags backing then
    discard <| sysMunmap A w vaddr lengthAligned
    return .error .perm
  else
    populateNew A w mlockall flags vaddr hi
    return .ok vaddr

/-- The end of `mmap` for a segment, if there is one. -/
def finishSegment (vaddr lengthAligned : ℕ) (perms : Perms) (segment : Option ℕ) (e : Errno) :
    CallM σ Ret := do
  match segment with
  | none =>
    releaseReserved vaddr lengthAligned
    return .error e
  | some segment => mapSharedSegment A w vaddr lengthAligned perms segment 0

/-- What `mmap` does with the place it has reserved. -/
def enterMapping (vaddr lengthAligned : ℕ) (prot flags : UInt64) (backing : VmaBacking) :
    CallM σ Ret :=
  match backing with
  | .anonymous =>
    if flags &&& mapShared ≠ 0 then
      finishSegment A w vaddr lengthAligned (protToPerms prot) (createAnonShared w lengthAligned)
        .nomem
    else finishMmap A w vaddr lengthAligned prot flags backing
  | .file inode base =>
    if w.isDrm inode then
      finishSegment A w vaddr lengthAligned (protToPerms prot)
        (if flags &&& mapShared ≠ 0 then w.drmSegment base lengthAligned else none) .inval
    else finishMmap A w vaddr lengthAligned prot flags backing
  | .shm _ _ => finishMmap A w vaddr lengthAligned prot flags backing

/-- The part of `mmap` behind the checks of its arguments. -/
def placeMapping (addr lengthAligned : ℕ) (prot flags : UInt64) (backing : VmaBacking) :
    CallM σ Ret := do
  if isFixed flags ∧ addr + lengthAligned > userVaEnd then return .error .nomem
  else
    let st ← get
    match ← pickPlace st.mmap addr lengthAligned flags with
    | .error e => return .error e
    | .ok (vaddr, dropped, m) =>
      let hi ← addAddr vaddr lengthAligned
      setMap (m.reserve vaddr hi)
      replaceOld A w flags dropped vaddr hi (lengthAligned / pageSize)
      enterMapping A w vaddr lengthAligned prot flags backing

/-- The length that `mmap` uses. -/
def mmapLength (length : ℕ) : ℕ := (length + 0xfff) / pageSize * pageSize

def sysMmap (addr length : ℕ) (prot flags fd : UInt64) (offset : ℕ) : CallM σ Ret := do
  if w.vforkBorrower then return .error .nomem
  else if length = 0 then return .error .inval
  else if addr % pageSize ≠ 0 ∧ isFixed flags then return .error .inval
  else if length + 0xfff ≥ usizeBound then return .error .nomem
  else if mmapLength length > userVaEnd then return .error .nomem
  else
    match mmapBacking w prot flags fd offset with
    | .error e => return .error e
    | .ok backing =>
      placeMapping A w (if isFixed flags then addr else addr / pageSize * pageSize)
        (mmapLength length) prot flags backing

/-! ### mremap -/

/-- The same kind of backing: `discriminant` of the source. -/
def sameKind : VmaBacking → VmaBacking → Bool
  | .anonymous, .anonymous => true
  | .file _ _, .file _ _ => true
  | .shm _ _, .shm _ _ => true
  | _, _ => false

/-- The room that a segment has behind an offset. -/
def segmentHolds (backing : VmaBacking) (newAligned : ℕ) : Bool :=
  match backing with
  | .shm segment offset =>
    offset / pageSize + newAligned / pageSize ≤ (w.segmentFrames segment).length
  | _ => true

/-- The new place of a range: the one asked for, which is emptied first, or a gap. -/
def moveTarget (oldAddr oldAligned newAligned newAddr : ℕ) (flags : UInt64) (backing : VmaBacking) :
    CallM σ (Except Errno ℕ) := do
  if flags &&& mremapFixed ≠ 0 then
    if flags &&& mremapMaymove = 0 ∨ newAddr % pageSize ≠ 0 then return .error .inval
    else if newAddr + newAligned > userVaEnd then return .error .inval
    else if newAddr < oldAddr + oldAligned ∧ oldAddr < newAddr + newAligned then
      return .error .inval
    else if segmentHolds w backing newAligned = false then return .error .inval
    else
      discard <| sysMunmap A w newAddr newAligned
      let hi ← addAddr newAddr newAligned
      let st ← get
      setMap (st.mmap.reserve newAddr hi)
      return .ok newAddr
  else
    let st ← get
    match st.mmap.findGap newAligned with
    | none => return .error .nomem
    | some a =>
      let hi ← addAddr a newAligned
      setMap (st.mmap.reserve a hi)
      return .ok a

/-- The copy loop of `mremap`, page by page; whether every page could be copied. -/
def copyPages (oldAddr dest copyLen : ℕ) : CallM σ Bool := do
  let n ← countWhile (fun i => do
    let src ← addAddr oldAddr (i * pageSize)
    if ← accessOk A w src pageSize false then
      let dst ← addAddr dest (i * pageSize)
      accessOk A w dst pageSize true
    else return false) 0 (copyLen / pageSize)
  return n = copyLen / pageSize

/-- What `mremap` does at the new place; an error, or nothing. -/
def enterMoved (oldAddr oldAligned dest newAligned : ℕ) (v : Vma) (backing : VmaBacking) :
    CallM σ (Option Errno) := do
  match backing with
  | .shm segment offset =>
    match ← mapSharedSegment A w dest newAligned v.prot segment offset with
    | .error e => return some e
    | .ok _ => return none
  | _ =>
    releaseReserved dest newAligned
    let hi ← addAddr dest newAligned
    let st ← get
    setMap (st.mmap.insert ⟨dest, hi, v.prot, v.flags, backing⟩)
    if v.flags.shared then return none
    else if ← copyPages A w oldAddr dest (min oldAligned newAligned) then return none
    else
      discard <| sysMunmap A w dest newAligned
      return some .fault

/-- The source range is unmapped if it is still the one that was found. -/
def dropSource (oldAddr oldAligned : ℕ) (v : Vma) : CallM σ PUnit := do
  let st ← get
  if (st.mmap.findContaining oldAddr).any
      (fun u => u.start = v.start ∧ u.stop = v.stop ∧ sameKind u.backing v.backing) then
    discard <| sysMunmap A w oldAddr oldAligned
  else pure ⟨⟩

/-- `mremap` to another place. -/
def moveVma (oldAddr oldAligned newAligned newAddr : ℕ) (flags : UInt64) (v : Vma)
    (backing : VmaBacking) : CallM σ Ret := do
  match ← moveTarget A w oldAddr oldAligned newAligned newAddr flags backing with
  | .error e => return .error e
  | .ok dest =>
    match ← enterMoved A w oldAddr oldAligned dest newAligned v backing with
    | some e => return .error e
    | none =>
      dropSource A w oldAddr oldAligned v
      return .ok dest

/-- A range can grow where it is: the call names all of it, and it is not a segment. -/
def extendable (oldAddr oldAligned : ℕ) (v : Vma) : Bool :=
  v.start = oldAddr && v.stop = oldAddr + oldAligned && !sameKind v.backing (.shm 0 0)

/-- Without `MREMAP_FIXED`, a range that is to grow grows in place if it can. -/
def growVma (oldAddr oldAligned newAligned newAddr : ℕ) (flags : UInt64) (v : Vma)
    (backing : VmaBacking) : CallM σ Ret := do
  let st ← get
  let (grown, m) := st.mmap.extendVmaEnd oldAddr (oldAddr + newAligned)
  if extendable oldAddr oldAligned v ∧ grown then
    setMap m
    return .ok oldAddr
  else if flags &&& mremapMaymove = 0 then return .error .nomem
  else moveVma A w oldAddr oldAligned newAligned newAddr flags v backing

def sysMremap (oldAddr oldSize newSize : ℕ) (flags : UInt64) (newAddr : ℕ) : CallM σ Ret := do
  if w.vforkBorrower then return .error .nomem
  else if oldAddr % pageSize ≠ 0 ∨ newSize = 0 then return .error .inval
  else if alignUpPage oldSize = 0 then return .error .inval
  else if oldAddr + alignUpPage oldSize > userVaEnd ∨ oldAddr + alignUpPage newSize > userVaEnd then
    return .error .inval
  else
    let oldAligned := alignUpPage oldSize
    let newAligned := alignUpPage newSize
    let st ← get
    match st.mmap.findContaining oldAddr with
    | none => return .error .fault
    | some v =>
      if v.stop < oldAddr + oldAligned then return .error .inval
      else
        let backing ← onMap (v.backing.shift (oldAddr - v.start))
        if flags &&& mremapFixed ≠ 0 then
          moveVma A w oldAddr oldAligned newAligned newAddr flags v backing
        else if newAligned = oldAligned then return .ok oldAddr
        else if newAligned < oldAligned then
          let tail ← addAddr oldAddr newAligned
          discard <| sysMunmap A w tail (oldAligned - newAligned)
          return .ok oldAddr
        else growVma A w oldAddr oldAligned newAligned newAddr flags v backing

/-! ### madvise -/

/-- The parts of the ranges over `[addr, stop)` whose pages `MADV_DONTNEED` drops: anonymous memory
and private files. -/
def discardable (m : MmapState) (addr stop : ℕ) : List (ℕ × ℕ) :=
  ((m.vmas.filter fun v => v.start < stop ∧ addr < v.stop).filter fun v =>
    v.flags.anon || (sameKind v.backing (.file 0 0) && !v.flags.shared)).map fun v =>
      (max v.start addr, min v.stop stop)

def sysMadvise (addr len : ℕ) (advice : UInt64) : CallM σ Ret := do
  if advice ∉ madvKnown then return .error .inval
  else if advice ≠ madvDontneed ∧ advice ≠ madvFree then return .ok 0
  else if w.vforkBorrower then return .ok 0
  else if addr % pageSize ≠ 0 then return .error .inval
  else if len = 0 then return .ok 0
  else
    let bytes := (len + (pageSize - 1)) / pageSize * pageSize
    if bytes ≥ usizeBound ∨ addr + bytes ≥ usizeBound then return .error .inval
    else
      let st ← get
      forEach (fun r => do
        pageAddresses r.1 ((r.2 - r.1) / pageSize)
        unmapPagesLocked A r.1 ((r.2 - r.1) / pageSize))
        (discardable st.mmap addr (addr + bytes))
      return .ok 0

end CypheraKernel.Syscall
