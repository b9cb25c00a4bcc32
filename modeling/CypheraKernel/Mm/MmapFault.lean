import CypheraKernel.Lib.Program
import CypheraKernel.Mm.MmapState
import CypheraKernel.Mm.VmSpace

/-!
# Page faults

`kernel/src/mm/mmap_fault.rs`, with `access_ok` of `frame/src/user/mod.rs`: how a page of a mapped
range gets its frame.

A call of the kernel is a program on the memory of the calling process (`Caller`) that returns, or
stops for one of the reasons `Stop`.  Addresses are 64-bit words: `addAddr` is their checked
addition, `virtAddr` the check of the paging library that an address is canonical.  File offsets are
added with `addOffset`, so that the two kinds of overflow can be told apart.

What a call asks of the rest of the kernel (files, the page cache, memory accounting, shared
segments) is answered by a `World`.  Calls run one at a time: the checks that a fault repeats
because another thread may have changed the map meanwhile are left out, as are statistics and the
charges that are given back.
-/

namespace CypheraKernel.Mm

open Rust Program VmSpace Mapper

/-- Why a call does not return. -/
inductive Stop
  | addressOverflow
  | nonCanonical
  | offsetOverflow
  | killed
  deriving DecidableEq, Repr

/-- The memory of the calling process. -/
structure Caller (σ : Type) where
  mmap : MmapState
  vm : VmSpace
  fr : Frames σ

abbrev CallM (σ α : Type) := EStateM Stop (Caller σ) α

/-- What a mapping needs of a file. -/
structure OpenFile where
  inode : ℕ
  readable : Bool
  deriving DecidableEq, Repr

/-- The answers of the rest of the kernel: whether the caller borrows its address space from its
parent after `vfork`, whether a page lies in a large page of the kernel, whether a page may be
charged, the frame of a page of a file and the bytes of a file, the open files, whether an inode
forbids writing (when first asked and when asked again), whether it is a graphics device, the
segments of such a device and new anonymous ones, and the frames of a segment. -/
structure World where
  vforkBorrower : Bool
  (largePage tryCharge : ℕ → Bool)
  pinOrLoad : ℕ → ℕ → Option ℕ
  readAt : ℕ → ℕ → Option (List UInt8)
  file : UInt32 → Option OpenFile
  (writeSealed writeSealedLater isDrm : ℕ → Bool)
  drmSegment : ℕ → ℕ → Option ℕ
  anonSegment : ℕ → Option ℕ
  segmentFrames : ℕ → List ℕ

variable {σ : Type} (A : FrameAllocator σ) [Mapper A] (w : World)

/-! ### Addresses -/

variable (a : ℕ)

/-- `VirtAddr::new` of the paging library, which accepts canonical addresses only. -/
def virtAddr : CallM σ PUnit :=
  if a < userVaEnd ∨ kernelVaStart ≤ a then pure ⟨⟩ else throw .nonCanonical

/-- `a + b` on addresses. -/
def addAddr (b : ℕ) : CallM σ ℕ :=
  if a + b < usizeBound then pure (a + b) else throw .addressOverflow

/-- `a + b` on file offsets. -/
def addOffset (b : ℕ) : CallM σ ℕ :=
  if a + b < usizeBound then pure (a + b) else throw .offsetOverflow

/-- An operation on the memory map; what can overflow there are file offsets. -/
def onMap {α : Type} (x : Except Panic α) : CallM σ α :=
  match x with
  | .ok a => pure a
  | .error _ => throw .offsetOverflow

def setMap (m : MmapState) : CallM σ PUnit := modify fun st => { st with mmap := m }

/-! ### Page tables -/

/-- `translate(VirtAddr::new(a)).is_some()`. -/
def translate : CallM σ Bool := do
  virtAddr a
  let st ← get
  return (st.vm.leaf (a / pageSize)).isSome || w.largePage (a / pageSize)

def freeFrameOf (f : ℕ) : CallM σ PUnit := modify fun st => { st with fr := st.fr.freeFrame A f }

/-- `map_one_frame`. -/
def mapOneFrame (f : ℕ) (perms : Perms) : CallM σ (Option MapError) := do
  let st ← get
  let (r, fr, vm) := mapTo A st.fr st.vm (a / pageSize) (perms.toPte f)
  set { st with fr := fr, vm := vm }
  return r

/-- `unmap_keep_frame(VirtAddr::new(a))`. -/
def unmapKeep : CallM σ PUnit := do
  virtAddr a
  modify fun st => { st with vm := unmapKeepFrame A st.vm a }

/-- `write_to_frame` at offset `0`. -/
def writeToFrame (fr : Frames σ) (f : ℕ) (bytes : List UInt8) : Frames σ :=
  { fr with mem := Function.update fr.mem f fun i => bytes[i]?.getD (fr.mem f i) }

/-! ### Faults -/

/-- The end of `fault_in_page`: enter the frame, which goes back if it is not a page of a file. -/
def installPage (f : ℕ) (prot : Perms) (sharedFile allowStackGrow : Bool) : CallM σ Bool := do
  let release : CallM σ PUnit := if sharedFile then pure ⟨⟩ else freeFrameOf A f
  virtAddr a
  if a % pageSize ≠ 0 then
    release
    return false
  else
    match ← mapOneFrame A a f prot with
    | none => return true
    | some .alreadyMapped =>
      release
      return true
    | some .outOfFrames =>
      release
      if allowStackGrow then throw .killed else return false
    | some _ =>
      release
      return false

def userStackBase : ℕ := 0x700000000000
def userStackMaxGrowth : ℕ := 8 * 1024 * 1024

def growStack : CallM σ Bool := do
  if w.tryCharge a = false then return false
  else
    let st ← get
    match st.fr.allocFrame A with
    | none => throw .killed
    | some (f, fr) =>
      set { st with fr := fr.zeroFrame f }
      virtAddr a
      if a % pageSize ≠ 0 then
        freeFrameOf A f
        return false
      else
        match ← mapOneFrame A a f .userRw with
        | none => return true
        | some .outOfFrames =>
          freeFrameOf A f
          throw .killed
        | some _ =>
          freeFrameOf A f
          return false

/-- `fault_in_page`: a page of a shared file comes from the page cache, any other page is a new
frame, filled from its file if it has one. -/
def faultInPage (isWrite allowStackGrow : Bool) : CallM σ Bool := do
  let st ← get
  match st.mmap.findContaining a with
  | none =>
    if allowStackGrow ∧ userStackBase - userStackMaxGrowth ≤ a ∧ a < userStackBase then
      growStack A w a
    else return false
  | some v =>
    if v.prot.accessible = false then return false
    else if isWrite ∧ v.prot.write = false then return false
    else if w.tryCharge a = false then return false
    else
      match v.backing, v.flags.shared with
      | .file inode base, true =>
        let off ← addOffset base (a - v.start)
        match w.pinOrLoad inode off with
        | none => return false
        | some f => installPage A a f v.prot true allowStackGrow
      | backing, _ =>
        match st.fr.allocFrame A with
        | none => if allowStackGrow then throw .killed else return false
        | some (f, fr) =>
          set { st with fr := fr }
          match backing with
          | .anonymous =>
            modify fun st => { st with fr := st.fr.zeroFrame f }
            installPage A a f v.prot false allowStackGrow
          | .file inode base =>
            modify fun st => { st with fr := st.fr.zeroFrame f }
            let off ← addOffset base (a - v.start)
            match w.readAt inode off with
            | none =>
              freeFrameOf A f
              return false
            | some bytes =>
              modify fun st => { st with fr := writeToFrame st.fr f bytes }
              installPage A a f v.prot false allowStackGrow
          | .shm _ _ =>
            freeFrameOf A f
            return false

def populateOnePage : CallM σ Bool := do
  let st ← get
  match st.mmap.findContaining a with
  | none => return false
  | some v =>
    if v.prot.accessible = false then return true
    else
      match v.backing with
      | .shm _ _ => return true
      | _ => if ← translate w a then return true else faultInPage A w a false false

def tryBreakCow : CallM σ Bool := do
  let st ← get
  if (st.mmap.findContaining a).any (fun v => !v.prot.write) then return false
  else if w.tryCharge a = false then return false
  else
    virtAddr a
    let (r, fr, vm) := breakCow A st.fr st.vm a none
    set { st with fr := fr, vm := vm }
    match r with
    | .ok (.broken f) =>
      freeFrameOf A f
      return true
    | .ok .brokenInPlace => return true
    | .ok .alreadyWritable => return true
    | .error .outOfFrames => throw .killed
    | _ => return false

/-- `try_handle` of a fault of a user access. -/
def tryHandle (cr2 : ℕ) (present isWrite : Bool) : CallM σ Bool := do
  let a := cr2 / pageSize * pageSize
  if present then
    if isWrite then tryBreakCow A w a else return false
  else faultInPage A w a isWrite true

/-- `page_flags` allows the access. -/
def allows (vm : VmSpace) (a : ℕ) (isWrite : Bool) : Bool :=
  match vm.leaf (a / pageSize) with
  | some e => e.user && (!isWrite || e.writable)
  | none => false

/-- One turn of the loop of `access_ok`. -/
def accessPage (isWrite : Bool) : CallM σ Bool := do
  virtAddr a
  let st ← get
  if allows st.vm a isWrite then return true
  else if ← tryHandle A w a (st.vm.leaf (a / pageSize)).isSome isWrite then
    virtAddr a
    let st ← get
    return allows st.vm a isWrite
  else return false

/-- `access_ok`: the range lies in the user half and each of its pages allows the access, if need be
after a fault.  The copies `copy_from_user` and `copy_to_user` succeed when it does. -/
def accessOk (len : ℕ) (isWrite : Bool) : CallM σ Bool := do
  if len = 0 then return true
  else if a + len ≥ usizeBound then return false
  else if a + len > userVaEnd then return false
  else
    let first := a / pageSize
    let pages := (a + len - 1) / pageSize - first + 1
    return (← countWhile (fun i => accessPage A w (i * pageSize) isWrite) first pages) = pages

end CypheraKernel.Mm
