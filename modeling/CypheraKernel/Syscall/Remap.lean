import CypheraKernel.Mm.MapInvariant
import CypheraKernel.Syscall.Mm

/-!
# `mremap` and the bytes it moves

`sys_mremap` of `kernel/src/syscall/mm.rs`, with the copies of `frame/src/user/mod.rs` and the page
faults they raise.

`CypheraKernel.Syscall.Mm` follows the ranges and the frames of this call and leaves out the bytes.
Here frames are left out instead: a resident page has a `Content`, either bytes of its own or a
place in an object (a file of the page cache, a segment) that other mappings see too.

`plan`: the checks of `mremap` and the place of the new range, all before anything is changed;
`Plan.run`: what the call then does.  `sysMremap_eq_settle`: the model with frames makes the same
decision.

What memory accounting, the frame allocator and the file systems answer is a parameter (`Means`).
A call that stops the kernel or kills the process does not return.
-/

namespace CypheraKernel.Remap

open Mm Rust Syscall

/-! ### Memory -/

/-- What several mappings can share. -/
inductive Object
  | file (inode : ℕ)
  | segment (id : ℕ)
  deriving DecidableEq, Repr

abbrev Objects := Object → ℕ → UInt8

/-- The content of a page: bytes of its own, or the bytes of an object from an offset on. -/
inductive Content
  | own (bytes : ℕ → UInt8)
  | object (o : Object) (offset : ℕ)

namespace Content

def byte (objects : Objects) : Content → ℕ → UInt8
  | own bytes, i => bytes i
  | object o offset, i => objects o (offset + i)

/-- The place of a shared content. -/
def place : Content → Option (Object × ℕ)
  | own _ => none
  | object o offset => some (o, offset)

end Content

/-- A resident page; `user`, `writable` and `cow` are bits of its entry in the page table. -/
structure Page where
  content : Content
  (user writable cow : Bool)

/-- The memory of the calling process; `page` is indexed by page numbers. -/
structure Memory where
  map : MmapState
  page : ℕ → Option Page
  object : Objects

/-- The place that a page of a shared mapping shows, given the entry of its first address.  The page
cache rounds offsets down to pages. -/
def home (e : Entry) : Option (Object × ℕ) :=
  match e.backing, e.flags.shared with
  | .file inode offset, true => some (.file inode, offset / pageSize * pageSize)
  | .shm segment offset, _ => some (.segment segment, offset / pageSize * pageSize)
  | _, _ => none

/-- The content of a page when it is first accessed. -/
def initial (objects : Objects) (e : Entry) : Content :=
  match home e with
  | some (o, offset) => .object o offset
  | none =>
    match e.backing with
    | .file inode offset => .own fun i => objects (.file inode) (offset + i)
    | _ => .own fun _ => 0

/-- `to_pte_flags` of a new page. -/
def newPage (content : Content) (perms : Perms) : Page where
  content := content
  user := perms.user && perms.accessible
  writable := perms.write
  cow := false

namespace Memory

/-- The content of a page, resident or not. -/
def content (mem : Memory) (p : ℕ) : Option Content :=
  match mem.page p with
  | some page => some page.content
  | none => (mem.map.lookup (p * pageSize)).map (initial mem.object)

variable (mem : Memory)

/-- What is read at an address of the user half: the byte, and the object it belongs to if the page
is shared.  Protection plays no part in it. -/
def reading (a : ℕ) : Option (Option (Object × ℕ) × UInt8) :=
  if a < userVaEnd then
    (mem.content (a / pageSize)).map fun c => (c.place, c.byte mem.object (a % pageSize))
  else none

def setMap (m : MmapState) : Memory := { mem with map := m }

def setPage (p : ℕ) (page : Page) : Memory :=
  { mem with page := Function.update mem.page p (some page) }

/-- The pages of `[lo, hi)` go. -/
def dropPages (lo hi : ℕ) : Memory :=
  { mem with page := fun p => if lo ≤ p * pageSize ∧ p * pageSize < hi then none else mem.page p }

/-- The bytes of a resident page. -/
def load (p : ℕ) : ℕ → UInt8 :=
  match mem.page p with
  | some page => page.content.byte mem.object
  | none => fun _ => 0

/-- Write a page of bytes to a resident page. -/
def store (p : ℕ) (buf : ℕ → UInt8) : Memory :=
  match mem.page p with
  | none => mem
  | some page =>
    match page.content with
    | .own _ => mem.setPage p { page with content := .own buf }
    | .object o offset =>
      { mem with object := Function.update mem.object o fun i =>
          if offset ≤ i ∧ i < offset + pageSize then buf (i - offset) else mem.object o i }

end Memory

/-- How a request for a frame ends: memory accounting refuses it, there is no frame and the process
is killed, or it is granted. -/
inductive Supply
  | refused
  | exhausted
  | granted
  deriving DecidableEq, Repr

/-- The answers of the rest of the kernel: for each page, the request for its frame, whether its
file can be read, and whether there is memory for its page tables. -/
structure Means where
  world : World
  supply : ℕ → Supply
  (loads tables : ℕ → Bool)

variable (q : Means)

/-! ### Accesses to user memory -/

def Page.allows (page : Page) (isWrite : Bool) : Bool := page.user && (!isWrite || page.writable)

def Memory.allows (mem : Memory) (p : ℕ) (isWrite : Bool) : Bool :=
  (mem.page p).any (·.allows isWrite)

variable (mem : Memory) (p : ℕ)

/-- `fault_in_page` of a page that is not resident. -/
def faultInPage (isWrite : Bool) : Except Stop (Bool × Memory) :=
  match mem.map.lookup (p * pageSize) with
  | none => .ok (false, mem)
  | some e =>
    if e.prot.accessible = false then .ok (false, mem)
    else if isWrite ∧ e.prot.write = false then .ok (false, mem)
    else
      match q.supply p with
      | .refused => .ok (false, mem)
      | .exhausted => .error .killed
      | .granted =>
        let installed := mem.setPage p (newPage (initial mem.object e) e.prot)
        match e.backing with
        | .anonymous => .ok (true, installed)
        | .file _ offset =>
          if usizeBound ≤ offset then .error .offsetOverflow
          else if q.loads p then .ok (true, installed)
          else .ok (false, mem)
        | .shm _ _ => .ok (false, mem)

/-- `try_break_cow` of a resident page. -/
def tryBreakCow (page : Page) : Except Stop (Bool × Memory) :=
  if (mem.map.lookup (p * pageSize)).any (fun e => !e.prot.write) then .ok (false, mem)
  else
    match q.supply p with
    | .refused => .ok (false, mem)
    | .exhausted =>
      if page.writable then .ok (true, mem)
      else if page.cow then .error .killed
      else .ok (false, mem)
    | .granted =>
      if page.writable then .ok (true, mem)
      else if page.cow then .ok (true, mem.setPage p { page with writable := true, cow := false })
      else .ok (false, mem)

/-- `try_handle` of the fault of an access. -/
def tryHandle (isWrite : Bool) : Except Stop (Bool × Memory) :=
  match mem.page p with
  | some page => if isWrite then tryBreakCow q mem p page else .ok (false, mem)
  | none => faultInPage q mem p isWrite

/-- `access_ok` of one page. -/
def accessOk (isWrite : Bool) : Except Stop (Bool × Memory) :=
  if userVaEnd < (p + 1) * pageSize then .ok (false, mem)
  else if mem.allows p isWrite then .ok (true, mem)
  else do
    let r ← tryHandle q mem p isWrite
    return (r.1 && r.2.allows p isWrite, r.2)

/-- One turn of the copy loop of `mremap`: `copy_from_user`, then `copy_to_user`. -/
def copyPage (src dst : ℕ) (mem : Memory) : Except Stop (Bool × Memory) := do
  let r ← accessOk q mem src false
  if r.1 then
    let buf := r.2.load src
    let r ← accessOk q r.2 dst true
    if r.1 then return (true, r.2.store dst buf) else return (false, r.2)
  else return (false, r.2)

/-- The copy loop; whether every page could be copied. -/
def copyPages : ℕ → ℕ → ℕ → Memory → Except Stop (Bool × Memory)
  | _, _, 0, mem => .ok (true, mem)
  | src, dst, n + 1, mem => do
    let r ← copyPage q src dst mem
    if r.1 then copyPages (src + 1) (dst + 1) n r.2 else return (false, r.2)

/-! ### Unmapping -/

/-- `[lo, hi)` has a page whose address is not canonical. -/
def HasHole (lo hi : ℕ) : Prop := max lo userVaEnd < min hi kernelVaStart
  deriving Decidable

/-- The end of the file range that `munmap` writes back for a removed range is not a 64-bit
number. -/
def writebackOverflows (lo hi : ℕ) (v : Vma) : Bool :=
  match v.backing with
  | .file _ base => v.flags.shared && decide (max v.start lo < min v.stop hi) &&
      decide (usizeBound ≤ base + (max v.start lo - v.start) + (min v.stop hi - max v.start lo))
  | _ => false

/-- The part of `munmap` behind its checks. -/
def unmap (lo hi : ℕ) : Except Stop (Ret × Memory) :=
  if usizeBound ≤ hi then .error .addressOverflow
  else if HasHole lo hi then .error .nonCanonical
  else
    match mem.map.unmapRangeReserve lo hi with
    | .error _ => .error .offsetOverflow
    | .ok r =>
      if r.removed.any (writebackOverflows lo hi) then .error .offsetOverflow
      else .ok (.ok 0, (mem.dropPages lo hi).setMap (r.state.releaseReservation lo hi))

def munmap (addr length : ℕ) : Except Stop (Ret × Memory) :=
  if q.world.vforkBorrower then .ok (.error .nomem, mem)
  else if length = 0 ∨ addr % pageSize ≠ 0 then .ok (.error .inval, mem)
  else unmap mem addr (addr + alignUpPage length)

/-! ### Segments -/

/-- The loop of `map_shared_segment`: the number of pages it maps before it is done or fails. -/
def mapFrames (perms : Perms) (segment : ℕ) : ℕ → ℕ → ℕ → Memory → Except Stop (ℕ × Memory)
  | _, _, 0, mem => .ok (0, mem)
  | p, frame, n + 1, mem =>
    if HasHole (p * pageSize) ((p + 1) * pageSize) then .error .nonCanonical
    else if (mem.page p).isSome ∨ q.tables p = false then .ok (0, mem)
    else do
      let page := newPage (.object (.segment segment) (frame * pageSize)) perms
      let r ← mapFrames perms segment (p + 1) (frame + 1) n (mem.setPage p page)
      return (r.1 + 1, r.2)

/-- `map_shared_segment` of a range that has been reserved. -/
def mapSharedSegment (vaddr lengthAligned : ℕ) (perms : Perms)
    (segment offset : ℕ) : Except Stop (Ret × Memory) :=
  let pages := lengthAligned / pageSize
  let hi := vaddr + lengthAligned
  if offset / pageSize + pages > (q.world.segmentFrames segment).length then
    .ok (.error .inval, mem.setMap (mem.map.releaseReservation vaddr hi))
  else do
    let r ← mapFrames q perms segment (vaddr / pageSize) (offset / pageSize) pages mem
    let mem := r.2
    if r.1 < pages then
      let mem := mem.dropPages vaddr (vaddr + r.1 * pageSize)
      return (.error .nomem, mem.setMap (mem.map.releaseReservation vaddr hi))
    else
      return (.ok vaddr, mem.setMap ((mem.map.releaseReservation vaddr hi).insert
        ⟨vaddr, hi, perms, ⟨true, false, false, false, false⟩, .shm segment offset⟩))

/-! ### mremap -/

/-- The arguments of `mremap`. -/
structure Call where
  (oldAddr oldSize newSize : ℕ)
  flags : UInt64
  newAddr : ℕ
  deriving DecidableEq, Repr

namespace Call

variable (c : Call)

def oldAligned : ℕ := alignUpPage c.oldSize
def newAligned : ℕ := alignUpPage c.newSize
def fixed : Bool := c.flags &&& mremapFixed ≠ 0
def maymove : Bool := c.flags &&& mremapMaymove ≠ 0

end Call

/-- What `mremap` has decided to do: nothing, cut the end off, take the map in which the range has
grown, or move the range `v`, whose backing at the old address is `backing`, to `dest`. -/
inductive Plan
  | keep
  | shrink
  | grow (m : MmapState)
  | move (dest : ℕ) (v : Vma) (backing : VmaBacking)
  deriving DecidableEq, Repr

variable (c : Call) (dest : ℕ)

/-- The checks of a move to the address that the caller asks for. -/
def planFixed (v : Vma) (backing : VmaBacking) : Except Errno Plan :=
  if c.maymove = false ∨ c.newAddr % pageSize ≠ 0 then .error .inval
  else if userVaEnd < c.newAddr + c.newAligned then .error .inval
  else if c.newAddr < c.oldAddr + c.oldAligned ∧ c.oldAddr < c.newAddr + c.newAligned then
    .error .inval
  else if segmentHolds q.world backing c.newAligned = false then .error .inval
  else .ok (.move c.newAddr v backing)

/-- A range without a fixed new address grows in place if it can, and moves to a gap if it may. -/
def planFree (m : MmapState) (c : Call) (v : Vma) (backing : VmaBacking) :
    Except Stop (Except Errno Plan) :=
  if c.newAligned = c.oldAligned then .ok (.ok .keep)
  else if c.newAligned < c.oldAligned then .ok (.ok .shrink)
  else
    let grown := m.extendVmaEnd c.oldAddr (c.oldAddr + c.newAligned)
    if extendable c.oldAddr c.oldAligned v ∧ grown.1 then .ok (.ok (.grow grown.2))
    else if c.maymove = false then .ok (.error .nomem)
    else
      match m.findGap c.newAligned with
      | none => .ok (.error .nomem)
      | some a =>
        if usizeBound ≤ a + c.newAligned then .error .addressOverflow
        else .ok (.ok (.move a v backing))

def plan (m : MmapState) (c : Call) : Except Stop (Except Errno Plan) :=
  if q.world.vforkBorrower then .ok (.error .nomem)
  else if c.oldAddr % pageSize ≠ 0 ∨ c.newSize = 0 then .ok (.error .inval)
  else if c.oldAligned = 0 then .ok (.error .inval)
  else if userVaEnd < c.oldAddr + c.oldAligned ∨ userVaEnd < c.oldAddr + c.newAligned then
    .ok (.error .inval)
  else
    match m.findContaining c.oldAddr with
    | none => .ok (.error .fault)
    | some v =>
      if v.stop < c.oldAddr + c.oldAligned then .ok (.error .inval)
      else
        match v.backing.shift (c.oldAddr - v.start) with
        | .error _ => .error .offsetOverflow
        | .ok backing =>
          if c.fixed then .ok (planFixed q c v backing) else planFree m c v backing

/-- With a fixed new address, whatever is mapped there goes first. -/
def clearTarget (mem : Memory) : Except Stop Memory :=
  if c.fixed then do
    let r ← munmap q mem dest c.newAligned
    return r.2
  else .ok mem

/-- The end of a move: the source is unmapped if it is still the range that was found. -/
def dropSource (v : Vma) (mem : Memory) : Except Stop (Ret × Memory) :=
  if (mem.map.findContaining c.oldAddr).any
      (fun u => u.start = v.start ∧ u.stop = v.stop ∧ sameKind u.backing v.backing) then do
    let r ← munmap q mem c.oldAddr c.oldAligned
    return (.ok dest, r.2)
  else .ok (.ok dest, mem)

/-- The range is entered in the place of its reservation. -/
def enterRange (v : Vma) (backing : VmaBacking) (mem : Memory) : Memory :=
  mem.setMap ((mem.map.releaseReservation dest (dest + c.newAligned)).insert
    ⟨dest, dest + c.newAligned, v.prot, v.flags, backing⟩)

/-- The data of a private range is copied; if that fails, the new range is unmapped again. -/
def copyOver (v : Vma) (mem : Memory) : Except Stop (Ret × Memory) := do
  let r ← copyPages q (c.oldAddr / pageSize) (dest / pageSize)
    (min c.oldAligned c.newAligned / pageSize) mem
  if r.1 then dropSource q c dest v r.2
  else do
    let r ← munmap q r.2 dest c.newAligned
    return (.error .fault, r.2)

/-- The move, once the new place is reserved. -/
def moveVma (v : Vma) (backing : VmaBacking) (mem : Memory) : Except Stop (Ret × Memory) :=
  match backing with
  | .shm segment offset => do
    let r ← mapSharedSegment q mem dest c.newAligned v.prot segment offset
    match r.1 with
    | .error e => return (.error e, r.2)
    | .ok _ => dropSource q c dest v r.2
  | _ =>
    let mem := enterRange c dest v backing mem
    if v.flags.shared then dropSource q c dest v mem else copyOver q c dest v mem

def Plan.run (mem : Memory) : Plan → Except Stop (Ret × Memory)
  | keep => .ok (.ok c.oldAddr, mem)
  | shrink => do
    let r ← munmap q mem (c.oldAddr + c.newAligned) (c.oldAligned - c.newAligned)
    return (.ok c.oldAddr, r.2)
  | grow m => .ok (.ok c.oldAddr, mem.setMap m)
  | move dest v backing => do
    let mem ← clearTarget q c dest mem
    moveVma q c dest v backing (mem.setMap (mem.map.reserve dest (dest + c.newAligned)))

def mremap (mem : Memory) (c : Call) : Except Stop (Ret × Memory) :=
  match plan q mem.map c with
  | .error stop => .error stop
  | .ok (.error e) => .ok (.error e, mem)
  | .ok (.ok p) => p.run q c mem

/-! ### The model with frames -/

section Frames

variable {σ : Type} (A : FrameAllocator σ) [VmSpace.Mapper A]

/-- `Plan.run` over ranges and frames. -/
def Plan.steps (w : World) (c : Call) : Plan → CallM σ Ret
  | keep => return .ok c.oldAddr
  | shrink => do
    discard <| sysMunmap A w (c.oldAddr + c.newAligned) (c.oldAligned - c.newAligned)
    return .ok c.oldAddr
  | grow m => do
    Mm.setMap m
    return .ok c.oldAddr
  | move dest v backing => do
    if c.fixed then discard <| sysMunmap A w dest c.newAligned
    let st ← get
    Mm.setMap (st.mmap.reserve dest (dest + c.newAligned))
    match ← enterMoved A w c.oldAddr c.oldAligned dest c.newAligned v backing with
    | some e => return .error e
    | none =>
      Syscall.dropSource A w c.oldAddr c.oldAligned v
      return .ok dest

/-- `mremap` over ranges and frames, after the decision. -/
def settle (w : World) (c : Call) (d : Except Stop (Except Errno Plan)) : CallM σ Ret := do
  match d with
  | .error stop => throw stop
  | .ok (.error e) => return .error e
  | .ok (.ok p) => p.steps A w c

theorem addAddr_eq {a b : ℕ} (h : a + b < usizeBound) : (addAddr a b : CallM σ ℕ) = pure (a + b) :=
  if_pos h

theorem moveVma_eq_settle (c : Call) (v : Vma) (backing : VmaBacking) (hfixed : c.fixed = true) :
    Syscall.moveVma A q.world c.oldAddr c.oldAligned c.newAligned c.newAddr c.flags v backing =
      settle A q.world c (.ok (planFixed q c v backing)) := by
  have hflags : c.flags &&& mremapFixed ≠ 0 := of_decide_eq_true hfixed
  unfold Syscall.moveVma moveTarget planFixed
  rw [if_pos hflags]
  simp only [Call.maymove, decide_eq_false_iff_not, not_not, gt_iff_lt]
  split_ifs with _ hend
  iterate 4 rfl
  rw [addAddr_eq ((not_lt.mp hend).trans_lt (by decide))]
  simp only [settle, Plan.steps, hfixed, if_true, bind_assoc, pure_bind] <;> rfl

theorem get_bind_apply {α : Type} (f : Caller σ → CallM σ α) (st : Caller σ) :
    ((get : CallM σ (Caller σ)) >>= f) st = f st st := rfl

theorem growVma_eq_settle (c : Call) (v : Vma) (backing : VmaBacking) (hfixed : c.fixed = false)
    (hgrows : c.oldAligned < c.newAligned) (st : Caller σ) :
    growVma A q.world c.oldAddr c.oldAligned c.newAligned c.newAddr c.flags v backing st =
      settle A q.world c (planFree st.mmap c v backing) st := by
  have hflags : ¬ c.flags &&& mremapFixed ≠ 0 := of_decide_eq_false hfixed
  rw [planFree, if_neg hgrows.ne', if_neg hgrows.not_gt]
  change (if extendable c.oldAddr c.oldAligned v = true ∧
    (st.mmap.extendVmaEnd c.oldAddr (c.oldAddr + c.newAligned)).1 = true then _ else _ :
      CallM σ Ret) st = _
  simp only [Call.maymove, decide_eq_false_iff_not, not_not]
  split_ifs with hgrown hmove
  · rfl
  · rfl
  unfold Syscall.moveVma moveTarget
  rw [if_neg hflags]
  cases hgap : st.mmap.findGap c.newAligned with
  | none => simp [settle, get_bind_apply, hgap]
  | some a =>
    by_cases hov : a + c.newAligned < usizeBound
    · simp [settle, get_bind_apply, hgap, addAddr, hov, Plan.steps, hfixed, not_le.mpr hov] <;> rfl
    · simp [settle, get_bind_apply, hgap, addAddr, hov, not_lt.mp hov]
      rfl

/-- `Syscall.sysMremap` decides as `mremap` does, by `plan`: the two models differ only in what they
follow of the steps after it, frames or bytes. -/
theorem sysMremap_eq_settle (c : Call) (st : Caller σ) :
    sysMremap A q.world c.oldAddr c.oldSize c.newSize c.flags c.newAddr st =
      settle A q.world c (plan q st.mmap c) st := by
  unfold sysMremap plan
  change (if q.world.vforkBorrower = true then _ else if _ then _ else if c.oldAligned = 0 then _
    else if userVaEnd < c.oldAddr + c.oldAligned ∨ userVaEnd < c.oldAddr + c.newAligned then _
    else _ : CallM σ Ret) st = _
  iterate 4
    split
    · rfl
  rename_i hbound
  change ((get : CallM σ (Caller σ)) >>= _) st = _
  rw [get_bind_apply]
  cases hv : st.mmap.findContaining c.oldAddr with
  | none => rfl
  | some v =>
    change (if v.stop < c.oldAddr + c.oldAligned then _ else _ : CallM σ Ret) st = _
    dsimp only
    split
    · rfl
    cases hshift : v.backing.shift (c.oldAddr - v.start) with
    | error e => rfl
    | ok backing =>
      change (if c.flags &&& mremapFixed ≠ 0 then
          Syscall.moveVma A q.world c.oldAddr c.oldAligned c.newAligned c.newAddr c.flags v backing
        else if c.newAligned = c.oldAligned then _
        else if c.newAligned < c.oldAligned then addAddr c.oldAddr c.newAligned >>= _
        else growVma A q.world c.oldAddr c.oldAligned c.newAligned c.newAddr c.flags v backing :
          CallM σ Ret) st = _
      cases hfixed : c.fixed with
      | true =>
        rw [if_pos (of_decide_eq_true hfixed)]
        exact congrFun (moveVma_eq_settle q A c v backing hfixed) st
      | false =>
        rw [if_neg (of_decide_eq_false hfixed)]
        change _ = settle A q.world c (planFree st.mmap c v backing) st
        split_ifs with hsame hshrinks
        · rw [planFree, if_pos hsame]
          rfl
        · have hlt : c.oldAddr + c.newAligned < usizeBound :=
            (not_lt.mp (not_or.mp hbound).2).trans_lt (by decide)
          rw [planFree, if_neg hsame, if_pos hshrinks, addAddr_eq hlt]
          rfl
        · exact growVma_eq_settle q A c v backing hfixed (by omega) st

end Frames

end CypheraKernel.Remap
