import CypheraKernel.Lib.Rust
import CypheraKernel.Mm.Perms

/-!
# The memory map of a process

`MmapState` of `kernel/src/process_model/memory_map.rs`: a list of mapped ranges (VMAs), kept sorted
by start address, with the arena in which new ranges are placed.

`unmapRange`, `protectRange`, `lockRange`: the operations on an address range.  `protectRange` and
`lockRange` are the same loop (`splitRange`) with another change to the middle piece.

Inodes and shared-memory segments are identified by numbers.  Cutting a range of a segment raises
the attach count of that segment; the operations return these increments (`attach`).
-/

namespace CypheraKernel.Mm

open Rust

/-- The flags of a range. -/
structure VmaFlags where
  (shared anon growsdown locked reserved : Bool)
  deriving DecidableEq, Repr

/-- What backs a range. -/
inductive VmaBacking
  | anonymous
  | file (inode : ℕ) (fileOffsetBase : ℕ)
  | shm (segment : ℕ) (offset : ℕ)
  deriving DecidableEq, Repr

/-- A mapped range `[start, stop)`. -/
structure Vma where
  (start stop : ℕ)
  prot : Perms
  flags : VmaFlags
  backing : VmaBacking
  deriving DecidableEq, Repr

/-- The memory map of a process. -/
structure MmapState where
  vmas : List Vma
  (lastEnd arenaLo arenaHi : ℕ)
  generation : UInt64
  mlockallFlags : UInt32
  deriving DecidableEq, Repr

def mmapHintBase : ℕ := 0x8000000000
def mmapPerPidStride : ℕ := 4 * 1024 * 1024 * 1024

/-- `shift_backing`. -/
def VmaBacking.shift (b : VmaBacking) (delta : ℕ) : Except Panic VmaBacking :=
  match b with
  | anonymous => .ok .anonymous
  | shm segment offset => do return .shm segment (← usizeAdd offset delta)
  | file inode base => do return .file inode (← usizeAdd base delta)

/-- The increment of a segment's attach count, none for other backings or for `n = 0`. -/
def VmaBacking.attach (b : VmaBacking) (n : ℕ) : List (ℕ × ℕ) :=
  match b with
  | shm segment _ => if n = 0 then [] else [(segment, n)]
  | _ => []

namespace MmapState

def forPid (pid : ℕ) : MmapState where
  vmas := []
  lastEnd := mmapHintBase + (pid - 1) * mmapPerPidStride
  arenaLo := mmapHintBase + (pid - 1) * mmapPerPidStride
  arenaHi := mmapHintBase + (pid - 1) * mmapPerPidStride + mmapPerPidStride
  generation := 0
  mlockallFlags := 0

variable (s : MmapState) (lo : ℕ)

def bumpGeneration : MmapState := { s with generation := s.generation + 1 }

def bumpLastEnd (newEnd : ℕ) : MmapState :=
  if newEnd > s.lastEnd then { s with lastEnd := newEnd } else s

def findContaining (addr : ℕ) : Option Vma :=
  s.vmas.find? fun v => v.start ≤ addr ∧ addr < v.stop

def overlaps (hi : ℕ) : Bool := s.vmas.any fun v => v.start < hi ∧ v.stop > lo

/-- The place that `binary_search_by_key` finds for a start address in a sorted list. -/
def insertAt (vma : Vma) (vmas : List Vma) : List Vma :=
  vmas.takeWhile (fun v => v.start < vma.start) ++
    vma :: vmas.dropWhile (fun v => v.start < vma.start)

def insert (vma : Vma) : MmapState :=
  ({ s with lastEnd := vma.stop, vmas := insertAt vma s.vmas }).bumpGeneration

/-- The placeholder that `reserve` puts over a range. -/
def reservation (hi : ℕ) : Vma where
  start := lo
  stop := hi
  prot := ⟨false, false, false, true⟩
  flags := ⟨false, false, false, false, true⟩
  backing := .anonymous

def reserve (hi : ℕ) : MmapState :=
  (({ s with vmas := insertAt (reservation lo hi) s.vmas }).bumpLastEnd hi).bumpGeneration

def releaseReservation (hi : ℕ) : MmapState :=
  ({ s with vmas := s.vmas.filter fun v =>
      ¬ (v.start = lo ∧ v.stop = hi ∧ v.flags.reserved) }).bumpGeneration

/-- The sweep of `find_gap`: the first free place of the given length behind `prevEnd`. -/
def tryFind (hi length : ℕ) : List Vma → ℕ → Option ℕ
  | [], prevEnd => if saturatingAddU64 prevEnd length ≤ hi then some prevEnd else none
  | v :: vs, prevEnd =>
    if v.stop ≤ prevEnd then tryFind hi length vs prevEnd
    else if v.start ≥ saturatingAddU64 prevEnd length then some prevEnd
    else tryFind hi length vs (max prevEnd v.stop)

def findGap (length : ℕ) : Option ℕ :=
  match tryFind s.arenaHi length s.vmas (max s.lastEnd s.arenaLo) with
  | some a => some a
  | none => tryFind s.arenaHi length s.vmas s.arenaLo

/-- Apply `f` to the first range that begins at `start`. -/
def modifyAt (start : ℕ) (f : Vma → Vma) : List Vma → List Vma
  | [] => []
  | v :: vs => if v.start = start then f v :: vs else v :: modifyAt start f vs

def extendVmaEnd (start newEnd : ℕ) : Bool × MmapState :=
  match s.vmas.find? fun v => v.start = start with
  | none => (false, s)
  | some v =>
    if newEnd ≤ v.stop ∨ newEnd > s.arenaHi then (false, s)
    else if s.overlaps v.stop newEnd then (false, s)
    else (true, (({ s with
      vmas := modifyAt start (fun v => { v with stop := newEnd }) s.vmas }).bumpLastEnd
        newEnd).bumpGeneration)

/-- The final `sort_by_key`, a stable sort. -/
def sortByStart (vmas : List Vma) : List Vma := vmas.mergeSort fun v w => v.start ≤ w.start

/-! ### Unmapping -/

/-- What `unmap_range` makes of one range. -/
structure Cut where
  (kept removed : List Vma)
  attach : List (ℕ × ℕ)
  deriving DecidableEq, Repr

/-- One turn of the loop of `unmap_range`: the range is outside `[lo, hi)`, inside it, or cut in the
middle, at `lo`, or at `hi`. -/
def cutVma (hi : ℕ) (v : Vma) : Except Panic Cut :=
  if v.stop ≤ lo ∨ v.start ≥ hi then .ok ⟨[v], [], []⟩
  else if v.start ≥ lo ∧ v.stop ≤ hi then .ok ⟨[], [v], []⟩
  else if v.start < lo ∧ v.stop > hi then do
    let mid ← v.backing.shift (lo - v.start)
    let right ← v.backing.shift (hi - v.start)
    return ⟨[{ v with stop := lo }, { v with start := hi, backing := right }],
      [{ v with start := lo, stop := hi, backing := mid }], v.backing.attach 2⟩
  else if v.start < lo then do
    let drop ← v.backing.shift (lo - v.start)
    return ⟨[{ v with stop := lo }], [{ v with start := lo, backing := drop }], v.backing.attach 1⟩
  else do
    let kept ← v.backing.shift (hi - v.start)
    return ⟨[{ v with start := hi, backing := kept }], [{ v with stop := hi }], v.backing.attach 1⟩

/-- What `unmap_range` returns. -/
structure UnmapResult where
  state : MmapState
  removed : List Vma
  attach : List (ℕ × ℕ)
  deriving DecidableEq, Repr

def unmapRange (hi : ℕ) : Except Panic UnmapResult := do
  let cuts ← s.vmas.mapM (cutVma lo hi)
  return ⟨({ s with vmas := sortByStart (cuts.flatMap Cut.kept) }).bumpGeneration,
    cuts.flatMap Cut.removed, cuts.flatMap Cut.attach⟩

def unmapRangeReserve (hi : ℕ) : Except Panic UnmapResult := do
  let r ← s.unmapRange lo hi
  return { r with state := r.state.reserve lo hi }

/-! ### Changing the middle piece -/

/-- One turn of the loops of `protect_range` and `lock_range` on a range that meets `[lo, hi)`:
the pieces before, inside and behind it, the inner one changed by `f`. -/
def splitVma (hi : ℕ) (f : Vma → Vma) (v : Vma) : Except Panic (List Vma × List (ℕ × ℕ)) := do
  let midLo := max v.start lo
  let midHi := min v.stop hi
  let attach := v.backing.attach
    ((if v.start < midLo then 1 else 0) + (if midHi < v.stop then 1 else 0))
  let left := if v.start < midLo then [{ v with stop := midLo }] else []
  let mid ← v.backing.shift (midLo - v.start)
  let middle := f { v with start := midLo, stop := midHi, backing := mid }
  if midHi < v.stop then
    let right ← v.backing.shift (midHi - v.start)
    return (left ++ [middle, { v with start := midHi, backing := right }], attach)
  else return (left ++ [middle], attach)

/-- What `splitVmas` returns. -/
structure SplitResult where
  vmas : List Vma
  (gaps attach : List (ℕ × ℕ))
  deriving DecidableEq, Repr

/-- The loop of `protect_range` and `lock_range`; `coveredTo` is how far `[lo, hi)` is known to be
mapped or listed as a gap. -/
def splitVmas (lo hi : ℕ) (f : Vma → Vma) : List Vma → ℕ → Except Panic SplitResult
  | [], coveredTo => .ok ⟨[], if coveredTo < hi then [(coveredTo, hi)] else [], []⟩
  | v :: vs, coveredTo =>
    if v.stop ≤ lo ∨ v.start ≥ hi then do
      let r ← splitVmas lo hi f vs coveredTo
      return { r with vmas := v :: r.vmas }
    else do
      let (pieces, attach) ← splitVma lo hi f v
      let r ← splitVmas lo hi f vs (max coveredTo (min v.stop hi))
      return ⟨pieces ++ r.vmas,
        (if v.start > coveredTo then [(coveredTo, v.start)] else []) ++ r.gaps, attach ++ r.attach⟩

structure RangeResult where
  state : MmapState
  (gaps attach : List (ℕ × ℕ))
  deriving DecidableEq, Repr

def splitRange (hi : ℕ) (f : Vma → Vma) : Except Panic RangeResult := do
  let r ← splitVmas lo hi f s.vmas lo
  return ⟨({ s with vmas := sortByStart r.vmas }).bumpGeneration, r.gaps, r.attach⟩

def protectRange (hi : ℕ) (newProt : Perms) : Except Panic RangeResult :=
  s.splitRange lo hi fun v => { v with prot := newProt }

def lockRange (hi : ℕ) (set : Bool) : Except Panic RangeResult :=
  s.splitRange lo hi fun v => { v with flags := { v.flags with locked := set } }

end MmapState

end CypheraKernel.Mm
