import CypheraKernel.Errno
import CypheraKernel.Fs.PageCache

/-!
# Regular files of tmpfs

`kernel/src/fs/tmpfs.rs`: a file is a sparse map from page numbers to frames with a length.

`TmpfsInode.Room`: the writes that do not overflow, which are those that return
(`returns_writeAt_iff`).  The others pass the last 64-bit offset, and frames are left for all
pages on the way.

Time stamps are left out, and so are FIFOs, whose bytes are in a pipe.
-/

namespace CypheraKernel.Fs

open Rust Bytes List Frames

structure PagedFile where
  pages : SortedMap ℕ ℕ
  len : UInt64

namespace PagedFile

variable (f : PagedFile) (frames : Frames)

/-- The bytes of a page; a page without a frame is zero. -/
def readPage (page inPage take : ℕ) : Except Panic (List UInt8) :=
  match f.pages.get? page with
  | some frame => frames.read frame inPage take
  | none => .ok (replicate take 0)

/-- The loop of `read_into`: `n` bytes from `offset` on, of which `done` have been read. -/
def readPages (f : PagedFile) (frames : Frames) (offset n done : ℕ) : Except Panic (List UInt8) :=
  if done < n then do
    let pos ← usizeAdd offset done
    let take := min (4096 - pos % 4096) (n - done)
    let part ← f.readPage frames (pos / 4096) (pos % 4096) take
    let rest ← readPages f frames offset n (done + take)
    return part ++ rest
  else .ok []
termination_by n - done

def readInto (offset n : ℕ) : Except Panic (List UInt8) :=
  if f.len.toNat ≤ offset then .ok []
  else f.readPages frames offset (min (f.len.toNat - offset) n) 0

/-- The frame of a page that is about to be written; a new one is cleared unless all of it is
written. -/
def frameFor (page inPage take : ℕ) : Option (ℕ × PagedFile × Frames) :=
  match f.pages.get? page with
  | some frame => some (frame, f, frames)
  | none =>
    match frames.alloc with
    | none => none
    | some (frame, frames) =>
      some (frame, { f with pages := f.pages.insert page frame },
        if inPage ≠ 0 ∨ take ≠ 4096 then frames.zero frame else frames)

/-- The loop of `write_from`, `done` bytes having been written; it ends early without a frame. -/
def writePages (f : PagedFile) (frames : Frames) (offset : ℕ) (buf : List UInt8) (done : ℕ) :
    Except Panic (ℕ × PagedFile × Frames) :=
  if done < buf.length then do
    let pos ← usizeAdd offset done
    let take := min (4096 - pos % 4096) (buf.length - done)
    match f.frameFor frames (pos / 4096) (pos % 4096) take with
    | none => return (done, f, frames)
    | some (frame, f, frames) =>
      let part ← slice buf done (done + take)
      let frames ← frames.write frame (pos % 4096) part
      writePages f frames offset buf (done + take)
  else .ok (done, f, frames)
termination_by buf.length - done

def writeFrom (offset : ℕ) (buf : List UInt8) : Except Panic (ℕ × PagedFile × Frames) := do
  let (done, f, frames) ← f.writePages frames offset buf 0
  let stop := saturatingAddU64 offset done
  return (done, if f.len.toNat < stop then { f with len := .ofNat stop } else f, frames)

/-- Clear what lies behind the new end in the last page. -/
def clearTail (newLen : ℕ) : Except Panic Frames :=
  if newLen % 4096 ≠ 0 then
    match f.pages.get? (newLen / 4096) with
    | some frame =>
      frames.write frame (newLen % 4096) (replicate (4096 - newLen % 4096) 0)
    | none => .ok frames
  else .ok frames

def resize (newLen : UInt64) : Except Panic (PagedFile × Frames) :=
  if newLen < f.len then do
    let firstDrop := (newLen.toNat + 4095) / 4096
    let frames := (f.pages.dropBelow firstDrop).entries.foldl (fun fr e => fr.release e.2) frames
    let f : PagedFile := { f with pages := f.pages.takeBelow firstDrop }
    let frames ← f.clearTail frames newLen.toNat
    return ({ f with len := newLen }, frames)
  else .ok ({ f with len := newLen }, frames)

end PagedFile

/-- The content of an inode. -/
inductive TmpfsData
  | regular (file : PagedFile)
  | directory
  | symlink (target : List UInt8)
  | charDevice

/-- The seals of a memory file. -/
structure Seals where
  (shrink grow write futureWrite : Bool)
  deriving DecidableEq, Repr

structure TmpfsInode where
  id : ℕ
  data : TmpfsData
  seals : Seals

namespace TmpfsInode

variable (i : TmpfsInode)

/-- The size in `stat`. -/
def size : UInt64 :=
  match i.data with
  | .regular file => file.len
  | .directory => 0
  | .symlink target => .ofNat target.length
  | .charDevice => 0

def readAt (s : Store) (offset n : ℕ) : Except Panic (Except Errno (List UInt8)) :=
  match i.data with
  | .regular file => do
    let bytes ← file.readInto s.frames offset n
    return .ok bytes
  | .symlink _ => .ok (.error .inval)
  | .directory => .ok (.error .isdir)
  | .charDevice => .ok (.error .nosys)

/-- `write_at` on a regular file that is not sealed against the write. -/
def writeFile (file : PagedFile) (s : Store) (offset : ℕ) (buf : List UInt8) :
    Except Panic (Except Errno ℕ × TmpfsInode × Store) := do
  let (written, file, frames) ← file.writeFrom s.frames offset buf
  if written = 0 ∧ buf ≠ [] then
    return (.error .nospc, { i with data := .regular file }, { s with frames := frames })
  else
    let part ← slice buf 0 written
    let s ← ({ s with frames := frames } : Store).writeThrough i.id offset part
    return (.ok written, { i with data := .regular file }, s)

def writeAt (s : Store) (offset : ℕ) (buf : List UInt8) :
    Except Panic (Except Errno ℕ × TmpfsInode × Store) :=
  if i.seals.write || i.seals.futureWrite then .ok (.error .perm, i, s)
  else
    match i.data with
    | .regular file =>
      if i.seals.grow ∧ file.len.toNat < saturatingAddU64 offset buf.length then
        .ok (.error .perm, i, s)
      else i.writeFile file s offset buf
    | .symlink _ | .directory | .charDevice => .ok (.error .isdir, i, s)

def truncate (s : Store) (len : UInt64) : Except Panic (Except Errno Unit × TmpfsInode × Store) :=
  match i.data with
  | .regular file =>
    if len < file.len ∧ i.seals.shrink then .ok (.error .perm, i, s)
    else if file.len < len ∧ i.seals.grow then .ok (.error .perm, i, s)
    else do
      let (resized, frames) ← file.resize s.frames len
      let i : TmpfsInode := { i with data := .regular resized }
      let s : Store := { s with frames := frames }
      if len < file.len then return (.ok (), i, s.invalidateRange i.id len.toNat (usizeBound - 1))
      else return (.ok (), i, s)
  | .symlink _ | .directory | .charDevice => .ok (.error .isdir, i, s)

end TmpfsInode

/-! ### What the loops over pages return -/

namespace PagedFile

variable {f : PagedFile} {frames : Frames} {offset n done : ℕ} {buf : List UInt8}

/-- The bytes in the pages; what has no page is zero. -/
def data (f : PagedFile) (frames : Frames) : Memory := fun i =>
  match f.pages.get? (i / 4096) with
  | some frame => frames.bytes frame (i % 4096)
  | none => 0

theorem returns_readPage_data {pos take : ℕ} (h : pos % 4096 + take ≤ 4096) :
    Returns (f.readPage frames (pos / 4096) (pos % 4096) take)
      (· = Bytes.read (f.data frames) pos take) := by
  have hpage (i : ℕ) (hi : i < take) :
      (pos + i) / 4096 = pos / 4096 ∧ (pos + i) % 4096 = pos % 4096 + i := by omega
  rw [readPage]
  split
  · next frame hget =>
    refine (returns_read h).mono fun bytes hbytes => hbytes.trans (read_congr fun i hi => ?_)
    simp [data, hpage i hi, hget]
  · next hget =>
    refine .ok (ext_getElem (by simp) fun i hi _ => ?_)
    rw [length_replicate] at hi
    simp [Bytes.read, data, hpage i hi, hget]

theorem returns_readPages_data (h : offset + n < usizeBound) (hdone : done ≤ n) :
    Returns (f.readPages frames offset n done)
      (· = Bytes.read (f.data frames) (offset + done) (n - done)) := by
  fun_induction readPages f frames offset n done with
  | case1 done hlt ih =>
    refine (returns_usizeAdd (by omega)).bind ?_
    rintro pos rfl
    refine (returns_readPage_data (by omega)).bind ?_
    rintro part rfl
    refine (ih (offset + done) (by omega)).bind ?_
    rintro rest rfl
    refine .ok ?_
    rw [← add_assoc, ← read_add]
    congr 1
    omega
  | case2 done hlt =>
    obtain rfl : done = n := by omega
    exact .ok (by simp [Bytes.read])

/-- **Reading returns** at every offset. -/
theorem returns_readInto : Returns (f.readInto frames offset n) fun _ => True := by
  have hlen : f.len.toNat < usizeBound := f.len.toNat_lt
  rw [readInto]
  split_ifs with hend
  · exact .ok trivial
  · exact (returns_readPages_data (by omega) (Nat.zero_le _)).mono fun _ _ => trivial

theorem returns_writePages (h : offset + buf.length ≤ usizeBound) (hdone : done ≤ buf.length) :
    Returns (f.writePages frames offset buf done) fun r => r.1 ≤ buf.length := by
  fun_induction writePages f frames offset buf done with
  | case1 f frames done hlt ih =>
    refine (returns_usizeAdd (by omega)).bind fun pos _ => ?_
    dsimp only
    rcases hframe : f.frameFor frames (pos / 4096) (pos % 4096)
      (min (4096 - pos % 4096) (buf.length - done)) with _ | ⟨frame, f', frames'⟩
    · exact .ok hdone
    · refine (returns_slice (by omega) (by omega)).bind fun part hpart => ?_
      refine (returns_write (by omega)).bind fun frames'' _ => ?_
      exact ih pos f' frames'' (by omega)
  | case2 f frames done hlt => exact .ok hdone

/-! ### Overflow -/

/-- The number of pages of a 64-bit address space of bytes. -/
def pageBound : ℕ := 2 ^ 52

/-- The pages from a given one on that have no frame. -/
def missing (f : PagedFile) (page : ℕ) : Finset ℕ :=
  (Finset.Ico page pageBound).filter fun q => f.pages.get? q = none

theorem card_missing_of_get? {page frame : ℕ} (h : f.pages.get? page = some frame) :
    (f.missing page).card = (f.missing (page + 1)).card := by
  congr 1
  grind [missing]

theorem card_missing_of_none {page : ℕ} (hpage : page < pageBound) (h : f.pages.get? page = none) :
    (f.missing page).card = (f.missing (page + 1)).card + 1 := by
  rw [← Finset.card_insert_of_notMem (a := page) (s := f.missing (page + 1))
    (by simp [missing])]
  congr 1
  grind [missing]

theorem missing_insert (f : PagedFile) (page frame : ℕ) :
    ({ f with pages := f.pages.insert page frame } : PagedFile).missing (page + 1) =
      f.missing (page + 1) := by
  refine Finset.filter_congr fun q hq => ?_
  grind [SortedMap.get?_insert_of_ne]

/-- A frame is found unless the page has none and no frame is free; then there is one page less to
find a frame for. -/
theorem frameFor_cases {page : ℕ} (hpage : page < pageBound) (inPage take : ℕ) :
    (f.frameFor frames page inPage take = none ∧ frames.free = [] ∧ 0 < (f.missing page).card) ∨
    ∃ frame f' frames', f.frameFor frames page inPage take = some (frame, f', frames') ∧
      (f'.missing (page + 1)).card + frames.free.length =
        (f.missing page).card + frames'.free.length := by
  cases hget : f.pages.get? page with
  | some frame =>
    refine .inr ⟨frame, f, frames, by simp [frameFor, hget], ?_⟩
    rw [card_missing_of_get? hget]
  | none =>
    have hcard := card_missing_of_none hpage hget
    cases hfree : frames.free with
    | nil => exact .inl ⟨by simp [frameFor, hget, alloc, hfree], rfl, by omega⟩
    | cons frame rest =>
      refine .inr ⟨frame, _, _, by simp only [frameFor, hget, alloc, hfree]; rfl, ?_⟩
      rw [missing_insert, hcard]
      split_ifs <;> simp [zero] <;> omega

section

variable {P : ℕ × PagedFile × Frames → Prop} (hP : ∀ r, r.1 ≤ buf.length → P r)

include hP

/-- **A write that passes the last offset** overflows there, unless it runs out of frames before. -/
theorem returns_writePages_iff (hcross : usizeBound < offset + buf.length)
    (hpos : offset + done ≤ usizeBound) :
    Returns (f.writePages frames offset buf done) P ↔
      frames.free.length < (f.missing ((offset + done) / 4096)).card := by
  fun_induction writePages f frames offset buf done with
  | case1 f frames done hlt ih =>
    rcases eq_or_lt_of_le hpos with hend | hpos
    · have hover : usizeAdd offset done = .error .addOverflow := if_neg (by omega)
      have hnone : (f.missing ((offset + done) / 4096)).card = 0 := by
        simp_all [missing, usizeBound, pageBound]
      rw [hover, hnone]
      exact ⟨fun h => absurd h not_returns_error, fun h => absurd h (Nat.not_lt_zero _)⟩
    rw [usizeAdd_eq hpos, ok_bind]
    have hpage : (offset + done) / 4096 < pageBound := by
      simp only [usizeBound, pageBound] at *
      omega
    -- the write goes on behind the page, so all the rest of the page is written
    dsimp only
    rcases frameFor_cases hpage ((offset + done) % 4096)
      (min (4096 - (offset + done) % 4096) (buf.length - done)) with
      ⟨hnone, hfree, hcard⟩ | ⟨frame, f', frames', hsome, hcard⟩
    · rw [hnone, hfree]
      exact ⟨fun _ => hcard, fun _ => .ok (hP _ (le_of_lt hlt))⟩
    · grind [Returns, returns_slice, returns_write, ok_bind, usizeBound]
  | case2 f frames done hlt => omega

theorem returns_writeFrom_iff (ho : offset < usizeBound) :
    Returns (f.writeFrom frames offset buf) P ↔ offset + buf.length ≤ usizeBound ∨
      frames.free.length < (f.missing (offset / 4096)).card := by
  refine returns_bind_iff (Q := (·.1 ≤ buf.length)) (fun P hP => ?_) fun r hr => .ok (hP _ hr)
  by_cases hcross : usizeBound < offset + buf.length
  · rw [returns_writePages_iff hP hcross (le_of_lt ho), or_iff_right (not_le.2 hcross)]
    rfl
  · have hle := not_lt.1 hcross
    exact iff_of_true ((returns_writePages hle (Nat.zero_le _)).mono hP) (.inl hle)

end

theorem returns_clearTail {newLen : ℕ} : Returns (f.clearTail frames newLen) fun _ => True := by
  rw [clearTail]
  split_ifs with htail
  · split
    · exact (returns_write (by rw [length_replicate]; omega)).mono fun _ _ => trivial
    · exact .ok trivial
  · exact .ok trivial

theorem returns_resize {newLen : UInt64} : Returns (f.resize frames newLen) fun _ => True := by
  rw [resize]
  split_ifs with hlt
  · exact returns_clearTail.bind fun _ _ => ⟨_, rfl, trivial⟩
  · exact .ok trivial

end PagedFile

namespace TmpfsInode

variable {i : TmpfsInode} {s : Store} {offset n : ℕ} {buf : List UInt8}

theorem returns_readAt : Returns (i.readAt s offset n) fun _ => True := by
  rw [readAt]
  split
  · exact PagedFile.returns_readInto.bind fun _ _ => .ok trivial
  all_goals exact .ok trivial

/-- The writes of `n` bytes that do not overflow: they are refused, or end at or below the last
offset, or run out of frames on the way there. -/
def Room (i : TmpfsInode) (s : Store) (offset n : ℕ) : Prop :=
  (i.seals.write || i.seals.futureWrite) = true ∨
    match i.data with
    | .regular file =>
      (i.seals.grow ∧ file.len.toNat < saturatingAddU64 offset n) ∨
        offset + n ≤ usizeBound ∨ s.frames.free.length < (file.missing (offset / 4096)).card
    | .symlink _ | .directory | .charDevice => True

section

variable {P : Except Errno ℕ × TmpfsInode × Store → Prop} (hP : ∀ r, r.2.2.Fits → P r)

include hP

theorem returns_writeFile_iff {file : PagedFile} (hs : s.Fits) (ho : offset < usizeBound) :
    Returns (i.writeFile file s offset buf) P ↔
      offset + buf.length ≤ usizeBound ∨
        s.frames.free.length < (file.missing (offset / 4096)).card := by
  refine returns_bind_iff (fun _ hP => PagedFile.returns_writeFrom_iff hP ho) ?_
  rintro ⟨written, file', frames'⟩ hle
  have hs' : Store.Fits { s with frames := frames' } := hs
  dsimp only
  split_ifs with hnone
  · exact .ok (hP _ hs)
  · refine (returns_slice (Nat.zero_le _) hle).bind fun part _ => ?_
    exact (hs'.writeThrough ho).bind fun s'' hs'' => .ok (hP _ hs'')

/-- **A write to tmpfs returns** exactly where it has room. -/
theorem returns_writeAt_iff (hs : s.Fits) (ho : offset < usizeBound) :
    Returns (i.writeAt s offset buf) P ↔ i.Room s offset buf.length := by
  rw [writeAt, Room]
  by_cases hsealed : (i.seals.write || i.seals.futureWrite) = true
  · rw [if_pos hsealed]
    exact ⟨fun _ => .inl hsealed, fun _ => .ok (hP _ hs)⟩
  rw [if_neg hsealed, or_iff_right hsealed]
  cases i.data with
  | regular file =>
    dsimp only
    by_cases hgrow : i.seals.grow = true ∧ file.len.toNat < saturatingAddU64 offset buf.length
    · rw [if_pos hgrow]
      exact ⟨fun _ => .inl hgrow, fun _ => .ok (hP _ hs)⟩
    · simp_all [if_neg, returns_writeFile_iff]
  | symlink | directory | charDevice => exact ⟨fun _ => trivial, fun _ => .ok (hP _ hs)⟩

end

theorem returns_truncate (hs : s.Fits) {len : UInt64} :
    Returns (i.truncate s len) fun r => r.2.2.Fits := by
  rw [truncate]
  split
  · split_ifs
    · exact .ok hs
    · exact .ok hs
    · refine PagedFile.returns_resize.bind fun r _ => .ok ?_
      have hs' : Store.Fits { s with frames := r.2 } := hs
      exact hs'.invalidateRange _ _ _
    · exact PagedFile.returns_resize.bind fun r _ => .ok hs
  all_goals exact .ok hs

end TmpfsInode

end CypheraKernel.Fs
