import CypheraKernel.Fs.Ext4
import CypheraKernel.Fs.Tmpfs

/-!
# Open files and their offsets

`OpenFile::seek` of `kernel/src/vfs/mod.rs` and the calls of `kernel/src/syscall/fs/file_io.rs` that
take a file offset, over a file of tmpfs or ext4.

`Call.InRange`: the calls whose offsets stay in range.  These are exactly the correct ones
(`correct_iff_inRange`).

The descriptor has been looked up; `fsnotify` is left out.
-/

namespace CypheraKernel.Vfs

open Rust Bytes Fs

/-- The memory of a process. -/
structure UserMemory where
  bytes : Memory
  (readable writable : ℕ → Bool)

def UserMemory.copyFromUser (u : UserMemory) (addr n : ℕ) : Option (List UInt8) :=
  if (List.range n).all fun i => u.readable (addr + i) then some (Bytes.read u.bytes addr n)
  else none

def UserMemory.copyToUser (u : UserMemory) (addr : ℕ) (data : List UInt8) : Option UserMemory :=
  if (List.range data.length).all fun i => u.writable (addr + i) then
    some { u with bytes := Bytes.write u.bytes addr data }
  else none

/-- The inode behind an open file; one of ext4 comes with the device it is on. -/
inductive Inode (σ : Type)
  | tmpfs (inode : TmpfsInode)
  | ext4 (id : ℕ) (device : σ)

/-- An open file description. -/
structure OpenFile (σ : Type) where
  inode : Inode σ
  offset : UInt64
  (readable writable rdonlyMount : Bool)

/-- What the calls act on. -/
structure World (σ : Type) where
  file : OpenFile σ
  store : Store
  user : UserMemory

variable {σ ρ : Type} (fs : BlockLayer σ ρ)

namespace Inode

def size : Inode σ → UInt64
  | tmpfs i => i.size
  | ext4 _ device => fs.size device

def readAt (i : Inode σ) (store : Store) (offset n : ℕ) :
    Except Panic (Except Errno (List UInt8) × Store) :=
  match i with
  | tmpfs i => do
    let r ← i.readAt store offset n
    return (r, store)
  | ext4 id device => fs.readAt id device store offset n

def writeAt (i : Inode σ) (store : Store) (offset : ℕ) (buf : List UInt8) :
    Except Panic (Except Errno ℕ × Inode σ × Store) :=
  match i with
  | tmpfs i => do
    let (r, i, store) ← i.writeAt store offset buf
    return (r, tmpfs i, store)
  | ext4 id device => do
    let (r, device, store) ← fs.writeAt id device store offset buf
    return (r, ext4 id device, store)

def truncate (i : Inode σ) (store : Store) (len : UInt64) :
    Except Panic (Except Errno Unit × Inode σ × Store) :=
  match i with
  | tmpfs i => do
    let (r, i, store) ← i.truncate store len
    return (r, tmpfs i, store)
  | ext4 id device =>
    let (r, device, store) := fs.truncate id device store len
    .ok (r, ext4 id device, store)

end Inode

/-! ### Seeking -/

/-- The origin of `lseek`. -/
inductive Whence
  | set
  | cur
  | stop
  deriving DecidableEq, Repr

/-- `x as i64`. -/
def asI64 (x : UInt64) : ℤ := x.toBitVec.toInt

/-- `v.max(0) as u64`. -/
def clamp (v : ℤ) : UInt64 := .ofNat v.toNat

/-- `OpenFile::seek`. -/
def OpenFile.seek (f : OpenFile σ) (whence : Whence) (pos : ℤ) :
    Except Panic (UInt64 × OpenFile σ) := do
  let new ← match whence with
    | .set => Except.ok (clamp pos)
    | .cur => (i64Add (asI64 f.offset) pos).map clamp
    | .stop => (i64Add (asI64 (f.inode.size fs)) pos).map clamp
  return (new, { f with offset := new })

def whence? (w : UInt64) : Option Whence :=
  if w = 0 then some .set else if w = 1 then some .cur else if w = 2 then some .stop else none

variable (w : World σ)

def sysLseek (offset whence : UInt64) : Except Panic (ℤ × World σ) :=
  match whence? whence with
  | none => .ok (einval, w)
  | some from_ => do
    let (new, file) ← w.file.seek fs from_ (asI64 offset)
    return (asI64 new, { w with file := file })

/-! ### Reading and writing at an offset -/

def readBufMax : ℕ := 256 * 1024
def writeBufMax : ℕ := 1024 * 1024
def iovMax : ℕ := 1024

def efault : ℤ := Errno.fault.asNegI64
def erofs : ℤ := Errno.rofs.asNegI64

def sysPread64 (buf count offset : ℕ) : Except Panic (ℤ × World σ) :=
  if count = 0 then .ok (0, w)
  else if !w.file.readable then .ok (ebadf, w)
  else do
    match ← w.file.inode.readAt fs w.store offset (min count readBufMax) with
    | (.error e, store) => return (e.asNegI64, { w with store := store })
    | (.ok data, store) =>
      if data = [] then return (0, { w with store := store })
      else
        match w.user.copyToUser buf data with
        | none => return (efault, { w with store := store })
        | some user => return (data.length, { w with store := store, user := user })

def sysPwrite64 (buf count offset : ℕ) : Except Panic (ℤ × World σ) :=
  if count = 0 then .ok (0, w)
  else if !w.file.writable then .ok (ebadf, w)
  else
    match w.user.copyFromUser buf (min count writeBufMax) with
    | none => .ok (efault, w)
    | some buffer => do
      match ← w.file.inode.writeAt fs w.store offset buffer with
      | (.error e, inode, store) =>
        return (e.asNegI64, { w with file := { w.file with inode := inode }, store := store })
      | (.ok n, inode, store) =>
        return (n, { w with file := { w.file with inode := inode }, store := store })

/-! ### Vectors -/

/-- The pairs of base and length in a block of memory. -/
def iovecs : ℕ → List UInt8 → List (ℕ × ℕ)
  | 0, _ => []
  | n + 1, raw => (leNat (raw.take 8), leNat ((raw.drop 8).take 8)) :: iovecs n (raw.drop 16)

def readIovecs (u : UserMemory) (iov count : ℕ) : Except ℤ (List (ℕ × ℕ)) :=
  if iovMax < count then .error einval
  else if count = 0 then .ok []
  else
    match u.copyFromUser iov (count * 16) with
    | none => .error efault
    | some raw => .ok (iovecs count raw)

/-- The loop of `sys_preadv` and `sys_pwritev` over the pieces. -/
def vectored (call : World σ → ℕ → ℕ → ℕ → Except Panic (ℤ × World σ)) :
    List (ℕ × ℕ) → World σ → ℕ → ℤ → Except Panic (ℤ × World σ)
  | [], w, _, total => .ok (total, w)
  | (base, len) :: vecs, w, cursor, total =>
    if len = 0 then vectored call vecs w cursor total
    else do
      let (r, w) ← call w base len cursor
      if r < 0 then return (if total = 0 then r else total, w)
      else if r.toNat < len then return (total + r, w)
      else vectored call vecs w (saturatingAddU64 cursor r.toNat) (total + r)

/-- `offset_lo | (offset_hi << 32)`. -/
def vectorOffset (lo hi : UInt64) : UInt64 := lo ||| (hi <<< 32)

def sysPreadv (iov iovcnt lo hi : UInt64) : Except Panic (ℤ × World σ) :=
  match readIovecs w.user iov.toNat iovcnt.toNat with
  | .error e => .ok (e, w)
  | .ok vecs => vectored (sysPread64 fs) vecs w (vectorOffset lo hi).toNat 0

def sysPwritev (iov iovcnt lo hi : UInt64) : Except Panic (ℤ × World σ) :=
  match readIovecs w.user iov.toNat iovcnt.toNat with
  | .error e => .ok (e, w)
  | .ok vecs => vectored (sysPwrite64 fs) vecs w (vectorOffset lo hi).toNat 0

/-! ### Allocating -/

/-- The loop of `sys_fallocate` that writes zeros, page by page. -/
def writeZeros (w : World σ) (pos stop : ℕ) : Except Panic (ℤ × World σ) :=
  if pos < stop then do
    let n := min (stop - pos) 4096
    match ← w.file.inode.writeAt fs w.store pos (List.replicate n 0) with
    | (.error e, inode, store) =>
      return (e.asNegI64, { w with file := { w.file with inode := inode }, store := store })
    | (.ok _, inode, store) =>
      let _ ← usizeAdd pos n
      writeZeros { w with file := { w.file with inode := inode }, store := store } (pos + n) stop
  else .ok (0, w)
termination_by stop - pos

/-- Extend the file to `target`. -/
def extend (target : UInt64) : Except Panic (Except Errno Unit × World σ) := do
  let (r, inode, store) ← w.file.inode.truncate fs w.store target
  return (r, { w with file := { w.file with inode := inode }, store := store })

def sysFallocate (mode offset len : UInt64) : Except Panic (ℤ × World σ) :=
  if w.file.rdonlyMount then .ok (erofs, w)
  else
    let cur := (w.file.inode.size fs).toNat
    let keepSize := mode &&& 1 ≠ 0
    let target := saturatingAddU64 offset.toNat len.toNat
    if mode &&& 2 ≠ 0 then
      if ¬ keepSize then .ok (einval, w) else writeZeros fs w offset.toNat (min target cur)
    else if mode &&& 0x10 ≠ 0 then
      if cur < target ∧ ¬ keepSize then do
        match ← extend fs w (.ofNat target) with
        | (.error e, w) => return (e.asNegI64, w)
        | (.ok (), w) => writeZeros fs w offset.toNat target
      else writeZeros fs w offset.toNat target
    else if cur < target ∧ ¬ keepSize then do
      match ← extend fs w (.ofNat target) with
      | (.error e, w) => return (e.asNegI64, w)
      | (.ok (), w) => return (0, w)
    else .ok (0, w)

/-! ### Calls -/

inductive Call
  | lseek (offset whence : UInt64)
  | pread64 (buf count offset : UInt64)
  | pwrite64 (buf count offset : UInt64)
  | preadv (iov iovcnt lo hi : UInt64)
  | pwritev (iov iovcnt lo hi : UInt64)
  | fallocate (mode offset len : UInt64)
  deriving DecidableEq, Repr

def Call.run : Call → Except Panic (ℤ × World σ)
  | lseek offset whence => sysLseek fs w offset whence
  | pread64 buf count offset => sysPread64 fs w buf.toNat count.toNat offset.toNat
  | pwrite64 buf count offset => sysPwrite64 fs w buf.toNat count.toNat offset.toNat
  | preadv iov iovcnt lo hi => sysPreadv fs w iov iovcnt lo hi
  | pwritev iov iovcnt lo hi => sysPwritev fs w iov iovcnt lo hi
  | fallocate mode offset len => sysFallocate fs w mode offset len

/-- What a displacement is counted from. -/
def OpenFile.base (f : OpenFile σ) : Whence → UInt64
  | .set => 0
  | .cur => f.offset
  | .stop => f.inode.size fs

/-- A seek that would leave the offsets `0, …, 2 ^ 63 - 1` is refused and changes nothing, and one
that succeeds arrives at the sum. -/
def SeekCorrect (offset whence : UInt64) (r : ℤ × World σ) : Prop :=
  ∀ origin, whence? whence = some origin →
    let target := ((w.file.base fs origin).toNat : ℤ) + asI64 offset
    (target < 0 ∨ 2 ^ 63 ≤ target → r.1 = einval ∧ r.2.file.offset = w.file.offset) ∧
      (0 ≤ r.1 → (r.2.file.offset.toNat : ℤ) = target)

/-- The call returns, and a seek does what it should. -/
def Call.Correct (c : Call) : Prop :=
  Returns (c.run fs w) fun r =>
    match c with
    | .lseek offset whence => SeekCorrect fs w offset whence r
    | _ => True

/-! ### Offsets in range -/

/-- The writes of `n` bytes that do not overflow. -/
def Inode.Room (store : Store) (offset n : ℕ) : Inode σ → Prop
  | tmpfs i => i.Room store offset n
  | ext4 _ device =>
    ∀ raw, fs.readInode device = .ok raw → raw.regular → offset + n < usizeBound

/-- What `pwrite64` is about to write, if it gets so far, has room. -/
def PwriteFits (buf count offset : ℕ) : Prop :=
  count ≠ 0 → w.file.writable →
    ∀ buffer, w.user.copyFromUser buf (min count writeBufMax) = some buffer →
      w.file.inode.Room fs w.store offset buffer.length

/-- Every `pwrite64` that `pwritev` makes has room, in the state in which it is made. -/
def EachFits : List (ℕ × ℕ) → World σ → ℕ → Prop
  | [], _, _ => True
  | (base, len) :: vecs, w, cursor =>
    if len = 0 then EachFits vecs w cursor
    else PwriteFits fs w base len cursor ∧
      ∀ r w', sysPwrite64 fs w base len cursor = .ok (r, w') → (len : ℤ) ≤ r →
        EachFits vecs w' (saturatingAddU64 cursor r.toNat)

/-- The calls whose offsets stay in range. -/
def Call.InRange : Call → Prop
  | lseek offset whence => ∀ origin, whence? whence = some origin →
    (w.file.base fs origin).toNat < 2 ^ 63 ∧
      0 ≤ ((w.file.base fs origin).toNat : ℤ) + asI64 offset ∧
      ((w.file.base fs origin).toNat : ℤ) + asI64 offset < 2 ^ 63
  | pwrite64 buf count offset => PwriteFits fs w buf.toNat count.toNat offset.toNat
  | pwritev iov iovcnt lo hi => ∀ vecs, readIovecs w.user iov.toNat iovcnt.toNat = .ok vecs →
    EachFits fs vecs w (vectorOffset lo hi).toNat
  | pread64 _ _ _ | preadv _ _ _ _ | fallocate _ _ _ => True

/-! ### Seeking stays in range -/

theorem asI64_of_lt {x : UInt64} (h : x.toNat < 2 ^ 63) : asI64 x = x.toNat := by
  rw [asI64, BitVec.toInt_eq_toNat_cond, if_pos (by simpa using by omega)]
  simp

theorem asI64_of_le {x : UInt64} (h : 2 ^ 63 ≤ x.toNat) : asI64 x = x.toNat - 2 ^ 64 := by
  rw [asI64, BitVec.toInt_eq_toNat_cond, if_neg (by simpa using by omega)]
  simp

theorem asI64_bounds (x : UInt64) : -2 ^ 63 ≤ asI64 x ∧ asI64 x < 2 ^ 63 := by
  have hx : x.toNat < 2 ^ 64 := x.toNat_lt
  by_cases h : x.toNat < 2 ^ 63
  · rw [asI64_of_lt h]
    omega
  · rw [asI64_of_le (not_lt.1 h)]
    omega

theorem toNat_clamp {v : ℤ} (h : v < 2 ^ 63) : (clamp v).toNat = v.toNat := by
  rw [clamp, UInt64.toNat_ofNat', Nat.mod_eq_of_lt (by omega)]

/-- The three cases of `seek` are one addition with another base. -/
theorem seek_eq (f : OpenFile σ) (origin : Whence) (d : UInt64) :
    f.seek fs origin (asI64 d) = (i64Add (asI64 (f.base fs origin)) (asI64 d)).map fun v =>
      (clamp v, { f with offset := clamp v }) := by
  cases origin with
  | set =>
    have hzero : i64Add (asI64 0) (asI64 d) = .ok (asI64 d) := by
      have hd := asI64_bounds d
      rw [show asI64 0 = 0 by decide, i64Add, zero_add, if_pos hd]
    rw [OpenFile.base, hzero]
    rfl
  | cur =>
    rw [OpenFile.base, OpenFile.seek]
    cases i64Add (asI64 f.offset) (asI64 d) <;> rfl
  | stop =>
    rw [OpenFile.base, OpenFile.seek]
    cases i64Add (asI64 (f.inode.size fs)) (asI64 d) <;> rfl

theorem lseek_correct_iff (offset whence : UInt64) :
    (Call.lseek offset whence).Correct fs w ↔ (Call.lseek offset whence).InRange fs w := by
  rw [Call.Correct, Call.run, Call.InRange, sysLseek]
  cases horigin : whence? whence with
  | none =>
    refine ⟨fun _ origin h => (nomatch h), fun _ => .ok fun origin h => ?_⟩
    rw [horigin] at h
    cases h
  | some origin =>
    dsimp only
    rw [seek_eq]
    constructor
    · rintro ⟨r, hr, hcorrect⟩ origin' horigin'
      cases horigin'
      by_cases hsum : -2 ^ 63 ≤ asI64 (w.file.base fs origin) + asI64 offset ∧
          asI64 (w.file.base fs origin) + asI64 offset < 2 ^ 63
      · rw [i64Add, if_pos hsum] at hr
        cases hr
        have hnew := toNat_clamp hsum.2
        have hret : asI64 (clamp (asI64 (w.file.base fs origin) + asI64 offset)) =
            (clamp (asI64 (w.file.base fs origin) + asI64 offset)).toNat :=
          asI64_of_lt (by rw [hnew]; omega)
        obtain ⟨hrefuse, -⟩ := hcorrect origin horigin
        -- the call has returned an offset, so it has not refused anything
        have hin : ¬ (((w.file.base fs origin).toNat : ℤ) + asI64 offset < 0 ∨
            2 ^ 63 ≤ ((w.file.base fs origin).toNat : ℤ) + asI64 offset) := by
          intro hout
          have heinval := (hrefuse hout).1
          rw [hret] at heinval
          have : (0 : ℤ) ≤ einval := heinval ▸ Int.natCast_nonneg _
          exact absurd this (by decide)
        by_cases hbase : (w.file.base fs origin).toNat < 2 ^ 63
        · exact ⟨hbase, by omega, by omega⟩
        · rw [asI64_of_le (not_lt.1 hbase)] at hsum
          omega
      · rw [i64Add, if_neg hsum] at hr
        cases hr
    · intro h
      obtain ⟨hlt, hlo, hhi⟩ := h origin rfl
      have hbase := asI64_of_lt hlt
      have hsum : -2 ^ 63 ≤ asI64 (w.file.base fs origin) + asI64 offset ∧
          asI64 (w.file.base fs origin) + asI64 offset < 2 ^ 63 := by omega
      rw [i64Add, if_pos hsum]
      refine .ok fun origin' horigin' => ?_
      cases horigin.symm.trans horigin'
      refine ⟨fun hout => by omega, fun _ => ?_⟩
      rw [toNat_clamp hsum.2, hbase]
      omega

/-! ### Reading returns -/

variable {fs} {w} {store : Store} {P : ℤ × World σ → Prop} {i : Inode σ}
  {buf count offset : ℕ}

theorem Inode.returns_readAt (hs : store.Fits) {n : ℕ}
    (ho : offset < usizeBound) : Returns (i.readAt fs store offset n) fun r => r.2.Fits := by
  cases i with
  | tmpfs i => exact TmpfsInode.returns_readAt.bind fun _ _ => .ok hs
  | ext4 id device => exact BlockLayer.returns_readAt hs ho

theorem returns_sysPread64 (hw : w.store.Fits) (ho : offset < usizeBound) :
    Returns (sysPread64 fs w buf count offset) fun r => r.2.store.Fits := by
  rw [sysPread64]
  split_ifs
  · exact .ok hw
  · exact .ok hw
  refine (Inode.returns_readAt hw ho).bind ?_
  rintro ⟨_ | data, store⟩ hs
  · exact .ok hs
  dsimp only
  split_ifs
  · exact .ok hs
  · split
    · exact .ok hs
    · exact .ok hs

theorem saturatingAddU64_lt (a b : ℕ) : saturatingAddU64 a b < usizeBound := by
  simp only [saturatingAddU64, usizeBound]
  omega

/-- A vector of calls returns if each of them does. -/
theorem returns_vectored {call : World σ → ℕ → ℕ → ℕ → Except Panic (ℤ × World σ)}
    (hcall : ∀ w base len cursor, w.store.Fits → cursor < usizeBound →
      Returns (call w base len cursor) fun r => r.2.store.Fits) :
    ∀ (vecs : List (ℕ × ℕ)) {w : World σ} {cursor : ℕ} {total : ℤ}, w.store.Fits →
      cursor < usizeBound → Returns (vectored call vecs w cursor total) fun r => r.2.store.Fits
  | [], w, cursor, total, hw, _ => .ok hw
  | (base, len) :: vecs, w, cursor, total, hw, hcursor => by
    rw [vectored]
    by_cases hlen : len = 0
    · rw [if_pos hlen]
      exact returns_vectored hcall vecs hw hcursor
    rw [if_neg hlen]
    refine (hcall w base len cursor hw hcursor).bind ?_
    rintro ⟨r, w'⟩ hw'
    dsimp only
    by_cases hneg : r < 0
    · rw [if_pos hneg]
      exact .ok hw'
    rw [if_neg hneg]
    by_cases hshort : r.toNat < len
    · rw [if_pos hshort]
      exact .ok hw'
    · rw [if_neg hshort]
      exact returns_vectored hcall vecs hw' (saturatingAddU64_lt _ _)

/-! ### Writing returns where there is room -/

theorem Inode.returns_writeAt_iff {P : Except Errno ℕ × Inode σ × Store → Prop}
    (hP : ∀ r, r.2.2.Fits → P r) (hs : store.Fits) {buf : List UInt8} (ho : offset < usizeBound) :
    Returns (i.writeAt fs store offset buf) P ↔ i.Room fs store offset buf.length := by
  cases i with
  | tmpfs i =>
    exact returns_bind_iff (fun _ hP => TmpfsInode.returns_writeAt_iff hP hs ho)
      fun r hr => .ok (hP _ hr)
  | ext4 id device =>
    exact returns_bind_iff (fun _ hP => BlockLayer.returns_writeAt_iff hP hs ho)
      fun r hr => .ok (hP _ hr)

theorem returns_sysPwrite64_iff (hP : ∀ r, r.2.store.Fits → P r)
    (hw : w.store.Fits) (ho : offset < usizeBound) :
    Returns (sysPwrite64 fs w buf count offset) P ↔ PwriteFits fs w buf count offset := by
  rw [sysPwrite64, PwriteFits]
  by_cases hcount : count = 0
  · rw [if_pos hcount]
    exact ⟨fun _ h => absurd hcount h, fun _ => .ok (hP _ hw)⟩
  rw [if_neg hcount]
  cases hwritable : w.file.writable with
  | false => exact iff_of_true (.ok (hP _ hw)) (by simp)
  | true =>
    cases hcopy : w.user.copyFromUser buf (min count writeBufMax) with
    | none => exact iff_of_true (.ok (hP _ hw)) (by simp)
    | some buffer =>
      refine (returns_bind_iff (fun _ hP => Inode.returns_writeAt_iff hP hw ho) ?_).trans ?_
      · rintro ⟨_ | n, inode, store⟩ hs
        · exact .ok (hP _ hs)
        · exact .ok (hP _ hs)
      · simp [hcount]

theorem returns_pwritev_iff (hP : ∀ r, r.2.store.Fits → P r) :
    ∀ (vecs : List (ℕ × ℕ)) {w : World σ} {cursor : ℕ} {total : ℤ}, w.store.Fits →
      cursor < usizeBound → (Returns (vectored (sysPwrite64 fs) vecs w cursor total) P ↔
        EachFits fs vecs w cursor)
  | [], w, cursor, total, hw, _ => ⟨fun _ => trivial, fun _ => .ok (hP _ hw)⟩
  | (base, len) :: vecs, w, cursor, total, hw, hcursor => by
    rw [vectored, EachFits]
    by_cases hlen : len = 0
    · rw [if_pos hlen, if_pos hlen]
      exact returns_pwritev_iff hP vecs hw hcursor
    rw [if_neg hlen, if_neg hlen]
    constructor
    · rintro ⟨r, hr, hPr⟩
      obtain ⟨⟨r', w'⟩, hcall, hrest⟩ := bind_eq_ok.1 hr
      have hfits := (returns_sysPwrite64_iff (P := fun _ => True) (fun _ _ => trivial) hw
        hcursor).1 ⟨_, hcall, trivial⟩
      refine ⟨hfits, fun r'' w'' hcall'' hfull => ?_⟩
      rw [hcall] at hcall''
      cases hcall''
      obtain ⟨_, hcall', hw'⟩ := (returns_sysPwrite64_iff (fun _ h => h) hw hcursor).2 hfits
      rw [hcall] at hcall'
      cases hcall'
      dsimp only at hrest
      rw [if_neg (by omega), if_neg (by omega)] at hrest
      exact (returns_pwritev_iff hP vecs hw' (saturatingAddU64_lt _ _)).1 ⟨r, hrest, hPr⟩
    · rintro ⟨hfits, hnext⟩
      obtain ⟨⟨r', w'⟩, hcall, hw'⟩ := (returns_sysPwrite64_iff (fun _ h => h) hw hcursor).2 hfits
      rw [hcall, ok_bind]
      dsimp only
      by_cases hneg : r' < 0
      · rw [if_pos hneg]
        exact .ok (hP _ hw')
      rw [if_neg hneg]
      by_cases hshort : r'.toNat < len
      · rw [if_pos hshort]
        exact .ok (hP _ hw')
      · rw [if_neg hshort]
        exact (returns_pwritev_iff hP vecs hw' (saturatingAddU64_lt _ _)).2
          (hnext r' w' hcall (by omega))

/-! ### Allocating returns -/

/-- There is always room for bytes that end below `2 ^ 64`. -/
theorem Inode.room_of_lt {n : ℕ} (h : offset + n < usizeBound) : i.Room fs store offset n := by
  cases i with
  | tmpfs i =>
    refine .inr ?_
    split
    · exact .inr (.inl (le_of_lt h))
    all_goals trivial
  | ext4 id device => exact fun _ _ _ => h

theorem returns_writeZeros (hw : w.store.Fits) {pos stop : ℕ} (hstop : stop < usizeBound) :
    Returns (writeZeros fs w pos stop) fun r => r.2.store.Fits := by
  fun_induction writeZeros fs w pos stop with
  | case1 w pos hlt n ih =>
    have hroom : w.file.inode.Room fs w.store pos (List.replicate n (0 : UInt8)).length :=
      Inode.room_of_lt (by rw [List.length_replicate]; omega)
    refine ((Inode.returns_writeAt_iff (fun _ h => h) hw (by omega)).2 hroom).bind ?_
    rintro ⟨_ | written, inode, store⟩ hs
    · exact .ok hs
    · refine (returns_usizeAdd (by omega)).bind fun _ _ => ?_
      exact ih inode store hs
  | case2 w pos hlt => exact .ok hw

theorem returns_extend (hw : w.store.Fits) (target : UInt64) :
    Returns (extend fs w target) fun r => r.2.store.Fits := by
  have htruncate : Returns (w.file.inode.truncate fs w.store target) fun r => r.2.2.Fits := by
    cases w.file.inode with
    | tmpfs i => exact (TmpfsInode.returns_truncate hw).bind fun r hr => .ok hr
    | ext4 id device => exact .ok (by grind [hw.invalidateRange])
  exact htruncate.bind fun r hr => .ok hr

theorem returns_sysFallocate (hw : w.store.Fits) (mode offset len : UInt64) :
    Returns (sysFallocate fs w mode offset len) fun r => r.2.store.Fits := by
  have htarget := saturatingAddU64_lt offset.toNat len.toNat
  rw [sysFallocate]
  by_cases hro : w.file.rdonlyMount = true
  · rw [if_pos hro]
    exact .ok hw
  rw [if_neg hro]
  dsimp only
  split_ifs
  · exact returns_writeZeros hw (by omega)
  · exact .ok hw
  · refine (returns_extend hw _).bind ?_
    rintro ⟨_ | _, w'⟩ hw'
    · exact .ok hw'
    · exact returns_writeZeros hw' htarget
  · exact returns_writeZeros hw htarget
  · refine (returns_extend hw _).bind ?_
    rintro ⟨_ | _, w'⟩ hw'
    · exact .ok hw'
    · exact .ok hw'
  · exact .ok hw

/-! ### The calls -/

/-- An open file with a page cache whose pages fit. -/
structure OpenWorld (σ : Type) extends World σ where
  fits : store.Fits

/-- Apart from seeks, a call that is in range returns, and with a page cache whose pages fit. -/
theorem Call.returns_run_iff (w : OpenWorld σ) {c : Call}
    (hc : ∀ offset whence, c ≠ lseek offset whence) (hP : ∀ r, r.2.store.Fits → P r) :
    Returns (c.run fs w.toWorld) P ↔ c.InRange fs w.toWorld := by
  cases c with
  | lseek offset whence => exact absurd rfl (hc offset whence)
  | pread64 buf count offset =>
    exact iff_of_true ((returns_sysPread64 w.fits offset.toNat_lt).mono hP) trivial
  | pwrite64 buf count offset => exact returns_sysPwrite64_iff hP w.fits offset.toNat_lt
  | preadv iov iovcnt lo hi =>
    refine iff_of_true ?_ trivial
    rw [run, sysPreadv]
    split
    · exact .ok (hP _ w.fits)
    · refine (returns_vectored ?_ _ w.fits (UInt64.toNat_lt _)).mono hP
      exact fun _ _ _ _ hw ho => returns_sysPread64 hw ho
  | pwritev iov iovcnt lo hi =>
    rw [run, InRange, sysPwritev]
    cases readIovecs w.user iov.toNat iovcnt.toNat with
    | error e => exact iff_of_true (.ok (hP _ w.fits)) nofun
    | ok vecs =>
      have hiff : Returns (vectored (sysPwrite64 fs) vecs w.toWorld (vectorOffset lo hi).toNat 0) P ↔
          EachFits fs vecs w.toWorld (vectorOffset lo hi).toNat :=
        returns_pwritev_iff hP vecs w.fits (UInt64.toNat_lt _)
      exact ⟨fun h vecs' hvecs => by cases hvecs; exact hiff.1 h, fun h => hiff.2 (h vecs rfl)⟩
  | fallocate mode offset len =>
    exact iff_of_true ((returns_sysFallocate w.fits mode offset len).mono hP) trivial

/-- Every call that returns leaves a page cache whose pages fit, so that a further call can be made. -/
theorem Call.fits_run {w : OpenWorld σ} {c : Call} {r : ℤ × World σ}
    (h : c.run fs w.toWorld = .ok r) : r.2.store.Fits := by
  by_cases hseek : ∃ offset whence, c = lseek offset whence
  · obtain ⟨offset, whence, rfl⟩ := hseek
    rw [run, sysLseek] at h
    split at h
    · cases h
      exact w.fits
    · obtain ⟨x, -, hx⟩ := bind_eq_ok.1 h
      cases hx
      exact w.fits
  have hc (offset whence : UInt64) : c ≠ lseek offset whence := fun h => hseek ⟨_, _, h⟩
  have hrange : c.InRange fs w.toWorld :=
    (returns_run_iff w hc fun _ _ => trivial).1 ⟨r, h, trivial⟩
  obtain ⟨r', hr', hfits⟩ := (returns_run_iff w hc fun _ hfits => hfits).2 hrange
  cases h.symm.trans hr'
  exact hfits

/-- **File offsets stay in range** in exactly these calls: seeks from a base below `2 ^ 63` to a
target in `0, …, 2 ^ 63 - 1`, writes that have room, reads and allocations at every offset. -/
theorem correct_iff_inRange (fs : BlockLayer σ ρ) (w : OpenWorld σ) (c : Call) :
    c.Correct fs w.toWorld ↔ c.InRange fs w.toWorld := by
  cases c with
  | lseek offset whence => exact lseek_correct_iff fs w.toWorld offset whence
  | _ => exact Call.returns_run_iff w nofun fun _ _ => trivial

/-! ### Offsets out of range -/

/-- A device on which nothing can be read. -/
def noDisk : BlockLayer Unit Unit where
  blockSize := 4096
  blockSize_pos := by decide
  readInode _ := .error .io
  writeInode s _ := (.error .io, s)
  resolveBlock _ _ _ := .error .io
  allocBlock s := (.error .io, s)
  appendExtent s _ _ _ := (.error .io, s)
  shrinkExtents s _ _ := (.error .io, s)
  deviceRead _ _ := .error .io
  deviceWrite s _ _ := (.error .io, s)
  resolve_on_device := nofun
  alloc_on_device := nofun
  length_deviceRead := nofun

/-- An empty file of tmpfs, open for reading and writing at the given offset. -/
def emptyFile (offset : UInt64) : OpenWorld Unit where
  file := ⟨.tmpfs ⟨1, .regular ⟨.empty, 0⟩, ⟨false, false, false, false⟩⟩, offset, true, true, false⟩
  store := ⟨⟨[7], fun _ => zeros⟩, .empty, []⟩
  user := ⟨zeros, fun _ => true, fun _ => true⟩
  fits := by
    intro k page h
    cases h

/-- **Offsets out of range.**  A seek to `-1` succeeds and goes to `0`; a seek by one from the
largest offset and a write of two bytes at the last 64-bit offset stop the kernel. -/
theorem offsets_go_wrong :
    ((Call.lseek 0xffffffffffffffff 0).run noDisk (emptyFile 5).toWorld).toOption.map
        (fun r => (r.1, r.2.file.offset)) = some (0, 0) ∧
      (Call.lseek 1 1).run noDisk (emptyFile 0x7fffffffffffffff).toWorld =
        .error .addOverflow ∧
      ¬ (Call.lseek 0xffffffffffffffff 0).Correct noDisk (emptyFile 5).toWorld ∧
      ¬ (Call.pwrite64 0 2 0xffffffffffffffff).Correct noDisk (emptyFile 0).toWorld := by
  refine ⟨by decide, rfl, ?_, ?_⟩
  · rw [lseek_correct_iff]
    intro h
    obtain ⟨-, hlo, -⟩ := h .set rfl
    exact absurd hlo (by decide)
  intro h
  have hfits := (returns_sysPwrite64_iff (P := fun _ => True) (fun _ _ => trivial)
    (emptyFile 0).fits (UInt64.toNat_lt 0xffffffffffffffff)).1 h
  have hroom := hfits (by decide) rfl _ rfl
  rcases hroom with hsealed | ⟨hgrow, -⟩ | hend | hframes
  · cases hsealed
  · cases hgrow
  · exact absurd hend (by decide)
  -- one page is left, and there is a frame for it
  have hcard := Finset.card_filter_le
    (Finset.Ico ((0xffffffffffffffff : UInt64).toNat / 4096) PagedFile.pageBound)
    fun q => (SortedMap.empty : SortedMap ℕ ℕ).get? q = none
  rw [Nat.card_Ico] at hcard
  exact absurd (hframes.trans_le hcard) (by decide)

end CypheraKernel.Vfs
