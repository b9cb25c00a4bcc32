import CypheraKernel.Errno
import CypheraKernel.Fs.PageCache

/-!
# Regular files of ext4

The data path of `kernel/src/fs/ext4.rs`: reading, writing and truncating a file, block by block.

`returns_readAt`: reading returns at every offset; `returns_writeAt_iff`: writing returns exactly
if the bytes end below `2 ^ 64`.  What is below the data path is a `BlockLayer`.

Time stamps are left out.
-/

namespace CypheraKernel.Fs

open Rust

/-- The fields of an inode on disk that the data path uses; `root` is its extent tree. -/
structure RawInode (ρ : Type) where
  size : UInt64
  regular : Bool
  root : ρ

/-- The size after a write that ended at `cur`. -/
def RawInode.sizeAfter {ρ : Type} (raw : RawInode ρ) (cur : ℕ) : UInt64 :=
  if raw.size.toNat < cur then .ofNat cur else raw.size

/-- The layer below the data path: the file's inode `ino` on a device in state `σ`, with extent
trees `ρ`.  Its operations are `read_inode`, `write_inode`, `resolve_block`, `alloc_block` and
`append_extent` of the source, the cutting of extents in `truncate_to`, and those of the device.
They return, as the source does on an image whose extent nodes have no more entries than fit in
them, below one level of index nodes at most, with a leaf for every index; this is what it writes
itself.  On other images it may index past a node.  An operation that fails may have changed the
device. -/
structure BlockLayer (σ ρ : Type) where
  blockSize : ℕ
  blockSize_pos : 0 < blockSize
  readInode : σ → Except Errno (RawInode ρ)
  writeInode : σ → RawInode ρ → Except Errno Unit × σ
  resolveBlock : σ → ρ → ℕ → Except Errno (Option ℕ)
  allocBlock : σ → Except Errno ℕ × σ
  appendExtent : σ → ρ → ℕ → ℕ → Except Errno ρ × σ
  shrinkExtents : σ → ρ → ℕ → Except Errno ρ × σ
  deviceRead : σ → ℕ → Except Errno (List UInt8)
  deviceWrite : σ → ℕ → List UInt8 → Except Errno Unit × σ
  /-- The blocks of a file are on the device, whose size is a 64-bit number. -/
  resolve_on_device : ∀ s root logical phys,
    resolveBlock s root logical = .ok (some phys) → phys * blockSize < usizeBound
  alloc_on_device : ∀ s phys, (allocBlock s).1 = .ok phys → phys * blockSize < usizeBound
  length_deviceRead : ∀ s pos bytes, deviceRead s pos = .ok bytes → bytes.length = blockSize

namespace BlockLayer

variable {σ ρ : Type} (fs : BlockLayer σ ρ)

variable (s : σ) (id : ℕ)

/-- The bytes of one block, from `inBlock` on; a hole is zero. -/
def readBlock (root : ρ) (logical inBlock chunk : ℕ) : Except Panic (Except Errno (List UInt8)) :=
  match fs.resolveBlock s root logical with
  | .error e => .ok (.error e)
  | .ok none => .ok (.ok (List.replicate chunk 0))
  | .ok (some phys) => do
    let pos ← usizeMul phys fs.blockSize
    match fs.deviceRead s pos with
    | .error e => return .error e
    | .ok block =>
      let part ← slice block inBlock (inBlock + chunk)
      return .ok part

/-- The loop of `read_data`, from `cur` up to `stop`. -/
def readBlocks (s : σ) (root : ρ) (cur stop : ℕ) : Except Panic (Except Errno (List UInt8)) :=
  if cur < stop then do
    let chunk := min (fs.blockSize - cur % fs.blockSize) (stop - cur)
    match ← fs.readBlock s root (cur / fs.blockSize) (cur % fs.blockSize) chunk with
    | .error e => return .error e
    | .ok part =>
      let _ ← usizeAdd cur chunk
      let rest ← readBlocks s root (cur + chunk) stop
      return rest.map (part ++ ·)
  else .ok (.ok [])
termination_by stop - cur
decreasing_by
  have := Nat.mod_lt cur fs.blockSize_pos
  omega

def readData (offset n : ℕ) : Except Panic (Except Errno (List UInt8)) :=
  match fs.readInode s with
  | .error e => .ok (.error e)
  | .ok raw =>
    if raw.size.toNat ≤ offset then .ok (.ok [])
    else do
      let stop ← usizeAdd offset (min (raw.size.toNat - offset) n)
      fs.readBlocks s raw.root offset stop

/-- The block for a position that is written: the one that is there, or a new one. -/
def blockFor (root : ρ) (logical : ℕ) : Except Errno (ℕ × ρ) × σ :=
  match fs.resolveBlock s root logical with
  | .error e => (.error e, s)
  | .ok (some phys) => (.ok (phys, root), s)
  | .ok none =>
    match fs.allocBlock s with
    | (.error e, s) => (.error e, s)
    | (.ok phys, s) =>
      -- the extent tree has 32-bit block numbers
      match fs.appendExtent s root (logical % 2 ^ 32) phys with
      | (.error e, s) => (.error e, s)
      | (.ok root, s) => (.ok (phys, root), s)

/-- Read a block, change a part of it and write it back. -/
def patchBlock (phys inBlock : ℕ) (part : List UInt8) : Except Panic (Except Errno Unit × σ) := do
  let pos ← usizeMul phys fs.blockSize
  match fs.deviceRead s pos with
  | .error e => return (.error e, s)
  | .ok block =>
    let head ← slice block 0 inBlock
    let tail ← slice block (inBlock + part.length) block.length
    return fs.deviceWrite s pos (head ++ part ++ tail)

/-- The loop of `write_data`, from `cur` up to `stop`, `written` bytes having been written. -/
def writeBlocks (s : σ) (root : ρ) (buf : List UInt8) (cur stop written : ℕ) :
    Except Panic (Except Errno (ℕ × ρ) × σ) :=
  if cur < stop then do
    let chunk := min (fs.blockSize - cur % fs.blockSize) (stop - cur)
    match fs.blockFor s root (cur / fs.blockSize) with
    | (.error e, s) => return (.error e, s)
    | (.ok (phys, root), s) =>
      let part ← slice buf written (written + chunk)
      match ← fs.patchBlock s phys (cur % fs.blockSize) part with
      | (.error e, s) => return (.error e, s)
      | (.ok (), s) =>
        let _ ← usizeAdd cur chunk
        writeBlocks s root buf (cur + chunk) stop (written + chunk)
  else .ok (.ok (cur, root), s)
termination_by stop - cur
decreasing_by
  have := Nat.mod_lt cur fs.blockSize_pos
  omega

def writeData (offset : ℕ) (buf : List UInt8) : Except Panic (Except Errno ℕ × σ) :=
  match fs.readInode s with
  | .error e => .ok (.error e, s)
  | .ok raw => do
    let stop ← usizeAdd offset buf.length
    match ← fs.writeBlocks s raw.root buf offset stop 0 with
    | (.error e, s) => return (.error e, s)
    | (.ok (cur, root), s) =>
      match fs.writeInode s { raw with size := raw.sizeAfter cur, root := root } with
      | (.error e, s) => return (.error e, s)
      | (.ok (), s) => return (.ok buf.length, s)

def truncateTo (len : UInt64) : Except Errno Unit × σ :=
  match fs.readInode s with
  | .error e => (.error e, s)
  | .ok raw =>
    if len = 0 ∨ len < raw.size then
      match fs.shrinkExtents s raw.root ((len.toNat + (fs.blockSize - 1)) / fs.blockSize) with
      | (.error e, s) => (.error e, s)
      | (.ok root, s) => fs.writeInode s { raw with size := len, root := root }
    else fs.writeInode s { raw with size := len }

/-- The size in `stat`. -/
def size (s : σ) : UInt64 :=
  match fs.readInode s with
  | .error _ => 0
  | .ok raw => raw.size

/-- The page in which an offset lies: from the cache, or read and put there. -/
def pageOf (s : σ) (store : Store) (pageOff : ℕ) :
    Except Panic (Except Errno (List UInt8) × Store) := do
  let (cached, store) ← store.lookup id pageOff
  match cached with
  | some page => return (.ok page, store)
  | none =>
    match ← fs.readData s pageOff 4096 with
    | .error e => return (.error e, store)
    | .ok page =>
      if page = [] then return (.ok [], store)
      else
        let store ← store.insert id pageOff page
        return (.ok page, store)

/-- The loop of `read_at`, `total` bytes of `n` having been read. -/
def readPages (id : ℕ) (s : σ) (store : Store) (offset n total : ℕ) :
    Except Panic (Except Errno (List UInt8) × Store) :=
  if total < n then do
    let curOff ← usizeAdd offset total
    match ← fs.pageOf id s store (curOff / 4096 * 4096) with
    | (.error e, store) => return (.error e, store)
    | (.ok page, store) =>
      let want := min (n - total) (4096 - curOff % 4096)
      let got := min (page.length - curOff % 4096) want
      if got = 0 then return (.ok [], store)
      else
        let part ← slice page (curOff % 4096) (curOff % 4096 + got)
        if got < want then return (.ok part, store)
        else
          let (rest, store) ← readPages id s store offset n (total + got)
          return (rest.map (part ++ ·), store)
  else .ok (.ok [], store)
termination_by n - total

def readAt (s : σ) (store : Store) (offset n : ℕ) :
    Except Panic (Except Errno (List UInt8) × Store) :=
  match fs.readInode s with
  | .error e => .ok (.error e, store)
  | .ok raw =>
    if raw.regular then fs.readPages id s store offset n 0
    else .ok (.error .isdir, store)

def writeAt (s : σ) (store : Store) (offset : ℕ) (buf : List UInt8) :
    Except Panic (Except Errno ℕ × σ × Store) :=
  match fs.readInode s with
  | .error e => .ok (.error e, s, store)
  | .ok raw =>
    if raw.regular then do
      match ← fs.writeData s offset buf with
      | (.error e, s) => return (.error e, s, store)
      | (.ok n, s) =>
        let part ← slice buf 0 n
        let store ← store.writeThrough id offset part
        return (.ok n, s, store)
    else .ok (.error .isdir, s, store)

def truncate (s : σ) (store : Store) (len : UInt64) : Except Errno Unit × σ × Store :=
  match fs.readInode s with
  | .error e => (.error e, s, store)
  | .ok raw =>
    if raw.regular then
      let (r, s) := fs.truncateTo s len
      (r, s, store.invalidateRange id len.toNat (usizeBound - 1))
    else (.error .isdir, s, store)

/-! ### Reading -/

variable {fs} {s} {root : ρ} {store : Store} {id offset n : ℕ} {buf : List UInt8}

theorem returns_readBlock {logical inBlock chunk : ℕ} (h : inBlock + chunk ≤ fs.blockSize) :
    Returns (fs.readBlock s root logical inBlock chunk) fun r =>
      ∀ part, r = .ok part → part.length = chunk := by
  rw [readBlock]
  split
  · exact .ok fun part hpart => by cases hpart
  · refine .ok fun part hpart => ?_
    cases hpart
    exact List.length_replicate
  rename_i phys hphys
  refine (returns_usizeMul (fs.resolve_on_device s root logical phys hphys)).bind fun pos _ => ?_
  split
  · exact .ok fun part hpart => by cases hpart
  rename_i block hblock
  have hlen := fs.length_deviceRead s pos block hblock
  refine (returns_slice (by omega) (by omega)).bind fun part hpart => ?_
  refine .ok fun part' hpart' => ?_
  cases hpart'
  omega

theorem returns_readBlocks {cur stop : ℕ} (hstop : stop < usizeBound) (hcur : cur ≤ stop) :
    Returns (fs.readBlocks s root cur stop) fun r =>
      ∀ bytes, r = .ok bytes → bytes.length = stop - cur := by
  fun_induction readBlocks fs s root cur stop with
  | case1 cur hlt chunk ih =>
    have hmod := Nat.mod_lt cur fs.blockSize_pos
    refine (returns_readBlock (by omega)).bind fun r hr => ?_
    split
    · exact .ok fun bytes hbytes => by cases hbytes
    rename_i part
    have hpart := hr part rfl
    refine (returns_usizeAdd (by omega)).bind fun _ _ => ?_
    refine (ih (by omega)).bind fun rest hrest => ?_
    refine .ok fun bytes hbytes => ?_
    cases rest with
    | error e => cases hbytes
    | ok rest =>
      cases hbytes
      rw [List.length_append, hpart, hrest rest rfl]
      omega
  | case2 cur hlt =>
    refine .ok fun bytes hbytes => ?_
    cases hbytes
    exact (Nat.sub_eq_zero_of_le (not_lt.1 hlt)).symm

/-- What is read ends within the file. -/
theorem returns_readData (ho : offset < usizeBound) :
    Returns (fs.readData s offset n) fun r =>
      ∀ bytes, r = .ok bytes → offset + bytes.length < usizeBound := by
  rw [readData]
  split
  · exact .ok fun bytes hbytes => by cases hbytes
  rename_i raw _
  have hsize : raw.size.toNat < usizeBound := raw.size.toNat_lt
  split_ifs with hend
  · refine .ok fun bytes hbytes => ?_
    cases hbytes
    exact ho
  refine (returns_usizeAdd (by omega)).bind ?_
  rintro _ rfl
  refine (returns_readBlocks (by omega) (by omega)).mono fun r hr bytes hbytes => ?_
  rw [hr bytes hbytes]
  omega

theorem returns_pageOf (hs : store.Fits) {pageOff : ℕ} (hpage : 4096 ∣ pageOff)
    (ho : pageOff < usizeBound) :
    Returns (fs.pageOf id s store pageOff) fun r => r.2.Fits ∧
      ∀ page, r.1 = .ok page → pageOff + page.length < usizeBound := by
  have hround : pageOff / 4096 * 4096 = pageOff := Nat.div_mul_cancel hpage
  refine (hs.lookup id pageOff).bind ?_
  rintro ⟨cached, store'⟩ ⟨hs', hcached⟩
  dsimp only
  split
  · rename_i page
    refine .ok ⟨hs', fun page' hpage' => ?_⟩
    cases hpage'
    have hfits := hcached page rfl
    rw [hround] at hfits
    exact hfits.2
  refine (returns_readData ho).bind fun r hr => ?_
  split
  · exact .ok ⟨hs', fun page hpage => by cases hpage⟩
  rename_i page
  have hlen := hr page rfl
  split_ifs with hempty
  · exact .ok ⟨hs', fun page' hpage' => by cases hpage'; simpa using ho⟩
  · refine (hs'.insert (by rw [hround]; exact hlen)).bind fun store'' hs'' => ?_
    refine .ok ⟨hs'', fun page' hpage' => ?_⟩
    cases hpage'
    exact hlen

theorem returns_readPages (hs : store.Fits) {total : ℕ}
    (hcur : total < n → offset + total < usizeBound) :
    Returns (fs.readPages id s store offset n total) fun r => r.2.Fits := by
  fun_induction readPages fs id s store offset n total with
  | case1 store total hlt ih =>
    have hcur := hcur hlt
    refine (returns_usizeAdd hcur).bind ?_
    rintro _ rfl
    refine (returns_pageOf hs (Dvd.intro_left _ rfl) (by omega)).bind ?_
    rintro ⟨r, store'⟩ ⟨hs', hpage⟩
    dsimp only
    split
    · rename_i heq
      cases heq
      exact .ok hs'
    rename_i page _ heq
    cases heq
    have hfits := hpage page rfl
    split_ifs with hgot hwant
    · exact .ok hs'
    · refine (returns_slice (by omega) (by omega)).bind fun part _ => ?_
      exact .ok hs'
    · refine (returns_slice (by omega) (by omega)).bind fun part _ => ?_
      -- the rest of the page has been read, and the page ends below the last offset
      refine (ih _ _ _ hwant hs' fun hmore => ?_).bind fun r hr => .ok hr
      omega
  | case2 store total hlt => exact .ok hs

/-- **Reading from ext4 returns** at every offset. -/
theorem returns_readAt (hs : store.Fits) (ho : offset < usizeBound) :
    Returns (fs.readAt id s store offset n) fun r => r.2.Fits := by
  rw [readAt]
  split
  · exact .ok hs
  · split_ifs
    · exact returns_readPages hs fun _ => ho
    · exact .ok hs

/-! ### Writing -/

theorem blockFor_on_device {logical phys : ℕ} {root' : ρ}
    (h : (fs.blockFor s root logical).1 = .ok (phys, root')) :
    phys * fs.blockSize < usizeBound := by
  rw [blockFor] at h
  split at h
  · cases h
  · rename_i hphys
    cases h
    exact fs.resolve_on_device s root logical phys hphys
  split at h
  · cases h
  rename_i halloc
  split at h
  · cases h
  · cases h
    exact fs.alloc_on_device s phys (by rw [halloc])

theorem returns_patchBlock {phys inBlock : ℕ} {part : List UInt8}
    (hphys : phys * fs.blockSize < usizeBound) (h : inBlock + part.length ≤ fs.blockSize) :
    Returns (fs.patchBlock s phys inBlock part) fun _ => True := by
  refine (returns_usizeMul hphys).bind fun pos _ => ?_
  split
  · exact .ok trivial
  rename_i block hblock
  have hlen := fs.length_deviceRead s pos block hblock
  refine (returns_slice (Nat.zero_le _) (by omega)).bind fun head _ => ?_
  refine (returns_slice (by omega) le_rfl).bind fun tail _ => ?_
  exact .ok trivial

theorem returns_writeBlocks {cur stop written : ℕ} (hstop : stop < usizeBound)
    (hbuf : written + (stop - cur) ≤ buf.length) :
    Returns (fs.writeBlocks s root buf cur stop written) fun _ => True := by
  fun_induction writeBlocks fs s root buf cur stop written with
  | case1 s root cur written hlt e s' hblock => exact .ok trivial
  | case2 s root cur written hlt chunk phys root' s' hblock ih =>
    have hmod := Nat.mod_lt cur fs.blockSize_pos
    have hfound : (fs.blockFor s root (cur / fs.blockSize)).1 = .ok (phys, root') := by rw [hblock]
    have hphys := blockFor_on_device hfound
    refine (returns_slice (by omega) (by omega)).bind fun part hpart => ?_
    refine (returns_patchBlock hphys (by omega)).bind fun r _ => ?_
    split
    · exact .ok trivial
    · refine (returns_usizeAdd (by omega)).bind fun _ _ => ?_
      exact ih _ (by omega)
  | case3 s root cur written hlt => exact .ok trivial

/-- **A write to ext4 returns** exactly if it ends below `2 ^ 64`, unless it is refused. -/
theorem returns_writeAt_iff {P : Except Errno ℕ × σ × Store → Prop}
    (hP : ∀ r, r.2.2.Fits → P r) (hs : store.Fits) (ho : offset < usizeBound) :
    Returns (fs.writeAt id s store offset buf) P ↔
      ∀ raw, fs.readInode s = .ok raw → raw.regular → offset + buf.length < usizeBound := by
  cases hraw : fs.readInode s with
  | error e =>
    rw [writeAt, hraw]
    exact iff_of_true (.ok (hP _ hs)) (by simp)
  | ok raw =>
    rw [writeAt, hraw]
    dsimp only
    by_cases hreg : raw.regular = true
    · rw [if_pos hreg]
      constructor
      · rintro ⟨r, hr, -⟩ raw' - -
        obtain ⟨r', hr', -⟩ := bind_eq_ok.1 hr
        by_contra hover
        have hadd : usizeAdd offset buf.length = .error .addOverflow := if_neg hover
        simp only [writeData, hraw, hadd] at hr'
        cases hr'
      intro h
      have hend := h raw rfl hreg
      have hdata : Returns (fs.writeData s offset buf) fun r =>
          ∀ k, r.1 = .ok k → k = buf.length := by
        rw [writeData, hraw]
        refine (returns_usizeAdd hend).bind ?_
        rintro _ rfl
        refine (returns_writeBlocks hend (by omega)).bind fun r _ => ?_
        split
        · exact .ok fun k hk => by cases hk
        · split
          · exact .ok fun k hk => by cases hk
          · exact .ok fun k hk => by cases hk; rfl
      refine hdata.bind fun r hr => ?_
      split
      · exact .ok (hP _ hs)
      · rename_i k s'
        have hk := hr k rfl
        refine (returns_slice (Nat.zero_le _) (by omega)).bind fun part _ => ?_
        exact (hs.writeThrough ho).bind fun store' hs' => .ok (hP _ hs')
    · rw [if_neg hreg]
      exact ⟨fun _ raw' h hreg' => by cases h; exact absurd hreg' hreg, fun _ => .ok (hP _ hs)⟩

end BlockLayer

end CypheraKernel.Fs
