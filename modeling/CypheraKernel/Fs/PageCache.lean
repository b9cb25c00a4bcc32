import CypheraKernel.Lib.Bytes
import CypheraKernel.Lib.SortedMap

/-!
# The page cache

`kernel/src/fs/pagecache.rs`: pages of files held in frames, found by inode and page offset, with
the keys in the order of their last use.

`Store.Fits`: every cached page fits a frame and ends below the last 64-bit offset.  The functions
keep it, and none of them stops the program where it holds.
-/

namespace CypheraKernel.Fs

open Rust Bytes SortedMap

/-! ### Frames -/

/-- The frames: those that are free, and the bytes of each. -/
structure Frames where
  free : List ℕ
  bytes : ℕ → Memory

namespace Frames

/-- `alloc_frame`. -/
def alloc (f : Frames) : Option (ℕ × Frames) :=
  match f.free with
  | [] => none
  | frame :: rest => some (frame, { f with free := rest })

/-- `free_frame`. -/
def release (f : Frames) (frame : ℕ) : Frames := { f with free := frame :: f.free }

/-- `zero_frame`. -/
def zero (f : Frames) (frame : ℕ) : Frames :=
  { f with bytes := Function.update f.bytes frame zeros }

/-- `write_to_frame`. -/
def write (f : Frames) (frame offset : ℕ) (data : List UInt8) : Except Panic Frames := do
  assert (offset + data.length ≤ 4096)
  return { f with bytes := Function.update f.bytes frame (Bytes.write (f.bytes frame) offset data) }

/-- `read_from_frame`. -/
def read (f : Frames) (frame offset n : ℕ) : Except Panic (List UInt8) := do
  assert (offset + n ≤ 4096)
  return Bytes.read (f.bytes frame) offset n

theorem returns_write {f : Frames} {frame offset : ℕ} {data : List UInt8}
    (h : offset + data.length ≤ 4096) : Returns (f.write frame offset data) fun f' => f' =
      { f with
        bytes := Function.update f.bytes frame (Bytes.write (f.bytes frame) offset data) } :=
  (returns_assert h).bind fun _ _ => .ok rfl

theorem returns_read {f : Frames} {frame offset n : ℕ} (h : offset + n ≤ 4096) :
    Returns (f.read frame offset n) (· = Bytes.read (f.bytes frame) offset n) :=
  (returns_assert h).bind fun _ _ => .ok rfl

end Frames

/-! ### The cache -/

/-- The page of a file at an offset. -/
structure Key where
  (inodeId pageOffset : ℕ)
  deriving DecidableEq, Repr

/-- The derived order of the source: by inode, then by offset. -/
instance : LinearOrder Key :=
  LinearOrder.lift' (fun k => toLex (k.inodeId, k.pageOffset)) fun k k' h => by
    obtain ⟨hid, hoff⟩ := Prod.mk.inj (toLex.injective h)
    cases k; cases k'
    simp_all

/-- A cached page. -/
structure Page where
  (frame len pinCount : ℕ)
  dirty : Bool
  deriving DecidableEq, Repr

/-- The state of the cache, and the frames that it takes its pages from. -/
structure Store where
  frames : Frames
  map : SortedMap Key Page
  lru : List Key

def maxPages : ℕ := 1024

/-- The key of the page in which an offset lies. -/
def pageKey (inodeId offset : ℕ) : Key := ⟨inodeId, offset / 4096 * 4096⟩

namespace Store

variable (s : Store) (inodeId : ℕ)

/-- Move a key to the end of the queue. -/
def touch (k : Key) : Store := { s with lru := s.lru.filter (· ≠ k) ++ [k] }

/-- Take a page out of the cache and give its frame back. -/
def remove (k : Key) : Store :=
  match s.map.get? k with
  | none => { s with lru := s.lru.filter (· ≠ k) }
  | some page =>
    { map := s.map.eraseKey k, frames := s.frames.release page.frame,
      lru := s.lru.filter (· ≠ k) }

def lookup (pageOffset : ℕ) : Except Panic (Option (List UInt8) × Store) :=
  match s.map.get? (pageKey inodeId pageOffset) with
  | none => .ok (none, s)
  | some page => do
    let buf ← s.frames.read page.frame 0 page.len
    return (some buf, s.touch (pageKey inodeId pageOffset))

/-- The first key in the queue whose page is not pinned. -/
def victim : Option Key :=
  s.lru.find? fun k => match s.map.get? k with
    | some page => page.pinCount = 0
    | none => false

theorem exists_of_victim {s : Store} {k : Key} (h : s.victim = some k) :
    ∃ page, s.map.get? k = some page ∧ page.pinCount = 0 := by
  have hk := List.find?_some h
  grind

theorem length_remove_lt {s : Store} {k : Key} {page : Page} (h : s.map.get? k = some page) :
    (s.remove k).map.entries.length < s.map.entries.length := by
  have hmem := mem_entries_of_get? h
  have hlt : (s.map.entries.filter fun e => e.1 ≠ k).length < s.map.entries.length := by
    refine List.length_filter_lt_length_iff_exists.2 ⟨_, hmem, by simp⟩
  simpa [remove, h, eraseKey] using hlt

/-- The loop that makes room for a page. -/
def evict (s : Store) : Store :=
  if maxPages ≤ s.map.entries.length then
    match _h : s.victim with
    | none => s
    | some k => evict (s.remove k)
  else s
termination_by s.map.entries.length
decreasing_by
  obtain ⟨page, hpage, -⟩ := exists_of_victim _h
  exact length_remove_lt hpage

/-- Put a page into a cache that does not have it. -/
def put (k : Key) (page : Page) : Store :=
  let room := s.evict
  { room with map := room.map.insert k page, lru := room.lru ++ [k] }

def insert (pageOffset : ℕ) (data : List UInt8) : Except Panic Store :=
  if data = [] ∨ 4096 < data.length then .ok s
  else
    match s.frames.alloc with
    | none => .ok s
    | some (frame, frames) => do
      let frames ← (frames.zero frame).write frame 0 data
      let k := pageKey inodeId pageOffset
      let filled : Store := { s with frames := frames }
      let page : Page := ⟨frame, data.length, 0, false⟩
      match s.map.get? k with
      | none => return filled.put k page
      | some old =>
        if 0 < old.pinCount then return { s with frames := frames.release frame }
        else return (filled.remove k).put k page

/-- The keys of the pages of an inode that meet `[start, stop)`. -/
def keysIn (start stop : ℕ) : List Key :=
  s.map.keys.filter fun k => k.inodeId = inodeId ∧ start / 4096 * 4096 ≤ k.pageOffset ∧
    k.pageOffset < saturatingAddU64 stop 0xfff / 4096 * 4096

def invalidateRange (start stop : ℕ) : Store :=
  ((s.keysIn inodeId start stop).filter fun k => match s.map.get? k with
    | some page => page.pinCount = 0
    | none => false).foldl remove s

/-- Where the bytes of a write end. -/
def writeEnd (offset : ℕ) (data : List UInt8) : ℕ := saturatingAddU64 offset data.length

/-- What `write_through` does to a page that is pinned: the bytes that fall into it are copied. -/
def overwrite (k : Key) (page : Page) (offset : ℕ) (data : List UInt8)
    (pageEnd : ℕ) : Except Panic Store := do
  let ovLo := max offset k.pageOffset
  let ovHi := min (writeEnd offset data) pageEnd
  let inPage ← usizeSub ovLo k.pageOffset
  let src ← usizeSub ovLo offset
  let len ← usizeSub ovHi ovLo
  let part ← slice data src (src + len)
  let frames ← s.frames.write page.frame inPage part
  let newLen ← usizeSub ovHi k.pageOffset
  return { s with
    frames := frames
    map := s.map.insert k (if page.len < newLen then { page with len := newLen } else page) }

/-- The loop of `write_through` from the page at `po` on, with the keys of the pages to drop. -/
def writePages (s : Store) (inodeId offset : ℕ) (data : List UInt8) (po : ℕ) :
    Except Panic (Store × List Key) :=
  if po < writeEnd offset data then do
    let pageEnd := saturatingAddU64 po 4096
    match s.map.get? ⟨inodeId, po⟩ with
    | none => writePages s inodeId offset data pageEnd
    | some page =>
      if 0 < page.pinCount then do
        let s ← s.overwrite ⟨inodeId, po⟩ page offset data pageEnd
        writePages s inodeId offset data pageEnd
      else do
        let (s, drops) ← writePages s inodeId offset data pageEnd
        return (s, ⟨inodeId, po⟩ :: drops)
  else .ok (s, [])
termination_by writeEnd offset data - po
decreasing_by all_goals simp_all only [writeEnd, saturatingAddU64, usizeBound]; omega

def writeThrough (offset : ℕ) (data : List UInt8) : Except Panic Store :=
  if data = [] then .ok s
  else do
    let (s, drops) ← s.writePages inodeId offset data (offset / 4096 * 4096)
    return drops.foldl remove s

/-! ### Pages that fit -/

/-- A page of `len` bytes at an offset fits a frame and ends below the last 64-bit offset. -/
def PageFits (pageOffset len : ℕ) : Prop := len ≤ 4096 ∧ pageOffset + len < usizeBound

/-- Every cached page fits. -/
def Fits : Prop :=
  ∀ k page, s.map.get? k = some page → PageFits k.pageOffset page.len

variable {s} {k : Key} {page : Page} {inodeId offset : ℕ} {data : List UInt8}

theorem get?_remove {k' : Key} (h : (s.remove k).map.get? k' = some page) :
    s.map.get? k' = some page := by
  cases hk : s.map.get? k with
  | none => simpa [remove, hk] using h
  | some old =>
    have herase : (s.map.eraseKey k).get? k' = some page := by simpa [remove, hk] using h
    by_cases hkk : k' = k
    · rw [hkk, get?_eraseKey_self] at herase
      cases herase
    · rwa [get?_eraseKey_of_ne _ hkk] at herase

section

variable (h : s.Fits)

include h

theorem Fits.remove (k : Key) : (s.remove k).Fits := fun k' page hpage =>
  h k' page (get?_remove hpage)

theorem Fits.foldl_remove (ks : List Key) : (ks.foldl Store.remove s).Fits := by
  induction ks generalizing s with
  | nil => exact h
  | cons k ks ih => exact ih (h.remove k)

theorem Fits.evict : s.evict.Fits := by
  fun_induction Store.evict s with
  | case1 s hfull hv => exact h
  | case2 s hfull k hv ih => exact ih (h.remove k)
  | case3 s hfull => exact h

/-- A page that fits may be written to any place of the map. -/
theorem Fits.set (hpage : PageFits k.pageOffset page.len) {s' : Store}
    (hs' : s'.map = s.map.insert k page) : s'.Fits := by
  intro k' page' hget
  rw [hs'] at hget
  by_cases hk : k' = k
  · grind [get?_insert_self]
  · rw [get?_insert_of_ne _ hk] at hget
    exact h k' page' hget

theorem Fits.put (hpage : PageFits k.pageOffset page.len) : (s.put k page).Fits :=
  h.evict.set hpage rfl

/-- **Looking a page up** returns, and what is found fits. -/
theorem Fits.lookup (inodeId offset : ℕ) :
    Returns (s.lookup inodeId offset) fun r => r.2.Fits ∧
      ∀ buf ∈ r.1, PageFits (offset / 4096 * 4096) buf.length := by
  cases hget : s.map.get? (pageKey inodeId offset) with
  | none =>
    rw [Store.lookup, hget]
    exact .ok ⟨h, by simp⟩
  | some page =>
    have hfits := h _ page hget
    rw [Store.lookup, hget]
    refine (Frames.returns_read (by have := hfits.1; omega)).bind ?_
    rintro _ rfl
    refine .ok ⟨h, fun buf hbuf => ?_⟩
    cases hbuf
    rw [length_read]
    exact hfits

/-- **A page that has been read** may be kept. -/
theorem Fits.insert (hdata : offset / 4096 * 4096 + data.length < usizeBound) :
    Returns (s.insert inodeId offset data) Fits := by
  rw [Store.insert]
  split_ifs with hsize
  · exact .ok h
  obtain ⟨-, hlen⟩ := not_or.1 hsize
  have hfits : PageFits (pageKey inodeId offset).pageOffset data.length := ⟨not_lt.1 hlen, hdata⟩
  split
  · exact .ok h
  refine (Frames.returns_write (by omega)).bind fun filled _ => ?_
  have hfilled : Fits { s with frames := filled } := h
  show Returns (match s.map.get? (pageKey inodeId offset) with | none => _ | some old => _) _
  split
  · exact .ok (hfilled.put hfits)
  · split_ifs
    · exact .ok h
    · exact .ok ((hfilled.remove _).put hfits)

theorem Fits.overwrite (hpage : PageFits k.pageOffset page.len) (ho : offset < usizeBound)
    (hpo : k.pageOffset < writeEnd offset data) (hin : offset < k.pageOffset + 4096) :
    Returns (s.overwrite k page offset data (saturatingAddU64 k.pageOffset 4096)) Fits := by
  obtain ⟨lo, hlo⟩ : ∃ lo, lo = max offset k.pageOffset := ⟨_, rfl⟩
  obtain ⟨hi, hhi⟩ : ∃ hi, hi = min (writeEnd offset data) (saturatingAddU64 k.pageOffset 4096) :=
    ⟨_, rfl⟩
  have hle : offset ≤ lo ∧ k.pageOffset ≤ lo ∧ lo ≤ hi ∧ hi ≤ offset + data.length ∧
      hi ≤ k.pageOffset + 4096 ∧ hi < usizeBound := by
    simp only [writeEnd, saturatingAddU64, usizeBound] at *
    omega
  obtain ⟨hoff, hkey, hlohi, hdata, hfour, hbound⟩ := hle
  rw [Store.overwrite, ← hlo, ← hhi]
  refine (returns_usizeSub hkey).bind ?_
  rintro _ rfl
  refine (returns_usizeSub hoff).bind ?_
  rintro _ rfl
  refine (returns_usizeSub hlohi).bind ?_
  rintro _ rfl
  refine (returns_slice (by omega) (by omega)).bind fun part hpart => ?_
  refine (Frames.returns_write (by omega)).bind fun frames _ => ?_
  refine (returns_usizeSub (hkey.trans hlohi)).bind ?_
  rintro _ rfl
  refine .ok (h.set ?_ rfl)
  split_ifs
  · exact ⟨Nat.sub_le_iff_le_add'.2 hfour, by rw [Nat.add_sub_cancel' (hkey.trans hlohi)]; exact hbound⟩
  · exact hpage

/-- The loop from `po` on, where a page of the write begins unless the write ends there. -/
theorem Fits.writePages (ho : offset < usizeBound) {po : ℕ}
    (hpo : po < writeEnd offset data → 4096 ∣ po ∧ offset < po + 4096) :
    Returns (s.writePages inodeId offset data po) fun r => r.1.Fits := by
  have hnext : ∀ po, (po < writeEnd offset data → 4096 ∣ po ∧ offset < po + 4096) →
      po < writeEnd offset data → saturatingAddU64 po 4096 < writeEnd offset data →
        4096 ∣ saturatingAddU64 po 4096 ∧ offset < saturatingAddU64 po 4096 + 4096 := by
    intro po hpo hlt hlt'
    obtain ⟨⟨q, hq⟩, hin⟩ := hpo hlt
    simp only [writeEnd, saturatingAddU64, usizeBound] at *
    omega
  fun_induction Store.writePages s inodeId offset data po with
  | case1 s po hlt pageEnd hget ih => exact ih h (hnext po hpo hlt)
  | case2 s po hlt pageEnd page hget hpin ih =>
    refine (h.overwrite (k := ⟨inodeId, po⟩) (h _ page hget) ho hlt (hpo hlt).2).bind ?_
    exact fun s' hs' => ih s' hs' (hnext po hpo hlt)
  | case3 s po hlt pageEnd page hget hpin ih =>
    exact (ih h (hnext po hpo hlt)).bind fun r hr => .ok hr
  | case4 s po hlt => exact .ok h

/-- **Writing through the cache** returns. -/
theorem Fits.writeThrough (ho : offset < usizeBound) :
    Returns (s.writeThrough inodeId offset data) Fits := by
  rw [Store.writeThrough]
  split_ifs
  · exact .ok h
  · refine (h.writePages ho fun _ => ⟨Dvd.intro_left _ rfl, by omega⟩).bind fun r hr => ?_
    exact .ok (hr.foldl_remove r.2)

theorem Fits.invalidateRange (inodeId start stop : ℕ) :
    (s.invalidateRange inodeId start stop).Fits := h.foldl_remove _

end

end Store

end CypheraKernel.Fs
