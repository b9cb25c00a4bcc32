import CypheraKernel.Fs.Tmpfs

/-!
# File data as a byte sequence

A `PagedFile` of `kernel/src/fs/tmpfs.rs` against a mathematical byte sequence.

`paged_file_is_sparse`: **every sequence of operations reads what the same sequence reads from a
byte sequence**.
-/

namespace CypheraKernel.Fs

open Rust Bytes List SortedMap Frames

structure Content where
  len : ℕ
  byte : Memory

namespace Content

def empty : Content := ⟨0, zeros⟩

def read (c : Content) (offset n : ℕ) : List UInt8 :=
  Bytes.read c.byte offset (min (c.len - offset) n)

def write (c : Content) (offset : ℕ) (bs : List UInt8) : Content :=
  ⟨max c.len (offset + bs.length), Bytes.write c.byte offset bs⟩

/-- Bytes that are cut off are zero when they are exposed again. -/
def resize (c : Content) (len : ℕ) : Content := ⟨len, fun i => if i < len then c.byte i else 0⟩

end Content

/-- The frames with `part` in one of them. -/
def Frames.over (frames : Frames) (frame offset : ℕ) (part : List UInt8) : Frames :=
  { frames with
    bytes := Function.update frames.bytes frame (Bytes.write (frames.bytes frame) offset part) }

namespace PagedFile

/-- The frames of the file are its own. -/
structure Owns (f : PagedFile) (frames : Frames) : Prop where
  apart : ∀ p q frame, f.pages.get? p = some frame → f.pages.get? q = some frame → p = q
  taken : ∀ p frame, f.pages.get? p = some frame → frame ∉ frames.free
  free : frames.free.Nodup

structure Holds (f : PagedFile) (frames : Frames) (c : Content) : Prop where
  owns : f.Owns frames
  len : f.len.toNat = c.len
  data : f.data frames = c.byte
  clear : ∀ i, c.len ≤ i → c.byte i = 0

variable {f f' : PagedFile} {frames frames' : Frames} {c : Content} {offset n done : ℕ}
  {buf part : List UInt8}

/-! ### Reading -/

theorem returns_readInto_content (h : f.Holds frames c) :
    Returns (f.readInto frames offset n) (· = c.read offset n) := by
  have hlen : f.len.toNat < usizeBound := f.len.toNat_lt
  rw [readInto, Content.read, ← h.len, ← h.data]
  split_ifs with hend
  · exact .ok (by simp [Nat.sub_eq_zero_of_le hend, Bytes.read])
  · refine (returns_readPages_data (by omega) (Nat.zero_le _)).mono fun bytes hbytes => ?_
    simpa using hbytes

/-! ### Writing -/

theorem write_append (m : Memory) (a : ℕ) (xs ys : List UInt8) :
    write (write m a xs) (a + xs.length) ys = write m a (xs ++ ys) := by
  funext i
  by_cases hys : a + xs.length ≤ i
  · rw [Bytes.write, if_pos hys, write_of_le hys, Bytes.write, if_pos (by omega),
      getElem?_append_right (by omega), Nat.sub_sub]
  rw [write_of_lt (by omega)]
  simp only [Bytes.write]
  split_ifs with ha
  · rw [getElem?_append_left (by omega)]
  · rfl

/-- Bytes go into the frame of a page.  What `m` has where they go does not matter. -/
theorem data_over {m : Memory} {pos frame : ℕ} (h : f.Owns frames)
    (hget : f.pages.get? (pos / 4096) = some frame) (hpart : pos % 4096 + part.length ≤ 4096)
    (hm : ∀ i, i < pos ∨ pos + part.length ≤ i → f.data frames i = m i) :
    f.data (frames.over frame (pos % 4096) part) = Bytes.write m pos part := by
  funext i
  by_cases hi : i < pos ∨ pos + part.length ≤ i
  · have hwrite : Bytes.write m pos part i = m i := hi.elim write_of_lt write_of_le
    rw [hwrite, ← hm i hi]
    by_cases hpage : i / 4096 = pos / 4096
    · have hbyte : Bytes.write (frames.bytes frame) (pos % 4096) part (i % 4096) =
          frames.bytes frame (i % 4096) := by
        rcases hi with hi | hi
        · exact write_of_lt (by omega)
        · exact write_of_le (by omega)
      simp [data, hpage, hget, Frames.over, hbyte]
    rcases hget' : f.pages.get? (i / 4096) with _ | frame'
    · simp [data, hget']
    · have hne : frame' ≠ frame := by
        rintro rfl
        exact hpage (h.apart _ _ _ hget' hget)
      simp [data, hget', Frames.over, hne]
  · have hpage : i / 4096 = pos / 4096 ∧ i % 4096 - pos % 4096 = i - pos := by omega
    have hin : i - pos < part.length := by omega
    simp [data, hpage, hget, Frames.over, Bytes.write, hin, show pos % 4096 ≤ i % 4096 by omega,
      show pos ≤ i by omega]

/-- The frame for a write: outside of the write the bytes stay. -/
theorem frameFor_spec {pos take frame : ℕ} (h : f.Owns frames)
    (hfor : f.frameFor frames (pos / 4096) (pos % 4096) take = some (frame, f', frames')) :
    f'.Owns frames' ∧ f'.len = f.len ∧ f'.pages.get? (pos / 4096) = some frame ∧
      ∀ i, i < pos ∨ pos + take ≤ i → f'.data frames' i = f.data frames i := by
  rw [frameFor] at hfor
  split at hfor
  · next hget =>
    cases hfor
    exact ⟨h, rfl, hget, fun _ _ => rfl⟩
  next hget =>
  rw [alloc] at hfor
  rcases hfree : frames.free with _ | ⟨frame₁, rest⟩
  · simp [hfree] at hfor
  simp only [hfree, Option.some.injEq, Prod.mk.injEq] at hfor
  obtain ⟨rfl, rfl, rfl⟩ := hfor
  have hnodup := nodup_cons.1 (hfree ▸ h.free)
  have hold (p : ℕ) (frame : ℕ) (hp : f.pages.get? p = some frame) :
      frame ≠ frame₁ ∧ frame ∉ rest := by simpa [hfree] using h.taken p frame hp
  have hinsert (p : ℕ) : (f.pages.insert (pos / 4096) frame₁).get? p =
      if p = pos / 4096 then some frame₁ else f.pages.get? p := by
    split_ifs with hp
    · rw [hp, get?_insert_self]
    · exact get?_insert_of_ne _ hp _
  refine ⟨⟨fun p q frame hp hq => ?_, fun p frame hp => ?_, ?_⟩, rfl, by simp, fun i hi => ?_⟩
  · rw [hinsert] at hp hq
    have := h.apart p q frame
    grind
  · rw [hinsert] at hp
    grind [zero]
  · split_ifs <;> exact hnodup.2
  simp only [data, hinsert]
  by_cases hpage : i / 4096 = pos / 4096
  · rw [if_pos hpage, if_pos (by omega), hpage, hget]
    simp [zero, zeros]
  rw [if_neg hpage]
  rcases hget' : f.pages.get? (i / 4096) with _ | frame
  · rfl
  · have hne := (hold _ _ hget').1
    split_ifs <;> simp [zero, hne]

theorem Owns.over {frame pos : ℕ} (h : f.Owns frames) :
    f.Owns (frames.over frame pos part) := ⟨h.apart, h.taken, h.free⟩

theorem take_append_slice (l : List UInt8) (done k : ℕ) :
    l.take done ++ (l.take (done + k)).drop done = l.take (done + k) := by
  rw [drop_take, Nat.add_sub_cancel_left, take_add]

/-- The loop: a prefix of the buffer goes to the offset, all of it unless the frames run out. -/
theorem returns_writePages_data {m : Memory} (h : f.Owns frames)
    (hoff : offset + buf.length < usizeBound) (hdone : done ≤ buf.length)
    (hdata : f.data frames = Bytes.write m offset (buf.take done)) :
    Returns (f.writePages frames offset buf done) fun r =>
      r.2.1.Owns r.2.2 ∧ r.2.1.len = f.len ∧ r.1 ≤ buf.length ∧
        (r.1 = buf.length ∨ r.2.2.free = []) ∧
        r.2.1.data r.2.2 = Bytes.write m offset (buf.take r.1) := by
  fun_induction writePages f frames offset buf done with
  | case1 f frames done hlt ih =>
    refine (returns_usizeAdd (by omega)).bind ?_
    rintro pos rfl
    dsimp only
    set take := min (4096 - (offset + done) % 4096) (buf.length - done)
    rcases hfor : f.frameFor frames ((offset + done) / 4096) ((offset + done) % 4096) take with
      _ | ⟨frame, f', frames'⟩
    · have hfree : frames.free = [] := by
        rw [frameFor, alloc] at hfor
        grind
      exact .ok ⟨h, rfl, hdone, .inr hfree, hdata⟩
    obtain ⟨hown, hlen, hget, hout⟩ := frameFor_spec h hfor
    have hslice : slice buf done (done + take) = .ok ((buf.take (done + take)).drop done) :=
      if_pos (by omega)
    have hpart : ((buf.take (done + take)).drop done).length = take := by simp; omega
    dsimp only
    rw [hslice, ok_bind]
    refine (returns_write (by omega)).bind ?_
    rintro _ rfl
    rw [← hlen]
    refine ih (offset + done) f' _ hown.over (by omega) ?_
    have htake : (buf.take done).length = done := by simp [hdone]
    refine (data_over hown hget (by omega) (hpart.symm ▸ hout)).trans ?_
    rw [hdata, ← take_append_slice buf done take, ← write_append, htake, take_append_slice]
  | case2 f frames done hlt => exact .ok ⟨h, rfl, hdone, .inl (by omega), hdata⟩

theorem returns_writeFrom_content (h : f.Holds frames c) (hoff : offset + buf.length < usizeBound) :
    Returns (f.writeFrom frames offset buf) fun r =>
      r.2.1.Holds r.2.2 (c.write offset (buf.take r.1)) ∧ r.1 ≤ buf.length ∧
        (r.1 = buf.length ∨ r.2.2.free = []) := by
  refine (returns_writePages_data (m := c.byte) h.owns hoff (Nat.zero_le _) ?_).bind ?_
  · rw [h.data]
    funext i
    simp [Bytes.write]
  rintro ⟨k, f', frames'⟩ ⟨hown, hlen, hk, hall, hdata⟩
  have hbound : usizeBound = 2 ^ 64 := rfl
  have hstop : saturatingAddU64 offset k = offset + k := by rw [saturatingAddU64]; omega
  have hlen' : f'.len.toNat = c.len := by rw [hlen, h.len]
  have hclear (i : ℕ) (hi : max c.len (offset + (buf.take k).length) ≤ i) :
      Bytes.write c.byte offset (buf.take k) i = 0 := by
    rw [write_of_le (by omega), h.clear i (by omega)]
  have hkl : (buf.take k).length = k := by simp [hk]
  refine .ok ⟨?_, hk, hall⟩
  rw [hstop]
  split_ifs with hlt
  · have hmod : (offset + k) % 2 ^ 64 = offset + k := Nat.mod_eq_of_lt (by omega)
    refine ⟨⟨hown.apart, hown.taken, hown.free⟩, ?_, hdata, hclear⟩
    simp only [Content.write, hkl, UInt64.toNat_ofNat', hmod]
    omega
  · exact ⟨hown, by simp [Content.write, hkl]; omega, hdata, hclear⟩

/-! ### Resizing -/

theorem foldl_release (es : List (ℕ × ℕ)) (frames : Frames) :
    es.foldl (fun fr e => fr.release e.2) frames =
      { frames with free := (es.map Prod.snd).reverse ++ frames.free } := by
  induction es generalizing frames with
  | nil => rfl
  | cons e es ih =>
    rw [foldl_cons, ih]
    simp [release]

theorem get?_takeBelow (m : SortedMap ℕ ℕ) (k p : ℕ) :
    (m.takeBelow k).get? p = if p < k then m.get? p else none := by
  split_ifs with hp
  · rw [get?, get?, takeBelow, find?_filter]
    congr 2
    funext e
    by_cases he : e.1 = p <;> simp [he, hp]
  simp only [get?, takeBelow, find?_filter, Option.map_eq_none_iff,
    find?_eq_none]
  rintro e -
  simp
  omega

/-- The pages from `k` on are given back. -/
theorem Owns.split (h : f.Owns frames) (k : ℕ) :
    ({ f with pages := f.pages.takeBelow k } : PagedFile).Owns
      ((f.pages.dropBelow k).entries.foldl (fun fr e => fr.release e.2) frames) := by
  have hdrop (e : ℕ × ℕ) (he : e ∈ (f.pages.dropBelow k).entries) :
      f.pages.get? e.1 = some e.2 ∧ k ≤ e.1 := by
    obtain ⟨hmem, hk⟩ := mem_filter.1 he
    exact ⟨get?_of_mem_entries hmem, by simpa using hk⟩
  have hkeys : (f.pages.dropBelow k).entries.Nodup := .of_map _ (f.pages.dropBelow k).nodup_keys
  rw [foldl_release]
  refine ⟨fun p q frame hp hq => ?_, fun p frame hp => ?_, ?_⟩
  · rw [get?_takeBelow] at hp hq
    exact h.apart p q frame (by grind) (by grind)
  · rw [get?_takeBelow] at hp
    obtain ⟨hlt, hget⟩ : p < k ∧ f.pages.get? p = some frame := by grind
    have htaken := h.taken p frame hget
    have hapart (e : ℕ × ℕ) (he : e ∈ (f.pages.dropBelow k).entries) : e.2 ≠ frame := by
      rintro rfl
      have := h.apart _ _ _ (hdrop e he).1 hget
      have := (hdrop e he).2
      omega
    simpa [htaken] using fun q hq => hapart (q, frame) hq rfl
  · refine nodup_append.2 ⟨nodup_reverse.2 (hkeys.map_on fun e he e' he' heq => ?_),
      h.free, ?_⟩
    · exact Prod.ext (h.apart _ _ _ (hdrop e he).1 (heq ▸ (hdrop e' he').1)) heq
    · rintro _ hmem frame hfree rfl
      obtain ⟨e, he, rfl⟩ := mem_map.1 (mem_reverse.1 hmem)
      exact h.taken _ _ (hdrop e he).1 hfree

theorem data_split (k i : ℕ) :
    ({ f with pages := f.pages.takeBelow k } : PagedFile).data
      ((f.pages.dropBelow k).entries.foldl (fun fr e => fr.release e.2) frames) i =
      if i / 4096 < k then f.data frames i else 0 := by
  rw [foldl_release]
  simp only [data, get?_takeBelow]
  split_ifs <;> rfl

/-- The rest of the last page is cleared. -/
theorem returns_clearTail_data {newLen : ℕ} (h : f.Owns frames)
    (hlast : ∀ i, (newLen + 4095) / 4096 ≤ i / 4096 → f.data frames i = 0) :
    Returns (f.clearTail frames newLen) fun frames' =>
      f.Owns frames' ∧ f.data frames' = fun i => if i < newLen then f.data frames i else 0 := by
  rw [clearTail]
  by_cases htail : newLen % 4096 ≠ 0
  · rw [if_pos htail]
    rcases hget : f.pages.get? (newLen / 4096) with _ | frame
    · refine .ok ⟨h, funext fun i => ?_⟩
      split_ifs with hi
      · rfl
      · by_cases hpage : i / 4096 = newLen / 4096
        · rw [data, hpage, hget]
        · exact hlast i (by omega)
    refine (returns_write (by simp; omega)).mono ?_
    rintro _ rfl
    refine ⟨h.over, (data_over h hget (by simp; omega) fun _ _ => rfl).trans (funext fun i => ?_)⟩
    by_cases hi : i < newLen
    · rw [if_pos hi, write_of_lt hi]
    · rw [if_neg hi, Bytes.write, if_pos (by omega), getElem?_replicate]
      split_ifs with hin
      · rfl
      · exact hlast i (by omega)
  · rw [if_neg htail]
    refine .ok ⟨h, funext fun i => ?_⟩
    split_ifs with hi
    · rfl
    · exact hlast i (by omega)

theorem returns_resize_content {newLen : UInt64} (h : f.Holds frames c) :
    Returns (f.resize frames newLen) fun r => r.1.Holds r.2 (c.resize newLen.toNat) := by
  have hclear (i : ℕ) (hi : newLen.toNat ≤ i) : (c.resize newLen.toNat).byte i = 0 :=
    if_neg (by omega)
  rw [resize]
  split_ifs with hlt
  · refine (returns_clearTail_data (h.owns.split _) fun i hi => ?_).bind ?_
    · rw [data_split, if_neg (by omega)]
    rintro frames' ⟨hown, hdata⟩
    refine .ok ⟨⟨hown.apart, hown.taken, hown.free⟩, rfl, hdata.trans ?_, hclear⟩
    funext i
    simp only [data_split, h.data, Content.resize]
    by_cases hi : i < newLen.toNat
    · simp only [if_pos hi, if_pos (show i / 4096 < (newLen.toNat + 4095) / 4096 by omega)]
    · simp only [if_neg hi]
  · have hle : c.len ≤ newLen.toNat := by
      rw [← h.len]
      exact UInt64.not_lt.1 hlt
    refine .ok ⟨⟨h.owns.apart, h.owns.taken, h.owns.free⟩, rfl, h.data.trans ?_, hclear⟩
    funext i
    by_cases hi : i < newLen.toNat
    · exact (if_pos hi).symm
    · exact (h.clear i (by omega)).trans (if_neg hi).symm

/-! ### Sequences of operations -/

inductive Op
  | readInto (offset n : ℕ)
  | writeFrom (offset : ℕ) (buf : List UInt8)
  | resize (newLen : UInt64)

/-- Offsets and lengths do not overflow. -/
def Op.Fits : Op → Prop
  | readInto offset n => offset + n < usizeBound
  | writeFrom offset buf => offset + buf.length < usizeBound
  | resize _ => True

/-- What an operation returns; of a write also whether the frames have run out. -/
inductive Reply
  | read (bytes : List UInt8)
  | wrote (n : ℕ) (exhausted : Bool)
  | resized

def exec (f : PagedFile) (frames : Frames) : Op → Except Panic (Reply × PagedFile × Frames)
  | .readInto offset n => do
    let bytes ← f.readInto frames offset n
    return (.read bytes, f, frames)
  | .writeFrom offset buf => do
    let (n, f, frames) ← f.writeFrom frames offset buf
    return (.wrote n frames.free.isEmpty, f, frames)
  | .resize newLen => do
    let (f, frames) ← f.resize frames newLen
    return (.resized, f, frames)

def run (f : PagedFile) (frames : Frames) :
    List Op → Except Panic (List Reply × PagedFile × Frames)
  | [] => .ok ([], f, frames)
  | op :: ops => do
    let (reply, f, frames) ← f.exec frames op
    let (replies, f, frames) ← run f frames ops
    return (reply :: replies, f, frames)

/-- The operation on a byte sequence.  A write is short only when the frames have run out. -/
def Answers (c : Content) : Op → Reply → Content → Prop
  | .readInto offset n, .read bytes, c' => bytes = c.read offset n ∧ c' = c
  | .writeFrom offset buf, .wrote n exhausted, c' =>
    n ≤ buf.length ∧ (n = buf.length ∨ exhausted) ∧ c' = c.write offset (buf.take n)
  | .resize newLen, .resized, c' => c' = c.resize newLen.toNat
  | _, _, _ => False

def Replay : Content → List Op → List Reply → Content → Prop
  | c, [], [], c' => c' = c
  | c, op :: ops, reply :: replies, c' =>
    ∃ c₁, Answers c op reply c₁ ∧ Replay c₁ ops replies c'
  | _, _, _, _ => False

theorem returns_exec {op : Op} (h : f.Holds frames c) (hop : op.Fits) :
    Returns (f.exec frames op) fun r => ∃ c', Answers c op r.1 c' ∧ r.2.1.Holds r.2.2 c' := by
  cases op with
  | readInto offset n =>
    exact (returns_readInto_content h).bind fun bytes hbytes => .ok ⟨c, ⟨hbytes, rfl⟩, h⟩
  | writeFrom offset buf =>
    refine (returns_writeFrom_content h hop).bind ?_
    rintro ⟨n, f', frames'⟩ ⟨hholds, hn, hall⟩
    exact .ok ⟨_, ⟨hn, by simpa using hall, rfl⟩, hholds⟩
  | resize newLen =>
    exact (returns_resize_content h).bind fun r hholds => .ok ⟨_, rfl, hholds⟩

theorem returns_run {ops : List Op} (h : f.Holds frames c) (hops : ∀ op ∈ ops, op.Fits) :
    Returns (f.run frames ops) fun r => ∃ c', Replay c ops r.1 c' ∧ r.2.1.Holds r.2.2 c' := by
  induction ops generalizing f frames c with
  | nil => exact .ok ⟨c, rfl, h⟩
  | cons op ops ih =>
    refine (returns_exec h (hops op mem_cons_self)).bind ?_
    rintro ⟨reply, f₁, frames₁⟩ ⟨c₁, hreply, hc₁⟩
    refine (ih hc₁ fun o ho => hops o (mem_cons_of_mem _ ho)).bind ?_
    rintro ⟨replies, f', frames'⟩ ⟨c', hreplies, hc'⟩
    exact .ok ⟨c', ⟨c₁, hreply, hreplies⟩, hc'⟩

def new : PagedFile := ⟨empty, 0⟩

theorem holds_new (h : frames.free.Nodup) : new.Holds frames .empty :=
  ⟨⟨nofun, nofun, h⟩, rfl, rfl, fun _ _ => rfl⟩

/-- **A file is a sparse byte sequence.**  From the new file on, every sequence of operations that
do not overflow returns; the replies are those of the same operations on a byte sequence, and the
file ends with its length and bytes. -/
theorem paged_file_is_sparse (frames : Frames) (hfree : frames.free.Nodup) (ops : List Op)
    (hops : ∀ op ∈ ops, op.Fits) :
    ∃ replies f' frames' c', new.run frames ops = .ok (replies, f', frames') ∧
      Replay .empty ops replies c' ∧ f'.len.toNat = c'.len ∧ f'.data frames' = c'.byte := by
  obtain ⟨⟨replies, f', frames'⟩, hrun, c', hreplay, hholds⟩ := returns_run (holds_new hfree) hops
  exact ⟨replies, f', frames', c', hrun, hreplay, hholds.len, hholds.data⟩

/-- Bytes are written, cut off and exposed again. -/
theorem paged_file_is_sparse_cut :
    ∃ replies f' frames' c', new.run ⟨[0, 1], fun _ _ => 7⟩
        [.writeFrom 5 [1, 2], .resize 6, .readInto 0 8, .resize 8, .readInto 4 8] =
        .ok (replies, f', frames') ∧
      Replay .empty [.writeFrom 5 [1, 2], .resize 6, .readInto 0 8, .resize 8, .readInto 4 8]
        replies c' ∧ f'.len.toNat = c'.len ∧ f'.data frames' = c'.byte :=
  paged_file_is_sparse _ (by decide) _ (by simp [Op.Fits, usizeBound])

end PagedFile

end CypheraKernel.Fs
