import CypheraKernel.Lib.Rust

/-!
# Memories of bytes

A memory gives a byte for every address; a buffer is a memory of which only the first bytes matter.

`writeAll`: the fields of a record, written one after the other, and `read_writeAll`, by which
each field of a layout without overlaps reads back as it was written.
-/

namespace CypheraKernel.Rust

@[simp] theorem length_leBytes (n v : ℕ) : (leBytes n v).length = n := by
  induction n generalizing v with
  | zero => rfl
  | succ n ih => rw [leBytes, List.length_cons, ih]

theorem leNat_leBytes (n v : ℕ) : leNat (leBytes n v) = v % 256 ^ n := by
  induction n generalizing v with
  | zero => simp [leBytes, leNat, Nat.mod_one]
  | succ n ih =>
    have hbyte : (UInt8.ofNat v).toNat = v % 256 := UInt8.toNat_ofNat'
    rw [leBytes, leNat, ih, hbyte, pow_succ', Nat.mod_mul]

end CypheraKernel.Rust

namespace CypheraKernel.Bytes

open Rust List

/-- A memory: the byte at each address. -/
abbrev Memory := ℕ → UInt8

/-- The memory without content. -/
def zeros : Memory := fun _ => 0

/-- The `n` bytes from `a` on. -/
def read (m : Memory) (a n : ℕ) : List UInt8 := (range n).map fun i => m (a + i)

/-- The memory with the bytes `bs` from `a` on. -/
def write (m : Memory) (a : ℕ) (bs : List UInt8) : Memory := fun x =>
  if a ≤ x then bs[x - a]?.getD (m x) else m x

variable {m m' : Memory} {a b n k : ℕ} {bs : List UInt8} {fields : List (ℕ × List UInt8)}

@[simp] theorem length_read (m : Memory) (a n : ℕ) : (read m a n).length = n := by simp [read]

theorem read_add (m : Memory) (a j k : ℕ) : read m a (j + k) = read m a j ++ read m (a + j) k := by
  simp [read, range_add, add_assoc]

theorem write_of_lt {x : ℕ} (h : x < a) : write m a bs x = m x := if_neg (by omega)

theorem write_of_le {x : ℕ} (h : a + bs.length ≤ x) : write m a bs x = m x := by
  rw [write, if_pos (by omega), getElem?_eq_none (by omega), Option.getD_none]

/-- Memories that agree on a block read the same there. -/
theorem read_congr (h : ∀ i < n, m (a + i) = m' (b + i)) : read m a n = read m' b n := by
  refine map_congr_left fun i hi => ?_
  exact h i (mem_range.1 hi)

theorem read_write_self (m : Memory) (a : ℕ) (bs : List UInt8) :
    read (write m a bs) a bs.length = bs := by
  refine ext_getElem (by simp) fun i hi _ => ?_
  rw [length_read] at hi
  simp [read, write, hi]

theorem read_write_of_disjoint (h : b + n ≤ a ∨ a + bs.length ≤ b) :
    read (write m a bs) b n = read m b n := by
  refine read_congr fun i hi => ?_
  rcases h with h | h
  · exact write_of_lt (by omega)
  · exact write_of_le (by omega)

/-- Equal blocks have equal parts. -/
theorem read_part {i : ℕ} (h : read m a n = read m' b n) (hk : i + k ≤ n) :
    read m (a + i) k = read m' (b + i) k := by
  refine read_congr fun j hj => ?_
  have hbyte : (read m a n)[i + j]? = (read m' b n)[i + j]? := by rw [h]
  have hlt : i + j < n := by omega
  simpa [read, hlt, add_assoc] using hbyte

/-- A part of a copied block is the part of the source. -/
theorem read_write_read {i : ℕ} (m src : Memory) (a c : ℕ) (h : i + k ≤ n) :
    read (write m a (read src c n)) (a + i) k = read src (c + i) k := by
  refine read_part ?_ h
  have hself := read_write_self m a (read src c n)
  rwa [length_read] at hself

/-! ### Records -/

/-- Write the fields of a record, each at its offset. -/
def writeAll (m : Memory) : List (ℕ × List UInt8) → Memory
  | [] => m
  | (a, bs) :: fields => writeAll (write m a bs) fields

/-- The block that a field occupies: its offset and its length. -/
def block (field : ℕ × List UInt8) : ℕ × ℕ := (field.1, field.2.length)

/-- The blocks have no byte in common. -/
def Apart (x y : ℕ × ℕ) : Prop := x.1 + x.2 ≤ y.1 ∨ y.1 + y.2 ≤ x.1

instance : DecidableRel Apart := fun x y =>
  inferInstanceAs (Decidable (x.1 + x.2 ≤ y.1 ∨ y.1 + y.2 ≤ x.1))

theorem read_writeAll_of_apart
    (h : ∀ f ∈ fields, Apart (block f) (b, n)) : read (writeAll m fields) b n = read m b n := by
  induction fields generalizing m with
  | nil => rfl
  | cons f fields ih =>
    obtain ⟨hf, hrest⟩ := forall_mem_cons.1 h
    rw [writeAll, ih hrest]
    exact read_write_of_disjoint hf.symm

/-- **Fields.**  In a layout without overlaps every field reads back as it was written. -/
theorem read_writeAll {f : ℕ × List UInt8} (m : Memory)
    (happart : (fields.map block).Pairwise Apart) (h : f ∈ fields) :
    read (writeAll m fields) f.1 f.2.length = f.2 := by
  induction fields generalizing m with
  | nil => cases h
  | cons f' fields ih =>
    rw [map_cons, pairwise_cons] at happart
    rcases mem_cons.1 h with rfl | h
    · rw [writeAll, read_writeAll_of_apart, read_write_self]
      intro g hg
      exact (happart.1 _ (mem_map_of_mem hg)).symm
    · exact ih _ happart.2 h

/-! ### Words -/

/-- `to_le_bytes` of a 64-bit word. -/
def word64 (v : UInt64) : List UInt8 := leBytes 8 v.toNat

/-- `to_le_bytes` of a 32-bit word. -/
def word32 (v : UInt32) : List UInt8 := leBytes 4 v.toNat

/-- `to_le_bytes` of a 16-bit word. -/
def word16 (v : UInt16) : List UInt8 := leBytes 2 v.toNat

/-- `from_le_bytes` of the eight bytes at `a`. -/
def readWord (m : Memory) (a : ℕ) : UInt64 := .ofNat (leNat (read m a 8))

/-- `from_le_bytes` of the four bytes at `a`. -/
def readWord32 (m : Memory) (a : ℕ) : UInt32 := .ofNat (leNat (read m a 4))

/-- `from_le_bytes` of the two bytes at `a`. -/
def readWord16 (m : Memory) (a : ℕ) : UInt16 := .ofNat (leNat (read m a 2))

@[simp] theorem length_word64 (v : UInt64) : (word64 v).length = 8 := length_leBytes 8 _

@[simp] theorem length_word32 (v : UInt32) : (word32 v).length = 4 := length_leBytes 4 _

@[simp] theorem length_word16 (v : UInt16) : (word16 v).length = 2 := length_leBytes 2 _

theorem readWord_eq {v : UInt64} (h : read m a 8 = word64 v) : readWord m a = v := by
  have hlt : v.toNat < 256 ^ 8 := v.toNat_lt
  rw [readWord, h, word64, leNat_leBytes, Nat.mod_eq_of_lt hlt, UInt64.ofNat_toNat]

theorem readWord16_eq {v : UInt16} (h : read m a 2 = word16 v) : readWord16 m a = v := by
  have hlt : v.toNat < 256 ^ 2 := v.toNat_lt
  rw [readWord16, h, word16, leNat_leBytes, Nat.mod_eq_of_lt hlt, UInt16.ofNat_toNat]

end CypheraKernel.Bytes
