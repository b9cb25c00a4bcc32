import CypheraKernel.Mm.Perms

/-!
# Physical frames and their reference counts

`frame/src/mm/frame_alloc.rs`.  Free frames are kept by a buddy allocator from a library; here it
is any `FrameAllocator`, of which only its documented behaviour is known.  On top of it every frame
below `refLen` has a 16-bit reference count.

* `allocFrame`, `freeFrame`, `frameRefInc`, `frameRefCount`: the functions of the source.  A count
  that reaches `countMax` stays there: the frame is pinned and never returned;
* `satInc`, `satDec`: what they do to a count.

The statistics counters are left out.  `mem` holds the bytes of the frames.
-/

namespace CypheraKernel.Mm

open List Function

/-- An allocator of single frames: its operations, the set of its free frames, and what the
operations do to that set. -/
structure FrameAllocator (σ : Type) where
  alloc : σ → Option (ℕ × σ)
  dealloc : σ → ℕ → σ
  free : σ → Finset ℕ
  alloc_none : ∀ s, alloc s = none ↔ free s = ∅
  alloc_some : ∀ {s f s'}, alloc s = some (f, s') → f ∈ free s ∧ free s' = (free s).erase f
  free_dealloc : ∀ s f, free (dealloc s f) = insert f (free s)

/-- An allocator that keeps its free frames in a list. -/
def listAllocator : FrameAllocator (List ℕ) where
  alloc
    | [] => none
    | f :: fs => some (f, fs.filter fun g => g ≠ f)
  dealloc fs f := f :: fs
  free := List.toFinset
  alloc_none
    | [] => by simp
    | f :: fs => by simp
  alloc_some {s f s'} h := by
    cases s with
    | nil => cases h
    | cons g fs =>
      cases h
      refine ⟨by simp, ?_⟩
      ext k
      simp only [List.mem_toFinset, List.mem_filter, decide_eq_true_eq, Finset.mem_erase,
        List.mem_cons]
      tauto
  free_dealloc s f := List.toFinset_cons

/-- The saturation value of a reference count, `u16::MAX`. -/
def countMax : ℕ := 65535

/-! ### Saturating counts -/

/-- One reference more. -/
def satInc (c : ℕ) : ℕ := if c = countMax then c else c + 1

/-- One reference less. -/
def satDec (c : ℕ) : ℕ := if c = countMax then c else c - 1

variable {c : ℕ}

theorem satInc_iterate (hc : c ≤ countMax) (k : ℕ) : satInc^[k] c = min (c + k) countMax := by
  induction k with
  | zero => simpa using hc
  | succ k ih =>
    rw [iterate_succ_apply', ih, satInc]
    split_ifs <;> omega

theorem satDec_iterate_countMax (k : ℕ) : satDec^[k] countMax = countMax := by
  induction k with
  | zero => rfl
  | succ k ih => rw [iterate_succ_apply', ih, satDec, if_pos rfl]

theorem satDec_iterate (hc : c < countMax) (k : ℕ) : satDec^[k] c = c - k := by
  induction k with
  | zero => rfl
  | succ k ih =>
    rw [iterate_succ_apply', ih, satDec, if_neg (by omega)]
    omega

/-- Taking `k` references and giving them back restores a count exactly when it does not saturate
on the way, or was pinned before. -/
theorem satDec_satInc_iterate (hc : c ≤ countMax) (k : ℕ) :
    satDec^[k] (satInc^[k] c) = c ↔ k = 0 ∨ c + k < countMax ∨ c = countMax := by
  grind [satInc_iterate, satDec_iterate, satDec_iterate_countMax]

/-! ### Frames -/

/-- The state of physical memory. -/
structure Frames (σ : Type) where
  pool : σ
  refLen : ℕ
  count : ℕ → UInt16
  mem : ℕ → ℕ → UInt8

namespace Frames

variable {σ : Type} (A : FrameAllocator σ) (g : ℕ)

/-- `frame_ref_count`: `0` for a frame without a counter. -/
def frameRefCount (fr : Frames σ) (f : ℕ) : ℕ := if f < fr.refLen then (fr.count f).toNat else 0

def setCount (fr : Frames σ) (f : ℕ) (c : UInt16) : Frames σ :=
  { fr with count := update fr.count f c }

def allocFrame (fr : Frames σ) : Option (ℕ × Frames σ) :=
  match A.alloc fr.pool with
  | none => none
  | some (f, pool) =>
    let fr := { fr with pool := pool }
    some (f, if f < fr.refLen then fr.setCount f 1 else fr)

def frameRefInc (fr : Frames σ) (f : ℕ) : Frames σ :=
  if f < fr.refLen then
    if fr.count f = 65535 then fr else fr.setCount f (fr.count f + 1)
  else fr

def freeFrame (fr : Frames σ) (f : ℕ) : Frames σ :=
  if f < fr.refLen then
    if fr.count f = 0 ∨ fr.count f = 65535 then fr
    else
      let fr' := fr.setCount f (fr.count f - 1)
      if fr.count f = 1 then { fr' with pool := A.dealloc fr'.pool f } else fr'
  else { fr with pool := A.dealloc fr.pool f }

/-- Return a list of frames, in order. -/
def freeFrames (fr : Frames σ) (fs : List ℕ) : Frames σ := fs.foldl (freeFrame A) fr

/-- `zero_frame`. -/
def zeroFrame (fr : Frames σ) (f : ℕ) : Frames σ :=
  { fr with mem := update fr.mem f fun _ => 0 }

/-- Copy the bytes of one frame to another. -/
def copyFrame (fr : Frames σ) (src dst : ℕ) : Frames σ :=
  { fr with mem := update fr.mem dst (fr.mem src) }

/-- Write one byte. -/
def writeByte (fr : Frames σ) (f off : ℕ) (b : UInt8) : Frames σ :=
  { fr with mem := update fr.mem f (update (fr.mem f) off b) }

section

variable (fr : Frames σ)

include fr

theorem mem_writeByte_of_ne {f g : ℕ} (h : g ≠ f) (off : ℕ) (b : UInt8) :
    (fr.writeByte f off b).mem g = fr.mem g := update_of_ne h _ _

variable (f : ℕ)

theorem frameRefCount_le : fr.frameRefCount f ≤ countMax := by
  unfold frameRefCount
  split_ifs
  · have := (fr.count f).toNat_lt
    unfold countMax
    omega
  · exact Nat.zero_le _

theorem frameRefCount_setCount {f : ℕ} (hf : f < fr.refLen) (c : UInt16) (g : ℕ) :
    (fr.setCount f c).frameRefCount g = if g = f then c.toNat else fr.frameRefCount g := by
  unfold frameRefCount setCount
  by_cases h : g = f
  · subst h
    simp [hf]
  · simp [h]

@[simp] theorem refLen_frameRefInc : (fr.frameRefInc f).refLen = fr.refLen := by
  unfold frameRefInc
  split_ifs <;> rfl

@[simp] theorem pool_frameRefInc : (fr.frameRefInc f).pool = fr.pool := by
  unfold frameRefInc
  split_ifs <;> rfl

theorem frameRefCount_frameRefInc {f : ℕ} (hf : f < fr.refLen) (g : ℕ) :
    (fr.frameRefInc f).frameRefCount g =
      if g = f then satInc (fr.frameRefCount f) else fr.frameRefCount g := by
  have hc : fr.frameRefCount f = (fr.count f).toNat := if_pos hf
  unfold frameRefInc
  rw [if_pos hf]
  split_ifs with hmax hg hg
  · subst hg
    rw [satInc, hc, hmax]
    rfl
  · rfl
  · rw [frameRefCount_setCount _ hf, if_pos hg, satInc, hc, if_neg, UInt16.toNat_add]
    · have h1 := (fr.count f).toNat_lt
      have h2 : (fr.count f).toNat ≠ 65535 := fun h => hmax (UInt16.toNat_inj.1 h)
      have h3 : (1 : UInt16).toNat = 1 := rfl
      omega
    · exact fun h => hmax (UInt16.toNat_inj.1 h)
  · rw [frameRefCount_setCount _ hf, if_neg hg]

@[simp] theorem refLen_freeFrame : (fr.freeFrame A f).refLen = fr.refLen := by
  unfold freeFrame
  split_ifs <;> rfl

theorem frameRefCount_freeFrame :
    (fr.freeFrame A f).frameRefCount g =
      if g = f then satDec (fr.frameRefCount f) else fr.frameRefCount g := by
  unfold freeFrame
  by_cases hf : f < fr.refLen
  · have hc : fr.frameRefCount f = (fr.count f).toNat := if_pos hf
    rw [if_pos hf]
    by_cases hstay : fr.count f = 0 ∨ fr.count f = 65535
    · rw [if_pos hstay]
      have hsame : satDec (fr.frameRefCount f) = fr.frameRefCount f := by
        rcases hstay with h | h <;> rw [satDec, hc, h] <;> rfl
      rw [hsame]
      split_ifs with hg
      · rw [hg]
      · rfl
    · rw [if_neg hstay]
      push Not at hstay
      have h0 : (fr.count f).toNat ≠ 0 := fun h => hstay.1 (UInt16.toNat_inj.1 h)
      have hmax : (fr.count f).toNat ≠ countMax := fun h => hstay.2 (UInt16.toNat_inj.1 h)
      have hle : (1 : UInt16) ≤ fr.count f := UInt16.le_iff_toNat_le.2 (Nat.one_le_iff_ne_zero.2 h0)
      have hset : (fr.setCount f (fr.count f - 1)).frameRefCount g =
          if g = f then satDec (fr.frameRefCount f) else fr.frameRefCount g := by
        rw [frameRefCount_setCount _ hf, satDec, hc, if_neg hmax, UInt16.toNat_sub_of_le _ _ hle]
        rfl
      split_ifs at hset ⊢ <;> exact hset
  · have hc : fr.frameRefCount f = 0 := if_neg hf
    rw [if_neg hf]
    split_ifs with hg
    · rw [hg, hc]
      exact hc
    · rfl

/-- A frame returns to the pool with its last reference. -/
theorem free_freeFrame {f : ℕ} (hf : f < fr.refLen) :
    A.free (fr.freeFrame A f).pool =
      if fr.frameRefCount f = 1 then insert f (A.free fr.pool) else A.free fr.pool := by
  have hc : fr.frameRefCount f = (fr.count f).toNat := if_pos hf
  have hone : fr.frameRefCount f = 1 ↔ fr.count f = 1 := by
    rw [hc]
    exact UInt16.toNat_inj (b := 1)
  unfold freeFrame
  rw [if_pos hf]
  by_cases h1 : fr.count f = 1
  · rw [if_pos (hone.2 h1), if_neg (by rw [h1]; decide), if_pos h1]
    exact A.free_dealloc _ f
  · rw [if_neg (fun h => h1 (hone.1 h))]
    split_ifs <;> rfl

end

/-- What an allocation does: a free frame leaves the pool with one reference. -/
theorem allocFrame_eq_some {fr fr' : Frames σ} {f : ℕ} (h : fr.allocFrame A = some (f, fr')) :
    f ∈ A.free fr.pool ∧ A.free fr'.pool = (A.free fr.pool).erase f ∧ fr'.refLen = fr.refLen ∧
      ∀ g, fr'.frameRefCount g = if g = f ∧ f < fr.refLen then 1 else fr.frameRefCount g := by
  unfold allocFrame at h
  split at h
  · cases h
  rename_i g pool halloc
  obtain ⟨hfree, hpool⟩ := A.alloc_some halloc
  obtain ⟨rfl, rfl⟩ := Prod.mk.inj (Option.some.inj h)
  by_cases hf : g < fr.refLen
  · rw [if_pos hf]
    refine ⟨hfree, hpool, rfl, fun g' => ?_⟩
    have hset := frameRefCount_setCount { fr with pool := pool } hf 1 g'
    simp only [hf, and_true]
    exact hset
  · rw [if_neg hf]
    refine ⟨hfree, hpool, rfl, fun g' => ?_⟩
    rw [if_neg (fun h => hf h.2)]
    rfl

theorem mem_zeroFrame {fr : Frames σ} {f g : ℕ} (h : g = f ∨ fr.mem g = fun _ => 0) :
    (fr.zeroFrame f).mem g = fun _ => 0 := by
  rcases eq_or_ne g f with rfl | hne
  · exact update_self ..
  · exact (update_of_ne hne ..).trans (h.resolve_left hne)

theorem mem_allocFrame {fr fr' : Frames σ} {f : ℕ} (h : fr.allocFrame A = some (f, fr')) :
    fr'.mem = fr.mem := by
  unfold allocFrame at h
  split at h
  · cases h
  · cases h
    split_ifs <;> rfl

theorem allocFrame_eq_none {fr : Frames σ} : fr.allocFrame A = none ↔ A.free fr.pool = ∅ := by
  rw [← A.alloc_none, allocFrame]
  split
  · simp [*]
  · simp [*]

/-! ### Returning a list of frames -/

variable (fr : Frames σ) (fs : List ℕ)

@[simp] theorem refLen_freeFrames : (fr.freeFrames A fs).refLen = fr.refLen := by
  induction fs generalizing fr with
  | nil => rfl
  | cons f fs ih => exact (ih _).trans (refLen_freeFrame A fr f)

theorem freeFrames_append (gs : List ℕ) :
    fr.freeFrames A (fs ++ gs) = (fr.freeFrames A fs).freeFrames A gs := foldl_append

/-- A frame loses one reference for each time it is in the list. -/
theorem frameRefCount_freeFrames :
    (fr.freeFrames A fs).frameRefCount g = satDec^[fs.count g] (fr.frameRefCount g) := by
  induction fs generalizing fr with
  | nil => rfl
  | cons f fs ih =>
    have h : (fr.freeFrames A (f :: fs)).frameRefCount g =
        ((fr.freeFrame A f).freeFrames A fs).frameRefCount g := rfl
    rw [h, ih, frameRefCount_freeFrame]
    by_cases hg : g = f
    · rw [if_pos hg, hg, count_cons_self, iterate_succ_apply]
    · rw [if_neg hg, count_cons_of_ne (Ne.symm hg)]

theorem mem_free_freeFrame (f g : ℕ) :
    g ∈ A.free (fr.freeFrame A f).pool ↔
      g ∈ A.free fr.pool ∨ g = f ∧ (f < fr.refLen → fr.frameRefCount f = 1) := by
  by_cases hf : f < fr.refLen
  · rw [free_freeFrame A fr hf]
    by_cases h1 : fr.frameRefCount f = 1
    · simp [h1, or_comm]
    · simp [h1, hf]
  · simp_all [freeFrame, if_neg, A.free_dealloc, or_comm]

/-- A list of frames returns to the pool those frames that have no counter, or no more references
than the list returns. -/
theorem mem_free_freeFrames :
    g ∈ A.free (fr.freeFrames A fs).pool ↔
      g ∈ A.free fr.pool ∨ g ∈ fs ∧ (g < fr.refLen → 0 < fr.frameRefCount g ∧
        fr.frameRefCount g ≠ countMax ∧ fr.frameRefCount g ≤ fs.count g) := by
  induction fs generalizing fr with
  | nil => simp [freeFrames]
  | cons f fs ih =>
    have h : fr.freeFrames A (f :: fs) = (fr.freeFrame A f).freeFrames A fs := rfl
    rw [h, ih, mem_free_freeFrame, refLen_freeFrame, frameRefCount_freeFrame]
    by_cases hg : g = f
    · subst hg
      have hmem : g ∈ fs ↔ 0 < fs.count g := count_pos_iff.symm
      rw [if_pos rfl, count_cons_self, hmem]
      simp only [mem_cons, true_or, true_and]
      by_cases hfree : g ∈ A.free fr.pool
      · simp [hfree]
      by_cases hlen : g < fr.refLen
      · simp only [hfree, hlen, true_implies, false_or]
        have hle := fr.frameRefCount_le g
        unfold satDec countMax at *
        by_cases hmax : fr.frameRefCount g = 65535
        · rw [if_pos hmax]
          omega
        · rw [if_neg hmax]
          omega
      · simp [hlen]
    · rw [if_neg hg, count_cons_of_ne (Ne.symm hg)]
      simp [hg]

/-! ### What a caller owes -/

/-- Between two states of memory a caller has taken references to frames in use, one for each
element of `taken`, and has acquired free frames. -/
structure Ledger (fr fr' : Frames σ) (taken acquired : List ℕ) : Prop where
  refLen_eq : fr'.refLen = fr.refLen
  taken_ne_zero : ∀ f ∈ taken, fr.frameRefCount f ≠ 0
  nodup : acquired.Nodup
  acquired_free : ∀ f ∈ acquired, f ∈ A.free fr.pool
  free_eq : A.free fr'.pool = A.free fr.pool \ acquired.toFinset
  count_eq : ∀ f, fr'.frameRefCount f =
    if f ∈ acquired ∧ f < fr.refLen then 1 else satInc^[taken.count f] (fr.frameRefCount f)

namespace Ledger

variable {A} {fr fr' fr'' : Frames σ} {taken acquired : List ℕ} {f : ℕ}

theorem refl (fr : Frames σ) : Ledger A fr fr [] [] where
  refLen_eq := rfl
  taken_ne_zero := by simp
  nodup := nodup_nil
  acquired_free := by simp
  free_eq := by simp
  count_eq := by simp

section

variable (h : Ledger A fr fr' taken acquired)

include h

theorem zeroFrame : Ledger A fr (fr'.zeroFrame g) taken acquired :=
  ⟨h.refLen_eq, h.taken_ne_zero, h.nodup, h.acquired_free, h.free_eq, h.count_eq⟩

theorem copyFrame (src dst : ℕ) : Ledger A fr (fr'.copyFrame src dst) taken acquired :=
  ⟨h.refLen_eq, h.taken_ne_zero, h.nodup, h.acquired_free, h.free_eq, h.count_eq⟩

theorem alloc (ha : fr'.allocFrame A = some (f, fr'')) :
    Ledger A fr fr'' taken (acquired ++ [f]) := by
  obtain ⟨hfree, hpool, hlen, hcount⟩ := allocFrame_eq_some A ha
  rw [h.free_eq, Finset.mem_sdiff, mem_toFinset] at hfree
  refine ⟨hlen.trans h.refLen_eq, h.taken_ne_zero, ?_, ?_, ?_, ?_⟩
  · grind [h.nodup]
  · grind [h.acquired_free]
  · grind [h.free_eq, mem_toFinset]
  intro g
  rw [hcount, h.refLen_eq, h.count_eq]
  by_cases hg : g = f
  · simp_all
  · simp [hg]

/-- The order of the acquired frames does not matter. -/
theorem perm {acquired' : List ℕ}
    (hp : acquired'.Perm acquired) : Ledger A fr fr' taken acquired' where
  refLen_eq := h.refLen_eq
  taken_ne_zero := h.taken_ne_zero
  nodup := hp.nodup_iff.2 h.nodup
  acquired_free f hf := h.acquired_free f (hp.mem_iff.1 hf)
  free_eq := by rw [h.free_eq, toFinset_eq_of_perm _ _ hp]
  count_eq f := by simp only [h.count_eq, hp.mem_iff]

/-- Whether a frame that was in use has a counter running does not change. -/
theorem frameRefCount_eq_zero (hf : f ∉ A.free fr.pool) :
    fr'.frameRefCount f = 0 ↔ fr.frameRefCount f = 0 := by
  have hle := fr.frameRefCount_le f
  rw [h.count_eq, if_neg fun hf' => hf (h.acquired_free f hf'.1), satInc_iterate hle]
  by_cases ht : f ∈ taken
  · have := h.taken_ne_zero f ht
    omega
  · rw [count_eq_zero.2 ht]
    omega

theorem length_acquired : acquired.length + (A.free fr'.pool).card = (A.free fr.pool).card := by
  grind [h.acquired_free, mem_toFinset, h.free_eq, toFinset_card_of_nodup, h.nodup,
    Finset.card_sdiff_add_card_eq_card]

theorem inc (hf : f ∉ A.free fr.pool)
    (h0 : fr.frameRefCount f ≠ 0) : Ledger A fr (fr'.frameRefInc f) (taken ++ [f]) acquired := by
  have hlt : f < fr.refLen := by
    by_contra hlt
    exact h0 (if_neg hlt)
  have hf : f ∉ acquired := fun ha => hf (h.acquired_free f ha)
  refine ⟨by rw [refLen_frameRefInc, h.refLen_eq], ?_, h.nodup, h.acquired_free, ?_, ?_⟩
  · grind [h.taken_ne_zero]
  · rw [pool_frameRefInc, h.free_eq]
  intro g
  rw [frameRefCount_frameRefInc _ (h.refLen_eq ▸ hlt)]
  by_cases hg : g = f
  · simp_all [h.count_eq, iterate_succ_apply']
  · have h0 : [f].count g = 0 := count_eq_zero.2 (by simpa using hg)
    rw [if_neg hg, h.count_eq, count_append, h0]
    rfl

/-- **Settling the account.**  When everything taken and acquired is returned, in any order, the
pool is as before, and so is every count that has not saturated on the way. -/
theorem release {fs : List ℕ}
    (hfs : fs.Perm (taken ++ acquired)) (hzero : ∀ f ∈ A.free fr.pool, fr.frameRefCount f = 0) :
    A.free (fr'.freeFrames A fs).pool = A.free fr.pool ∧
      ∀ f, (fr'.freeFrames A fs).frameRefCount f =
        satDec^[taken.count f] (satInc^[taken.count f] (fr.frameRefCount f)) := by
  have hcount : ∀ f, fs.count f = taken.count f + acquired.count f := fun f => by
    rw [hfs.count_eq, count_append]
  have hsplit : ∀ f ∈ acquired, taken.count f = 0 ∧ acquired.count f = 1 := fun f hf =>
    ⟨count_eq_zero.2 fun ht => h.taken_ne_zero f ht (hzero f (h.acquired_free f hf)),
      count_eq_one_of_mem h.nodup hf⟩
  constructor
  · ext f
    rw [mem_free_freeFrames, h.free_eq, h.refLen_eq, Finset.mem_sdiff, mem_toFinset,
      hfs.mem_iff, mem_append]
    by_cases hf : f ∈ acquired
    · grind [countMax, h.acquired_free, h.count_eq]
    by_cases ht : f ∈ taken
    · have hlt : f < fr.refLen := by
        by_contra hlt
        exact h.taken_ne_zero f ht (if_neg hlt)
      have h0 := h.taken_ne_zero f ht
      have hle := fr.frameRefCount_le f
      rw [hcount, count_eq_zero.2 hf, h.count_eq, if_neg (fun h => hf h.1),
        satInc_iterate hle]
      simp only [hf, ht, hlt, not_false_eq_true, and_true, or_false, true_implies, true_and]
      constructor
      · grind
      · exact .inl
    · simp [hf, ht]
  · intro f
    rw [frameRefCount_freeFrames, hcount, h.count_eq]
    by_cases hf : f ∈ acquired
    · obtain ⟨h0, h1⟩ := hsplit f hf
      rw [h0, h1, hzero f (h.acquired_free f hf)]
      by_cases hlt : f < fr.refLen <;> simp [hf, hlt] <;> rfl
    · rw [count_eq_zero.2 hf, if_neg (fun h => hf h.1)]
      rfl

end

end Ledger

end Frames

end CypheraKernel.Mm
