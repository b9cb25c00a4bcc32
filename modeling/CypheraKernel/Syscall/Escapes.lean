import CypheraKernel.Syscall.CallSpecs

/-!
# How a memory call leaves the user half

The converse of the specifications of the memory calls: when the range of a call reaches beyond the
user half, there are surroundings in which the call stops at an address or changes the kernel half.

* `exists_boundary`: a loop over the pages of such a range comes to a page that is not canonical;
* `stop_pageAddresses`, `stop_mapSharedSegment`, `stop_populateNew`: it stops there;
* `busyWorld`, `readySpace`, `filledSpace`: surroundings in which nothing else goes wrong before.
-/

namespace CypheraKernel.Syscall

open Mm Rust Program VmSpace Mapper

variable {σ : Type} {α : Type} (A : FrameAllocator σ) [Mapper A] (w : World) {g : ℕ → Option Pte}
  {st : Caller σ} {lo len : ℕ}

/-- A stop that an address is to blame for. -/
def AddressStop (e : Stop) (_ : Caller σ) : Prop := e = .addressOverflow ∨ e = .nonCanonical

theorem AddressStop.not_benign {e : Stop} (h : AddressStop e st) {st' : Caller σ} :
    ¬ Benign g e st' := by
  rintro ⟨h' | h', -⟩ <;> rcases h with h | h <;> rw [h] at h' <;> cases h'

section Addresses

variable {Q : PUnit → Caller σ → Prop} {E : Stop → Caller σ → Prop} {a b : ℕ}

theorem wp_virtAddr (h : a < userVaEnd ∨ kernelVaStart ≤ a) : wp (virtAddr a) Q E st ↔ Q ⟨⟩ st := by
  unfold virtAddr
  rw [if_pos h, wp_pure]

theorem stop_virtAddr (h1 : userVaEnd ≤ a) (h2 : a < kernelVaStart) :
    wp (virtAddr a) Q AddressStop st := by
  unfold virtAddr
  rw [if_neg (by omega)]
  exact (wp_throw _).2 (.inr rfl)

theorem stop_addAddr {Q : ℕ → Caller σ → Prop} (h : usizeBound ≤ a + b) :
    wp (addAddr a b) Q AddressStop st := by
  unfold addAddr
  rw [if_neg (by omega)]
  exact (wp_throw _).2 (.inl rfl)

end Addresses

/-! ### Loops over pages -/

/-- The pages of a range that leaves the user half: first those below its end, then one that is not
canonical. -/
theorem exists_boundary {base n : ℕ} (hal : Aligned base) (hn : 0 < n) (hlt : base < kernelVaStart)
    (h : userVaEnd < base + n * pageSize) :
    ∃ j < n, (userVaEnd ≤ base + j * pageSize ∧ base + j * pageSize < kernelVaStart) ∧
      ∀ i < j, base + i * pageSize < userVaEnd := by
  by_cases hb : base < userVaEnd
  · refine ⟨(userVaEnd - base) / pageSize, ?_, ⟨?_, ?_⟩, fun i hi => ?_⟩ <;>
      unfold Aligned userVaEnd kernelVaStart pageSize at * <;> omega
  · exact ⟨0, hn, ⟨by omega, by omega⟩, by omega⟩

section Pages

variable {Q : PUnit → Caller σ → Prop} {E : Stop → Caller σ → Prop} {base n : ℕ}

theorem wp_pageAddresses (hb : base + n * pageSize ≤ usizeBound)
    (h : base + n * pageSize ≤ userVaEnd ∨ kernelVaStart ≤ base) (hQ : Q ⟨⟩ st) :
    wp (pageAddresses base n) Q E st := by
  refine (wp_forFrom (fun _ s => s = st) (fun i _ hi s hs => ?_) rfl).post fun _ s hs => hs ▸ hQ
  have := mul_lt_mul_of_pos_right hi (by decide : 0 < pageSize)
  grind [wp_bind, wp_addAddr, wp_virtAddr]

/-- The pages of a range that begins below the kernel half and ends beyond the user half. -/
theorem stop_pageAddresses (hal : Aligned base) (hn : 0 < n) (hlt : base < kernelVaStart)
    (h : userVaEnd < base + n * pageSize) : wp (pageAddresses base n) Q AddressStop st := by
  obtain ⟨j, hj, ⟨h1, h2⟩, hbelow⟩ := exists_boundary hal hn hlt h
  have hbound : kernelVaStart < usizeBound := kernelVaStart_lt_usizeBound
  have hsum {i : ℕ} (hi : base + i * pageSize < kernelVaStart) : base + i * pageSize < usizeBound :=
    hi.trans hbound
  refine wp_forFrom_stop (fun _ _ => True) (Nat.zero_le j) (by omega) (fun i _ hi s _ => ?_)
    (fun s _ => ?_) trivial
  · grind [wp_bind, wp_addAddr, wp_virtAddr]
  · rw [wp_bind, wp_addAddr (hsum h2)]
    exact stop_virtAddr h1 h2

/-- The pages of a range of the kernel half that wraps around. -/
theorem stop_pageAddresses_wrap (hal : Aligned base) (hge : kernelVaStart ≤ base)
    (hb : base < usizeBound) (h : usizeBound < base + n * pageSize) :
    wp (pageAddresses base n) Q AddressStop st := by
  obtain ⟨j, hj, hwrap, hbelow⟩ : ∃ j < n, usizeBound ≤ base + j * pageSize ∧
      ∀ i < j, base + i * pageSize < usizeBound := by
    refine ⟨(usizeBound - base) / pageSize, ?_, ?_, fun i hi => ?_⟩ <;>
      unfold Aligned usizeBound pageSize at * <;> omega
  refine wp_forFrom_stop (fun _ _ => True) (Nat.zero_le j) (by omega) (fun i _ hi s _ => ?_)
    (fun s _ => ?_) trivial
  · grind [wp_bind, wp_addAddr, wp_virtAddr]
  · rw [wp_bind]
    exact stop_addAddr hwrap

end Pages

/-! ### Surroundings -/

/-- A kernel that opens every file and has `n` frames in every segment, but charges no page. -/
def busyWorld (drm : Bool) (n : ℕ) : World where
  vforkBorrower := false
  largePage _ := false
  tryCharge _ := false
  pinOrLoad _ _ := none
  readAt _ _ := none
  file _ := some ⟨0, true⟩
  writeSealed _ := false
  writeSealedLater _ := false
  isDrm _ := drm
  drmSegment _ _ := some 0
  anonSegment _ := some 0
  segmentFrames _ := List.replicate n 0

/-- An address space without leaves that has the tables for `n` pages from `p` on. -/
def readySpace (p n : ℕ) : VmSpace where
  root := 0
  tables := ((List.range n).flatMap fun i => tableKeys (p + i)).map fun key => (key, 0)
  leaves := ∅

theorem leaf_readySpace (p n q : ℕ) : (readySpace p n).leaf q = none := by
  simp [readySpace, leaf]

theorem tablesAt_readySpace {p n i : ℕ} (hi : i < n) : (readySpace p n).TablesAt (p + i) := by
  intro key hkey
  grind [readySpace]

/-- A leaf that no new permissions look like: its accessed bit is set. -/
def usedLeaf : Pte := { Perms.userRw.toPte 0 with accessed := true }

/-- An address space with the leaf `usedLeaf` at `n` pages from `p` on. -/
def filledSpace : ℕ → ℕ → VmSpace
  | _, 0 => ⟨0, [], ∅⟩
  | p, n + 1 => (filledSpace (p + 1) n).setLeaf p usedLeaf

theorem leaf_filledSpace {p n q : ℕ} (h1 : p ≤ q) (h2 : q < p + n) :
    (filledSpace p n).leaf q = some usedLeaf := by
  induction n generalizing p with
  | zero => omega
  | succ n ih =>
    rw [filledSpace, leaf_setLeaf]
    split_ifs with heq
    · rfl
    · exact ih (by omega) (by omega)

/-! ### Page-table work beyond the user half -/

/-- Mapping a segment comes to a page beyond the user half. -/
theorem stop_mapSharedSegment {Q : Ret → Caller σ → Prop} {perms : Perms} {segment offset : ℕ}
    (hp : Spot lo len) (hend : userVaEnd < lo + len)
    (hseg : offset / pageSize + len / pageSize ≤ (w.segmentFrames segment).length)
    (hvm : ∀ i < len / pageSize,
      st.vm.leaf (lo / pageSize + i) = none ∧ st.vm.TablesAt (lo / pageSize + i)) :
    wp (mapSharedSegment A w lo len perms segment offset) Q AddressStop st := by
  have hle := hp.le
  have hpos := hp.pos
  have hlen : len / pageSize * pageSize = len := hp.length.div_mul
  have hn := hp.length.div_pos hpos
  obtain ⟨j, hj, ⟨h1, h2⟩, hbelow⟩ := exists_boundary hp.start hn (by omega) (by rwa [hlen])
  unfold mapSharedSegment
  rw [if_neg (by omega), wp_bind]
  refine wp_countWhile_stop (fun k s => ∀ i, k ≤ i → i < len / pageSize →
    s.vm.leaf (lo / pageSize + i) = none ∧ s.vm.TablesAt (lo / pageSize + i)) (Nat.zero_le j)
    (by omega) (fun k _ hk s hs => ?_) (fun s _ => ?_) fun i _ hi => hvm i hi
  · have hk' := hbelow k hk
    have hpage : (lo + k * pageSize) / pageSize = lo / pageSize + k :=
      Nat.add_mul_div_right _ _ (by decide)
    have hmod : (lo + k * pageSize) % pageSize = 0 := by
      rw [Nat.add_mul_mod_self_right]
      exact hp.start
    obtain ⟨hleaf, htab⟩ := hs k le_rfl (by omega)
    rw [wp_bind, wp_addAddr (hk'.trans userVaEnd_lt_usizeBound), wp_bind, wp_virtAddr (.inl hk'),
      if_neg (not_not.2 hmod), wp_bind]
    unfold mapOneFrame
    rw [wp_bind, wp_get, hpage, mapTo_of_tablesAt htab hleaf, wp_bind, wp_set, wp_pure, wp_pure]
    refine ⟨rfl, fun i hi hi' => ?_⟩
    obtain ⟨hleaf', htab'⟩ := hs i (by omega) hi'
    refine ⟨?_, htab'⟩
    rw [leaf_setLeaf, if_neg (by omega)]
    exact hleaf'
  · rw [wp_bind, wp_addAddr (h2.trans kernelVaStart_lt_usizeBound), wp_bind]
    exact stop_virtAddr h1 h2

section Uncharged

variable {a : ℕ} {Q : Bool → Caller σ → Prop} {E : Stop → Caller σ → Prop}

variable (hc : ∀ a, w.tryCharge a = false)

include hc

/-- A page that cannot be charged is not faulted in. -/
theorem wp_faultInPage_uncharged (isWrite grow : Bool)
    (hQ : Q false st) : wp (faultInPage A w a isWrite grow) Q E st := by
  unfold faultInPage
  rw [wp_bind, wp_get]
  split
  · simp_all [growStack]
  · simp_all

theorem wp_populateOnePage_uncharged (ha : a < userVaEnd)
    (hQ : ∀ b, Q b st) : wp (populateOnePage A w a) Q E st := by
  unfold populateOnePage
  rw [wp_bind, wp_get]
  split
  · exact wp.pure (hQ _)
  · refine wp.guard (hQ _) fun _ => ?_
    split
    · exact wp.pure (hQ _)
    · simp_all [Mm.translate, wp_virtAddr, wp.ite, wp_faultInPage_uncharged]

/-- A page without a leaf that cannot be charged cannot be accessed. -/
theorem wp_accessOk_uncharged (hvm : ∀ p, st.vm.leaf p = none) (ha : a + pageSize ≤ userVaEnd)
    (isWrite : Bool) (hQ : Q false st) : wp (accessOk A w a pageSize isWrite) Q E st := by
  have hlt := userVaEnd_lt_usizeBound
  have hfirst : a / pageSize * pageSize < userVaEnd := by grind [pageSize]
  have hallow : allows st.vm (a / pageSize * pageSize) isWrite = false := by
    simp [allows, hvm]
  unfold accessOk
  rw [if_neg (by decide), if_neg (by omega), if_neg (by omega), wp_bind, countWhile, wp_bind]
  unfold accessPage
  rw [wp_bind, wp_virtAddr (.inl hfirst), wp_bind, wp_get, if_neg (by simp [hallow]), wp_bind]
  unfold tryHandle
  rw [hvm, if_neg (by simp)]
  refine wp_faultInPage_uncharged A w hc _ _ (wp.pure ?_)
  simp_all

end Uncharged

/-- Faulting in the pages of an accessible range comes to a page beyond the user half. -/
theorem stop_populateNew {Q : PUnit → Caller σ → Prop} {fl : UInt32} {flags : UInt64}
    {prot : Perms} {backing : VmaBacking} (hc : ∀ a, w.tryCharge a = false) (hp : Spot lo len)
    (hend : userVaEnd < lo + len) (hshow : Shows st.mmap lo (lo + len) prot backing)
    (hprot : prot.accessible = true) (hback : ∀ segment offset, backing ≠ .shm segment offset)
    (hpop : populates fl flags = true) :
    wp (populateNew A w fl flags lo (lo + len)) Q AddressStop st := by
  have hle := hp.le
  have hpos := hp.pos
  have hlen : len / pageSize * pageSize = len := hp.length.div_mul
  have hn := hp.length.div_pos hpos
  obtain ⟨j, hj, ⟨h1, h2⟩, hbelow⟩ := exists_boundary hp.start hn (by omega) (by rwa [hlen])
  have hturns : (lo + len - lo + (pageSize - 1)) / pageSize = len / pageSize := by grind [pageSize]
  unfold populateNew eachPage
  rw [if_pos hpop, hturns]
  refine wp_forFrom_stop (fun _ s => s = st) (Nat.zero_le j) (by omega) (fun i _ hi s hs => ?_)
    (fun s hs => ?_) rfl
  · grind [pageSize, usizeBound, userVaEnd, wp_bind, wp_discard, wp_populateOnePage_uncharged,
      wp_addAddr]
  have hj' : lo + j * pageSize < lo + len := by grind [pageSize]
  obtain ⟨v, hv, hvprot, hvback⟩ := hshow.findContaining (Nat.le_add_right _ _) hj'
  rw [hs, wp_bind, wp_discard]
  unfold populateOnePage
  rw [wp_bind, wp_get, hv]
  show wp (if v.prot.accessible = false then _ else _) _ _ _
  rw [if_neg (by rw [hvprot, hprot]; decide)]
  split
  · rename_i segment offset heq
    rw [heq] at hvback
    obtain ⟨offset', hb⟩ := shm_of_advance hvback.symm
    exact absurd hb (hback _ _)
  · unfold Mm.translate
    rw [wp_bind, wp_bind]
    exact stop_virtAddr h1 h2

end CypheraKernel.Syscall
