import CypheraKernel.Syscall.Escapes

/-!
# Memory calls and the user half

A memory call should return an error or change leaves of the user half only, without ever adding up
to an address that is not one.

`MemCall.WithinUserHalf`: the condition on the arguments and the memory map that decides it.
`munmap` and `mprotect` do not check that their range ends in the user half; the other calls
depend on where the arena of the process lies, which `MmapState.forPid` does not bound.
-/

namespace CypheraKernel.Syscall

open Mm Rust Program VmSpace Nat List MmapState

/-- The calls on the memory map. -/
inductive MemCall
  | munmap (addr length : UInt64)
  | mprotect (addr length prot : UInt64)
  | mremap (oldAddr oldSize newSize flags newAddr : UInt64)
  | madvise (addr len advice : UInt64)
  | mmap (addr length prot flags fd offset : UInt64)
  deriving DecidableEq, Repr

namespace MemCall

variable {σ : Type} (A : FrameAllocator σ) [Mapper A] (w : World)

def exec : MemCall → CallM σ Ret
  | munmap addr length => sysMunmap A w addr.toNat length.toNat
  | mprotect addr length prot => sysMprotect A w addr.toNat length.toNat prot
  | mremap oldAddr oldSize newSize flags newAddr =>
    sysMremap A w oldAddr.toNat oldSize.toNat newSize.toNat flags newAddr.toNat
  | madvise addr len advice => sysMadvise A w addr.toNat len.toNat advice
  | mmap addr length prot flags fd offset =>
    sysMmap A w addr.toNat length.toNat prot flags fd offset.toNat

/-- The call returns an error, or returns with the kernel half as it was; and it does not stop at an
address. -/
def Stays (x : CallM σ Ret) (st : Caller σ) : Prop :=
  wp x (fun r st' => (∃ e, r = .error e) ∨ KernelHalf st.vm.leaf st') (Benign st.vm.leaf) st

/-- The call stays in the user half whatever surrounds the memory map. -/
def StaysInUserHalf (s : MmapState) (c : MemCall) : Prop :=
  ∀ (σ : Type) (A : FrameAllocator σ) [Mapper A] (w : World) (vm : VmSpace) (fr : Frames σ),
    Stays (c.exec A w) ⟨s, vm, fr⟩

/-- What keeps a call in the user half: `munmap` and `mprotect` refuse their arguments or get a
range of the user half, the place that `mmap` or `mremap` finds lies in the user half unless nothing
is done in the page tables there, and the parts that `madvise` drops lie in the user half.  A range
that `mprotect` cannot cut because a file offset overflows never gets to the page tables. -/
def WithinUserHalf (s : MmapState) : MemCall → Prop
  | munmap addr length => length.toNat = 0 ∨ ¬ Aligned addr.toNat ∨
      addr.toNat + alignUpPage length.toNat ≤ userVaEnd
  | mprotect addr length prot => length.toNat = 0 ∨ ¬ Aligned addr.toNat ∨ prot &&& ~~~7 ≠ 0 ∨
      addr.toNat + alignUpPage length.toNat ≥ usizeBound ∨
      addr.toNat + alignUpPage length.toNat ≤ userVaEnd ∨
      ∃ v ∈ s.vmas, ¬ v.Rebasable addr.toNat (addr.toNat + alignUpPage length.toNat)
  | mremap oldAddr oldSize newSize flags _ =>
      ∀ v dest, MremapMoves s oldAddr.toNat oldSize.toNat newSize.toNat flags v dest →
        dest + alignUpPage newSize.toNat ≤ userVaEnd ∨ MovesQuietly v
  | madvise addr len advice => ¬ (advice = madvDontneed ∨ advice = madvFree) ∨
      ¬ Aligned addr.toNat ∨ len.toNat = 0 ∨
      addr.toNat + (len.toNat + (pageSize - 1)) / pageSize * pageSize ≥ usizeBound ∨
      DiscardsBelow s addr.toNat len.toNat
  | mmap addr length prot flags fd _ =>
      ∀ va, MmapPlaces s addr.toNat length.toNat flags fd va →
        va + mmapLength length.toNat ≤ userVaEnd ∨
          Quiet s.mlockallFlags (mmapLength length.toNat) prot flags

variable {st : Caller σ} {c : MemCall}

/-- **One call.**  A call within the user half leaves the kernel half alone, does not stop at an
address, and keeps the memory map in order. -/
theorem exec_good {g : ℕ → Option Pte} (h : c.WithinUserHalf st.mmap)
    (hst : Good g st) : wp (c.exec A w) (fun _ => Good g) (Benign g) st := by
  cases c with
  | munmap addr length => exact wp_sysMunmap_good A w h hst
  | mprotect addr length prot => exact wp_sysMprotect A w h hst
  | mremap oldAddr oldSize newSize flags newAddr => exact wp_sysMremap A w h hst
  | madvise addr len advice => exact wp_sysMadvise A w h hst
  | mmap addr length prot flags fd offset => exact wp_sysMmap A w offset.toNat_lt h hst

/-! ### Calls that leave the user half -/

/-- A call that stops at an address, or returns a value with another kernel half. -/
def Escapes (x : CallM σ Ret) (st : Caller σ) : Prop :=
  wp x (fun r st' => (∃ n, r = .ok n) ∧ ¬ KernelHalf st.vm.leaf st') AddressStop st

theorem Escapes.not_stays {x : CallM σ Ret} (h : Escapes x st) : ¬ Stays x st := by
  refine not_wp.2 (h.mono ?_ fun e st' he => he.not_benign)
  grind

variable {s : MmapState}

/-- The page of an aligned address of the kernel half is not a user page. -/
theorem userPages_le_page {a : ℕ} (h : kernelVaStart ≤ a) : userPages ≤ a / pageSize := by
  unfold kernelVaStart at h
  unfold userPages pageSize
  omega

/-- Nothing is mapped in the kernel half, so ranges there are cut without trouble. -/
theorem rebasable_of_kernelVaStart_le (hs : MapOk s) {lo hi : ℕ} (h : kernelVaStart ≤ lo)
    (hlt : lo < hi) : ∀ v ∈ s.vmas, v.stop ≤ lo ∧ v.Rebasable lo hi := by
  intro v hv
  have := (hs.placed v hv).le
  exact ⟨by omega, fun _ _ => by omega, fun _ _ => by omega⟩

variable {Q : Ret → Caller σ → Prop} {addr length : ℕ} {flags : UInt64}

theorem pages_pos {a : ℕ} (h : a ≠ 0) : 0 < alignUpPage a / pageSize :=
  (aligned_alignUpPage a).div_pos (alignUpPage_pos h)

section

variable (hlen : length ≠ 0) (hal : Aligned addr) (hend : userVaEnd < addr + alignUpPage length)

include hlen hal hend

/-- A range that starts below the kernel half and leaves the user half cannot be unmapped. -/
theorem stop_sysMunmap {w : World} (hw : w.vforkBorrower = false) (hk : addr < kernelVaStart) :
    wp (sysMunmap A w addr length) Q AddressStop st := by
  have hmul := (aligned_alignUpPage length).div_mul
  unfold sysMunmap
  rw [if_neg (by simp [hw]), if_neg (by simp [hlen, show addr % pageSize = 0 from hal]), wp_bind]
  exact stop_pageAddresses hal (pages_pos hlen) hk (by rwa [hmul])

theorem escapes_munmap (hs : MapOk s) (haddr : addr < usizeBound) (fr : Frames σ) :
    Escapes (sysMunmap A (busyWorld false 0) addr length)
      ⟨s, filledSpace (addr / pageSize) (alignUpPage length / pageSize), fr⟩ := by
  by_cases hk : addr < kernelVaStart
  · exact stop_sysMunmap A hlen hal hend rfl hk
  have hk := not_lt.1 hk
  have hpos := alignUpPage_pos hlen
  have hmul := (aligned_alignUpPage length).div_mul
  have hn := pages_pos hlen
  unfold Escapes sysMunmap
  rw [if_neg (by decide), if_neg (by simp [hlen, show addr % pageSize = 0 from hal]), wp_bind]
  by_cases hwrap : usizeBound < addr + alignUpPage length
  · exact stop_pageAddresses_wrap hal hk haddr (by rwa [hmul])
  refine wp_pageAddresses (by omega) (.inr hk) ?_
  rw [wp_bind]
  by_cases htop : addr + alignUpPage length = usizeBound
  · exact stop_addAddr htop.ge
  rw [wp_addAddr (by omega), wp_bind, wp_get, wp_bind]
  have hreb : ∀ v ∈ s.vmas, v.stop ≤ addr ∧
      v.Rebasable addr (addr + alignUpPage length) :=
    rebasable_of_kernelVaStart_le hs hk (by omega)
  have hremoved : s.vmas.flatMap (Vma.inside addr (addr + alignUpPage length)) = [] :=
    flatMap_eq_nil_iff.2 fun v hv => Vma.inside_nil (.inl (hreb v hv).1)
  unfold unmapRangeReserve
  rw [unmapRange_eq hs.sorted (by omega) fun v hv => (hreb v hv).2, ok_bind]
  refine wp.pure ?_
  rw [wp_bind, wp_setMap, wp_bind]
  simp only [hremoved]
  refine wp.pure ?_
  unfold detachSharedDropped unmapPagesLocked
  rw [wp_bind]
  refine wp.pure ?_
  rw [wp_bind, wp_bind, wp_virtAddr (.inr hk),
    if_pos (show addr % pageSize = 0 from hal), wp_bind]
  refine wp_pageAddresses (by omega) (.inr hk) ?_
  rw [wp_modify, wp_bind, wp_get, wp_bind, wp_setMap, wp_pure]
  refine ⟨⟨0, rfl⟩, fun hkernel => ?_⟩
  have hleaf := hkernel (addr / pageSize) (userPages_le_page hk)
  rw [leaf_unmapPages A hal, if_pos ⟨le_rfl, by omega⟩,
    leaf_filledSpace le_rfl (by omega)] at hleaf
  cases hleaf

variable {prot : UInt64}

omit [Mapper A] in
theorem escapes_mprotect (hs : MapOk s)
    (hprot : prot &&& ~~~7 = 0) (hbound : addr + alignUpPage length < usizeBound)
    (hreb : ∀ v ∈ s.vmas, v.Rebasable addr (addr + alignUpPage length)) (fr : Frames σ) :
    Escapes (sysMprotect A (busyWorld false 0) addr length prot)
      ⟨s, filledSpace (addr / pageSize) (alignUpPage length / pageSize), fr⟩ := by
  have hpos := alignUpPage_pos hlen
  have hla := aligned_alignUpPage length
  have hmul := hla.div_mul
  have hn := pages_pos hlen
  have hsealed : writeSealedIn (busyWorld false 0) s addr (addr + alignUpPage length) = false := by
    refine any_eq_false.2 fun v _ => ?_
    cases v.backing <;> simp [busyWorld]
  obtain ⟨r, hr, -⟩ :=
    protectSpec hs.sorted (by omega : addr < addr + alignUpPage length) hreb
      (protToPerms prot)
  unfold Escapes sysMprotect
  rw [if_neg (by decide), if_neg (by simp [hlen, show addr % pageSize = 0 from hal]),
    if_neg (not_not.2 hprot), if_neg (by omega), wp_bind, wp_get, if_neg (by simp [hsealed]),
    wp_bind, hr]
  refine wp.pure ?_
  rw [wp_bind, wp_setMap, wp_bind]
  by_cases hk : addr < kernelVaStart
  · by_cases hu : addr < userVaEnd
    · grind [wp_virtAddr, wp_bind, stop_pageAddresses]
    · exact stop_virtAddr (not_lt.1 hu) hk
  have hk := not_lt.1 hk
  rw [wp_virtAddr (.inr hk), wp_bind]
  refine wp_pageAddresses (by omega) (.inr hk) ?_
  obtain ⟨habsent, hbreaks, hleaf⟩ := protectLoop_present (p := addr / pageSize) fr
    (protToPerms prot) (show usedLeaf.cow = false from rfl) (alignUpPage length / pageSize)
    fun q => leaf_filledSpace
  rw [wp_bind, wp_get, changePerms,
    if_neg (not_not.2 (show addr % pageSize = 0 from hal))]
  simp only [habsent, hbreaks, foldl_nil]
  rw [wp_bind, wp_set, if_neg (by simp), wp_pure]
  refine ⟨⟨0, rfl⟩, fun hkernel => ?_⟩
  have hnew := hkernel (addr / pageSize) (userPages_le_page hk)
  rw [hleaf _ le_rfl (by omega), leaf_filledSpace le_rfl (by omega)] at hnew
  have := congrArg Pte.accessed (Option.some.inj hnew)
  simp [Perms.toPte, usedLeaf] at this

end

theorem escapes_madvise (hs : MapOk s) {len : ℕ} {advice : UInt64}
    (hadv : advice = madvDontneed ∨ advice = madvFree) (hal : Aligned addr) (hlen : len ≠ 0)
    (hbound : addr + (len + (pageSize - 1)) / pageSize * pageSize < usizeBound)
    (hend : ¬ DiscardsBelow s addr len) (vm : VmSpace) (fr : Frames σ) :
    Escapes (sysMadvise A (busyWorld false 0) addr len advice) ⟨s, vm, fr⟩ := by
  have hknown : advice ∈ madvKnown := by rcases hadv with rfl | rfl <;> decide
  unfold Escapes sysMadvise
  rw [if_neg (not_not.2 hknown), if_neg (by tauto), if_neg (by decide),
    if_neg (not_not.2 (show addr % pageSize = 0 from hal)), if_neg hlen, if_neg (by omega), wp_bind,
    wp_get, wp_bind]
  unfold DiscardsBelow at hend
  push Not at hend
  obtain ⟨r, hr, hrend⟩ := hend
  -- the parts are page-aligned and end below the kernel half
  have hpart {r : ℕ × ℕ} (hr : r ∈ discardable s addr
      (addr + (len + (pageSize - 1)) / pageSize * pageSize)) :
      Aligned r.1 ∧ r.1 < r.2 ∧ r.2 ≤ kernelVaStart ∧
        r.1 + (r.2 - r.1) / pageSize * pageSize = r.2 := by
    obtain ⟨v, hv, h1, h2, e1, e2⟩ := mem_discardable hr
    have hvp := hs.placed v hv
    have hpos : 0 < (len + (pageSize - 1)) / pageSize * pageSize := by
      unfold pageSize
      omega
    have ha1 : Aligned r.1 := e1 ▸ hvp.start.max hal
    have ha2 : Aligned r.2 := e2 ▸ hvp.stop.min (hal.add (aligned_mul _))
    have hlt : r.1 < r.2 := by simp_all [hs.sorted.nonempty]
    refine ⟨ha1, hlt, e2 ▸ (min_le_left _ _).trans hvp.le, ?_⟩
    unfold Aligned pageSize at *
    omega
  have hturns {r : ℕ × ℕ} (h : r.1 < r.2) (h' : r.1 + (r.2 - r.1) / pageSize * pageSize = r.2) :
      0 < (r.2 - r.1) / pageSize := pos_of_ne_zero fun h0 => by simp [h0] at h'; omega
  refine wp_forEach_stop (fun r hr st' => ?_) hr fun st' => ?_
  · obtain ⟨ha, hlt, hle, hmul⟩ := hpart hr
    rw [wp_bind]
    by_cases hu : r.2 ≤ userVaEnd
    · have hbound := userVaEnd_lt_usizeBound
      refine wp_pageAddresses (by omega) (.inl (by omega)) ?_
      unfold unmapPagesLocked
      rw [wp_bind, wp_virtAddr (.inl (by omega)), if_pos (show r.1 % pageSize = 0 from ha),
        wp_bind]
      refine wp_pageAddresses (by omega) (.inl (by omega)) ?_
      rw [wp_modify]
      trivial
    · exact stop_pageAddresses ha (hturns hlt hmul) (by omega) (by omega)
  · grind [wp_bind, stop_pageAddresses]

/-! ### Places beyond the user half -/

section Beyond

variable {A w} {g : ℕ → Option Pte} {st : Caller σ} {lo len : ℕ} {fl : UInt32}
  {backing : VmaBacking}

theorem stop_finishMmap (hc : ∀ a, w.tryCharge a = false)
    (hp : Spot lo len) (hend : userVaEnd < lo + len) (hshared : flags &&& mapShared = 0)
    (hpop : populates fl flags = true) (hprot : (protToPerms prot).accessible = true)
    (hoff : backing.Shiftable 0) (hback : ∀ segment offset, backing ≠ .shm segment offset)
    (hst : Reserved g fl lo len st) :
    wp (finishMmap A w lo len prot flags backing) Q AddressStop st := by
  have hsealed : sealedMeanwhile w prot flags backing = false := by
    unfold sealedMeanwhile
    split
    · simp [hshared]
    · rfl
  unfold finishMmap
  rw [wp_bind]
  refine wp_releaseReserved hp hst fun st₁ h₁ hfree hfl _ => ?_
  rw [wp_bind, wp_addAddr hp.lt_usizeBound, wp_bind, wp_get, wp_bind, wp_setMap, wp_bind, hfl]
  have hshow (flags : VmaFlags) : Shows (st₁.mmap.insert
      ⟨lo, lo + len, protToPerms prot, flags, backing⟩) lo (lo + len) (protToPerms prot) backing :=
    fun p h1 h2 => ⟨_, MapOk.lookup_insert hfree h1 h2, rfl, rfl⟩
  refine (wp_lockNew hp (h₁.insert hp hfree hoff) (hshow _)
    (MapOk.rebasable_insert (Nat.lt_add_of_pos_right hp.pos) hfree)).post
      fun _ st₂ ⟨h₂, hshow⟩ => ?_
  rw [if_neg (by simp [hsealed]), wp_bind]
  exact stop_populateNew A w hc hp hend hshow hprot hback hpop

/-- A new mapping beyond the user half that is not quiet. -/
theorem stop_enterMapping {offset : ℕ} (hp : Spot lo len)
    (hend : userVaEnd < lo + len) (hoff : offset < usizeBound) (hquiet : ¬ Quiet fl len prot flags)
    (hst : Reserved g fl lo len st)
    (hvm : ∀ i < len / pageSize, st.vm.leaf (lo / pageSize + i) = none ∧
      st.vm.TablesAt (lo / pageSize + i)) :
    wp (enterMapping A (busyWorld (decide (flags &&& mapShared ≠ 0)) (len / pageSize)) lo len prot
      flags (if flags &&& mapAnonymous ≠ 0 then .anonymous else .file 0 offset)) Q AddressStop
      st := by
  unfold Quiet at hquiet
  push Not at hquiet
  obtain ⟨hprivate, hsegment⟩ := hquiet
  have hpos := hp.pos
  by_cases hshared : flags &&& mapShared = 0
  · obtain ⟨hpop, hprot⟩ := hprivate hshared
    have hpop : populates fl flags = true := by simpa using hpop
    have hprot : (protToPerms prot).accessible = true := by simpa using hprot
    split_ifs with hanon
    · show wp (if _ then _ else _) _ _ _
      rw [if_neg (not_not.2 hshared)]
      exact stop_finishMmap (fun _ => rfl) hp hend hshared hpop hprot trivial nofun hst
    · show wp (if _ then _ else _) _ _ _
      rw [if_neg (by simp [busyWorld, hshared])]
      exact stop_finishMmap (fun _ => rfl) hp hend hshared hpop hprot hoff nofun hst
  · have hseg : wp (mapSharedSegment A (busyWorld (decide (flags &&& mapShared ≠ 0))
        (len / pageSize)) lo len (protToPerms prot) 0 0) Q AddressStop st :=
      stop_mapSharedSegment A _ hp hend (by simp [busyWorld]) hvm
    split_ifs with hanon
    · have hcreate : createAnonShared (busyWorld (decide (flags &&& mapShared ≠ 0))
          (len / pageSize)) len = some 0 := by
        have := hsegment hshared hanon
        rw [createAnonShared, if_neg (by omega)]
        rfl
      show wp (if _ then _ else _) _ _ _
      rw [if_pos hshared, hcreate]
      exact hseg
    · show wp (if _ then _ else _) _ _ _
      rw [if_pos (by simp [busyWorld, hshared]), if_pos hshared]
      exact hseg

/-- The copy loop gives up at the first page of a source that is not there and cannot be charged. -/
theorem wp_copyPages_uncharged {Q : Bool → Caller σ → Prop} {E : Stop → Caller σ → Prop}
    {oldAddr dest n : ℕ} (hc : ∀ a, w.tryCharge a = false) (hvm : ∀ p, st.vm.leaf p = none)
    (hn : 0 < n / pageSize) (hle : oldAddr + pageSize ≤ userVaEnd) (hQ : Q false st) :
    wp (copyPages A w oldAddr dest n) Q E st := by
  obtain ⟨k, hk⟩ := exists_eq_succ_of_ne_zero hn.ne'
  have := userVaEnd_lt_usizeBound
  unfold copyPages
  rw [hk, wp_bind, countWhile, wp_bind, wp_bind, zero_mul, wp_addAddr (by omega), wp_bind]
  simp_all [wp_accessOk_uncharged]

/-- A copy to a place beyond the user half cannot be undone once it has failed. -/
theorem stop_enterMoved {Q : Option Errno → Caller σ → Prop} {oldAddr oldAligned : ℕ} {v : Vma}
    (hw : w.vforkBorrower = false) (hc : ∀ a, w.tryCharge a = false)
    (hvm : ∀ p, st.vm.leaf p = none) (hp : Spot lo len) (hend : userVaEnd < lo + len)
    (hold : oldAddr + oldAligned ≤ userVaEnd) (halo : Aligned oldAligned) (hpos : 0 < oldAligned)
    (hlt : oldAligned < len) (hshared : v.flags.shared = false)
    (hback : ∀ segment offset, backing ≠ .shm segment offset) (hst : Reserved g fl lo len st) :
    wp (enterMoved A w oldAddr oldAligned lo len v backing) Q AddressStop st := by
  have hmul := halo.div_mul
  have hn := halo.div_pos hpos
  have hpage : pageSize ≤ oldAligned := by
    have := mul_le_mul_right pageSize hn
    omega
  have hle := hp.le
  have hlen := hp.pos
  unfold enterMoved
  split
  · exact absurd rfl (hback _ _)
  rw [wp_bind]
  refine wp_releaseReserved hp hst fun st₁ _ _ _ hvm₁ => ?_
  rw [wp_bind, wp_addAddr hp.lt_usizeBound, wp_bind, wp_get, wp_bind, wp_setMap,
    if_neg (by simp [hshared]), wp_bind, min_eq_left hlt.le]
  refine wp_copyPages_uncharged hc (fun p => hvm₁ ▸ hvm p) hn (by omega) ?_
  rw [if_neg Bool.false_ne_true, wp_bind, wp_discard]
  refine stop_sysMunmap A hlen.ne' hp.start ?_ hw (by omega)
  rwa [alignUpPage_of_aligned hp.length ((le_add_left _ _).trans hle)]

end Beyond

theorem escapes_mmap (hs : MapOk s) {offset va : ℕ} {fd : UInt64} (hoff : offset < usizeBound)
    (hp : MmapPlaces s addr length flags fd va) (hend : userVaEnd < va + mmapLength length)
    (hquiet : ¬ Quiet s.mlockallFlags (mmapLength length) prot flags) (fr : Frames σ) :
    Escapes (sysMmap A (busyWorld (decide (flags &&& mapShared ≠ 0))
        (mmapLength length / pageSize)) addr length prot flags fd offset)
      ⟨s, readySpace (va / pageSize) (mmapLength length / pageSize), fr⟩ := by
  have hlen := hp.length_ne
  have hpos : 0 < mmapLength length := by
    unfold mmapLength pageSize
    omega
  have hfix := isFixed_eq_false.1 hp.notFixed
  obtain ⟨hspot, hfree⟩ : Spot va (mmapLength length) ∧ s.Free va (va + mmapLength length) :=
    spot_hintOrGap hs (aligned_mul _) (aligned_mul _) hpos hp.place
  have hb : mmapBacking (busyWorld (decide (flags &&& mapShared ≠ 0)) (mmapLength length / pageSize))
      prot flags fd offset =
        .ok (if flags &&& mapAnonymous ≠ 0 then .anonymous else .file 0 offset) := by
    unfold mmapBacking
    by_cases hanon : flags &&& mapAnonymous ≠ 0
    · rw [if_pos hanon, if_pos hanon]
    · rw [if_neg hanon, if_neg hanon, if_neg (hp.file.resolve_left hanon)]
      simp [busyWorld]
  unfold Escapes sysMmap
  rw [if_neg (show ¬ (busyWorld _ _).vforkBorrower = true from Bool.false_ne_true), if_neg hlen,
    if_neg (by simp [hp.notFixed]), if_neg (not_le.2 hp.length_lt), if_neg (not_lt.2 hp.length_le), hb]
  show wp (placeMapping _ _ _ _ _ _ _) _ _ _
  unfold placeMapping pickPlace
  rw [if_neg (by simp [hp.notFixed]), wp_bind, wp_get, wp_bind, if_neg (not_not.2 hfix.2),
    if_neg (not_not.2 hfix.1), if_neg (by simp [hp.notFixed]), hp.place]
  refine wp.pure ?_
  rw [wp_bind, wp_addAddr hspot.lt_usizeBound, wp_bind, wp_setMap, wp_bind]
  unfold replaceOld
  rw [if_neg (not_not.2 hfix.1)]
  refine wp.pure (stop_enterMapping hspot hend hoff hquiet
    ⟨⟨s, hs, hfree, rfl, rfl⟩, fun _ _ => rfl⟩ fun i hi => ⟨leaf_readySpace _ _ _, ?_⟩)
  exact tablesAt_readySpace hi

theorem escapes_mremap (hs : MapOk s) {oldAddr oldSize newSize newAddr dest : ℕ}
    {v : Vma} (hm : MremapMoves s oldAddr oldSize newSize flags v dest)
    (hend : userVaEnd < dest + alignUpPage newSize) (hquiet : ¬ MovesQuietly v) (fr : Frames σ) :
    Escapes (sysMremap A (busyWorld false (usizeBound + alignUpPage newSize / pageSize)) oldAddr
        oldSize newSize flags newAddr)
      ⟨s, readySpace (dest / pageSize) (alignUpPage newSize / pageSize), fr⟩ := by
  have hgrows := hm.grows
  have hpos := alignUpPage_pos hm.newSize_ne
  obtain ⟨hspot, hfree⟩ : Spot dest (alignUpPage newSize) ∧
      s.Free dest (dest + alignUpPage newSize) := by
    obtain ⟨h1, h2, h3⟩ := hs.findGap hm.place
    exact ⟨⟨h1, aligned_alignUpPage _, hpos, h2⟩, h3⟩
  unfold Escapes sysMremap
  rw [if_neg (show ¬ (busyWorld _ _).vforkBorrower = true from Bool.false_ne_true),
    if_neg (not_or.2 ⟨not_not.2 (show oldAddr % pageSize = 0 from hm.aligned), hm.newSize_ne⟩),
    if_neg hm.oldAligned_ne,
    if_neg (not_or.2 ⟨not_lt.2 hm.old_le, not_lt.2 hm.new_le⟩), wp_bind, wp_get, hm.found]
  show wp (if _ then _ else _) _ _ _
  rw [if_neg (not_lt.2 hm.inside), wp_bind, VmaBacking.shift_eq hm.offset]
  refine wp.pure ?_
  rw [if_neg (not_not.2 hm.notFixed), if_neg (by omega), if_neg (by omega)]
  unfold growVma
  rw [wp_bind, wp_get]
  refine wp.ite (fun h => absurd h hm.stuck) fun _ => ?_
  rw [if_neg hm.mayMove]
  unfold moveVma moveTarget
  rw [wp_bind, if_neg (not_not.2 hm.notFixed), wp_bind, wp_get, hm.place]
  rw [wp_bind, wp_addAddr hspot.lt_usizeBound, wp_bind, wp_setMap]
  refine wp.pure ?_
  rw [wp_bind]
  have hres : Reserved (readySpace (dest / pageSize) (alignUpPage newSize / pageSize)).leaf
      s.mlockallFlags dest (alignUpPage newSize) (⟨s.reserve dest (dest + alignUpPage newSize),
        readySpace (dest / pageSize) (alignUpPage newSize / pageSize), fr⟩ : Caller σ) :=
    ⟨⟨s, hs, hfree, rfl, rfl⟩, fun _ _ => rfl⟩
  by_cases hseg : ∃ segment offset,
      v.backing.advance (oldAddr - v.start) = .shm segment offset
  · obtain ⟨segment, offset, hb⟩ := hseg
    have hoff := shiftable_advance hm.offset
    rw [hb] at hoff ⊢
    have hlt : offset < usizeBound := hoff
    have hdiv := div_le_self offset pageSize
    show wp (mapSharedSegment _ _ _ _ _ _ _ >>= _) _ _ _
    rw [wp_bind]
    refine stop_mapSharedSegment A _ hspot hend ?_ fun i hi => ⟨leaf_readySpace _ _ _,
      tablesAt_readySpace hi⟩
    show _ ≤ (replicate (usizeBound + alignUpPage newSize / pageSize) _).length
    rw [length_replicate]
    omega
  · push Not at hseg
    have hshared : v.flags.shared = false := Bool.eq_false_iff.2 fun h =>
      hquiet ⟨h, fun segment offset hb => hseg _ _ (by rw [hb]; rfl)⟩
    exact stop_enterMoved rfl (fun _ => rfl) (leaf_readySpace _ _) hspot hend hm.old_le
      (aligned_alignUpPage _) (pos_of_ne_zero hm.oldAligned_ne) hgrows hshared hseg hres

/-- Outside the condition some surroundings let the call escape. -/
theorem exists_escapes (hs : MapOk s) (h : ¬ c.WithinUserHalf s) (fr : Frames σ) :
    ∃ w vm, Escapes (c.exec A w) ⟨s, vm, fr⟩ := by
  cases c <;> unfold WithinUserHalf at h <;> push Not at h
  case munmap addr length =>
    obtain ⟨hlen, hal, hend⟩ := h
    exact ⟨_, _, escapes_munmap A hlen hal hend hs addr.toNat_lt fr⟩
  case mprotect addr length prot =>
    obtain ⟨hlen, hal, hprot, hbound, hend, hreb⟩ := h
    exact ⟨_, _, escapes_mprotect A hlen hal hend hs hprot hbound hreb fr⟩
  case mremap oldAddr oldSize newSize flags newAddr =>
    obtain ⟨v, dest, hm, hend, hquiet⟩ := h
    exact ⟨_, _, escapes_mremap A hs hm hend hquiet fr⟩
  case madvise addr len advice =>
    obtain ⟨hadv, hal, hlen, hbound, hend⟩ := h
    exact ⟨_, ⟨0, [], ∅⟩, escapes_madvise A hs hadv hal hlen hbound hend _ fr⟩
  case mmap addr length prot flags fd offset =>
    obtain ⟨va, hp, hend, hquiet⟩ := h
    exact ⟨_, _, escapes_mmap A hs offset.toNat_lt hp hend hquiet fr⟩

theorem not_staysInUserHalf (hs : MapOk s) (h : ¬ c.WithinUserHalf s) : ¬ c.StaysInUserHalf s := by
  intro hstays
  obtain ⟨w, vm, hesc⟩ := exists_escapes listAllocator hs h ⟨[], 0, fun _ => 0, fun _ _ => 0⟩
  exact hesc.not_stays (hstays _ _ _ _ _)

/-- **Memory calls and the user half.**  On every memory map that is in order, a call stays in the
user half in all surroundings exactly when its arguments and the map keep it there. -/
theorem staysInUserHalf_iff (hs : MapOk s) (c : MemCall) :
    c.StaysInUserHalf s ↔ c.WithinUserHalf s := by
  refine ⟨fun h => by_contra fun hc => not_staysInUserHalf hs hc h, fun h σ A _ w vm fr => ?_⟩
  exact (exec_good A w h ⟨hs, fun _ _ => rfl⟩).post fun _ _ hgood => .inr hgood.kernel

/-- Unmapping the page after the null page stays in the user half. -/
theorem staysInUserHalf_munmap_page :
    (munmap 0x1000 0x1000).StaysInUserHalf (forPid 1) :=
  (staysInUserHalf_iff (MapOk.forPid (by decide)) _).2 (.inr (.inr (by decide)))

/-- In the memory map of the first process, `munmap` and `mprotect` of the page just above the user
half leave it; in that of process 32641, whose arena starts at the end of the user half, so does an
`mmap` that faults its pages in. -/
theorem leaves_user_half :
    ¬ (munmap 0x800000000000 0x1000).StaysInUserHalf (forPid 1) ∧
      ¬ (mprotect 0x800000000000 0x1000 1).StaysInUserHalf (forPid 1) ∧
      ¬ (mmap 0 0x1000 3 0x8022 0xffffffffffffffff 0).StaysInUserHalf (forPid 32641) := by
  refine ⟨not_staysInUserHalf (MapOk.forPid (by decide)) ?_,
    not_staysInUserHalf (MapOk.forPid (by decide)) ?_,
    not_staysInUserHalf (MapOk.forPid (by decide)) ?_⟩
  · unfold WithinUserHalf
    decide
  · have hnil : ∀ v, v ∉ (forPid 1).vmas := fun v => not_mem_nil
    rintro (h | h | h | h | h | ⟨v, hv, -⟩)
    · exact absurd h (by decide)
    · exact h (by decide)
    · exact h (by decide)
    · exact absurd h (by decide)
    · exact absurd h (by decide)
    · exact hnil v hv
  · intro h
    have hplaces : MmapPlaces (forPid 32641) 0 0x1000 0x8022 0xffffffffffffffff
        0x800000000000 :=
      ⟨by decide, by decide, by decide, by decide, by decide, by decide⟩
    rcases h _ hplaces with h | h
    · exact absurd h (by decide)
    · unfold Quiet at h
      exact absurd h (by decide)

end MemCall

end CypheraKernel.Syscall
