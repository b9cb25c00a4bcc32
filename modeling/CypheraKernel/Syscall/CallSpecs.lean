import CypheraKernel.Syscall.Confined

/-!
# The memory calls inside the user half

What each memory call does when the ranges it works on lie in the user half: it keeps the memory map
in order and the kernel half as it is, and does not stop at an address.

`wp_sysMunmap`, `wp_sysMprotect`, `wp_sysMmap`, `wp_sysMremap`, `wp_sysMadvise`: one theorem for
each call.
-/

namespace CypheraKernel.Syscall

open Mm Rust Program VmSpace MmapState

variable {σ : Type} {α : Type} (A : FrameAllocator σ) [Mapper A] (w : World) {g : ℕ → Option Pte}
  {st : Caller σ}

/-- The memory map is in order and the kernel half is `g`. -/
structure Good (g : ℕ → Option Pte) (st : Caller σ) : Prop where
  map : MapOk st.mmap
  kernel : KernelHalf g st

theorem Good.benign (h : Good g st) : Benign g .offsetOverflow st := ⟨.inl rfl, h.kernel⟩

theorem Good.at (h : Good g st) : At st.mmap g st := ⟨rfl, h.kernel⟩

variable {m : MmapState} {E : Stop → Caller σ → Prop} {Q : PUnit → Caller σ → Prop}
  {addr length lo hi : ℕ} {perms : Perms} {backing : VmaBacking} {prot : Perms} {flags : UInt64}
  {x : CallM σ α}

theorem At.good (h : At m g st) (hm : MapOk m) : Good g st := ⟨h.mmap ▸ hm, h.kernel⟩

theorem At.benign (h : At m g st) : Benign g .offsetOverflow st :=
  ⟨.inl rfl, h.kernel⟩

/-- A confined program inside a larger one. -/
theorem Confined.step {Q : α → Caller σ → Prop} (hx : Confined m g x) (hst : At m g st)
    (hQ : ∀ a st', At m g st' → Q a st') : wp x Q (Benign g) st := (hx.keeps st hst).post hQ

theorem wp_onMap {x : Except Panic α} {Q : α → Caller σ → Prop}
    (hQ : ∀ a, x = .ok a → Q a st) (hE : E .offsetOverflow st) : wp (onMap x) Q E st := by
  cases x with
  | ok a => exact wp.pure (hQ a rfl)
  | error e => exact (wp_throw _).2 hE

theorem wp_addAddr {a b : ℕ} {Q : ℕ → Caller σ → Prop}
    (h : a + b < usizeBound) : wp (addAddr a b) Q E st ↔ Q (a + b) st := by
  unfold addAddr
  rw [if_pos h, wp_pure]

@[simp] theorem wp_setMap : wp (setMap m) Q E st ↔ Q ⟨⟩ { st with mmap := m } := wp_modify _

@[simp] theorem wp_discard : wp (discard x) Q E st ↔ wp x (fun _ => Q ⟨⟩) E st := by
  show wp (x >>= fun _ => pure PUnit.unit) Q E st ↔ _
  rw [wp_bind]
  exact ⟨fun h => h.post fun _ _ h' => (wp_pure _).1 h', fun h => h.post fun _ _ h' => wp.pure h'⟩

theorem userVaEnd_lt_usizeBound : userVaEnd < usizeBound := by decide

theorem kernelVaStart_lt_usizeBound : kernelVaStart < usizeBound := by decide

theorem userVaEnd_le_kernelVaStart : userVaEnd ≤ kernelVaStart := by decide

/-! ### Aligned lengths -/

theorem aligned_alignUpPage (a : ℕ) : Aligned (alignUpPage a) := aligned_mul _

theorem alignUpPage_pos {a : ℕ} (h : a ≠ 0) : 0 < alignUpPage a := by
  unfold alignUpPage saturatingAddU64 usizeBound pageSize
  omega

/-! ### munmap -/

theorem fits_reservation (hlo : Aligned lo) (hhi : Aligned hi)
    (hlt : lo < hi) (hle : hi ≤ kernelVaStart) (hfree : m.Free lo hi) :
    MapOk.Fits m (reservation lo hi) := ⟨hlt, ⟨hlo, hhi, hle⟩, trivial, hfree⟩

/-- `munmap` of a range of the user half empties it. -/
theorem wp_sysMunmap (hw : w.vforkBorrower = false) (hlen : length ≠ 0) (hal : Aligned addr)
    (hend : addr + alignUpPage length ≤ userVaEnd) (hst : Good g st) :
    wp (sysMunmap A w addr length)
      (fun _ st' => Good g st' ∧ st'.mmap.Free addr (addr + alignUpPage length)) (Benign g) st := by
  have hpos := alignUpPage_pos hlen
  have hla := aligned_alignUpPage length
  have hpages : addr + alignUpPage length / pageSize * pageSize ≤ userVaEnd := by rwa [hla.div_mul]
  have hbound := hend.trans_lt userVaEnd_lt_usizeBound
  have hkernel := hend.trans userVaEnd_le_kernelVaStart
  unfold sysMunmap
  rw [if_neg (by simp [hw]), if_neg (by simp [hlen, show addr % pageSize = 0 from hal]), wp_bind]
  refine (Confined.pageAddresses hpages).step hst.at fun _ st₁ h₁ => ?_
  rw [wp_bind, wp_addAddr hbound, wp_bind, wp_get, wp_bind, h₁.mmap]
  refine wp_onMap (fun r hr => ?_) h₁.benign
  obtain ⟨r', hr', hrr⟩ := bind_eq_ok.1 hr
  cases hrr
  obtain ⟨hmap, hfree, hremoved⟩ := hst.map.unmapRange hal (hal.add hla) (by omega) hr'
  rw [wp_bind, wp_setMap, wp_bind]
  refine (Confined.forEach fun v _ => Confined.writebackVma addr _ v).step ⟨rfl, h₁.kernel⟩
    fun _ st₂ h₂ => ?_
  rw [wp_bind]
  refine (Confined.detachSharedDropped A w (fun v hv => (hremoved v hv).2) hend).step h₂
    fun _ st₃ h₃ => ?_
  rw [wp_bind]
  refine (Confined.unmapPagesLocked A (by omega) hpages).step h₃ fun _ st₄ h₄ => ?_
  rw [wp_bind, wp_get, wp_bind, wp_setMap, h₄.mmap]
  have hres := hmap.reserve (fits_reservation hal (hal.add hla) (by omega) hkernel hfree)
  exact wp.pure ⟨⟨hres.releaseReservation _ _, h₄.kernel⟩, MapOk.free_releaseReservation hfree⟩

/-- `munmap` refuses its arguments or works in the user half. -/
theorem wp_sysMunmap_good (h : length = 0 ∨ ¬ Aligned addr ∨ addr + alignUpPage length ≤ userVaEnd)
    (hst : Good g st) : wp (sysMunmap A w addr length) (fun _ => Good g) (Benign g) st := by
  by_cases hw : w.vforkBorrower = true
  · unfold sysMunmap
    rw [if_pos hw]
    exact wp.pure hst
  by_cases hargs : length = 0 ∨ addr % pageSize ≠ 0
  · simp_all [sysMunmap]
  · push Not at hargs
    have hend := (h.resolve_left hargs.1).resolve_left (not_not.2 hargs.2)
    exact (wp_sysMunmap A w (by simpa using hw) hargs.1 hargs.2 hend hst).post fun _ _ h' => h'.1

theorem alignUpPage_of_aligned {a : ℕ} (h : Aligned a) (hle : a ≤ kernelVaStart) :
    alignUpPage a = a := by
  grind [Aligned, pageSize, kernelVaStart, alignUpPage, saturatingAddU64, usizeBound]

/-- `munmap` of pages of the user half. -/
theorem wp_sysMunmap_pages (hlen : Aligned length) (hend : addr + length ≤ userVaEnd)
    (hst : Good g st) : wp (sysMunmap A w addr length) (fun _ => Good g) (Benign g) st := by
  refine wp_sysMunmap_good A w (.inr (.inr ?_)) hst
  rwa [alignUpPage_of_aligned hlen ((Nat.le_add_left _ _).trans (hend.trans userVaEnd_le_kernelVaStart))]

/-! ### madvise -/

theorem mem_discardable {stop : ℕ} (h : (lo, hi) ∈ discardable m addr stop) :
    ∃ v ∈ m.vmas, v.start < stop ∧ addr < v.stop ∧ lo = max v.start addr ∧ hi = min v.stop stop := by
  obtain ⟨v, hv, heq⟩ := List.mem_map.1 h
  cases heq
  obtain ⟨hv, -⟩ := List.mem_filter.1 hv
  obtain ⟨hv, hover⟩ := List.mem_filter.1 hv
  rw [decide_eq_true_eq] at hover
  exact ⟨v, hv, hover.1, hover.2, rfl, rfl⟩

/-- The parts that `madvise` drops lie in the user half. -/
def DiscardsBelow (m : MmapState) (addr len : ℕ) : Prop :=
  ∀ r ∈ discardable m addr (addr + (len + (pageSize - 1)) / pageSize * pageSize), r.2 ≤ userVaEnd

theorem wp_sysMadvise {len : ℕ} {advice : UInt64}
    (h : ¬ (advice = madvDontneed ∨ advice = madvFree) ∨ ¬ Aligned addr ∨ len = 0 ∨
      addr + (len + (pageSize - 1)) / pageSize * pageSize ≥ usizeBound ∨
      DiscardsBelow st.mmap addr len)
    (hst : Good g st) : wp (sysMadvise A w addr len advice) (fun _ => Good g) (Benign g) st := by
  refine wp.guard hst fun _ => wp.guard hst fun h2 => wp.guard hst fun _ => wp.guard hst fun h4 =>
    wp.guard hst fun h5 => wp.guard hst fun h6 => ?_
  have hbelow : DiscardsBelow st.mmap addr len := by
    rcases h with h | h | h | h | h
    · exact absurd (not_or.1 h) h2
    · exact absurd (not_not.1 h4) h
    · exact absurd h h5
    · exact absurd (.inr h) h6
    · exact h
  rw [wp_bind, wp_get, wp_bind]
  refine (Confined.forEach fun r hr => ?_).step hst.at fun _ st' h' =>
    wp.pure (h'.good hst.map)
  have hr2 := hbelow r hr
  obtain ⟨v, hv, h1, h2, e1, e2⟩ := mem_discardable hr
  have hbytes : 0 < (len + (pageSize - 1)) / pageSize * pageSize := by
    unfold pageSize
    omega
  have hlt : r.1 < r.2 := by simp_all [hst.map.sorted.nonempty]
  grind [pageSize, Confined.bind, Confined.pageAddresses, Confined.unmapPagesLocked]

/-! ### mprotect -/

/-- The gaps that `protect_range` reports lie in its range. -/
theorem gaps_protectRange (hm : VmaSorted m.vmas) (hlt : lo < hi) {r : MmapState.RangeResult}
    (hr : m.protectRange lo hi perms = .ok r) : ∀ i ∈ r.gaps, i.2 ≤ hi := by
  intro i hi'
  obtain ⟨r', hr', -, hgaps, -⟩ := protectSpec hm hlt (rebasable_of_splitRange hlt hr) perms
  cases hr.symm.trans hr'
  exact ((hgaps i.1 i.2).1 hi').le_hi

omit [Mapper A] in
theorem wp_sysMprotect {prot : UInt64}
    (h : length = 0 ∨ ¬ Aligned addr ∨ prot &&& ~~~7 ≠ 0 ∨ addr + alignUpPage length ≥ usizeBound ∨
      addr + alignUpPage length ≤ userVaEnd ∨
      ∃ v ∈ st.mmap.vmas, ¬ v.Rebasable addr (addr + alignUpPage length))
    (hst : Good g st) : wp (sysMprotect A w addr length prot) (fun _ => Good g) (Benign g) st := by
  refine wp.guard hst fun _ => wp.guard hst fun h1 => wp.guard hst fun h2 => wp.guard hst fun h3 => ?_
  rw [wp_bind, wp_get]
  refine wp.guard hst fun _ => ?_
  obtain ⟨hlen, hal⟩ := not_or.1 h1
  have hal : Aligned addr := not_not.1 hal
  have hla := aligned_alignUpPage length
  have hpos := alignUpPage_pos hlen
  rw [wp_bind]
  refine wp_onMap (fun r hr => ?_) hst.benign
  have hend : addr + alignUpPage length ≤ userVaEnd := by
    rcases h with h | h | h | h | h | ⟨v, hv, hnot⟩
    · exact absurd h hlen
    · exact absurd hal h
    · exact absurd h h2
    · exact absurd h h3
    · exact h
    · exact absurd (rebasable_of_splitRange (by omega) hr v hv) hnot
  have hpages : addr + alignUpPage length / pageSize * pageSize ≤ userVaEnd := by rwa [hla.div_mul]
  have hmap := hst.map.protectRange hal (hal.add hla) (by omega) hr
  rw [wp_bind, wp_setMap, wp_bind]
  refine (Confined.virtAddr (by omega)).step ⟨rfl, hst.kernel⟩ fun _ st₁ h₁ => ?_
  rw [wp_bind]
  refine (Confined.pageAddresses hpages).step h₁ fun _ st₂ h₂ => ?_
  rw [wp_bind, wp_get]
  have hleaf (p : ℕ) (hp : userPages ≤ p) : (changePerms A st₂.fr st₂.vm addr
      (alignUpPage length / pageSize) (protToPerms prot)).2.2.leaf p = g p := by
    refine (leaf_changePerms_of_not_mem A ?_).trans (h₂.kernel p hp)
    have := page_lt_userPages (a := addr + alignUpPage length - 1) (by omega)
    unfold Aligned pageSize at *
    omega
  split
  · exact wp.pure (h₂.good hmap)
  rename_i result fr vm hc
  rw [hc] at hleaf
  rw [wp_bind, wp_set]
  refine wp.ite (fun _ => ?_) fun _ => wp.pure ⟨h₂.mmap ▸ hmap, hleaf⟩
  rw [wp_bind]
  have hgaps := gaps_protectRange hst.map.sorted (by omega) hr
  refine (Confined.gapsMapped w fun i hi => (hgaps i hi).trans hend).step ⟨h₂.mmap, hleaf⟩
    fun b st₃ h₃ => ?_
  exact wp.guard (h₃.good hmap) fun _ => wp.pure (h₃.good hmap)

/-! ### Reserved places -/

/-- A place for a new range. -/
structure Spot (lo len : ℕ) : Prop where
  start : Aligned lo
  length : Aligned len
  pos : 0 < len
  le : lo + len ≤ kernelVaStart

theorem Spot.lt_usizeBound {len : ℕ} (h : Spot lo len) : lo + len < usizeBound :=
  h.le.trans_lt kernelVaStart_lt_usizeBound

/-- A place has been reserved in a map in which it was free; `fl` are the `mlockall` flags. -/
structure Reserved (g : ℕ → Option Pte) (fl : UInt32) (lo len : ℕ) (st : Caller σ) : Prop where
  map : ∃ m, MapOk m ∧ m.Free lo (lo + len) ∧ st.mmap = m.reserve lo (lo + len) ∧
    m.mlockallFlags = fl
  kernel : KernelHalf g st

variable {fl : UInt32} {lo len : ℕ}

/-- Entering a range where nothing is. -/
theorem Good.insert (h : Good g st) (hp : Spot lo len) (hfree : st.mmap.Free lo (lo + len))
    {flags : VmaFlags} (hoff : backing.Shiftable 0) :
    Good g { st with mmap := st.mmap.insert ⟨lo, lo + len, prot, flags, backing⟩ } := by
  have := hp.pos
  refine ⟨h.map.insert ⟨?_, ⟨hp.start, hp.start.add hp.length, hp.le⟩, hoff, hfree⟩, h.kernel⟩
  show lo < lo + len
  omega

theorem wp_releaseReserved (hp : Spot lo len) (h : Reserved g fl lo len st)
    (hQ : ∀ st', Good g st' → st'.mmap.Free lo (lo + len) → st'.mmap.mlockallFlags = fl →
      st'.vm = st.vm → Q ⟨⟩ st') : wp (releaseReserved lo len) Q E st := by
  obtain ⟨m, hm, hfree, heq, hfl⟩ := h.map
  have hpos := hp.pos
  unfold releaseReserved
  rw [wp_bind, wp_addAddr hp.lt_usizeBound, wp_bind, wp_get, wp_setMap, heq]
  have hres := hm.reserve (fits_reservation hp.start (hp.start.add hp.length) (by omega) hp.le hfree)
  refine hQ _ ⟨hres.releaseReservation _ _, h.kernel⟩ (MapOk.free_releaseReservation hfree) ?_ rfl
  refine Eq.trans ?_ hfl
  unfold releaseReservation reserve bumpLastEnd
  split_ifs <;> rfl

theorem Reserved.of_at {st' : Caller σ} (h : Reserved g fl lo len st) (h' : At st.mmap g st') :
    Reserved g fl lo len st' := ⟨by rw [h'.mmap]; exact h.map, h'.kernel⟩

variable {offset : ℕ}

theorem wp_mapSharedSegment {segment : ℕ} (hp : Spot lo len) (hle : lo + len ≤ userVaEnd)
    (hoff : offset < usizeBound) (h : Reserved g fl lo len st) :
    wp (mapSharedSegment A w lo len perms segment offset) (fun _ => Good g) (Benign g) st := by
  have hpages : lo + len / pageSize * pageSize ≤ userVaEnd := by rwa [hp.length.div_mul]
  refine wp.ite (fun _ => ?_) fun _ => ?_
  · rw [wp_bind]
    exact wp_releaseReserved hp h fun st' h' _ _ _ => wp.pure h'
  rw [wp_bind]
  refine (wp_countWhile (fun _ => At st.mmap g) (fun _ => At st.mmap g) (fun i _ hi st₁ h₁ => ?_)
    ⟨rfl, h.kernel⟩).post fun mapped st₂ h₂ => ?_
  · have hlt : lo + i * pageSize < userVaEnd := by
      unfold pageSize at *
      omega
    have hbody : Confined st.mmap g (do
        let a ← addAddr lo (i * pageSize)
        virtAddr a
        if a % pageSize ≠ 0 then return false
        else return (← mapOneFrame A a
          (((w.segmentFrames segment).drop (offset / pageSize)).getD i 0) perms).isNone) := by
      refine Confined.addAddr _ _ (hlt.trans userVaEnd_lt_usizeBound) ?_
      exact Confined.bind (Confined.virtAddr hlt) fun _ => Confined.ite _
        (fun _ => Confined.pure _) fun _ =>
          Confined.bind (Confined.mapOneFrame A hlt _ _) fun _ => Confined.pure _
    exact hbody.step h₁ fun b st' h' => by cases b <;> exact h'
  · have hat : At st.mmap g st₂ ∧ mapped ≤ len / pageSize := by
      rcases h₂ with ⟨hk, h₂⟩ | ⟨hk, h₂⟩
      · exact ⟨h₂, hk.le⟩
      · exact ⟨h₂, hk.le⟩
    refine wp.ite (fun _ => ?_) fun _ => ?_
    · have hunmap : lo + mapped * pageSize ≤ userVaEnd :=
        (Nat.add_le_add_left (Nat.mul_le_mul_right _ hat.2) _).trans hpages
      rw [wp_bind]
      refine (Confined.unmapMapped A hunmap).step hat.1 fun _ st₃ h₃ => ?_
      rw [wp_bind]
      exact wp_releaseReserved hp (h.of_at h₃) fun st' h' _ _ _ => wp.pure h'
    · rw [wp_bind]
      refine wp_releaseReserved hp (h.of_at hat.1) fun st₃ h₃ hfree _ _ => ?_
      rw [wp_bind, wp_addAddr hp.lt_usizeBound, wp_bind, wp_get, wp_bind, wp_setMap]
      exact wp.pure (h₃.insert hp hfree hoff)

/-! ### mmap -/

/-- Every page of the range is mapped with this protection and backing. -/
def Shows (m : MmapState) (lo hi : ℕ) (prot : Perms) (backing : VmaBacking) : Prop :=
  ∀ p, lo ≤ p → p < hi →
    ∃ e, m.lookup p = some e ∧ e.prot = prot ∧ e.backing = backing.advance (p - lo)

theorem Shows.findContaining {p : ℕ} (h : Shows m lo hi prot backing) (h1 : lo ≤ p) (h2 : p < hi) :
    ∃ v, m.findContaining p = some v ∧ v.prot = prot ∧
      v.backing.advance (p - v.start) = backing.advance (p - lo) := by
  obtain ⟨e, he, hprot, hback⟩ := h p h1 h2
  obtain ⟨v, hv, rfl⟩ := Option.map_eq_some_iff.1 he
  exact ⟨v, hv, hprot, hback⟩

theorem wp_lockNew
    (hp : Spot lo len) (hst : Good g st) (hshow : Shows st.mmap lo (lo + len) prot backing)
    (hreb : ∀ v ∈ st.mmap.vmas, v.Rebasable lo (lo + len)) :
    wp (lockNew fl lo (lo + len))
      (fun _ st' => Good g st' ∧ Shows st'.mmap lo (lo + len) prot backing) E st := by
  have hpos := hp.pos
  refine wp.ite (fun _ => ?_) fun _ => wp.pure ⟨hst, hshow⟩
  obtain ⟨r, hr, hlookup, -⟩ := lockSpec hst.map.sorted (by omega) hreb true
  rw [wp_bind, wp_get, wp_bind, hr]
  refine wp.pure ((wp_setMap).2 ⟨⟨?_, hst.kernel⟩, fun p h1 h2 => ?_⟩)
  · exact hst.map.lockRange hp.start (hp.start.add hp.length) (by omega) hr
  · obtain ⟨e, he, hprot, hback⟩ := hshow p h1 h2
    simp_all

/-- The pages of a new range can be faulted in: they lie in the user half, or nothing is to be done
for them. -/
theorem Confined.populateNew (hp : Spot lo len) (hshow : Shows m lo (lo + len) prot backing)
    (h : lo + len ≤ userVaEnd ∨ populates fl flags = false ∨ prot.accessible = false) :
    Confined m g (populateNew A w fl flags lo (lo + len)) := by
  refine Confined.ite _ (fun hpop => Confined.eachPage hp.le fun p h1 h2 => ?_) fun _ =>
    Confined.pure _
  grind [Confined.discard, Confined.populateOnePage, hshow.findContaining]

theorem wp_finishMmap {prot : UInt64} (hp : Spot lo len) (hoff : backing.Shiftable 0)
    (h : lo + len ≤ userVaEnd ∨ flags &&& mapShared = 0 ∧
      (populates fl flags = false ∨ (protToPerms prot).accessible = false))
    (hst : Reserved g fl lo len st) :
    wp (finishMmap A w lo len prot flags backing) (fun _ => Good g) (Benign g) st := by
  unfold finishMmap
  rw [wp_bind]
  refine wp_releaseReserved hp hst fun st₁ h₁ hfree hfl _ => ?_
  rw [wp_bind, wp_addAddr hp.lt_usizeBound, wp_bind, wp_get, wp_bind, wp_setMap, wp_bind, hfl]
  have hshow (flags : VmaFlags) : Shows (st₁.mmap.insert
      ⟨lo, lo + len, protToPerms prot, flags, backing⟩) lo (lo + len) (protToPerms prot) backing :=
    fun p h1 h2 => ⟨_, MapOk.lookup_insert hfree h1 h2, rfl, rfl⟩
  have hpos := hp.pos
  refine (wp_lockNew hp (h₁.insert hp hfree hoff) (hshow _)
    (MapOk.rebasable_insert (Nat.lt_add_of_pos_right hpos) hfree)).post
      fun _ st₂ ⟨h₂, hshow⟩ => ?_
  refine wp.ite (fun hsealed => ?_) fun _ => ?_
  · have hle : lo + len ≤ userVaEnd := by
      refine h.resolve_right fun h => ?_
      unfold sealedMeanwhile at hsealed
      grind
    rw [wp_bind, wp_discard]
    exact (wp_sysMunmap_pages A w hp.length hle h₂).post fun _ _ h' => wp.pure h'
  · rw [wp_bind]
    exact (Confined.populateNew A w hp hshow (h.imp id And.right)).step h₂.at
      fun _ st₃ h₃ => wp.pure (h₃.good h₂.map)

/-- A new mapping for which nothing is done in the page tables: a private one whose pages are not
faulted in, or a segment larger than any. -/
def Quiet (fl : UInt32) (length : ℕ) (prot flags : UInt64) : Prop :=
  (flags &&& mapShared = 0 ∧ (populates fl flags = false ∨ (protToPerms prot).accessible = false)) ∨
    (flags &&& mapShared ≠ 0 ∧ flags &&& mapAnonymous ≠ 0 ∧ length > shmMaxBytes)

theorem wp_finishSegment {segment : Option ℕ} {e : Errno} (hp : Spot lo len)
    (h : segment ≠ none → lo + len ≤ userVaEnd) (hst : Reserved g fl lo len st) :
    wp (finishSegment A w lo len perms segment e) (fun _ => Good g) (Benign g) st := by
  cases segment with
  | none =>
    show wp (releaseReserved lo len >>= _) _ _ _
    rw [wp_bind]
    exact wp_releaseReserved hp hst fun st' h' _ _ _ => wp.pure h'
  | some segment => exact wp_mapSharedSegment A w hp (h nofun) (by decide) hst

variable {fd : UInt64}

/-- What `mmapBacking` can answer. -/
theorem mmapBacking_cases {prot : UInt64} (h : mmapBacking w prot flags fd offset = .ok backing) :
    (flags &&& mapAnonymous ≠ 0 ∧ backing = .anonymous) ∨
      (flags &&& mapAnonymous = 0 ∧ fd ≠ -1 ∧ ∃ inode, backing = .file inode offset) := by
  unfold mmapBacking at h
  split_ifs at h with hanon hfd
  · cases h
    exact .inl ⟨hanon, rfl⟩
  split at h
  · cases h
  · split_ifs at h
    cases h
    exact .inr ⟨not_not.1 hanon, hfd, _, rfl⟩

theorem wp_enterMapping {prot : UInt64} (hp : Spot lo len)
    (hb : mmapBacking w prot flags fd offset = .ok backing) (hoff : offset < usizeBound)
    (h : lo + len ≤ userVaEnd ∨ Quiet fl len prot flags) (hst : Reserved g fl lo len st) :
    wp (enterMapping A w lo len prot flags backing) (fun _ => Good g) (Benign g) st := by
  have hquiet (hshared : flags &&& mapShared = 0) : lo + len ≤ userVaEnd ∨
      flags &&& mapShared = 0 ∧
        (populates fl flags = false ∨ (protToPerms prot).accessible = false) :=
    h.imp id fun h => h.resolve_right fun h => h.1 hshared
  rcases mmapBacking_cases w hb with ⟨hanon, rfl⟩ | ⟨hanon, -, inode, rfl⟩
  · refine wp.ite (fun hshared => wp_finishSegment A w hp (fun hseg => ?_) hst) fun hshared =>
      wp_finishMmap A w hp trivial (hquiet (not_not.1 hshared)) hst
    -- a segment has been created, so it is not too large
    refine h.resolve_right fun h => ?_
    rcases h with h | h
    · exact hshared h.1
    simp_all [createAnonShared]
  · have hshared (h' : flags &&& mapShared ≠ 0) : lo + len ≤ userVaEnd := by
      refine h.resolve_right fun h => ?_
      rcases h with h | h
      · exact h' h.1
      · exact h.2.1 hanon
    refine wp.ite (fun _ => wp_finishSegment A w hp (fun hseg => ?_) hst) fun _ =>
      wp_finishMmap A w hp hoff ?_ hst
    · grind
    · by_cases h' : flags &&& mapShared = 0
      · exact hquiet h'
      · exact .inl (hshared h')

theorem isFixed_eq_false :
    isFixed flags = false ↔ flags &&& mapFixed = 0 ∧ flags &&& mapFixedNoreplace = 0 := by
  have hdistrib : flags &&& (mapFixed ||| mapFixedNoreplace) =
      (flags &&& mapFixed) ||| (flags &&& mapFixedNoreplace) :=
    UInt64.toBitVec_inj.1 BitVec.and_or_distrib_left
  rw [isFixed, hdistrib, decide_eq_false_iff_not, not_not, UInt64.or_eq_zero_iff]

theorem spot_hintOrGap {va : ℕ} (hm : MapOk m) (hal : Aligned addr) (hlen : Aligned len)
    (hpos : 0 < len) (h : hintOrGap m addr len = some va) : Spot va len ∧ m.Free va (va + len) := by
  unfold hintOrGap at h
  split_ifs at h with hhint
  · cases h
    obtain ⟨-, -, -, hhi, hover⟩ := hhint
    exact ⟨⟨hal, hlen, hpos, hhi.trans hm.arenaHi⟩, free_of_overlaps hover⟩
  · obtain ⟨h1, h2, h3⟩ := hm.findGap h
    exact ⟨⟨h1, hlen, hpos, h2⟩, h3⟩

/-- A place that `mmap` has picked: the fixed address, in the user half, or the hint or gap. -/
structure Picked (m : MmapState) (addr len : ℕ) (flags : UInt64) (va : ℕ) (dropped : List Vma)
    (m' : MmapState) : Prop where
  spot : Spot va len
  map : MapOk m'
  free : m'.Free va (va + len)
  mlockall : m'.mlockallFlags = m.mlockallFlags
  dropped_le : ∀ v ∈ dropped, v.stop ≤ va + len
  place : (isFixed flags = true ∧ va + len ≤ userVaEnd) ∨
    (isFixed flags = false ∧ hintOrGap m addr len = some va)

theorem wp_pickPlace (hm : MapOk m) (hal : Aligned addr) (hlen : Aligned len)
    (hpos : 0 < len) (hfix : isFixed flags = true → addr + len ≤ userVaEnd) (hst : At m g st) :
    wp (pickPlace m addr len flags)
      (fun r st' => At m g st' ∧
        ∀ va dropped m', r = .ok (va, dropped, m') → Picked m addr len flags va dropped m')
      (Benign g) st := by
  refine wp.ite (fun h1 => ?_) fun h1 => wp.ite (fun h2 => ?_) fun h2 => ?_
  · have hfixed : isFixed flags = true := by
      by_contra h
      exact h1 (isFixed_eq_false.1 (Bool.eq_false_iff.2 h)).2
    have hle := hfix hfixed
    refine wp.guard ⟨hst, nofun⟩ fun hover =>
      wp.pure ⟨hst, fun va dropped m' heq => ?_⟩
    cases heq
    exact ⟨⟨hal, hlen, hpos, hle.trans userVaEnd_le_kernelVaStart⟩, hm,
      free_of_overlaps (by simpa using hover), rfl, List.forall_mem_nil _, .inl ⟨hfixed, hle⟩⟩
  · have hfixed : isFixed flags = true := by
      by_contra h
      exact h2 (isFixed_eq_false.1 (Bool.eq_false_iff.2 h)).1
    have hle := hfix hfixed
    rw [wp_bind]
    refine wp_onMap (fun r hr => wp.pure ⟨hst, fun va dropped m' heq => ?_⟩) hst.benign
    cases heq
    obtain ⟨hmap, hfree, hdrop⟩ := hm.unmapRange hal (hal.add hlen) (by omega) hr
    obtain ⟨cuts, -, hr⟩ := bind_eq_ok.1 hr
    cases hr
    exact ⟨⟨hal, hlen, hpos, hle.trans userVaEnd_le_kernelVaStart⟩, hmap, hfree, rfl,
      fun v hv => (hdrop v hv).2, .inl ⟨hfixed, hle⟩⟩
  · have hfixed := isFixed_eq_false.2 ⟨not_not.1 h2, not_not.1 h1⟩
    split
    · exact wp.pure ⟨hst, nofun⟩
    rename_i a ha
    refine wp.pure ⟨hst, fun va dropped m' heq => ?_⟩
    cases heq
    obtain ⟨hspot, hfree⟩ := spot_hintOrGap hm hal hlen hpos ha
    exact ⟨hspot, hm, hfree, rfl, List.forall_mem_nil _, .inr ⟨hfixed, ha⟩⟩

/-- The call of `mmap` gets as far as a place that it has not been told. -/
structure MmapPlaces (m : MmapState) (addr length : ℕ) (flags fd : UInt64) (va : ℕ) : Prop where
  length_ne : length ≠ 0
  length_lt : length + 0xfff < usizeBound
  length_le : mmapLength length ≤ userVaEnd
  notFixed : isFixed flags = false
  file : flags &&& mapAnonymous ≠ 0 ∨ fd ≠ -1
  place : hintOrGap m (addr / pageSize * pageSize) (mmapLength length) = some va

theorem wp_placeMapping {prot : UInt64} (hal : Aligned addr) (hlen : Aligned len) (hpos : 0 < len)
    (hb : mmapBacking w prot flags fd offset = .ok backing) (hoff : offset < usizeBound)
    (h : isFixed flags = false → ∀ va, hintOrGap st.mmap addr len = some va →
      va + len ≤ userVaEnd ∨ Quiet st.mmap.mlockallFlags len prot flags) (hst : Good g st) :
    wp (placeMapping A w addr len prot flags backing) (fun _ => Good g) (Benign g) st := by
  refine wp.guard hst fun hfix => ?_
  rw [wp_bind, wp_get, wp_bind]
  have hfix' (hf : isFixed flags = true) : addr + len ≤ userVaEnd :=
    not_lt.1 fun hlt => hfix ⟨hf, hlt⟩
  refine (wp_pickPlace hst.map hal hlen hpos hfix' hst.at).post fun r st₁ hr => ?_
  obtain ⟨h₁, hpicked⟩ := hr
  split
  · exact wp.pure (h₁.good hst.map)
  rename_i va dropped m'
  have hp := hpicked va dropped m' rfl
  rw [wp_bind, wp_addAddr hp.spot.lt_usizeBound, wp_bind, wp_setMap, wp_bind]
  have hend : va + len ≤ userVaEnd ∨ Quiet st.mmap.mlockallFlags len prot flags := by
    grind [hp.place]
  have hold : Confined (m'.reserve va (va + len)) g
      (replaceOld A w flags dropped va (va + len) (len / pageSize)) := by
    refine Confined.ite _ (fun hf => ?_) fun _ => Confined.pure _
    have hle : va + len ≤ userVaEnd := by grind [hp.place, isFixed_eq_false]
    refine Confined.bind (Confined.detachSharedDropped A w hp.dropped_le hle) fun _ =>
      Confined.unmapPagesLocked A (by omega) ?_
    rwa [hp.spot.length.div_mul]
  refine hold.step ⟨rfl, h₁.kernel⟩ fun _ st₂ h₂ => ?_
  exact wp_enterMapping A w hp.spot hb hoff hend
    ⟨⟨m', hp.map, hp.free, h₂.mmap, hp.mlockall⟩, h₂.kernel⟩

theorem wp_sysMmap {prot : UInt64} (hoff : offset < usizeBound)
    (h : ∀ va, MmapPlaces st.mmap addr length flags fd va →
      va + mmapLength length ≤ userVaEnd ∨
        Quiet st.mmap.mlockallFlags (mmapLength length) prot flags) (hst : Good g st) :
    wp (sysMmap A w addr length prot flags fd offset) (fun _ => Good g) (Benign g) st := by
  refine wp.guard hst fun _ => wp.guard hst fun hlen => wp.guard hst fun hal => ?_
  by_cases hlt : length + 0xfff ≥ usizeBound
  · rw [if_pos hlt]
    exact wp.pure hst
  rw [if_neg hlt]
  refine wp.guard hst fun hle => ?_
  split
  · exact wp.pure hst
  rename_i backing hb
  have hpos : 0 < mmapLength length := by
    unfold mmapLength pageSize
    omega
  have halign : Aligned (if isFixed flags then addr else addr / pageSize * pageSize) := by
    split_ifs with hf
    · by_contra hnot
      exact hal ⟨hnot, hf⟩
    · exact aligned_mul _
  refine wp_placeMapping A w halign (aligned_mul _) hpos hb hoff (fun hf va hplace => ?_) hst
  rw [hf, if_neg Bool.false_ne_true] at hplace
  refine h va ⟨hlen, not_le.1 hlt, not_lt.1 hle, hf, ?_, hplace⟩
  grind [mmapBacking_cases]

/-! ### mremap -/

/-- The call of `mremap` gets as far as moving the range `v` to a place that it has not been told.
-/
structure MremapMoves (m : MmapState) (oldAddr oldSize newSize : ℕ) (flags : UInt64) (v : Vma)
    (dest : ℕ) : Prop where
  aligned : Aligned oldAddr
  newSize_ne : newSize ≠ 0
  oldAligned_ne : alignUpPage oldSize ≠ 0
  old_le : oldAddr + alignUpPage oldSize ≤ userVaEnd
  new_le : oldAddr + alignUpPage newSize ≤ userVaEnd
  found : m.findContaining oldAddr = some v
  inside : oldAddr + alignUpPage oldSize ≤ v.stop
  offset : v.backing.Shiftable (oldAddr - v.start)
  notFixed : flags &&& mremapFixed = 0
  grows : alignUpPage oldSize < alignUpPage newSize
  stuck : ¬ (extendable oldAddr (alignUpPage oldSize) v = true ∧
    (m.extendVmaEnd oldAddr (oldAddr + alignUpPage newSize)).1 = true)
  mayMove : flags &&& mremapMaymove ≠ 0
  place : m.findGap (alignUpPage newSize) = some dest

/-- Moving the range does nothing in the page tables at the new place: it is a shared file. -/
def MovesQuietly (v : Vma) : Prop := v.flags.shared = true ∧ ∀ segment offset,
  v.backing ≠ .shm segment offset

variable {oldAddr oldAligned : ℕ} {v : Vma} {b : VmaBacking}

theorem wp_dropSource (halo : Aligned oldAligned)
    (hold : oldAddr + oldAligned ≤ userVaEnd) (hst : Good g st) :
    wp (dropSource A w oldAddr oldAligned v) (fun _ => Good g) (Benign g) st := by
  unfold dropSource
  rw [wp_bind, wp_get]
  refine wp.ite (fun _ => ?_) fun _ => wp.pure hst
  rw [wp_discard]
  exact wp_sysMunmap_pages A w halo hold hst

theorem wp_enterMoved (hp : Spot lo len) (hold : oldAddr + oldAligned ≤ userVaEnd)
    (hoff : backing.Shiftable 0)
    (h : lo + len ≤ userVaEnd ∨ v.flags.shared = true ∧
      ∀ segment offset, backing ≠ .shm segment offset) (hst : Reserved g fl lo len st) :
    wp (enterMoved A w oldAddr oldAligned lo len v backing) (fun _ => Good g) (Benign g) st := by
  unfold enterMoved
  split
  · rename_i segment offset
    have hle := h.resolve_right fun h => h.2 segment offset rfl
    rw [wp_bind]
    refine (wp_mapSharedSegment A w hp hle hoff hst).post fun r st₁ h₁ => ?_
    split <;> exact wp.pure h₁
  rw [wp_bind]
  refine wp_releaseReserved hp hst fun st₁ h₁ hfree _ _ => ?_
  rw [wp_bind, wp_addAddr hp.lt_usizeBound, wp_bind, wp_get, wp_bind, wp_setMap]
  have hin : Good g { st₁ with mmap := st₁.mmap.insert ⟨lo, lo + len, v.prot, v.flags, backing⟩ } :=
    h₁.insert hp hfree hoff
  refine wp.guard hin fun hshared => ?_
  have hle := h.resolve_right fun h => hshared h.1
  rw [wp_bind]
  refine (Confined.copyPages A w (by omega) (by omega)).step hin.at fun b st₂ h₂ => ?_
  refine wp.guard (h₂.good hin.map) fun _ => ?_
  rw [wp_bind, wp_discard]
  exact (wp_sysMunmap_pages A w hp.length hle (h₂.good hin.map)).post fun _ _ h' => wp.pure h'

section

variable {newAddr : ℕ} (hw : w.vforkBorrower = false) (hlen : Aligned len) (hpos : 0 < len)
  (hst : Good g st)

include hw hlen hpos hst

/-- The new place of a moved range: the fixed one, in the user half, or a gap. -/
theorem wp_moveTarget :
    wp (moveTarget A w oldAddr oldAligned len newAddr flags backing)
      (fun r st' => (∀ e, r = .error e → Good g st') ∧ ∀ dest, r = .ok dest →
        Spot dest len ∧ (∃ fl, Reserved g fl dest len st') ∧
          (dest + len ≤ userVaEnd ∨
            flags &&& mremapFixed = 0 ∧ st.mmap.findGap len = some dest))
      (Benign g) st := by
  refine wp.ite (fun _ => ?_) fun hfix => ?_
  · refine wp.guard ⟨fun _ _ => hst, nofun⟩ fun h1 =>
      wp.guard ⟨fun _ _ => hst, nofun⟩ fun h2 =>
      wp.guard ⟨fun _ _ => hst, nofun⟩ fun _ =>
      wp.guard ⟨fun _ _ => hst, nofun⟩ fun _ => ?_
    have hal : Aligned newAddr := not_not.1 (not_or.1 h1).2
    have hle : newAddr + len ≤ userVaEnd := not_lt.1 h2
    have hspot : Spot newAddr len := ⟨hal, hlen, hpos, hle.trans userVaEnd_le_kernelVaStart⟩
    have hup := alignUpPage_of_aligned hlen ((Nat.le_add_left _ _).trans hspot.le)
    rw [wp_bind, wp_discard]
    refine (wp_sysMunmap A w hw hpos.ne' hal (by rwa [hup]) hst).post fun _ st₁ h₁ => ?_
    rw [hup] at h₁
    rw [wp_bind, wp_addAddr hspot.lt_usizeBound, wp_bind, wp_get, wp_bind, wp_setMap, wp_pure]
    refine ⟨nofun, fun dest heq => ?_⟩
    cases heq
    exact ⟨hspot, ⟨_, ⟨st₁.mmap, h₁.1.map, h₁.2, rfl, rfl⟩, h₁.1.kernel⟩, .inl hle⟩
  · rw [wp_bind, wp_get]
    split
    · exact wp.pure ⟨fun _ _ => hst, nofun⟩
    rename_i a ha
    obtain ⟨h1, h2, h3⟩ := hst.map.findGap ha
    have hspot : Spot a len := ⟨h1, hlen, hpos, h2⟩
    rw [wp_bind, wp_addAddr hspot.lt_usizeBound, wp_bind, wp_setMap, wp_pure]
    refine ⟨nofun, fun dest heq => ?_⟩
    cases heq
    exact ⟨hspot, ⟨_, ⟨st.mmap, hst.map, h3, rfl, rfl⟩, hst.kernel⟩, .inr ⟨not_not.1 hfix, ha⟩⟩

theorem wp_moveVma (halo : Aligned oldAligned) (hold : oldAddr + oldAligned ≤ userVaEnd)
    (hoff : backing.Shiftable 0)
    (h : flags &&& mremapFixed = 0 → ∀ dest, st.mmap.findGap len = some dest →
      dest + len ≤ userVaEnd ∨ v.flags.shared = true ∧
        ∀ segment offset, backing ≠ .shm segment offset) :
    wp (moveVma A w oldAddr oldAligned len newAddr flags v backing) (fun _ => Good g) (Benign g)
      st := by
  unfold moveVma
  rw [wp_bind]
  refine (wp_moveTarget A w hw hlen hpos hst).post fun r st₁ ⟨herr, hok⟩ => ?_
  cases r with
  | error e => exact wp.pure (herr e rfl)
  | ok dest =>
    obtain ⟨hspot, ⟨fl, hres⟩, hplace⟩ := hok dest rfl
    have hend : dest + len ≤ userVaEnd ∨
        v.flags.shared = true ∧ ∀ segment offset, backing ≠ .shm segment offset := by
      rcases hplace with hle | ⟨hfix, hgap⟩
      · exact .inl hle
      · exact h hfix dest hgap
    rw [wp_bind]
    refine (wp_enterMoved A w hspot hold hoff hend hres).post fun r st₂ h₂ => ?_
    cases r with
    | some e => exact wp.pure h₂
    | none =>
      rw [wp_bind]
      exact (wp_dropSource A w halo hold h₂).post fun _ _ h' => wp.pure h'

end

theorem shiftable_advance {d : ℕ} (h : b.Shiftable d) : (b.advance d).Shiftable 0 := by
  revert h
  cases b <;> exact fun h => h

theorem shm_of_advance {d segment : ℕ} (h : b.advance d = .shm segment offset) :
    ∃ offset', b = .shm segment offset' := by
  cases b with
  | anonymous | file => cases h
  | shm segment' offset' =>
    cases h
    exact ⟨offset', rfl⟩

theorem wp_sysMremap {oldSize newSize newAddr : ℕ}
    (h : ∀ v dest, MremapMoves st.mmap oldAddr oldSize newSize flags v dest →
      dest + alignUpPage newSize ≤ userVaEnd ∨ MovesQuietly v) (hst : Good g st) :
    wp (sysMremap A w oldAddr oldSize newSize flags newAddr) (fun _ => Good g) (Benign g) st := by
  refine wp.guard hst fun hw => wp.guard hst fun h1 => wp.guard hst fun h2 => wp.guard hst fun h3 => ?_
  have hw : w.vforkBorrower = false := by simpa using hw
  obtain ⟨hal, hne⟩ := not_or.1 h1
  have hal : Aligned oldAddr := not_not.1 hal
  have h3 := not_or.1 h3
  have hold := not_lt.1 h3.1
  have hnew := not_lt.1 h3.2
  have hpos := alignUpPage_pos hne
  have halo := aligned_alignUpPage oldSize
  have haln := aligned_alignUpPage newSize
  rw [wp_bind, wp_get]
  split
  · exact wp.pure hst
  rename_i v hv
  refine wp.guard hst fun hin => ?_
  rw [wp_bind]
  refine wp_onMap (fun backing hb => ?_) hst.benign
  have hshift := VmaBacking.shiftable_of_shift hb
  rw [VmaBacking.shift_eq hshift] at hb
  cases hb
  have hoff := shiftable_advance hshift
  have hquiet (hq : MovesQuietly v) : v.flags.shared = true ∧
      ∀ segment offset, v.backing.advance (oldAddr - v.start) ≠ .shm segment offset := by
    refine ⟨hq.1, fun segment offset heq => ?_⟩
    obtain ⟨offset', hb⟩ := shm_of_advance heq
    exact hq.2 _ _ hb
  refine wp.ite (fun hfix => ?_) fun hfix => wp.guard hst fun hne' =>
    wp.ite (fun hlt => ?_) fun hge => ?_
  · exact wp_moveVma A w hw haln hpos hst halo hold hoff fun h => absurd h hfix
  · have hsum : oldAddr + alignUpPage newSize +
        (alignUpPage oldSize - alignUpPage newSize) ≤ userVaEnd := by omega
    have hdiff : Aligned (alignUpPage oldSize - alignUpPage newSize) := by
      unfold Aligned pageSize at *
      omega
    rw [wp_bind, wp_addAddr (hnew.trans_lt userVaEnd_lt_usizeBound), wp_bind, wp_discard]
    exact (wp_sysMunmap_pages A w hdiff hsum hst).post fun _ _ h' => wp.pure h'
  · unfold growVma
    rw [wp_bind, wp_get]
    refine wp.ite (fun hgrown => ?_) fun hstuck => wp.guard hst fun hmay => ?_
    · rw [wp_bind, wp_setMap]
      exact wp.pure ⟨hst.map.extendVmaEnd (hal.add haln), hst.kernel⟩
    · refine wp_moveVma A w hw haln hpos hst halo hold hoff fun hfix dest hdest => ?_
      refine (h v dest ⟨hal, hne, h2, hold, hnew, hv, not_lt.1 hin, hshift, hfix, by omega,
        hstuck, hmay, hdest⟩).imp id hquiet

end CypheraKernel.Syscall
