import CypheraKernel.Mm.MmapRanges

/-!
# What holds of every memory map

The ranges of a process are page-aligned, sorted and disjoint, and new ranges go where nothing is.

`MapOk`: the invariant of a memory map.  It says nothing about the user half: where the arena of a
process lies depends on its process id.
-/

namespace CypheraKernel.Mm

open Rust List

def Aligned (a : ℕ) : Prop := a % pageSize = 0
  deriving Decidable

theorem Aligned.add {a b : ℕ} (ha : Aligned a) (hb : Aligned b) : Aligned (a + b) := by
  unfold Aligned at *
  rw [Nat.add_mod, ha, hb]
  rfl

theorem aligned_mul (n : ℕ) : Aligned (n * pageSize) := Nat.mul_mod_left n pageSize

variable {a lo hi : ℕ} {v w : Vma} {f : Vma → Vma}

theorem Aligned.div_mul (h : Aligned a) : a / pageSize * pageSize = a :=
  Nat.div_mul_cancel (Nat.dvd_of_mod_eq_zero h)

theorem Aligned.div_pos (h : Aligned a) (hpos : 0 < a) : 0 < a / pageSize :=
  Nat.div_pos (Nat.le_of_dvd hpos (Nat.dvd_of_mod_eq_zero h)) (by decide)

theorem Aligned.div_lt {i : ℕ} (h : Aligned a) (hi : i < a) : i / pageSize < a / pageSize :=
  Nat.div_lt_div_of_lt_of_dvd (Nat.dvd_of_mod_eq_zero h) hi

theorem Aligned.add_div (h : Aligned a) (i : ℕ) :
    (a + i) / pageSize = a / pageSize + i / pageSize :=
  Nat.add_div_of_dvd_right (Nat.dvd_of_mod_eq_zero h)

theorem Aligned.max {b : ℕ} (ha : Aligned a) (hb : Aligned b) : Aligned (max a b) := by
  rcases max_choice a b with h | h <;> rwa [h]

theorem Aligned.min {b : ℕ} (ha : Aligned a) (hb : Aligned b) : Aligned (min a b) := by
  rcases min_choice a b with h | h <;> rwa [h]

/-- The end points of a range are page-aligned and not in the kernel half. -/
structure Vma.Placed (v : Vma) : Prop where
  start : Aligned v.start
  stop : Aligned v.stop
  le : v.stop ≤ kernelVaStart

structure MapOk (s : MmapState) : Prop where
  sorted : VmaSorted s.vmas
  placed : ∀ v ∈ s.vmas, v.Placed
  lastEnd : Aligned s.lastEnd
  arenaLo : Aligned s.arenaLo
  arenaHi : s.arenaHi ≤ kernelVaStart

namespace MmapState

/-- No range meets `[lo, hi)`. -/
def Free (s : MmapState) (lo hi : ℕ) : Prop := ∀ v ∈ s.vmas, v.stop ≤ lo ∨ hi ≤ v.start

theorem free_of_overlaps {s : MmapState} (h : s.overlaps lo hi = false) : s.Free lo hi := by
  intro v hv
  have := any_eq_false.1 h v hv
  simp only [decide_eq_true_eq] at this
  omega

end MmapState

namespace MapOk

open MmapState

variable {s : MmapState} {l : List Vma}

/-- A memory map of a new process is in order unless its arena reaches the kernel half. -/
theorem forPid {pid : ℕ} (h : (forPid pid).arenaHi ≤ kernelVaStart) : MapOk (forPid pid) := by
  have hbase : Aligned (mmapHintBase + (pid - 1) * mmapPerPidStride) := by
    unfold Aligned mmapHintBase mmapPerPidStride pageSize
    omega
  refine ⟨⟨List.Pairwise.nil, ?_, ?_⟩, ?_, hbase, hbase, h⟩ <;> exact forall_mem_nil _

/-- Replacing the ranges by others that are in order. -/
theorem withVmas (h : MapOk s) {vmas : List Vma} (hs : VmaSorted vmas)
    (hp : ∀ v ∈ vmas, v.Placed) : MapOk ({ s with vmas := vmas }).bumpGeneration :=
  ⟨hs, hp, h.lastEnd, h.arenaLo, h.arenaHi⟩

theorem releaseReservation (h : MapOk s) (lo hi : ℕ) : MapOk (s.releaseReservation lo hi) :=
  h.withVmas ⟨h.sorted.pairwise.filter _, fun v hv => h.sorted.nonempty v (mem_of_mem_filter hv),
    fun v hv => h.sorted.offset v (mem_of_mem_filter hv)⟩
    fun v hv => h.placed v (mem_of_mem_filter hv)

/-! ### Entering a range -/

theorem insertAt_cons (v w : Vma) (l : List Vma) :
    insertAt v (w :: l) = if w.start < v.start then w :: insertAt v l else v :: w :: l := by
  unfold insertAt
  by_cases h : w.start < v.start
  · simp [h]
  · simp [h]

theorem mem_insertAt : w ∈ insertAt v l ↔ w = v ∨ w ∈ l := by
  grind [insertAt, takeWhile_append_dropWhile]

variable {v : Vma}

theorem sorted_insertAt (hs : VmaSorted l) (hne : v.start < v.stop) (hoff : v.backing.Shiftable 0)
    (hfree : ∀ w ∈ l, w.stop ≤ v.start ∨ v.stop ≤ w.start) : VmaSorted (insertAt v l) := by
  refine ⟨?_, fun w hw => ?_, fun w hw => ?_⟩
  · induction l with
    | nil => exact pairwise_singleton _ _
    | cons w l ih =>
      have hw := hs.nonempty w mem_cons_self
      have hrest := (pairwise_cons.1 hs.pairwise).1
      rw [insertAt_cons]
      split_ifs with hlt
      · refine pairwise_cons.2 ⟨fun u hu => ?_,
          ih hs.tail fun u hu => hfree u (mem_cons_of_mem w hu)⟩
        rcases mem_insertAt.1 hu with rfl | hu
        · rcases hfree w mem_cons_self with h | h <;> omega
        · exact hrest u hu
      refine pairwise_cons.2 ⟨fun u hu => ?_, hs.pairwise⟩
      have hvw : v.stop ≤ w.start := by
        rcases hfree w mem_cons_self with h | h <;> omega
      rcases mem_cons.1 hu with rfl | hu
      · exact hvw
      · have := hrest u hu
        omega
  · rcases mem_insertAt.1 hw with rfl | hw
    · exact hne
    · exact hs.nonempty w hw
  grind [mem_insertAt, hs.offset]

/-- A range that is entered where nothing is. -/
structure Fits (s : MmapState) (v : Vma) : Prop where
  lt : v.start < v.stop
  placed : v.Placed
  offset : v.backing.Shiftable 0
  free : s.Free v.start v.stop

theorem insert (h : MapOk s) (hv : Fits s v) : MapOk (s.insert v) := by
  refine ⟨sorted_insertAt h.sorted hv.lt hv.offset hv.free, fun w hw => ?_, hv.placed.stop,
    h.arenaLo, h.arenaHi⟩
  rcases mem_insertAt.1 hw with rfl | hw
  · exact hv.placed
  · exact h.placed w hw

theorem bumpLastEnd (h : MapOk s) (ha : Aligned a) : MapOk (s.bumpLastEnd a) := by
  unfold MmapState.bumpLastEnd
  split_ifs
  · exact ⟨h.sorted, h.placed, ha, h.arenaLo, h.arenaHi⟩
  · exact h

theorem bumpGeneration (h : MapOk s) : MapOk s.bumpGeneration :=
  ⟨h.sorted, h.placed, h.lastEnd, h.arenaLo, h.arenaHi⟩

theorem reserve (h : MapOk s) (hv : Fits s (reservation lo hi)) : MapOk (s.reserve lo hi) := by
  refine (bumpLastEnd (s := { s with vmas := insertAt (reservation lo hi) s.vmas })
    ⟨sorted_insertAt h.sorted hv.lt hv.offset hv.free, fun w hw => ?_, h.lastEnd, h.arenaLo,
      h.arenaHi⟩ hv.placed.stop).bumpGeneration
  rcases mem_insertAt.1 hw with rfl | hw
  · exact hv.placed
  · exact h.placed w hw

theorem vmas_reserve (s : MmapState) (lo hi : ℕ) :
    (s.reserve lo hi).vmas = insertAt (reservation lo hi) s.vmas := by
  unfold MmapState.reserve MmapState.bumpLastEnd
  split_ifs <;> rfl

/-- What was free before a range was reserved is free again after its release. -/
theorem free_releaseReservation (h : s.Free lo hi) :
    ((s.reserve lo hi).releaseReservation lo hi).Free lo hi := by
  intro v hv
  obtain ⟨hmem, hnot⟩ := mem_filter.1 hv
  rw [vmas_reserve, mem_insertAt] at hmem
  rcases hmem with rfl | hmem
  · simp [reservation] at hnot
  · exact h v hmem

/-- The addresses of a range that has just been entered. -/
theorem lookup_insert (hfree : s.Free v.start v.stop) (h1 : v.start ≤ a)
    (h2 : a < v.stop) : (s.insert v).lookup a = some (v.entryAt a) := by
  have hnone : (s.vmas.takeWhile fun w => w.start < v.start).find?
      (fun w => w.start ≤ a ∧ a < w.stop) = none := by
    refine find?_eq_none.2 fun w hw => ?_
    rw [decide_eq_true_eq]
    rcases hfree w (takeWhile_subset _ hw) with h | h <;> omega
  show ((insertAt v s.vmas).find? _).map _ = _
  grind [insertAt]

/-- A range that has just been entered can be changed without cutting another. -/
theorem rebasable_insert (hlt : v.start < v.stop) (hfree : s.Free v.start v.stop) :
    ∀ u ∈ (s.insert v).vmas, u.Rebasable v.start v.stop := by
  intro u hu
  rcases mem_insertAt.1 hu with rfl | hu
  · exact ⟨fun h => absurd h (lt_irrefl _), fun _ h => absurd h (lt_irrefl _)⟩
  · rcases hfree u hu with h | h
    · exact ⟨fun _ _ => by omega, fun _ _ => by omega⟩
    · exact ⟨fun _ _ => by omega, fun _ _ => by omega⟩

/-! ### Finding a place -/

variable {l : List Vma} {lo hi : ℕ} {r : RangeResult}

/-- The sweep of `find_gap` over a sorted list finds a free place that begins at `prevEnd` or at the
end of a range, and that ends before the arena does or before another range begins. -/
theorem tryFind_eq_some {limit length prevEnd : ℕ} (hs : VmaSorted l)
    (hstop : ∀ v ∈ l, v.stop < usizeBound) (h : tryFind limit length l prevEnd = some a) :
    prevEnd ≤ a ∧ (a = prevEnd ∨ ∃ v ∈ l, a = v.stop) ∧
      (∀ top < usizeBound - 1, limit ≤ top → (∀ v ∈ l, v.start ≤ top) → a + length ≤ top) ∧
      ∀ v ∈ l, v.stop ≤ a ∨ a + length ≤ v.start := by
  -- below the last address the saturated sum is the sum
  have hsat {p x : ℕ} (hx : saturatingAddU64 p length ≤ x) (hk : x < usizeBound - 1) :
      p + length ≤ x := by
    unfold saturatingAddU64 at hx
    omega
  induction l generalizing prevEnd with
  | nil =>
    rw [tryFind] at h
    split_ifs at h with hle
    cases h
    exact ⟨le_rfl, .inl rfl, fun top htop hlimit _ => hsat (hle.trans hlimit) htop, forall_mem_nil _⟩
  | cons v l ih =>
    have hne := hs.nonempty v mem_cons_self
    have hv := hstop v mem_cons_self
    have ih := fun {p : ℕ} => @ih p hs.tail fun w hw => hstop w (mem_cons_of_mem v hw)
    have hmem {P : Vma → Prop} : (∃ w ∈ l, P w) → ∃ w ∈ v :: l, P w :=
      fun ⟨w, hw, hP⟩ => ⟨w, mem_cons_of_mem v hw, hP⟩
    rw [tryFind] at h
    split_ifs at h with hskip hfit
    · obtain ⟨h1, h2, h3, h4⟩ := ih h
      exact ⟨h1, h2.imp_right hmem,
        fun top htop hlimit hl => h3 top htop hlimit (forall_mem_cons.1 hl).2,
        forall_mem_cons.2 ⟨.inl (hskip.trans h1), h4⟩⟩
    · cases h
      have hroom := hsat hfit (by omega)
      refine ⟨le_rfl, .inl rfl, fun top _ _ hl => hroom.trans (hl v mem_cons_self),
        forall_mem_cons.2 ⟨.inr hroom, fun w hw => ?_⟩⟩
      have := rel_of_pairwise_cons hs.pairwise hw
      exact .inr (by omega)
    · obtain ⟨h1, h2, h3, h4⟩ := ih h
      refine ⟨(le_max_left _ _).trans h1, ?_,
        fun top htop hlimit hl => h3 top htop hlimit (forall_mem_cons.1 hl).2,
        forall_mem_cons.2 ⟨.inl ((le_max_right _ _).trans h1), h4⟩⟩
      rcases h2 with h2 | h2
      · rcases max_choice prevEnd v.stop with hm | hm
        · exact .inl (h2.trans hm)
        · exact .inr ⟨v, mem_cons_self, h2.trans hm⟩
      · exact .inr (hmem h2)

/-- **Placement.**  `find_gap` finds a page-aligned free place. -/
theorem findGap (h : MapOk s) {length : ℕ} (ha : s.findGap length = some a) :
    Aligned a ∧ a + length ≤ kernelVaStart ∧ s.Free a (a + length) := by
  have key {q : ℕ} (hq : Aligned q) (hf : tryFind s.arenaHi length s.vmas q = some a) :
      Aligned a ∧ a + length ≤ kernelVaStart ∧ s.Free a (a + length) := by
    have hlt {x : ℕ} (hx : x ≤ kernelVaStart) : x < usizeBound := by
      unfold usizeBound kernelVaStart at *
      omega
    obtain ⟨-, h2, h3, h4⟩ := tryFind_eq_some h.sorted (fun v hv => hlt (h.placed v hv).le) hf
    have hle : ∀ v ∈ s.vmas, v.start ≤ kernelVaStart := fun v hv =>
      (h.sorted.nonempty v hv).le.trans (h.placed v hv).le
    refine ⟨?_, h3 kernelVaStart (by decide) h.arenaHi hle, h4⟩
    rcases h2 with rfl | ⟨v, hv, rfl⟩
    · exact hq
    · exact (h.placed v hv).stop
  grind [findGap, h.lastEnd.max, h.arenaLo]

/-! ### Cutting ranges -/

theorem placed_before (hv : v.Placed) (hlo : Aligned lo) (hw : w ∈ v.before lo) : w.Placed := by
  unfold Vma.before at hw
  split_ifs at hw
  · rw [mem_singleton.1 hw]
    exact ⟨hv.start, hv.stop.min hlo, (min_le_left _ _).trans hv.le⟩
  · cases hw

theorem placed_inside (hv : v.Placed) (hlo : Aligned lo) (hhi : Aligned hi)
    (hw : w ∈ v.inside lo hi) : w.Placed ∧ lo ≤ w.start ∧ w.stop ≤ hi := by
  unfold Vma.inside at hw
  split_ifs at hw
  · rw [mem_singleton.1 hw]
    exact ⟨⟨hv.start.max hlo, hv.stop.min hhi, (min_le_left _ _).trans hv.le⟩, le_max_right _ _,
      min_le_right _ _⟩
  · cases hw

theorem placed_behind (hv : v.Placed) (hhi : Aligned hi) (hw : w ∈ v.behind hi) : w.Placed := by
  unfold Vma.behind at hw
  split_ifs at hw
  · rw [mem_singleton.1 hw]
    exact ⟨hv.start.max hhi, hv.stop, hv.le⟩
  · cases hw

section

variable (h : MapOk s) (hlo : Aligned lo) (hhi : Aligned hi) (hlt : lo < hi)
include h hlo hhi hlt

/-- `unmap_range` leaves nothing in the range, and what it returns lies in the range. -/
theorem unmapRange {r : UnmapResult} (hr : s.unmapRange lo hi = .ok r) :
    MapOk r.state ∧ r.state.Free lo hi ∧ ∀ w ∈ r.removed, lo ≤ w.start ∧ w.stop ≤ hi := by
  have hreb := rebasable_of_unmapRange hlt hr
  rw [unmapRange_eq h.sorted hlt hreb] at hr
  cases hr
  refine ⟨h.withVmas (sorted_kept h.sorted hlt hreb) fun w hw => ?_,
    fun w hw => free_kept h.sorted hreb hw, fun w hw => ?_⟩
  · obtain ⟨v, hv, hw⟩ := mem_flatMap.1 hw
    rcases mem_append.1 hw with hw | hw
    · exact placed_before (h.placed v hv) hlo hw
    · exact placed_behind (h.placed v hv) hhi hw
  · obtain ⟨v, hv, hw⟩ := mem_flatMap.1 hw
    exact (placed_inside (h.placed v hv) hlo hhi hw).2

theorem splitRange
    (hf : ∀ w, (f w).start = w.start ∧ (f w).stop = w.stop ∧ (f w).backing = w.backing)
    (hr : s.splitRange lo hi f = .ok r) : MapOk r.state := by
  have hreb := rebasable_of_splitRange hlt hr
  rw [splitRange_eq h.sorted hlt hreb hf] at hr
  cases hr
  refine h.withVmas (sorted_split h.sorted hlt hreb hf) fun w hw => ?_
  obtain ⟨v, hv, hw⟩ := mem_flatMap.1 hw
  rcases mem_append.1 hw with hw | hw
  · rcases mem_append.1 hw with hw | hw
    · exact placed_before (h.placed v hv) hlo hw
    · obtain ⟨u, hu, rfl⟩ := mem_map.1 hw
      obtain ⟨⟨h1, h2, h3⟩, -⟩ := placed_inside (h.placed v hv) hlo hhi hu
      obtain ⟨e1, e2, -⟩ := hf u
      exact ⟨by rwa [e1], by rwa [e2], by rwa [e2]⟩
  · exact placed_behind (h.placed v hv) hhi hw

theorem protectRange
    {newProt : Perms} (hr : s.protectRange lo hi newProt = .ok r) : MapOk r.state :=
  h.splitRange hlo hhi hlt (f := fun v => { v with prot := newProt }) (fun _ => ⟨rfl, rfl, rfl⟩) hr

theorem lockRange {set : Bool} (hr : s.lockRange lo hi set = .ok r) : MapOk r.state :=
  h.splitRange hlo hhi hlt (f := fun v => { v with flags := { v.flags with locked := set } })
    (fun _ => ⟨rfl, rfl, rfl⟩) hr

end

/-! ### Extending a range -/

theorem mem_modifyAt (h : w ∈ modifyAt a f l) :
    w ∈ l ∨ ∃ v, l.find? (fun v => v.start = a) = some v ∧ w = f v := by
  induction l with
  | nil => exact .inl h
  | cons u l ih =>
    rw [modifyAt] at h
    split_ifs at h with hu
    · rcases mem_cons.1 h with rfl | h
      · exact .inr ⟨u, by simp [hu], rfl⟩
      · exact .inl (mem_cons_of_mem u h)
    rcases mem_cons.1 h with rfl | h
    · exact .inl mem_cons_self
    · rcases ih h with h | ⟨v, hv, rfl⟩
      · exact .inl (mem_cons_of_mem u h)
      · exact .inr ⟨v, by simp [hu, hv], rfl⟩

theorem pairwise_modifyAt {newEnd : ℕ}
    (hs : l.Pairwise fun v w => v.stop ≤ w.start) (hv : l.find? (fun v => v.start = a) = some v)
    (hfree : ∀ w ∈ l, w.stop ≤ v.stop ∨ newEnd ≤ w.start) (hne : ∀ w ∈ l, w.start < w.stop) :
    (modifyAt a (fun v => { v with stop := newEnd }) l).Pairwise fun v w => v.stop ≤ w.start := by
  induction l with
  | nil => cases hv
  | cons u l ih =>
    have hrest := (pairwise_cons.1 hs).1
    rw [find?_cons] at hv
    rw [modifyAt]
    by_cases hu : u.start = a
    · rw [decide_eq_true hu] at hv
      cases hv
      rw [if_pos hu]
      refine pairwise_cons.2 ⟨fun w hw => ?_, hs.of_cons⟩
      have := hne w (mem_cons_of_mem v hw)
      have := hrest w hw
      rcases hfree w (mem_cons_of_mem v hw) with h | h
      · omega
      · exact h
    · rw [decide_eq_false hu] at hv
      rw [if_neg hu]
      refine pairwise_cons.2 ⟨fun w hw => ?_, ih hs.of_cons hv
        (fun w hw => hfree w (mem_cons_of_mem u hw))
        fun w hw => hne w (mem_cons_of_mem u hw)⟩
      rcases mem_modifyAt hw with hw | ⟨x, hx, rfl⟩
      · exact hrest w hw
      · exact hrest x (mem_of_find?_eq_some hx)

theorem extendVmaEnd (h : MapOk s) {start newEnd : ℕ} (hnew : Aligned newEnd) :
    MapOk (s.extendVmaEnd start newEnd).2 := by
  unfold MmapState.extendVmaEnd
  split
  · exact h
  rename_i v hv
  split_ifs with hbound hover
  · exact h
  · exact h
  have hmem := mem_of_find?_eq_some hv
  have hfree := free_of_overlaps (Bool.not_eq_true _ ▸ hover)
  have hle : newEnd ≤ kernelVaStart := by
    have := h.arenaHi
    omega
  have hparts {w : Vma} (hw : w ∈ modifyAt start (fun v => { v with stop := newEnd }) s.vmas) :
      w.start < w.stop ∧ w.backing.Shiftable 0 ∧ w.Placed := by
    rcases mem_modifyAt hw with hw | ⟨u, hu, rfl⟩
    · exact ⟨h.sorted.nonempty w hw, h.sorted.offset w hw, h.placed w hw⟩
    · cases hv.symm.trans hu
      have := h.sorted.nonempty v hmem
      exact ⟨show v.start < newEnd by omega, h.sorted.offset v hmem,
        ⟨(h.placed v hmem).start, hnew, hle⟩⟩
  refine (bumpLastEnd (s := { s with
    vmas := modifyAt start (fun v => { v with stop := newEnd }) s.vmas })
    ⟨⟨?_, fun w hw => (hparts hw).1, fun w hw => (hparts hw).2.1⟩,
      fun w hw => (hparts hw).2.2, h.lastEnd, h.arenaLo, h.arenaHi⟩ hnew).bumpGeneration
  exact pairwise_modifyAt h.sorted.pairwise hv hfree h.sorted.nonempty

end MapOk

end CypheraKernel.Mm
