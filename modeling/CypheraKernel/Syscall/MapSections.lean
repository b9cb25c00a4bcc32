import CypheraKernel.Lib.Sections
import CypheraKernel.Mm.MapInvariant
import CypheraKernel.Syscall.Mm

/-!
# What the memory calls do under the lock of the memory map

`mmap`, `munmap` and `mremap` take the lock of the memory map several times
(`with_current_mmap_mut`), with work on page tables, segments and files in between.  A range in
which such work is going on is held by a placeholder, which is put in by one section and taken out,
by its exact bounds, by a later one.

`mapDiscipline`: sections in their places that find the map undisturbed keep the ranges sorted and
disjoint, and the placeholders are those held.
-/

namespace CypheraKernel.Syscall

open Mm Rust MmapState Sections List Vma

/-- The sections on the map lock. -/
inductive Section
  /-- `mmap`: choose a place and reserve it. -/
  | pick (addr length : ℕ) (flags : UInt64)
  /-- `mremap`: find a gap and reserve it. -/
  | gap (length : ℕ)
  /-- `mremap`: reserve the place asked for. -/
  | reserve (lo hi : ℕ)
  /-- Give a reserved range up. -/
  | release (lo hi : ℕ)
  /-- Replace the placeholder by the range. -/
  | enter (v : Vma)
  /-- `munmap`: take out what is there and reserve the range. -/
  | cut (lo hi : ℕ)
  /-- `mmap` under `mlockall`. -/
  | lock (lo hi : ℕ)
  /-- `mremap`: grow in place. -/
  | extend (start newEnd : ℕ)
  /-- `mremap`: look up the range to move. -/
  | find (addr : ℕ)
  /-- `mremap`: look it up again before it is unmapped. -/
  | recheck (addr : ℕ)

def Section.Answer : Section → Type
  | pick _ _ _ => Except Errno ℕ
  | gap _ => Option ℕ
  | reserve _ _ | release _ _ | cut _ _ | lock _ _ => Unit
  | enter _ => UInt32
  | extend _ _ => Bool
  | find _ | recheck _ => Option Vma

variable (m : MmapState)

/-- A range of the given length is reserved at `a`. -/
def reserveAt (a length : ℕ) : Except Panic MmapState := do
  let hi ← usizeAdd a length
  return m.reserve a hi

/-- The section of `mmap` that chooses a place. -/
def pickRange (addr length : ℕ) (flags : UInt64) : Except Panic (Except Errno ℕ × MmapState) :=
  if flags &&& mapFixedNoreplace ≠ 0 then
    if m.overlaps addr (addr + length) then .ok (.error .exist, m)
    else do
      let m' ← reserveAt m addr length
      return (.ok addr, m')
  else if flags &&& mapFixed ≠ 0 then do
    let r ← m.unmapRange addr (addr + length)
    let m' ← reserveAt r.state addr length
    return (.ok addr, m')
  else
    match hintOrGap m addr length with
    | none => .ok (.error .nomem, m)
    | some a => do
      let m' ← reserveAt m a length
      return (.ok a, m')

/-- The section of `mremap` that looks for a place. -/
def gapRange (length : ℕ) : Except Panic (Option ℕ × MmapState) :=
  match m.findGap length with
  | none => .ok (none, m)
  | some a => do
    let m' ← reserveAt m a length
    return (some a, m')

def Section.run : (a : Section) → MmapState → Except Panic (a.Answer × MmapState)
  | pick addr length flags, m => pickRange m addr length flags
  | gap length, m => gapRange m length
  | reserve lo hi, m => .ok ((), m.reserve lo hi)
  | release lo hi, m => .ok ((), m.releaseReservation lo hi)
  | enter v, m => .ok (m.mlockallFlags, (m.releaseReservation v.start v.stop).insert v)
  | cut lo hi, m => do
    let r ← m.unmapRangeReserve lo hi
    return ((), r.state)
  | lock lo hi, m => do
    let r ← m.lockRange lo hi true
    return ((), r.state)
  | extend start newEnd, m => .ok (m.extendVmaEnd start newEnd)
  | find addr, m => .ok (m.findContaining addr, m)
  | recheck addr, m => .ok (m.findContaining addr, m)

/-- The range that the caller holds after a section. -/
def Section.holds (held : Option (ℕ × ℕ)) : (a : Section) → a.Answer → Option (ℕ × ℕ)
  | pick _ length _, .ok a => some (a, a + length)
  | pick _ _ _, .error _ => held
  | gap length, some a => some (a, a + length)
  | gap _, none => held
  | reserve lo hi, _ => some (lo, hi)
  | release _ _, _ => none
  | enter _, _ => none
  | cut lo hi, _ => some (lo, hi)
  | lock _ _, _ => held
  | extend _ _, _ => held
  | find _, _ => held
  | recheck _, _ => held

def mapInterface : Interface MmapState (ℕ × ℕ) where
  Act := Section
  Answer := Section.Answer
  run a m := (a.run m).toOption
  holds := Section.holds

/-! ### Placeholders -/

/-- A placeholder lies over exactly the range. -/
def Placeholder (r : ℕ × ℕ) : Prop :=
  ∃ v ∈ m.vmas, v.flags.reserved = true ∧ v.start = r.1 ∧ v.stop = r.2

/-- The two ranges do not meet. -/
def Apart (v w : Vma) : Prop := v.stop ≤ w.start ∨ w.stop ≤ v.start
  deriving Decidable

instance : Std.Symm Apart := ⟨fun _ _ h => h.symm⟩

/-- The ranges are sorted and disjoint and end below `2 ^ 64`, as does the arena. -/
structure InOrder (m : MmapState) : Prop where
  sorted : VmaSorted m.vmas
  stop_lt : ∀ v ∈ m.vmas, v.stop < usizeBound
  arenaHi : m.arenaHi < usizeBound

theorem InOrder.apart {m : MmapState} (h : InOrder m) : m.vmas.Pairwise Apart :=
  h.sorted.pairwise.imp fun h => .inl h

/-- No placeholder meets `[lo, hi)`. -/
def NoPlaceholder (lo hi : ℕ) : Prop :=
  ∀ v ∈ m.vmas, v.flags.reserved = true → v.stop ≤ lo ∨ hi ≤ v.start
  deriving Decidable

/-- The section is in its place in a call that holds the given range. -/
def Section.Fit (held : Option (ℕ × ℕ)) : Section → Prop
  | pick addr length flags =>
    held = none ∧ 0 < length ∧ (isFixed flags = true → addr + length < usizeBound)
  | gap length => held = none ∧ 0 < length
  | reserve lo hi => held = none ∧ lo < hi ∧ hi < usizeBound
  | release lo hi => held = some (lo, hi)
  | enter v => held = some (v.start, v.stop) ∧ v.flags.reserved = false ∧ v.backing.Shiftable 0
  | cut lo hi => held = none ∧ lo < hi ∧ hi < usizeBound
  | lock lo hi => lo < hi
  | extend _ newEnd => newEnd < usizeBound
  | find _ => True
  | recheck _ => True

/-- The section touches no placeholder but that of the caller, and reserves no range where
something is. -/
def Section.Undisturbed : Section → Prop
  | pick addr length flags =>
    flags &&& mapFixedNoreplace = 0 → flags &&& mapFixed ≠ 0 →
      NoPlaceholder m addr (addr + length)
  | reserve lo hi => m.overlaps lo hi = false
  | cut lo hi => NoPlaceholder m lo hi
  | lock lo hi => ∀ v ∈ m.vmas, v.flags.reserved = true →
      (v.stop ≤ lo ∨ hi ≤ v.start) ∨ lo ≤ v.start ∧ v.stop ≤ hi
  | extend start _ => ∀ v ∈ m.vmas.find? fun v => v.start = start, v.flags.reserved = false
  | find addr => ∀ v ∈ m.findContaining addr, v.flags.reserved = false
  | gap _ => True
  | release _ _ => True
  | enter _ => True
  | recheck _ => True

/-- What is known of the answer. -/
def Section.Possible : (a : Section) → a.Answer → Prop
  | find addr, some v => v.flags.reserved = false ∧ v.backing.Shiftable 0 ∧ v.start ≤ addr
  | _, _ => True

instance (m : MmapState) (a : Section) : Decidable (a.Undisturbed m) := by
  unfold Section.Undisturbed
  split <;> infer_instance

variable {m m' n : MmapState} {lo hi : ℕ} {held : Option (ℕ × ℕ)}

/-- A placeholder lies where something is. -/
theorem not_placeholder_of_free (hfree : m.Free lo hi) (hlt : lo < hi) :
    ¬ Placeholder m (lo, hi) := by
  rintro ⟨v, hv, -, rfl, rfl⟩
  rcases hfree v hv with h' | h' <;> exact absurd h' (not_le.2 hlt)

/-- What putting a placeholder where nothing is does. -/
theorem reserve_sound (h : InOrder m) (hlt : lo < hi) (hbound : hi < usizeBound)
    (hfree : m.Free lo hi) :
    InOrder (m.reserve lo hi) ∧
      ∀ r, Placeholder (m.reserve lo hi) r ↔ Placeholder m r ∨ (lo, hi) = r := by
  have hvmas := MapOk.vmas_reserve m lo hi
  have harena : (m.reserve lo hi).arenaHi = m.arenaHi := by
    unfold reserve bumpLastEnd
    split_ifs <;> rfl
  refine ⟨⟨?_, fun v hv => ?_, harena ▸ h.arenaHi⟩, fun r => ?_⟩
  · rw [hvmas]
    exact MapOk.sorted_insertAt h.sorted hlt trivial hfree
  · rw [hvmas] at hv
    rcases MapOk.mem_insertAt.1 hv with rfl | hv
    · exact hbound
    · exact h.stop_lt v hv
  unfold Placeholder
  rw [hvmas]
  constructor
  · rintro ⟨v, hv, hres, h1, h2⟩
    rcases MapOk.mem_insertAt.1 hv with rfl | hv
    · exact .inr (Prod.ext h1 h2)
    · exact .inl ⟨v, hv, hres, h1, h2⟩
  · rintro (⟨v, hv, hres, h1, h2⟩ | rfl)
    · exact ⟨v, MapOk.mem_insertAt.2 (.inr hv), hres, h1, h2⟩
    · exact ⟨_, MapOk.mem_insertAt.2 (.inl rfl), rfl, rfl, rfl⟩

/-- A caller without a range reserves one in a map with the placeholders of `m`. -/
theorem moves_reserve (h : InOrder n) (hlt : lo < hi) (hbound : hi < usizeBound)
    (hfree : n.Free lo hi) (hsame : ∀ r, Placeholder n r ↔ Placeholder m r) :
    InOrder (n.reserve lo hi) ∧
      Moves (Placeholder m) (Placeholder (n.reserve lo hi)) none (some (lo, hi)) := by
  obtain ⟨hin, hiff⟩ := reserve_sound h hlt hbound hfree
  refine ⟨hin, ⟨fun r => ?_, fun r hr _ hp => ?_⟩⟩
  · rw [hiff, hsame]
    simp
  · grind [not_placeholder_of_free]

/-- Sections that leave the placeholders as they are. -/
theorem moves_same (hheld : ∀ r, held = some r → Placeholder m r)
    (hiff : ∀ r, Placeholder m' r ↔ Placeholder m r) :
    Moves (Placeholder m) (Placeholder m') held held where
  iff r := by
    rw [hiff]
    constructor
    · intro hr
      by_cases heq : held = some r
      · exact .inr heq
      · exact .inl ⟨hr, heq⟩
    · grind
  new r hr hne := absurd hr hne

/-! ### The sections -/

variable {length a : ℕ} {l : List Vma}

theorem reserveAt_ok (hm : reserveAt m a length = .ok m') :
    a + length < usizeBound ∧ m' = m.reserve a (a + length) := by
  obtain ⟨b, hb, hm⟩ := bind_eq_ok.1 hm
  cases hm
  grind [usizeAdd]

/-- Where the two sweeps of `find_gap` begin. -/
def sweepStarts (m : MmapState) : List ℕ := [max m.lastEnd m.arenaLo, m.arenaLo]

theorem sweep_of_findGap (ha : m.findGap length = some a) :
    ∃ start ∈ sweepStarts m, tryFind m.arenaHi length m.vmas start = some a := by
  unfold findGap at ha
  split at ha
  · rename_i b hb
    cases ha
    exact ⟨_, mem_cons_self, hb⟩
  · exact ⟨_, mem_cons_of_mem _ mem_cons_self, ha⟩

theorem InOrder.free_findGap (h : InOrder m) (ha : m.findGap length = some a) :
    m.Free a (a + length) := by
  obtain ⟨start, -, ha⟩ := sweep_of_findGap ha
  exact (MapOk.tryFind_eq_some h.sorted h.stop_lt ha).2.2.2

/-- The sweep goes no further than to a free place behind `prevEnd` that ends below the limit or
below a range. -/
theorem exists_tryFind {limit prevEnd : ℕ} (hl : ∀ v ∈ l, v.start < v.stop) (hle : prevEnd ≤ a)
    (hfree : ∀ v ∈ l, v.stop ≤ a ∨ a + length ≤ v.start)
    (hend : a + length ≤ limit ∨ ∃ v ∈ l, a + length ≤ v.start) :
    ∃ b ≤ a, tryFind limit length l prevEnd = some b := by
  induction l generalizing prevEnd with
  | nil =>
    have hlimit : a + length ≤ limit := by simpa using hend
    rw [tryFind, if_pos (by grind [saturatingAddU64])]
    exact ⟨prevEnd, hle, rfl⟩
  | cons v l ih =>
    have hv := hl v mem_cons_self
    have hv' := hfree v mem_cons_self
    rw [tryFind]
    split_ifs with hskip hfit
    · grind
    · exact ⟨prevEnd, hle, rfl⟩
    · -- the place is not in front of this range, so it lies behind it
      have hbehind : ¬ a + length ≤ v.start := by grind [saturatingAddU64]
      grind

/-- There is a free place of the length in `[lo, hi)`. -/
def Room (m : MmapState) (length lo hi : ℕ) : Prop :=
  ∃ a, lo ≤ a ∧ a + length ≤ hi ∧ m.Free a (a + length)

/-- The place that `find_gap` finds is free and inside the arena, and it finds one if there is
one. -/
structure GapFound (m : MmapState) (length : ℕ) : Prop where
  sound : ∀ a ∈ m.findGap length, m.arenaLo ≤ a ∧ a + length ≤ m.arenaHi ∧ m.Free a (a + length)
  complete : m.findGap length = none →
    ∀ a, m.arenaLo ≤ a → a + length ≤ m.arenaHi → ¬ m.Free a (a + length)

section

variable (h : InOrder m) (hpage : m.arenaHi % pageSize = 0)

include h hpage

/-- What a sweep finds, and that it finds the lowest such place. -/
theorem tryFind_spec {start : ℕ} (ha : tryFind m.arenaHi length m.vmas start = some a) :
    start ≤ a ∧ m.Free a (a + length) ∧
      (a + length ≤ m.arenaHi ↔ Room m length start m.arenaHi) ∧
      (a + length ≤ m.arenaHi ∨ ∃ v ∈ m.vmas, a + length ≤ v.start) := by
  have hne := h.sorted.nonempty
  have hstop := h.stop_lt
  have hlimit : m.arenaHi < usizeBound - 1 := by
    have := h.arenaHi
    simp only [usizeBound, pageSize] at *
    omega
  obtain ⟨hstart, -, hend, hfree⟩ := MapOk.tryFind_eq_some h.sorted h.stop_lt ha
  refine ⟨hstart, hfree, ⟨fun hhi => ⟨a, hstart, hhi, hfree⟩, ?_⟩, ?_⟩
  · rintro ⟨a', hle, hhi, hfree'⟩
    obtain ⟨b, hb, hfind⟩ := exists_tryFind hne hle hfree' (.inl hhi)
    cases ha.symm.trans hfind
    exact (Nat.add_le_add_right hb length).trans hhi
  · by_contra hout
    push Not at hout
    have hbound : a + length ≤ usizeBound - 2 :=
      hend _ (by omega) (by omega) fun v hv => by grind
    have := hend (a + length - 1) (by omega) (by omega) fun v hv => by grind
    omega

/-- **Gap search is sound and complete**, wherever the last range ended, exactly if each sweep that
finds room below a range finds room below the end of the arena. -/
theorem gap_found_iff (length : ℕ) :
    GapFound m length ↔ ∀ start ∈ sweepStarts m, ∀ v ∈ m.vmas,
      Room m length start v.start → Room m length start m.arenaHi := by
  have hlo : ∀ start ∈ sweepStarts m, m.arenaLo ≤ start := by simp [sweepStarts]
  constructor
  · rintro ⟨hsound, -⟩ start hstart v hv ⟨a', hle, hend, hfree⟩
    obtain ⟨a, -, ha⟩ := exists_tryFind h.sorted.nonempty hle hfree
      (.inr ⟨v, hv, hend⟩ : _ ≤ m.arenaHi ∨ _)
    unfold findGap at hsound
    split at hsound
    · -- the first sweep finds a place, which is also one for the second
      rename_i b hb
      obtain ⟨-, hhi, -⟩ := hsound b rfl
      obtain ⟨c, hc, hhi, hfree⟩ := (tryFind_spec h hpage hb).2.2.1.1 hhi
      rcases mem_cons.1 hstart with rfl | hstart
      · exact ⟨c, hc, hhi, hfree⟩
      · cases mem_singleton.1 hstart
        exact ⟨c, (le_max_right _ _).trans hc, hhi, hfree⟩
    · rename_i hnone
      rcases mem_cons.1 hstart with rfl | hstart
      · cases hnone.symm.trans ha
      · cases mem_singleton.1 hstart
        exact (tryFind_spec h hpage ha).2.2.1.1 (hsound a ha).2.1
  · intro hroom
    constructor
    · intro a ha
      obtain ⟨start, hstart, ha⟩ := sweep_of_findGap ha
      obtain ⟨hle, hfree, hiff, hend | ⟨v, hv, hend⟩⟩ := tryFind_spec h hpage ha
      · exact ⟨(hlo start hstart).trans hle, hend, hfree⟩
      · exact ⟨(hlo start hstart).trans hle,
          hiff.2 (hroom start hstart v hv ⟨a, hle, hend, hfree⟩), hfree⟩
    · intro hnone a hle hend hfree
      obtain ⟨b, -, hb⟩ := exists_tryFind h.sorted.nonempty hle hfree (.inl hend)
      unfold findGap at hnone
      split at hnone
      · cases hnone
      · cases hnone.symm.trans hb

end

/-- A private page at the given address. -/
def pageAt (start : ℕ) : Vma :=
  ⟨start, start + pageSize, ⟨true, true, false, true⟩, ⟨false, true, false, false, false⟩, .anonymous⟩

/-- One fixed mapping above the arena. -/
theorem gap_found_above :
    GapFound ((forPid 1).insert (pageAt ((forPid 1).arenaHi + 3 * pageSize))) pageSize := by
  refine (gap_found_iff ⟨⟨by decide, by decide, by decide⟩, by decide, by decide⟩ (by decide) _).2 ?_
  intro start hstart v hv hroom
  obtain rfl := mem_singleton.1 hv
  rcases mem_cons.1 hstart with rfl | hstart
  · -- the first sweep begins behind the page
    obtain ⟨a, hle, hend, -⟩ := hroom
    exact absurd (hle.trans ((Nat.le_add_right _ _).trans hend)) (by decide)
  · obtain rfl := mem_singleton.1 hstart
    exact ⟨_, le_rfl, by decide, free_of_overlaps (by decide)⟩

/-- Two fixed mappings above the arena, the later one right behind it: the search goes on from there
and finds the gap between them. -/
theorem not_gap_found_above :
    ¬ GapFound (((forPid 1).insert (pageAt ((forPid 1).arenaHi + 3 * pageSize))).insert
      (pageAt (forPid 1).arenaHi)) pageSize := by
  intro h
  exact absurd (h.sound ((forPid 1).arenaHi + pageSize) (by decide)).2.1 (by decide)

variable {v : Vma}

theorem sub_flags (v : Vma) (lo hi : ℕ) : (v.sub lo hi).flags = v.flags := rfl

/-- Cutting ranges into parts leaves the placeholders as they are, if each of them stays whole. -/
theorem placeholder_flatMap_iff {parts : Vma → List Vma}
    (hflags : ∀ v ∈ m.vmas, ∀ w ∈ parts v, w.flags.reserved = v.flags.reserved)
    (hwhole : ∀ v ∈ m.vmas, v.flags.reserved = true →
      ∃ w, parts v = [w] ∧ w.start = v.start ∧ w.stop = v.stop)
    (hm' : m'.vmas = m.vmas.flatMap parts) (r : ℕ × ℕ) : Placeholder m' r ↔ Placeholder m r := by
  grind [Placeholder]

theorem mem_modifyAt_of_ne {f : Vma → Vma} {u : Vma} (hu : u ∈ l)
    (hv : l.find? (fun v => v.start = a) = some v) (hne : u ≠ v) : u ∈ modifyAt a f l := by
  induction l with
  | nil => cases hu
  | cons w l ih =>
    rw [modifyAt]
    by_cases hw : w.start = a
    · simp_all
    rw [find?_cons_of_neg (by simpa using hw)] at hv
    rw [if_neg hw]
    rcases mem_cons.1 hu with rfl | hu
    · exact mem_cons_self
    · exact mem_cons_of_mem w (ih hu hv)

section

variable (h : InOrder m)

include h

/-- Unmapping a range without placeholders. -/
theorem unmapRange_sound (hlt : lo < hi) (hno : NoPlaceholder m lo hi)
    {r : UnmapResult} (hr : m.unmapRange lo hi = .ok r) :
    InOrder r.state ∧ r.state.Free lo hi ∧ ∀ p, Placeholder r.state p ↔ Placeholder m p := by
  have hreb := rebasable_of_unmapRange hlt hr
  rw [unmapRange_eq h.sorted hlt hreb] at hr
  cases hr
  refine ⟨⟨sorted_kept h.sorted hlt hreb, fun w hw => ?_, h.arenaHi⟩,
    fun w hw => free_kept h.sorted hreb hw, fun p => ?_⟩
  · obtain ⟨v, hv, hw⟩ := mem_flatMap.1 hw
    exact ((partsIn_kept h.sorted hlt hreb hv).le_stop w hw).1.trans_lt (h.stop_lt v hv)
  · refine placeholder_flatMap_iff (fun v hv w hw => ?_) (fun v hv hres => ?_) rfl p
    · grind [before, behind, sub_flags]
    · exact ⟨v, parts_outside (h.sorted.nonempty v hv) hlt (hno v hv hres), rfl, rfl⟩

/-- Locking a range in which placeholders lie wholly or not at all. -/
theorem lockRange_sound (hlt : lo < hi)
    (hclear : ∀ v ∈ m.vmas, v.flags.reserved = true →
      (v.stop ≤ lo ∨ hi ≤ v.start) ∨ lo ≤ v.start ∧ v.stop ≤ hi)
    {r : RangeResult} (hr : m.lockRange lo hi true = .ok r) :
    InOrder r.state ∧ ∀ p, Placeholder r.state p ↔ Placeholder m p := by
  let f (w : Vma) : Vma := { w with flags := { w.flags with locked := true } }
  have hf (w : Vma) : (f w).start = w.start ∧ (f w).stop = w.stop ∧ (f w).backing = w.backing :=
    ⟨rfl, rfl, rfl⟩
  have hreb := rebasable_of_splitRange hlt hr
  rw [lockRange, splitRange_eq h.sorted hlt hreb hf] at hr
  cases hr
  refine ⟨⟨sorted_split h.sorted hlt hreb hf, fun w hw => ?_, h.arenaHi⟩, fun p => ?_⟩
  · obtain ⟨v, hv, hw⟩ := mem_flatMap.1 hw
    exact ((partsIn_split h.sorted hlt hreb hf hv).le_stop w hw).1.trans_lt (h.stop_lt v hv)
  refine placeholder_flatMap_iff (fun v hv w hw => ?_) (fun v hv hres => ?_) rfl p
  · rw [mem_append, mem_append, mem_map] at hw
    grind [before, inside, behind, sub_flags]
  · grind [h.sorted.nonempty, inside_nil, parts_outside, before_nil, behind_nil,
      Vma.inside_eq, Vma.sub_self]

/-- Growing a range that is no placeholder. -/
theorem extendVmaEnd_sound {start newEnd : ℕ} (hnew : newEnd < usizeBound)
    (hclear : ∀ v ∈ m.vmas.find? fun v => v.start = start, v.flags.reserved = false) :
    InOrder (m.extendVmaEnd start newEnd).2 ∧
      ∀ p, Placeholder (m.extendVmaEnd start newEnd).2 p ↔ Placeholder m p := by
  unfold extendVmaEnd
  split
  · exact ⟨h, fun _ => Iff.rfl⟩
  rename_i v hv
  split_ifs with hbound hover
  · exact ⟨h, fun _ => Iff.rfl⟩
  · exact ⟨h, fun _ => Iff.rfl⟩
  have hmem := mem_of_find?_eq_some hv
  have hne := h.sorted.nonempty v hmem
  have hfree := free_of_overlaps (Bool.not_eq_true _ ▸ hover)
  have hpart : ∀ w ∈ modifyAt start (fun v => { v with stop := newEnd }) m.vmas,
      w ∈ m.vmas ∨ w = { v with stop := newEnd } := by
    intro w hw
    rcases MapOk.mem_modifyAt hw with hw | ⟨u, hu, rfl⟩
    · exact .inl hw
    · grind
  have hstate : ∀ s : MmapState, (s.bumpLastEnd newEnd).bumpGeneration.vmas = s.vmas ∧
      (s.bumpLastEnd newEnd).bumpGeneration.arenaHi = s.arenaHi := by
    intro s
    unfold bumpLastEnd
    split_ifs <;> exact ⟨rfl, rfl⟩
  obtain ⟨hvmas, harena⟩ := hstate { m with
    vmas := modifyAt start (fun v => { v with stop := newEnd }) m.vmas }
  refine ⟨⟨?_, fun w hw => ?_, harena.trans_lt h.arenaHi⟩, fun p => ?_⟩
  · rw [hvmas]
    refine ⟨MapOk.pairwise_modifyAt h.sorted.pairwise hv hfree h.sorted.nonempty,
      fun w hw => ?_, fun w hw => ?_⟩
    · rcases hpart w hw with hw | rfl
      · exact h.sorted.nonempty w hw
      · show v.start < newEnd
        omega
    · grind [h.sorted.offset]
  · rw [hvmas] at hw
    rcases hpart w hw with hw | rfl
    · exact h.stop_lt w hw
    · exact hnew
  · have hfalse : v.flags.reserved = false := hclear v hv
    unfold Placeholder
    rw [hvmas]
    constructor
    · rintro ⟨w, hw, hres, h1, h2⟩
      rcases hpart w hw with hw | rfl
      · exact ⟨w, hw, hres, h1, h2⟩
      · exact absurd hres (Bool.eq_false_iff.1 hfalse)
    · rintro ⟨w, hw, hres, h1, h2⟩
      refine ⟨w, mem_modifyAt_of_ne hw hv ?_, hres, h1, h2⟩
      rintro rfl
      exact Bool.eq_false_iff.1 hfalse hres

/-- Taking out the placeholder over exactly this range. -/
theorem release_sound (lo hi : ℕ) :
    InOrder (m.releaseReservation lo hi) ∧
      ∀ p, Placeholder (m.releaseReservation lo hi) p ↔ Placeholder m p ∧ (lo, hi) ≠ p := by
  refine ⟨⟨⟨h.sorted.pairwise.filter _, fun v hv => h.sorted.nonempty v (mem_of_mem_filter hv),
    fun v hv => h.sorted.offset v (mem_of_mem_filter hv)⟩,
    fun v hv => h.stop_lt v (mem_of_mem_filter hv), h.arenaHi⟩, fun p => ?_⟩
  constructor
  · rintro ⟨v, hv, hres, h1, h2⟩
    obtain ⟨hv, hnot⟩ := mem_filter.1 hv
    refine ⟨⟨v, hv, hres, h1, h2⟩, ?_⟩
    rintro rfl
    simp [h1, h2, hres] at hnot
  · rintro ⟨⟨v, hv, hres, h1, h2⟩, hne⟩
    refine ⟨v, mem_filter.2 ⟨hv, ?_⟩, hres, h1, h2⟩
    grind

/-- Once its placeholder is out, the range is free. -/
theorem free_release (hp : Placeholder m (lo, hi)) :
    lo < hi ∧ hi < usizeBound ∧ (m.releaseReservation lo hi).Free lo hi := by
  obtain ⟨v, hv, hres, rfl, rfl⟩ := hp
  refine ⟨h.sorted.nonempty v hv, h.stop_lt v hv, fun w hw => ?_⟩
  obtain ⟨hw, hnot⟩ := mem_filter.1 hw
  have hne : v ≠ w := by
    rintro rfl
    simp [hres] at hnot
  exact h.apart.forall hw hv hne.symm

/-- The range that is entered takes the place of its placeholder. -/
theorem enter_sound (hp : Placeholder m (v.start, v.stop))
    (hres : v.flags.reserved = false) (hoff : v.backing.Shiftable 0) :
    InOrder ((m.releaseReservation v.start v.stop).insert v) ∧
      ∀ p, Placeholder ((m.releaseReservation v.start v.stop).insert v) p ↔
        Placeholder m p ∧ (v.start, v.stop) ≠ p := by
  obtain ⟨hlt, hbound, hfree⟩ := free_release h hp
  obtain ⟨hout, hiff⟩ := release_sound h v.start v.stop
  refine ⟨⟨MapOk.sorted_insertAt hout.sorted hlt hoff hfree, fun w hw => ?_, h.arenaHi⟩,
    fun p => ?_⟩
  · rcases MapOk.mem_insertAt.1 hw with rfl | hw
    · exact hbound
    · exact hout.stop_lt w hw
  rw [← hiff]
  constructor
  · rintro ⟨w, hw, hres', h1, h2⟩
    rcases MapOk.mem_insertAt.1 hw with rfl | hw
    · exact absurd hres' (Bool.eq_false_iff.1 hres)
    · exact ⟨w, hw, hres', h1, h2⟩
  · rintro ⟨w, hw, hres', h1, h2⟩
    exact ⟨w, MapOk.mem_insertAt.2 (.inr hw), hres', h1, h2⟩

omit h in
theorem reserveAt_sound (h : InOrder n) (hpos : 0 < length) (hfree : n.Free a (a + length))
    (hsame : ∀ r, Placeholder n r ↔ Placeholder m r) (hm' : reserveAt n a length = .ok m') :
    InOrder m' ∧ Moves (Placeholder m) (Placeholder m') none (some (a, a + length)) := by
  obtain ⟨hbound, rfl⟩ := reserveAt_ok hm'
  exact moves_reserve h (Nat.lt_add_of_pos_right hpos) hbound hfree hsame

theorem pickRange_sound {addr : ℕ} {flags : UInt64} (hpos : 0 < length)
    (hclear : (Section.pick addr length flags).Undisturbed m) {x : Except Errno ℕ}
    (hx : pickRange m addr length flags = .ok (x, m')) :
    InOrder m' ∧ Moves (Placeholder m) (Placeholder m') none
      (Section.holds none (.pick addr length flags) x) := by
  have hnone : Moves (Placeholder m) (Placeholder m) none none :=
    moves_same nofun fun _ => Iff.rfl
  unfold pickRange at hx
  split_ifs at hx with hnoreplace hover hfixed
  · cases hx
    exact ⟨h, hnone⟩
  · obtain ⟨m₁, hm₁, hx⟩ := bind_eq_ok.1 hx
    cases hx
    exact reserveAt_sound h hpos (free_of_overlaps (Bool.not_eq_true _ ▸ hover)) (fun _ => Iff.rfl)
      hm₁
  · obtain ⟨r, hr, hx⟩ := bind_eq_ok.1 hx
    obtain ⟨m₁, hm₁, hx⟩ := bind_eq_ok.1 hx
    cases hx
    have hno : NoPlaceholder m addr (addr + length) := hclear (not_not.1 hnoreplace) hfixed
    obtain ⟨hin, hfree, hsame⟩ := unmapRange_sound h (Nat.lt_add_of_pos_right hpos) hno hr
    exact reserveAt_sound hin hpos hfree hsame hm₁
  · cases ha : hintOrGap m addr length with
    | none =>
      rw [ha] at hx
      cases hx
      exact ⟨h, hnone⟩
    | some a =>
      rw [ha] at hx
      obtain ⟨m₁, hm₁, hx⟩ := bind_eq_ok.1 hx
      cases hx
      refine reserveAt_sound h hpos ?_ (fun _ => Iff.rfl) hm₁
      grind [hintOrGap, free_of_overlaps, h.free_findGap]

theorem gapRange_sound (hpos : 0 < length) {x : Option ℕ} (hx : gapRange m length = .ok (x, m')) :
    InOrder m' ∧
      Moves (Placeholder m) (Placeholder m') none (Section.holds none (.gap length) x) := by
  unfold gapRange at hx
  cases ha : m.findGap length with
  | none =>
    rw [ha] at hx
    cases hx
    exact ⟨h, moves_same nofun fun _ => Iff.rfl⟩
  | some a =>
    rw [ha] at hx
    obtain ⟨m₁, hm₁, hx⟩ := bind_eq_ok.1 hx
    cases hx
    exact reserveAt_sound h hpos (h.free_findGap ha) (fun _ => Iff.rfl) hm₁

omit h in
/-- A caller gives its range up. -/
theorem moves_release (hiff : ∀ r, Placeholder m' r ↔ Placeholder m r ∧ (lo, hi) ≠ r) :
    Moves (Placeholder m) (Placeholder m') (some (lo, hi)) none where
  iff r := by
    rw [hiff]
    simp
  new := nofun

theorem possible_find {addr : ℕ} (hclear : ∀ v ∈ m.findContaining addr, v.flags.reserved = false) :
    (Section.find addr).Possible (m.findContaining addr) := by
  cases hv : m.findContaining addr with
  | none => trivial
  | some v =>
    have hin : v.start ≤ addr ∧ addr < v.stop := by
      simpa using find?_some hv
    exact ⟨hclear v hv, h.sorted.offset v (mem_of_find?_eq_some hv), hin.1⟩

theorem section_sound {a : Section} {x : a.Answer} (hheld : ∀ r, held = some r → Placeholder m r)
    (hfit : a.Fit held) (hclear : a.Undisturbed m) (hx : a.run m = .ok (x, m')) :
    InOrder m' ∧ a.Possible x ∧ Moves (Placeholder m) (Placeholder m') held (a.holds held x) := by
  cases a with
  | pick addr length flags =>
    obtain ⟨rfl, hpos, -⟩ := hfit
    obtain ⟨hin, hmoves⟩ := pickRange_sound h hpos hclear hx
    exact ⟨hin, trivial, hmoves⟩
  | gap length =>
    obtain ⟨rfl, hpos⟩ := hfit
    obtain ⟨hin, hmoves⟩ := gapRange_sound h hpos hx
    exact ⟨hin, trivial, hmoves⟩
  | reserve lo hi =>
    obtain ⟨rfl, hlt, hbound⟩ := hfit
    cases hx
    obtain ⟨hin, hmoves⟩ := moves_reserve h hlt hbound (free_of_overlaps hclear) fun _ => Iff.rfl
    exact ⟨hin, trivial, hmoves⟩
  | release lo hi =>
    obtain rfl : held = some (lo, hi) := hfit
    cases hx
    obtain ⟨hin, hiff⟩ := release_sound h lo hi
    exact ⟨hin, trivial, moves_release hiff⟩
  | enter v =>
    obtain ⟨rfl, hres, hoff⟩ := hfit
    cases hx
    obtain ⟨hin, hiff⟩ := enter_sound h (hheld _ rfl) hres hoff
    exact ⟨hin, trivial, moves_release hiff⟩
  | cut lo hi =>
    obtain ⟨rfl, hlt, hbound⟩ := hfit
    obtain ⟨r, hr, hx⟩ := bind_eq_ok.1 hx
    obtain ⟨r', hr', hr⟩ := bind_eq_ok.1 hr
    cases hr
    cases hx
    obtain ⟨hin, hfree, hsame⟩ := unmapRange_sound h hlt hclear hr'
    obtain ⟨hin, hmoves⟩ := moves_reserve hin hlt hbound hfree hsame
    exact ⟨hin, trivial, hmoves⟩
  | lock lo hi =>
    obtain ⟨r, hr, hx⟩ := bind_eq_ok.1 hx
    cases hx
    obtain ⟨hin, hsame⟩ := lockRange_sound h hfit hclear hr
    exact ⟨hin, trivial, moves_same hheld hsame⟩
  | extend start newEnd =>
    obtain ⟨hin, hsame⟩ := extendVmaEnd_sound h hfit hclear
    have hm' : (m.extendVmaEnd start newEnd).2 = m' := congrArg Prod.snd (Except.ok.inj hx)
    rw [hm'] at hin hsame
    exact ⟨hin, trivial, moves_same hheld hsame⟩
  | find addr =>
    cases hx
    exact ⟨h, possible_find h hclear, moves_same hheld fun _ => Iff.rfl⟩
  | recheck addr =>
    cases hx
    exact ⟨h, trivial, moves_same hheld fun _ => Iff.rfl⟩

end

/-- **The sections.**  What is in its place and finds the map undisturbed keeps it in order and
touches no placeholder but its own. -/
def mapDiscipline : Discipline mapInterface where
  Good := InOrder
  Token := Placeholder
  Fit := Section.Fit
  Clear m a := a.Undisturbed m
  Possible := Section.Possible
  sound {_ _ a _ _} h hheld hfit hclear hx := by
    have hok {x : Except Panic (a.Answer × MmapState)} {y} (hxy : x.toOption = some y) :
        x = .ok y := by
      cases x with
      | error e => cases hxy
      | ok z => exact congrArg Except.ok (Option.some.inj hxy)
    exact section_sound h hheld hfit hclear (hok hx)

instance (m : MmapState) (a : mapInterface.Act) : Decidable (mapDiscipline.Clear m a) :=
  inferInstanceAs (Decidable (Section.Undisturbed m (show Section from a)))

end CypheraKernel.Syscall
