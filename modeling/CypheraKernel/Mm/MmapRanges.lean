import CypheraKernel.Lib.Intervals
import CypheraKernel.Lib.Lists
import CypheraKernel.Mm.MmapState

/-!
# What the range operations of the memory map do to addresses

The meaning of a memory map is a partial function from addresses to `Entry`: protection, flags,
backing object and the place in that object (`MmapState.lookup`).  Over it the range operations are
simple.

* `unmapRange` restricts the function to the addresses outside `[lo, hi)` and returns its
  restriction to the addresses inside;
* `protectRange` and `lockRange` change the protection, or the lock flag, of the addresses inside,
  and list the maximal unmapped subranges.

Both work range by range: a range falls into a part before, inside and behind `[lo, hi)`
(`Vma.before`, `Vma.inside`, `Vma.behind`).  The new offset of a part is computed by a checked
addition, so an operation returns exactly when these offsets fit into 64 bits (`Rebasable`).
-/

namespace CypheraKernel.Mm

open Rust CypheraKernel.Lists Intervals List Vma VmaBacking

/-! ### Addresses -/

/-- The backing of the address `d` bytes behind the start of a range. -/
def VmaBacking.advance (b : VmaBacking) (d : ℕ) : VmaBacking :=
  match b with
  | anonymous => .anonymous
  | file inode base => .file inode (base + d)
  | shm segment offset => .shm segment (offset + d)

/-- What an address is mapped to. -/
structure Entry where
  prot : Perms
  flags : VmaFlags
  backing : VmaBacking
  deriving DecidableEq, Repr

namespace Vma

def entryAt (v : Vma) (a : ℕ) : Entry := ⟨v.prot, v.flags, v.backing.advance (a - v.start)⟩

/-- The entry of an address in one range. -/
def at? (v : Vma) (a : ℕ) : Option Entry :=
  if v.start ≤ a ∧ a < v.stop then some (v.entryAt a) else none

end Vma

/-- The entry of an address in a list of ranges. -/
def lookupIn (vmas : List Vma) (a : ℕ) : Option Entry :=
  (vmas.find? fun v => v.start ≤ a ∧ a < v.stop).map (·.entryAt a)

/-- The entry of an address, found as the source does by `find_containing`. -/
def MmapState.lookup (s : MmapState) (a : ℕ) : Option Entry :=
  (s.findContaining a).map (·.entryAt a)

theorem lookupIn_eq_findSome? (vmas : List Vma) (a : ℕ) :
    lookupIn vmas a = vmas.findSome? (·.at? a) := by
  induction vmas with
  | nil => rfl
  | cons v vmas ih =>
    rw [lookupIn, find?_cons, findSome?_cons, at?, ← ih, lookupIn]
    by_cases h : v.start ≤ a ∧ a < v.stop
    · rw [if_pos h, decide_eq_true h]
      rfl
    · rw [if_neg h, decide_eq_false h]

theorem MmapState.lookup_eq_lookupIn (s : MmapState) (a : ℕ) : s.lookup a = lookupIn s.vmas a := rfl

/-- The backing can be moved by `d`: its offset stays a 64-bit number. -/
def VmaBacking.Shiftable (b : VmaBacking) (d : ℕ) : Prop :=
  match b with
  | anonymous => True
  | file _ base => base + d < usizeBound
  | shm _ offset => offset + d < usizeBound

instance (b : VmaBacking) (d : ℕ) : Decidable (b.Shiftable d) := by
  unfold Shiftable
  split <;> infer_instance

/-- Sorted, disjoint, nonempty ranges with 64-bit offsets. -/
structure VmaSorted (vmas : List Vma) : Prop where
  pairwise : vmas.Pairwise fun v w => v.stop ≤ w.start
  nonempty : ∀ v ∈ vmas, v.start < v.stop
  offset : ∀ v ∈ vmas, v.backing.Shiftable 0

/-! ### Parts of a range -/

namespace VmaBacking

theorem shift_eq {b : VmaBacking} {d : ℕ} (h : b.Shiftable d) : b.shift d = .ok (b.advance d) := by
  cases b with
  | anonymous => rfl
  | file | shm => rw [shift, usizeAdd_eq h]; rfl

theorem shiftable_of_shift {b b' : VmaBacking} {d : ℕ} (h : b.shift d = .ok b') :
    b.Shiftable d := by
  cases b with
  | anonymous => trivial
  | file | shm =>
    obtain ⟨x, hx, -⟩ := bind_eq_ok.1 h
    unfold usizeAdd at hx
    split_ifs at hx with hlt
    exact hlt

@[simp] theorem advance_zero (b : VmaBacking) : b.advance 0 = b := by cases b <;> rfl

theorem advance_advance (b : VmaBacking) (d e : ℕ) :
    (b.advance d).advance e = b.advance (d + e) := by
  cases b with
  | anonymous => rfl
  | file inode base => exact congrArg _ (Nat.add_assoc base d e)
  | shm segment offset => exact congrArg _ (Nat.add_assoc offset d e)

end VmaBacking

variable {g : Entry → Entry}

namespace Vma

/-- The part `[lo, hi)` of a range. -/
def sub (v : Vma) (lo hi : ℕ) : Vma :=
  { v with start := lo, stop := hi, backing := v.backing.advance (lo - v.start) }

@[simp] theorem sub_start (v : Vma) (lo hi : ℕ) : (v.sub lo hi).start = lo := rfl
@[simp] theorem sub_stop (v : Vma) (lo hi : ℕ) : (v.sub lo hi).stop = hi := rfl

theorem sub_self (v : Vma) : v.sub v.start v.stop = v := by simp [sub]

variable {lo hi : ℕ} {v : Vma} {f : Vma → Vma}

theorem sub_at? (v : Vma) (hlo : v.start ≤ lo) (hhi : hi ≤ v.stop) (a : ℕ) :
    (v.sub lo hi).at? a = if lo ≤ a ∧ a < hi then v.at? a else none := by
  unfold at?
  rw [sub_start, sub_stop]
  by_cases h : lo ≤ a ∧ a < hi
  · rw [if_pos h, if_pos h, if_pos (by omega)]
    grind [entryAt, sub, advance_advance]
  · rw [if_neg h, if_neg h]

/-- The part of a range before `lo`, as a list of at most one range. -/
def before (lo : ℕ) (v : Vma) : List Vma :=
  if v.start < min v.stop lo then [v.sub v.start (min v.stop lo)] else []

def inside (lo hi : ℕ) (v : Vma) : List Vma :=
  if max v.start lo < min v.stop hi then [v.sub (max v.start lo) (min v.stop hi)] else []

def behind (hi : ℕ) (v : Vma) : List Vma :=
  if max v.start hi < v.stop then [v.sub (max v.start hi) v.stop] else []

theorem before_eq (v : Vma) (lo : ℕ) : v.before lo = v.inside 0 lo := by simp [before, inside]

theorem behind_eq (v : Vma) (hi : ℕ) {c : ℕ} (hc : v.stop ≤ c) : v.behind hi = v.inside hi c := by
  simp [behind, inside, hc]

theorem findSome?_inside (v : Vma) (lo hi a : ℕ) :
    (v.inside lo hi).findSome? (·.at? a) = if lo ≤ a ∧ a < hi then v.at? a else none := by
  unfold inside
  split_ifs with h1 h2 h2
  · grind [v.sub_at?, at?]
  · simp_all [v.sub_at?]
  · rw [findSome?_nil, at?, if_neg (by omega)]
  · rfl

theorem findSome?_before (v : Vma) (lo a : ℕ) :
    (v.before lo).findSome? (·.at? a) = if a < lo then v.at? a else none := by
  simp [before_eq, findSome?_inside]

theorem findSome?_behind (v : Vma) (hi a : ℕ) :
    (v.behind hi).findSome? (·.at? a) = if hi ≤ a then v.at? a else none := by
  rw [v.behind_eq hi le_rfl, findSome?_inside]
  grind [at?]

/-- The parts outside `[lo, hi)` map the addresses outside it. -/
theorem findSome?_outside (v : Vma) (a : ℕ) :
    (v.before lo ++ v.behind hi).findSome? (·.at? a) =
      if lo ≤ a ∧ a < hi then none else v.at? a := by
  rw [findSome?_append, findSome?_before, findSome?_behind]
  aesop

/-- All three parts map the addresses of the range, the middle one changed by `f`. -/
theorem findSome?_split (v : Vma) (hlt : lo < hi)
    (hf : ∀ w a, (f w).at? a = (w.at? a).map g) (a : ℕ) :
    (v.before lo ++ (v.inside lo hi).map f ++ v.behind hi).findSome? (·.at? a) =
      if lo ≤ a ∧ a < hi then (v.at? a).map g else v.at? a := by
  have hmid : ((v.inside lo hi).map f).findSome? (·.at? a) =
      if lo ≤ a ∧ a < hi then (v.at? a).map g else none := by
    rw [findSome?_map, show ((·.at? a) ∘ f) = Option.map g ∘ (·.at? a) from
      funext fun w => hf w a, ← map_findSome?, findSome?_inside]
    split_ifs <;> rfl
  rw [findSome?_append, findSome?_append, hmid, findSome?_before, findSome?_behind]
  rcases lt_trichotomy a lo with h | h | h
  · rw [if_pos h, if_neg (by omega), if_neg (by omega), if_neg (by omega), Option.or_none,
      Option.or_none]
  · simp_all [if_neg]
  by_cases hhi : a < hi
  · rw [if_neg (by omega), if_pos (by omega), if_neg (by omega), if_pos (by omega),
      Option.or_none]
    rfl
  · rw [if_neg (by omega), if_neg (by omega), if_pos (by omega), if_neg (by omega)]
    rfl

/-- The new offsets at the cut points of a range fit into 64 bits. -/
def Rebasable (lo hi : ℕ) (v : Vma) : Prop :=
  (v.start < lo → lo < v.stop → v.backing.Shiftable (lo - v.start)) ∧
    (v.start < hi → hi < v.stop → v.backing.Shiftable (hi - v.start))
  deriving Decidable

/-- The number of cut points of a range. -/
def cuts (lo hi : ℕ) (v : Vma) : ℕ :=
  (if v.start < lo ∧ lo < v.stop then 1 else 0) + (if v.start < hi ∧ hi < v.stop then 1 else 0)

theorem before_cut (h : v.start < lo) (h' : lo ≤ v.stop) : v.before lo = [v.sub v.start lo] := by
  rw [before, min_eq_right h', if_pos h]

theorem before_nil (h : lo ≤ v.start) : v.before lo = [] := if_neg (by omega)

theorem before_all (hne : v.start < v.stop) (h : v.stop ≤ lo) : v.before lo = [v] := by
  rw [before, min_eq_left h, if_pos hne, sub_self]

theorem behind_cut (h : v.start ≤ hi) (h' : hi < v.stop) : v.behind hi = [v.sub hi v.stop] := by
  rw [behind, max_eq_right h, if_pos h']

theorem behind_nil (h : v.stop ≤ hi) : v.behind hi = [] := if_neg (by omega)

theorem behind_all (hne : v.start < v.stop) (h : hi ≤ v.start) : v.behind hi = [v] := by
  rw [behind, max_eq_left h, if_pos hne, sub_self]

theorem inside_eq {a b : ℕ} (ha : max v.start lo = a) (hb : min v.stop hi = b)
    (h : a < b) : v.inside lo hi = [v.sub a b] := by
  rw [inside, ha, hb, if_pos h]

theorem inside_nil (h : v.stop ≤ lo ∨ v.start ≥ hi) : v.inside lo hi = [] := if_neg (by omega)

/-- A list of parts of `v`, all within `[lo, hi)`. -/
structure PartsIn (v : Vma) (lo hi : ℕ) (parts : List Vma) : Prop where
  sorted : VmaSorted parts
  start_le : ∀ w ∈ parts, v.start ≤ w.start ∧ lo ≤ w.start
  le_stop : ∀ w ∈ parts, w.stop ≤ v.stop ∧ w.stop ≤ hi

theorem PartsIn.nil (v : Vma) (lo hi : ℕ) : PartsIn v lo hi [] :=
  ⟨⟨List.Pairwise.nil, by simp, by simp⟩, by simp, by simp⟩

theorem PartsIn.single {a b : ℕ} (ha : v.start ≤ a ∧ lo ≤ a) (hab : a < b)
    (hb : b ≤ v.stop ∧ b ≤ hi) (hoff : v.backing.Shiftable (a - v.start)) :
    PartsIn v lo hi [v.sub a b] := by
  refine ⟨⟨pairwise_singleton _ _, ?_, ?_⟩, ?_, ?_⟩ <;>
    simp only [mem_singleton, forall_eq, sub_start, sub_stop]
  · exact hab
  · show (v.backing.advance (a - v.start)).Shiftable 0
    cases hv : v.backing <;> rw [hv] at hoff <;> exact hoff
  · exact ha
  · exact hb

/-- Parts of two consecutive windows. -/
theorem PartsIn.append {a b b' c : ℕ} {l l' : List Vma} (h : PartsIn v a b l)
    (h' : PartsIn v b' c l') (hab : a ≤ b') (hbb : b ≤ b') (hbc : b ≤ c) :
    PartsIn v a c (l ++ l') := by
  refine ⟨⟨pairwise_append.2 ⟨h.sorted.pairwise, h'.sorted.pairwise, fun w hw w' hw' => ?_⟩,
    ?_, ?_⟩, ?_, ?_⟩
  · have := (h.le_stop w hw).2
    have := (h'.start_le w' hw').2
    omega
  · exact fun w hw => (mem_append.1 hw).elim (h.sorted.nonempty w) (h'.sorted.nonempty w)
  · exact fun w hw => (mem_append.1 hw).elim (h.sorted.offset w) (h'.sorted.offset w)
  · intro w hw
    rcases mem_append.1 hw with hw | hw
    · exact h.start_le w hw
    · have := h'.start_le w hw
      omega
  · intro w hw
    rcases mem_append.1 hw with hw | hw
    · have := h.le_stop w hw
      omega
    · exact h'.le_stop w hw

theorem PartsIn.map {l : List Vma} (h : PartsIn v lo hi l)
    (hf : ∀ w, (f w).start = w.start ∧ (f w).stop = w.stop ∧ (f w).backing = w.backing) :
    PartsIn v lo hi (l.map f) := by
  refine ⟨⟨pairwise_map.2 (h.sorted.pairwise.imp fun {w w'} hle => ?_), ?_, ?_⟩, ?_, ?_⟩
  · rwa [(hf w).2.1, (hf w').1]
  all_goals
    rintro w hw
    obtain ⟨u, hu, rfl⟩ := mem_map.1 hw
    obtain ⟨h1, h2, h3⟩ := hf u
  · rw [h1, h2]
    exact h.sorted.nonempty u hu
  · rw [h3]
    exact h.sorted.offset u hu
  · rw [h1]
    exact h.start_le u hu
  · rw [h2]
    exact h.le_stop u hu

section Parts

variable {v : Vma} {lo hi : ℕ} (h0 : v.backing.Shiftable 0)
include h0

theorem partsIn_inside (h : v.start < lo → lo < v.stop → v.backing.Shiftable (lo - v.start)) :
    PartsIn v lo hi (v.inside lo hi) := by
  unfold inside
  split_ifs with hlt
  · refine PartsIn.single ⟨le_max_left _ _, le_max_right _ _⟩ hlt
      ⟨min_le_left _ _, min_le_right _ _⟩ ?_
    rcases le_or_gt lo v.start with hle | hgt
    · rwa [max_eq_left hle, Nat.sub_self]
    · rw [max_eq_right hgt.le]
      exact h hgt (by omega)
  · exact PartsIn.nil v lo hi

theorem partsIn_before : PartsIn v 0 lo (v.before lo) := by
  rw [before_eq]
  exact partsIn_inside h0 nofun

theorem partsIn_behind (h : v.Rebasable lo hi) {c : ℕ} (hc : v.stop ≤ c) :
    PartsIn v hi c (v.behind hi) := by
  rw [v.behind_eq hi hc]
  exact partsIn_inside h0 h.2

end Parts

/-- A range outside `[lo, hi)` is one part. -/
theorem parts_outside (hne : v.start < v.stop) (hlt : lo < hi)
    (h : v.stop ≤ lo ∨ v.start ≥ hi) : v.before lo ++ v.behind hi = [v] := by
  grind [before_all, behind_nil, before_nil, behind_all]

end Vma

variable {vmas : List Vma}

theorem VmaSorted.tail {v : Vma} (hs : VmaSorted (v :: vmas)) : VmaSorted vmas :=
  ⟨hs.pairwise.of_cons, fun w hw => hs.nonempty w (mem_cons_of_mem v hw),
    fun w hw => hs.offset w (mem_cons_of_mem v hw)⟩

/-- Replacing every range of a sorted list by parts of it leaves a sorted list. -/
theorem VmaSorted.flatMap (hs : VmaSorted vmas) {parts : Vma → List Vma}
    (h : ∀ v ∈ vmas, ∃ lo hi, Vma.PartsIn v lo hi (parts v)) : VmaSorted (vmas.flatMap parts) := by
  refine ⟨pairwise_flatMap.2 ⟨fun v hv => ?_, ?_⟩, fun w hw => ?_, fun w hw => ?_⟩
  · obtain ⟨lo, hi, hp⟩ := h v hv
    exact hp.sorted.pairwise
  · refine hs.pairwise.imp_of_mem fun {v v'} hv hv' hle w hw w' hw' => ?_
    obtain ⟨lo, hi, hp⟩ := h v hv
    obtain ⟨lo', hi', hp'⟩ := h v' hv'
    exact ((hp.le_stop w hw).1.trans hle).trans (hp'.start_le w' hw').1
  · obtain ⟨v, hv, hw⟩ := mem_flatMap.1 hw
    obtain ⟨lo, hi, hp⟩ := h v hv
    exact hp.sorted.nonempty w hw
  · obtain ⟨v, hv, hw⟩ := mem_flatMap.1 hw
    obtain ⟨lo, hi, hp⟩ := h v hv
    exact hp.sorted.offset w hw

/-- The final sort changes nothing on a sorted list. -/
theorem VmaSorted.sortByStart_eq (hs : VmaSorted vmas) : MmapState.sortByStart vmas = vmas := by
  refine mergeSort_of_pairwise (hs.pairwise.imp_of_mem fun {v w} hv _ hle => ?_)
  have := hs.nonempty v hv
  exact decide_eq_true (by omega)

/-! ### Unmapping -/

namespace MmapState

variable {lo hi : ℕ} {v : Vma} {s : MmapState} {f : Vma → Vma}

/-- One turn of the unmapping loop, when the new offsets fit. -/
theorem cutVma_eq (hne : v.start < v.stop) (hlt : lo < hi) (h : v.Rebasable lo hi) :
    cutVma lo hi v =
      .ok ⟨v.before lo ++ v.behind hi, v.inside lo hi, v.backing.attach (v.cuts lo hi)⟩ := by
  have attach0 : v.backing.attach 0 = [] := by cases v.backing <;> rfl
  unfold cutVma
  split_ifs with hout hin hmid hleft
  · grind [cuts, parts_outside, inside_nil]
  · grind [Vma.cuts, Vma.before_nil, Vma.behind_nil, Vma.inside_eq, Vma.sub_self]
  · have hcuts : v.cuts lo hi = 2 := by simp only [cuts]; split_ifs <;> omega
    rw [shift_eq (h.1 hmid.1 (by omega)), shift_eq (h.2 (by omega) hmid.2),
      before_cut hmid.1 (by omega), behind_cut (by omega) hmid.2,
      inside_eq (max_eq_right hmid.1.le) (min_eq_right hmid.2.le) hlt, hcuts]
    simp [sub]
  · have hcuts : v.cuts lo hi = 1 := by simp only [cuts]; split_ifs <;> omega
    rw [shift_eq (h.1 hleft (by omega)), before_cut hleft (by omega),
      behind_nil (by omega),
      inside_eq (max_eq_right hleft.le) (min_eq_left (by omega)) (by omega), hcuts]
    simp [sub]
  · have hcuts : v.cuts lo hi = 1 := by simp only [cuts]; split_ifs <;> omega
    rw [shift_eq (h.2 (by omega) (by omega)), before_nil (by omega),
      behind_cut (by omega) (by omega),
      inside_eq (max_eq_left (by omega)) (min_eq_right (by omega)) (by omega), hcuts]
    simp [sub]

/-- A turn that succeeds has found the new offsets to fit. -/
theorem rebasable_of_cutVma (hlt : lo < hi) {c : Cut}
    (h : cutVma lo hi v = .ok c) : v.Rebasable lo hi := by
  unfold cutVma at h
  split_ifs at h with hout hin hmid hleft
  · exact ⟨fun _ _ => by omega, fun _ _ => by omega⟩
  · exact ⟨fun _ _ => by omega, fun _ _ => by omega⟩
  · obtain ⟨b, hb, h⟩ := bind_eq_ok.1 h
    obtain ⟨b', hb', -⟩ := bind_eq_ok.1 h
    exact ⟨fun _ _ => shiftable_of_shift hb,
      fun _ _ => shiftable_of_shift hb'⟩
  · obtain ⟨b, hb, -⟩ := bind_eq_ok.1 h
    exact ⟨fun _ _ => shiftable_of_shift hb, fun _ _ => by omega⟩
  · obtain ⟨b, hb, -⟩ := bind_eq_ok.1 h
    exact ⟨fun _ _ => by omega, fun _ _ => shiftable_of_shift hb⟩

/-- The address-wise effect of `unmap_range`: it returns, nothing is mapped in `[lo, hi)` any more,
the other addresses are mapped as before, and the returned ranges map the addresses inside as they
were mapped. -/
def UnmapSpec (s : MmapState) (lo hi : ℕ) : Prop :=
  ∃ r, s.unmapRange lo hi = .ok r ∧
    (∀ a, r.state.lookup a = if lo ≤ a ∧ a < hi then none else s.lookup a) ∧
    (∀ a, lookupIn r.removed a = if lo ≤ a ∧ a < hi then s.lookup a else none) ∧
    VmaSorted r.state.vmas ∧ VmaSorted r.removed

section

variable (hs : VmaSorted s.vmas) (hlt : lo < hi) (h : ∀ v ∈ s.vmas, v.Rebasable lo hi)
include hs hlt h

theorem partsIn_kept {v : Vma} (hv : v ∈ s.vmas) :
    PartsIn v 0 (max lo v.stop) (v.before lo ++ v.behind hi) :=
  (partsIn_before (hs.offset v hv)).append (partsIn_behind (hs.offset v hv) (h v hv)
    (le_max_right _ _)) (Nat.zero_le _) hlt.le (le_max_left _ _)

theorem sorted_kept : VmaSorted (s.vmas.flatMap fun v => v.before lo ++ v.behind hi) :=
  hs.flatMap fun _ hv => ⟨_, _, partsIn_kept hs hlt h hv⟩

omit hlt in
theorem free_kept {w : Vma} (hw : w ∈ s.vmas.flatMap fun v => v.before lo ++ v.behind hi) :
    w.stop ≤ lo ∨ hi ≤ w.start := by
  obtain ⟨v, hv, hw⟩ := mem_flatMap.1 hw
  rcases mem_append.1 hw with hw | hw
  · exact .inl ((partsIn_before (hs.offset v hv)).le_stop w hw).2
  · exact .inr ((partsIn_behind (hs.offset v hv) (h v hv) le_rfl).start_le w hw).2

/-- `unmap_range` keeps the parts outside `[lo, hi)` and returns those inside. -/
theorem unmapRange_eq : s.unmapRange lo hi = .ok
      ⟨({ s with vmas := s.vmas.flatMap fun v : Vma =>
          v.before lo ++ v.behind hi }).bumpGeneration,
        s.vmas.flatMap (Vma.inside lo hi),
        s.vmas.flatMap fun v => v.backing.attach (v.cuts lo hi)⟩ := by
  have hcuts := mapM_eq_ok fun v hv => cutVma_eq (hs.nonempty v hv) hlt (h v hv)
  rw [unmapRange, hcuts, ok_bind]
  simp only [flatMap_map, (sorted_kept hs hlt h).sortByStart_eq]
  rfl

theorem unmapSpec : s.UnmapSpec lo hi := by
  refine ⟨_, unmapRange_eq hs hlt h, fun a => ?_, fun a => ?_, sorted_kept hs hlt h, ?_⟩
  · grind [bumpGeneration, lookup_eq_lookupIn, lookupIn_eq_findSome?, findSome?_flatMap,
      findSome?_outside]
  · grind [lookup_eq_lookupIn, lookupIn_eq_findSome?, findSome?_flatMap, findSome?_inside]
  · exact hs.flatMap fun v hv => ⟨lo, hi, partsIn_inside (hs.offset v hv) (h v hv).1⟩

end

theorem rebasable_of_unmapRange (hlt : lo < hi) {r : UnmapResult}
    (h : s.unmapRange lo hi = .ok r) : ∀ v ∈ s.vmas, v.Rebasable lo hi := by
  intro v hv
  obtain ⟨cuts, hcuts, -⟩ := bind_eq_ok.1 h
  obtain ⟨c, hc⟩ := exists_of_mapM_eq_ok hcuts hv
  exact rebasable_of_cutVma hlt hc

/-! ### Protecting and locking -/

/-- One turn of the protecting loop on a range that meets `[lo, hi)`, when the offsets fit. -/
theorem splitVma_eq (h0 : v.backing.Shiftable 0) (hlt : lo < hi)
    (hmeet : lo < v.stop ∧ v.start < hi) (hne : v.start < v.stop) (h : v.Rebasable lo hi) :
    splitVma lo hi f v = .ok (v.before lo ++ (v.inside lo hi).map f ++ v.behind hi,
      v.backing.attach (v.cuts lo hi)) := by
  have hmid : v.backing.Shiftable (max v.start lo - v.start) := by
    rcases le_or_gt lo v.start with hle | hgt
    · rwa [max_eq_left hle, Nat.sub_self]
    · rw [max_eq_right hgt.le]
      exact h.1 hgt hmeet.1
  have hleft : (if v.start < max v.start lo then [{ v with stop := max v.start lo }] else []) =
      v.before lo := by
    rcases le_or_gt lo v.start with hle | hgt
    · rw [max_eq_left hle, if_neg (lt_irrefl _), before_nil hle]
    · rw [max_eq_right hgt.le, if_pos hgt, before_cut hgt hmeet.1.le]
      simp [sub]
  have hin : v.inside lo hi = _ := v.inside_eq rfl rfl (by omega)
  have hcuts : (if v.start < max v.start lo then 1 else 0) +
      (if min v.stop hi < v.stop then 1 else 0) = v.cuts lo hi := by
    simp only [cuts]
    split_ifs <;> omega
  simp only [splitVma, hleft, hcuts, hin, shift_eq hmid, ok_bind, map_singleton]
  rcases le_or_gt v.stop hi with hle | hgt
  · rw [min_eq_left hle, if_neg (lt_irrefl _), behind_nil hle, append_nil]
    rfl
  · rw [min_eq_right hgt.le, if_pos hgt, behind_cut hmeet.2.le hgt,
      shift_eq (h.2 hmeet.2 hgt)]
    simp [sub]

theorem rebasable_of_splitVma
    {r : List Vma × List (ℕ × ℕ)} (h : splitVma lo hi f v = .ok r) : v.Rebasable lo hi := by
  obtain ⟨b, hb, h⟩ := bind_eq_ok.1 h
  refine ⟨fun h1 _ => ?_, fun h1 h2 => ?_⟩
  · rw [max_eq_right h1.le] at hb
    exact shiftable_of_shift hb
  · rw [min_eq_right h2.le, if_pos h2] at h
    obtain ⟨b', hb', -⟩ := bind_eq_ok.1 h
    exact shiftable_of_shift hb'

/-- The protecting loop: every range is replaced by its parts, and the gaps are those of the sweep
over the intervals. -/
theorem splitVmas_eq (hlt : lo < hi)
    (hs : VmaSorted vmas) (h : ∀ v ∈ vmas, v.Rebasable lo hi) (cov : ℕ) :
    splitVmas lo hi f vmas cov = .ok
      ⟨vmas.flatMap fun v => v.before lo ++ (v.inside lo hi).map f ++ v.behind hi,
        gapsFrom lo hi (vmas.map fun v => (v.start, v.stop)) cov,
        vmas.flatMap fun v => v.backing.attach (v.cuts lo hi)⟩ := by
  induction vmas generalizing cov with
  | nil => rfl
  | cons v vmas ih =>
    have hne := hs.nonempty v mem_cons_self
    have ih' := ih hs.tail fun w hw => h w (mem_cons_of_mem v hw)
    rw [splitVmas, map_cons, gapsFrom, flatMap_cons, flatMap_cons]
    split_ifs with hout hgap
    · have hcuts : v.cuts lo hi = 0 := by simp only [cuts]; split_ifs <;> omega
      have hattach : v.backing.attach 0 = [] := by cases v.backing <;> rfl
      have hparts : v.before lo ++ (v.inside lo hi).map f ++ v.behind hi = [v] := by
        rw [inside_nil hout, map_nil, append_nil, parts_outside hne hlt hout]
      rw [ih', hparts, hcuts, hattach]
      rfl
    all_goals
      rw [splitVma_eq (hs.offset v mem_cons_self) hlt (by omega) hne
        (h v mem_cons_self), ok_bind, ih']
      rfl

theorem rebasable_of_splitVmas (hlt : lo < hi) {cov : ℕ} {r : SplitResult}
    (h : splitVmas lo hi f vmas cov = .ok r) : ∀ v ∈ vmas, v.Rebasable lo hi := by
  induction vmas generalizing cov r with
  | nil => simp
  | cons v vmas ih =>
    rw [splitVmas] at h
    split_ifs at h with hout
    · obtain ⟨r', hr', -⟩ := bind_eq_ok.1 h
      refine forall_mem_cons.2 ⟨⟨fun _ _ => by omega, fun _ _ => by omega⟩, ih hr'⟩
    all_goals
      obtain ⟨p, hp, h⟩ := bind_eq_ok.1 h
      obtain ⟨r', hr', -⟩ := bind_eq_ok.1 h
      exact forall_mem_cons.2 ⟨rebasable_of_splitVma hp, ih hr'⟩

/-- The address-wise effect of an operation on `[lo, hi)` that changes the entries inside by `g` and
lists the gaps: exactly the maximal unmapped subranges, in order. -/
def RangeSpec (s : MmapState) (lo hi : ℕ) (op : Except Panic RangeResult) (g : Entry → Entry) :
    Prop :=
  ∃ r, op = .ok r ∧
    (∀ a, r.state.lookup a = if lo ≤ a ∧ a < hi then (s.lookup a).map g else s.lookup a) ∧
    (∀ p q, (p, q) ∈ r.gaps ↔ MaximalGap (fun a => (s.lookup a).isSome) lo hi p q) ∧
    r.gaps.Pairwise (fun g h => g.2 < h.1) ∧
    VmaSorted r.state.vmas

/-- Only the protection inside `[lo, hi)` changes. -/
def ProtectSpec (s : MmapState) (lo hi : ℕ) (newProt : Perms) : Prop :=
  s.RangeSpec lo hi (s.protectRange lo hi newProt) fun e => { e with prot := newProt }

/-- Only the lock flag inside `[lo, hi)` changes. -/
def LockSpec (s : MmapState) (lo hi : ℕ) (set : Bool) : Prop :=
  s.RangeSpec lo hi (s.lockRange lo hi set) fun e =>
    { e with flags := { e.flags with locked := set } }

theorem covered_iff (vmas : List Vma) :
    Covered (vmas.map fun v => (v.start, v.stop)) = fun a => (lookupIn vmas a).isSome = true := by
  funext a
  simp [lookupIn, Covered]

section

variable (hs : VmaSorted s.vmas) (hlt : lo < hi) (h : ∀ v ∈ s.vmas, v.Rebasable lo hi)
include hs hlt h

section

variable (hf : ∀ w, (f w).start = w.start ∧ (f w).stop = w.stop ∧ (f w).backing = w.backing)
include hf

theorem partsIn_split {v : Vma} (hv : v ∈ s.vmas) : PartsIn v 0 (max hi v.stop)
    (v.before lo ++ (v.inside lo hi).map f ++ v.behind hi) := by
  have hmid : PartsIn v lo hi ((v.inside lo hi).map f) :=
    (partsIn_inside (hs.offset v hv) (h v hv).1).map hf
  exact ((partsIn_before (hs.offset v hv)).append hmid (Nat.zero_le _) le_rfl hlt.le).append
    (partsIn_behind (hs.offset v hv) (h v hv) (le_max_right _ _)) (Nat.zero_le _) le_rfl
    (le_max_left _ _)

theorem sorted_split :
    VmaSorted (s.vmas.flatMap fun v => v.before lo ++ (v.inside lo hi).map f ++ v.behind hi) :=
  hs.flatMap fun _ hv => ⟨_, _, partsIn_split hs hlt h hf hv⟩

/-- `protect_range` and `lock_range` change the parts inside `[lo, hi)` and keep the others. -/
theorem splitRange_eq :
    s.splitRange lo hi f = .ok
      ⟨({ s with vmas := s.vmas.flatMap fun v : Vma =>
          v.before lo ++ (v.inside lo hi).map f ++ v.behind hi }).bumpGeneration,
        gapsFrom lo hi (s.vmas.map fun v => (v.start, v.stop)) lo,
        s.vmas.flatMap fun v => v.backing.attach (v.cuts lo hi)⟩ := by
  rw [splitRange, splitVmas_eq hlt hs h lo, ok_bind]
  simp only [(sorted_split hs hlt h hf).sortByStart_eq]
  rfl

theorem rangeSpec_splitRange (hg : ∀ w a, (f w).entryAt a = g (w.entryAt a)) :
    s.RangeSpec lo hi (s.splitRange lo hi f) g := by
  have hat (w : Vma) (a : ℕ) : (f w).at? a = (w.at? a).map g := by grind [at?]
  have hiv : SortedDisjoint (s.vmas.map fun v => (v.start, v.stop)) :=
    ⟨pairwise_map.2 hs.pairwise, by simpa using hs.nonempty⟩
  have hcov : ∀ i ∈ s.vmas.map (fun v => (v.start, v.stop)), lo < i.2 → i.1 < hi →
      lo ≤ max i.1 lo := fun i _ _ _ => le_max_right _ _
  refine ⟨_, splitRange_eq hs hlt h hf, fun a => ?_, fun p q => ?_, ?_, sorted_split hs hlt h hf⟩
  · simp only [bumpGeneration, lookup_eq_lookupIn, lookupIn_eq_findSome?, findSome?_flatMap,
      findSome?_split _ hlt hat, map_findSome?]
    split_ifs <;> rfl
  · rw [mem_gapsFrom hiv le_rfl hcov, covered_iff]
    rfl
  · exact pairwise_gapsFrom hiv le_rfl hcov

end

theorem protectSpec (newProt : Perms) : s.ProtectSpec lo hi newProt :=
  rangeSpec_splitRange (f := fun v => { v with prot := newProt }) hs hlt h
    (fun _ => ⟨rfl, rfl, rfl⟩) fun _ _ => rfl

theorem lockSpec (set : Bool) : s.LockSpec lo hi set :=
  rangeSpec_splitRange (f := fun v => { v with flags := { v.flags with locked := set } }) hs hlt h
    (fun _ => ⟨rfl, rfl, rfl⟩) fun _ _ => rfl

end

theorem rebasable_of_splitRange (hlt : lo < hi)
    {r : RangeResult} (h : s.splitRange lo hi f = .ok r) : ∀ v ∈ s.vmas, v.Rebasable lo hi := by
  obtain ⟨r', hr', -⟩ := bind_eq_ok.1 h
  exact rebasable_of_splitVmas hlt hr'

/-- **The range operations.**  On a sorted memory map each of `unmap_range`, `protect_range` and
`lock_range` acts on addresses as intended exactly when the offset of every part it cuts off fits
into 64 bits; otherwise it stops the kernel. -/
theorem rangeOps_iff {s : MmapState} (hs : VmaSorted s.vmas) {lo hi : ℕ} (hlt : lo < hi) :
    (s.UnmapSpec lo hi ↔ ∀ v ∈ s.vmas, v.Rebasable lo hi) ∧
      (∀ newProt, s.ProtectSpec lo hi newProt ↔ ∀ v ∈ s.vmas, v.Rebasable lo hi) ∧
      (∀ set, s.LockSpec lo hi set ↔ ∀ v ∈ s.vmas, v.Rebasable lo hi) := by
  refine ⟨⟨?_, unmapSpec hs hlt⟩, fun newProt => ⟨?_, fun h => protectSpec hs hlt h newProt⟩,
    fun set => ⟨?_, fun h => lockSpec hs hlt h set⟩⟩
  · rintro ⟨r, hr, -⟩
    exact rebasable_of_unmapRange hlt hr
  all_goals
    rintro ⟨r, hr, -⟩
    exact rebasable_of_splitRange hlt hr

/-- A file range of two pages whose second page is at the last page offset of the file offsets. -/
def fileVma : Vma :=
  ⟨0x1000, 0x3000, .userRw, ⟨false, false, false, false, false⟩, .file 1 (2 ^ 64 - 0x2000)⟩

def fileState : MmapState := { forPid 1 with vmas := [fileVma] }

theorem rangeOps_fileState : fileState.UnmapSpec 0x2000 0x3000 ∧
    (∀ newProt, fileState.ProtectSpec 0x2000 0x3000 newProt) ∧
    ∀ set, fileState.LockSpec 0x2000 0x3000 set := by
  have hs : VmaSorted fileState.vmas := ⟨pairwise_singleton _ _, by decide, by decide +kernel⟩
  have h : ∀ v ∈ fileState.vmas, v.Rebasable 0x2000 0x3000 := by decide +kernel
  obtain ⟨h1, h2, h3⟩ := rangeOps_iff hs (by decide : 0x2000 < 0x3000)
  exact ⟨h1.2 h, fun newProt => (h2 newProt).2 h, fun set => (h3 set).2 h⟩

/-- The same range one page later in the file: unmapping, protecting or locking its second page
stops the kernel, the offset of the cut-off part being `2 ^ 64`. -/
theorem rangeOps_overflow :
    let s : MmapState := { fileState with
      vmas := [{ fileVma with backing := .file 1 (2 ^ 64 - 0x1000) }] }
    VmaSorted s.vmas ∧ s.unmapRange 0x2000 0x3000 = .error .addOverflow ∧
      s.protectRange 0x2000 0x3000 .userRw = .error .addOverflow ∧
      s.lockRange 0x2000 0x3000 true = .error .addOverflow :=
  ⟨⟨pairwise_singleton _ _, by decide, by decide +kernel⟩, by decide +kernel⟩

end MmapState

end CypheraKernel.Mm
