import CypheraKernel.Mm.CloneSpec

/-!
# A failed clone and the parent

`fork` is meant to leave no trace when it fails.  `unwind_cow_share` takes back the references and
makes the downgraded leaves writable again, which restores a leaf that was writable, but not one
that was copy-on-write already: this one is now writable while another address space still maps its
frame.  The references are restored unless a count has saturated in between.

`failureInvisible_iff` says for which states a failure leaves no trace.
-/

namespace CypheraKernel.Mm

namespace VmSpace

variable {σ : Type} (A : FrameAllocator σ) [Mapper A]

/-- If a clone returns an error, the leaves of the parent and the reference counts are as before. -/
def FailureInvisible (fr : Frames σ) (vm : VmSpace) (ranges : List (ℕ × ℕ)) : Prop :=
  ∀ err fr' vm', forkClone A fr vm ranges = (.error err, fr', vm') →
    (∀ p, vm'.leaf p = vm.leaf p) ∧ ∀ f, fr'.frameRefCount f = fr.frameRefCount f

/-- What the walk does up to the failure can be taken back: no private leaf of a counted frame is
copy-on-write, and no count comes to saturate. -/
def Reversible (fr : Frames σ) (vm : VmSpace) (ranges : List (ℕ × ℕ)) : Prop :=
  (∀ l ∈ reachedLeaves A fr vm ranges, cloneKind fr ranges l = .cow → l.2.cow = false) ∧
    ∀ f ∈ takenFrames fr ranges (reachedLeaves A fr vm ranges),
      fr.frameRefCount f = countMax ∨
        fr.frameRefCount f +
          (takenFrames fr ranges (reachedLeaves A fr vm ranges)).count f < countMax

variable {A} {fr fr' : Frames σ} {vm vm' : VmSpace} {ranges : List (ℕ × ℕ)} {ls : List (ℕ × Pte)}
  {l : ℕ × Pte}

theorem mem_of_reached {n : ℕ} (h : l ∈ reached fr ranges n ls) : l ∈ ls := by
  induction ls generalizing n with
  | nil => cases h
  | cons l' ls ih =>
    unfold reached at h
    split_ifs at h
    · grind
    · grind

omit [Mapper A] in
theorem mem_userLeaves_of_reachedLeaves (h : l ∈ reachedLeaves A fr vm ranges) :
    l ∈ vm.userLeaves := by grind [reachedLeaves, mem_of_reached]

theorem cloneKind_eq_cow (h : cloneKind fr ranges l = .cow) :
    isShared ranges l.1 = false ∧ fr.frameRefCount l.2.frame ≠ 0 ∧
      (l.2.writable || l.2.cow) = true := by
  unfold cloneKind at h
  split_ifs at h with h₁ h₂ h₃
  exact ⟨Bool.eq_false_iff.2 h₁, h₂, h₃⟩

omit [Mapper A] in
/-- The leaves are as before when none of those downgraded was copy-on-write. -/
theorem GivenUp.leaf_iff (h : GivenUp A fr vm ranges ls fr' vm')
    (hls : ∀ l ∈ ls, vm.leaf l.1 = some l.2) :
    (∀ p, vm'.leaf p = vm.leaf p) ↔ ∀ l ∈ ls, cloneKind fr ranges l = .cow → l.2.cow = false := by
  constructor
  · intro hsame l hl hk
    have hleaf := h.leaf l.1
    rw [if_pos (mem_pages_cowLeaves.2 ⟨l.2, hl, hk⟩), hsame, hls l hl] at hleaf
    have hcow := congrArg Pte.cow (Option.some.inj hleaf)
    exact hcow
  intro hcow p
  rw [h.leaf]
  split_ifs with hp
  · obtain ⟨e, hl, hk⟩ := mem_pages_cowLeaves.1 hp
    have he : e.cow = false := hcow _ hl hk
    have hw : (e.writable || e.cow) = true := (cloneKind_eq_cow hk).2.2
    rw [he, Bool.or_false] at hw
    rw [hls _ hl, Option.map_some, upgradePte, ← hw, ← he]
  · rfl

omit [Mapper A] in
/-- The counts are as before when none has come to saturate. -/
theorem GivenUp.count_iff (h : GivenUp A fr vm ranges ls fr' vm') :
    (∀ f, fr'.frameRefCount f = fr.frameRefCount f) ↔
      ∀ f ∈ takenFrames fr ranges ls, fr.frameRefCount f = countMax ∨
        fr.frameRefCount f + (takenFrames fr ranges ls).count f < countMax := by
  refine forall_congr' fun f => ?_
  rw [h.count_eq, satDec_satInc_iterate (fr.frameRefCount_le f), List.count_eq_zero]
  tauto

/-- **When a failed clone leaves no trace.**  Free frames have no references, and the parent maps no
free frame.  A failure is invisible exactly when there are frames enough for the clone to succeed,
or all that it did up to the failure can be taken back. -/
theorem failureInvisible_iff (hzero : ∀ f ∈ A.free fr.pool, fr.frameRefCount f = 0)
    (hfree : ∀ p e, vm.leaf p = some e → e.frame ∉ A.free fr.pool) :
    FailureInvisible A fr vm ranges ↔
      cloneFrames fr vm ranges ≤ (A.free fr.pool).card ∨ Reversible A fr vm ranges := by
  cases hr : forkClone A fr vm ranges with
  | mk r t =>
    obtain ⟨fr', vm'⟩ := t
    have hls : ∀ l ∈ reachedLeaves A fr vm ranges, vm.leaf l.1 = some l.2 := fun l hl =>
      (mem_userLeaves.1 (mem_userLeaves_of_reachedLeaves hl)).1
    rcases forkClone_outcome hzero hfree hr with ⟨err, rfl, hcard, h⟩ | ⟨child, shared, rfl, hcard, -⟩
    · have hrev : Reversible A fr vm ranges ↔ (∀ p, vm'.leaf p = vm.leaf p) ∧
          ∀ f, fr'.frameRefCount f = fr.frameRefCount f :=
        and_congr (h.leaf_iff hls).symm h.count_iff.symm
      rw [hrev]
      constructor
      · exact fun hinv => .inr (hinv err fr' vm' hr)
      · rintro (hle | hsame) err' fr'' vm'' hr'
        · omega
        · grind
    · refine ⟨fun _ => .inl hcard, fun _ err' fr'' vm'' hr' => ?_⟩
      rw [hr] at hr'
      cases hr'

/-- Memory with one free frame, and with `count` references to frame `5`. -/
def oneFreeFrame (count : UInt16) : Frames (List ℕ) where
  pool := [9]
  refLen := 16
  count f := if f = 5 then count else 0
  mem _ _ := 0

/-- An address space with one page, on frame `5`. -/
def onePage (writable cow : Bool) : VmSpace where
  root := 1
  tables := []
  leaves := (∅ : Std.ExtTreeMap ℕ Pte).insert 1024
    { Perms.userRw.toPte 5 with writable := writable, cow := cow }

theorem frameRefCount_oneFreeFrame (count : UInt16) :
    ∀ f ∈ listAllocator.free (oneFreeFrame count).pool,
      (oneFreeFrame count).frameRefCount f = 0 := by
  intro f hf
  have hf : f = 9 := by simpa [listAllocator, oneFreeFrame] using hf
  rw [hf]
  rfl

theorem frame_onePage (writable cow : Bool) (count : UInt16) :
    ∀ p e, (onePage writable cow).leaf p = some e →
      e.frame ∉ listAllocator.free (oneFreeFrame count).pool := by
  intro p e he
  have hframe : e.frame = 5 := by
    simp only [onePage, leaf, Std.ExtTreeMap.getElem?_insert] at he
    split_ifs at he
    · rw [← Option.some.inj he]
      rfl
    · simp at he
  rw [hframe]
  simp [listAllocator, oneFreeFrame]

/-- A failure with a private writable page is invisible. -/
theorem failureInvisible_onePage :
    cloneFrames (oneFreeFrame 1) (onePage true false) [] = 4 ∧
      FailureInvisible listAllocator (oneFreeFrame 1) (onePage true false) [] := by
  refine ⟨by decide +kernel, (failureInvisible_iff (frameRefCount_oneFreeFrame 1)
    (frame_onePage true false 1)).2 (.inr ⟨?_, ?_⟩)⟩
  · decide +kernel
  · decide +kernel

/-- The same with a page that is copy-on-write, and shared with another address space: the clone
fails, and the page has become writable. -/
theorem forkClone_copyOnWrite :
    (forkClone listAllocator (oneFreeFrame 2) (onePage false true) []).1.toOption.isNone ∧
      (onePage false true).leaf 1024 =
        some { Perms.userRw.toPte 5 with writable := false, cow := true } ∧
      (forkClone listAllocator (oneFreeFrame 2) (onePage false true) []).2.2.leaf 1024 =
        some (Perms.userRw.toPte 5) := by
  decide +kernel

theorem copyOnWrite_not_failureInvisible :
    (∀ f ∈ listAllocator.free (oneFreeFrame 2).pool, (oneFreeFrame 2).frameRefCount f = 0) ∧
      (∀ p e, (onePage false true).leaf p = some e →
        e.frame ∉ listAllocator.free (oneFreeFrame 2).pool) ∧
      ¬ FailureInvisible listAllocator (oneFreeFrame 2) (onePage false true) [] := by
  refine ⟨frameRefCount_oneFreeFrame 2, frame_onePage false true 2, fun hinv => ?_⟩
  obtain ⟨herr, hbefore, hafter⟩ := forkClone_copyOnWrite
  cases hr : forkClone listAllocator (oneFreeFrame 2) (onePage false true) [] with
  | mk r t =>
    rw [hr] at herr hafter
    cases r with
    | ok c => cases herr
    | error err =>
      have hsame := (hinv err t.1 t.2 hr).1 1024
      rw [hafter, hbefore] at hsame
      exact absurd hsame (by decide)

end VmSpace

end CypheraKernel.Mm
