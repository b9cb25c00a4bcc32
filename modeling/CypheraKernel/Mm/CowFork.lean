import CypheraKernel.Mm.CowOperations

/-!
# `fork` and the copy-on-write invariant

Both outcomes of `forkClone` are followed from its effect as a whole (`Cloned`, `GivenUp`).  The
ranges that are passed as shared have to agree with what is shared already:

* a page that was shared by an earlier `fork` is passed again;
* a private page that is passed for the first time is not copy-on-write with another process.

A clone that succeeds then keeps the invariant (`CowInv.cloned`).  One that fails makes writable
every copy-on-write page it has come past, so that it keeps the invariant only if none of them has a
frame with several references (`CowInv.givenUp`).
-/

namespace CypheraKernel.Mm

open VmSpace List Finset

namespace CowInv

variable {σ : Type} {A : FrameAllocator σ} {x : Prop} {fr fr' : Frames σ} {L : Mappings} {i : ℕ}
  {vm vm' child : VmSpace} {S : ℕ → Bool} {held : Multiset ℕ} {ranges : List (ℕ × ℕ)}

/-- The pages in the ranges become the shared ones. -/
theorem shareRanges (h : CowInv A x fr (withSpace L i vm S) held)
    (hagain : ∀ q, (vm.leaf q).isSome → S q = true → isShared ranges q = true)
    (hfresh : ∀ q e, vm.leaf q = some e → isShared ranges q = true → S q = false →
      fr.frameRefCount e.frame ≤ 1) : CowInv A x fr (withSpace L i vm (isShared ranges)) held := by
  have hshare := h.share (i := i) (S := isShared ranges) fun p m hm hp hs => by
    grind [withSpace_eq_some]
  convert hshare using 1
  funext j q
  unfold Mappings.share
  by_cases hj : j = i
  · subst hj
    rw [withSpace_self, withSpace_self]
    cases hq : vm.leaf q with
    | none => simp
    | some e =>
      have hS := hagain q (by simp [hq])
      cases hr : isShared ranges q with
      | true => simp
      | false =>
        rw [hr] at hS
        simpa using hS
  · simp [hj, withSpace_of_ne hj]

/-- Counts that come to saturate pin private frames. -/
theorem pin (h : CowInv A x fr L held) (hlen : fr'.refLen = fr.refLen)
    (hfree : A.free fr'.pool = A.free fr.pool)
    (hcount : ∀ f, fr'.frameRefCount f = fr.frameRefCount f ∨ fr'.frameRefCount f = countMax ∧
      f ∉ A.free fr.pool ∧ ∀ i p m, L i p = some m → m.pte.frame = f → m.shared = false) :
    CowInv A x fr' L held where
  free_lt f hf := by
    rw [hfree] at hf
    exact hlen ▸ h.free_lt f hf
  free_zero f hf := by grind [h.free_zero]
  backed f := by
    rcases hcount f with hc | ⟨hmax, -⟩
    · unfold Backed
      rw [hc]
      exact h.backed f
    · exact .inl hmax
  same_page := h.same_page
  exclusive := h.exclusive
  shared_count {i p m} hm hs := by
    rcases hcount m.pte.frame with hc | ⟨-, -, hpriv⟩
    · rw [hc]
      exact h.shared_count hm hs
    · rw [hpriv i p m hm rfl] at hs
      cases hs

/-! ### The leaves of the parent -/

theorem mem_takenFrames {ls : List (ℕ × Pte)} {f : ℕ} (h : f ∈ takenFrames fr ranges ls) :
    ∃ l ∈ ls, isShared ranges l.1 = false ∧ l.2.frame = f := by
  obtain ⟨l, hl, rfl⟩ := mem_map.1 h
  grind [cloneKind]

section

variable {ls : List (ℕ × Pte)} (h : CowInv A x fr (withSpace L i vm (isShared ranges)) held)
  (hls : ∀ l ∈ ls, vm.leaf l.1 = some l.2)

include h hls

/-- All leaves of a frame to which a clone takes a reference are private. -/
theorem private_of_taken {f : ℕ} (hf : f ∈ takenFrames fr ranges ls) :
    f ∉ A.free fr.pool ∧ ∀ j q m, withSpace L i vm (isShared ranges) j q = some m →
      m.pte.frame = f → m.shared = false := by
  obtain ⟨l, hl, hs, rfl⟩ := mem_takenFrames hf
  have hm := mapping_self (L := L) (i := i) (S := isShared ranges) (hls l hl)
  exact ⟨h.not_free hm, fun j q m hm' hframe => (h.same_page hm' hm hframe).2.trans hs⟩

/-- **A clone that fails** keeps the invariant, if it has not come past a copy-on-write page whose
frame has several references. -/
theorem givenUp
    (hok : x → ∀ l ∈ ls, cloneKind fr ranges l = .cow → l.2.cow = true →
      fr.frameRefCount l.2.frame ≤ 1)
    (hg : GivenUp A fr vm ranges ls fr' vm') :
    CowInv A x fr' (withSpace L i vm' (isShared ranges)) held := by
  have hpin : CowInv A x fr' (withSpace L i vm (isShared ranges)) held := by
    refine h.pin hg.refLen_eq hg.free_eq fun f => ?_
    by_cases hf : f ∈ takenFrames fr ranges ls
    · grind [fr.frameRefCount_le, hg.count_eq, satInc_iterate, satDec_iterate,
        satDec_iterate_countMax, h.private_of_taken]
    · left
      rw [hg.count_eq, count_eq_zero.2 hf]
      rfl
  refine hpin.restamp fun j q m' hm' => ?_
  rcases withSpace_eq_some hm' with ⟨rfl, hleaf, hshared⟩ | ⟨hj, hm'⟩
  · rw [hg.leaf] at hleaf
    split_ifs at hleaf with hq
    · obtain ⟨e, hl, hk⟩ := mem_pages_cowLeaves.1 hq
      have he : vm.leaf q = some e := hls _ hl
      have hm := mapping_self (L := L) (i := j) (S := isShared ranges) he
      rw [he, Option.map_some] at hleaf
      have hpte := Option.some.inj hleaf
      refine ⟨_, hm, by rw [← hpte]; rfl, hshared, fun hx _ hs => ?_⟩
      have hor := (cloneKind_eq_cow hk).2.2
      cases hw : e.writable with
      | true => exact .inl rfl
      | false =>
        have hcow : e.cow = true := by simpa [hw] using hor
        exact .inr (h.sole_of_count_le hm (hshared ▸ hs) (hok hx _ hl hk hcow))
    · grind [withSpace_self]
  · exact ⟨m', by rw [withSpace_of_ne hj, hm'], rfl, rfl, fun _ hw _ => .inl hw⟩

end

/-! ### The child -/

section

variable (h : CowInv A x fr (withSpace L i vm S) held) {q : ℕ}

include h

/-- Under the invariant every leaf has a counted frame, so that a clone makes no eager copies. -/
theorem cloneKind_ne_eager {e : Pte}
    (he : vm.leaf q = some e) : cloneKind fr ranges (q, e) ≠ .eager := by
  have hcount : fr.frameRefCount e.frame ≠ 0 :=
    h.count_ne_zero (mapping_self (L := L) (i := i) (S := S) he)
  unfold cloneKind
  split_ifs <;> nofun

/-- A leaf of the child has the frame of the parent's leaf; if it is private, it is not writable,
and the clone has taken a reference for it. -/
theorem childPte_cases {e e' : Pte}
    (he : (q, e) ∈ vm.userLeaves) (hc : ChildPte fr ranges (q, e) e') :
    e'.frame = e.frame ∧ (isShared ranges q = false → e'.writable = false ∧
      e.frame ∈ takenFrames fr ranges vm.userLeaves) := by
  have hne : cloneKind fr ranges (q, e) ≠ .eager := h.cloneKind_ne_eager (mem_userLeaves.1 he).1
  have htaken : cloneKind fr ranges (q, e) = .cow ∨ cloneKind fr ranges (q, e) = .readonly →
      e.frame ∈ takenFrames fr ranges vm.userLeaves := fun hk =>
    mem_map.2 ⟨(q, e), mem_filter.2 ⟨he, decide_eq_true hk⟩, rfl⟩
  unfold ChildPte at hc
  cases hk : cloneKind fr ranges (q, e) with
  | eager => exact absurd hk hne
  | shared =>
    simp only [hk] at hc
    refine ⟨by rw [hc]; rfl, fun hs => ?_⟩
    unfold cloneKind at hk
    split_ifs at hk with h₁
    rw [hs] at h₁
    cases h₁
  | cow =>
    simp only [hk] at hc
    exact ⟨by rw [hc]; rfl, fun _ => ⟨by rw [hc]; rfl, htaken (.inl hk)⟩⟩
  | readonly =>
    simp only [hk] at hc
    refine ⟨by rw [hc]; rfl, fun _ => ⟨?_, htaken (.inr hk)⟩⟩
    unfold cloneKind at hk
    split_ifs at hk with h₁ h₂ h₃
    rw [hc]
    simpa [clonePerms, Perms.toPte] using h₃

/-- A leaf of the parent keeps its frame and does not become writable; a private user leaf is not
writable after the clone. -/
theorem parentPte_cases
    (hc : Cloned A fr vm ranges fr' vm' child) {e' : Pte} (he' : vm'.leaf q = some e') :
    ∃ e, vm.leaf q = some e ∧ e'.frame = e.frame ∧ (e'.writable = true → e.writable = true) ∧
      (q < userPages → isShared ranges q = false → e'.writable = false) := by
  rw [hc.leaf] at he'
  split_ifs at he' with hmem
  · obtain ⟨e, he, rfl⟩ := Option.map_eq_some_iff.1 he'
    exact ⟨e, he, rfl, nofun, fun _ _ => rfl⟩
  refine ⟨e', he', rfl, id, fun hq hs => ?_⟩
  by_contra hw
  have hcount : fr.frameRefCount e'.frame ≠ 0 :=
    h.count_ne_zero (mapping_self (L := L) (i := i) (S := S) he')
  simp_all [mem_pages_cowLeaves, mem_userLeaves, cloneKind]

/-- No frame gets more than one reference from a clone. -/
theorem nodup_takenFrames : (takenFrames fr ranges vm.userLeaves).Nodup := by
  have hnodup : vm.userLeaves.Nodup :=
    vm.pairwise_userLeaves.imp fun {l l'} hne heq => hne (congrArg Prod.fst heq)
  refine List.Nodup.map_on (fun l hl l' hl' heq => ?_) (hnodup.filter _)
  have he := (mem_userLeaves.1 (mem_filter.1 hl).1).1
  have he' := (mem_userLeaves.1 (mem_filter.1 hl').1).1
  have hpage := (h.same_page (mapping_self (L := L) (i := i) (S := S) he)
    (mapping_self (L := L) (i := i) (S := S) he') heq).1
  grind

end

/-- How a leaf `m'` of space `j` after the clone comes from a leaf `m` before it, at the same
page: a leaf of the child `n` comes from the parent `i`. -/
structure Origin (fr : Frames σ) (L : Mappings) (i : ℕ) (vm : VmSpace) (ranges : List (ℕ × ℕ))
    (n j q : ℕ) (m' m : Mapping) : Prop where
  before : withSpace L i vm (isShared ranges) (if j = n then i else j) q = some m
  frame : m'.pte.frame = m.pte.frame
  shared : m'.shared = m.shared
  child : j = n → q < userPages ∧ (m'.shared = false → m'.pte.writable = false ∧
    m'.pte.frame ∈ takenFrames fr ranges vm.userLeaves)
  parent : j = i → q < userPages → m'.shared = false → m'.pte.writable = false
  writable : j ≠ n → m'.pte.writable = true → m.pte.writable = true

variable {n j q : ℕ} {m' : Mapping}

variable (h : CowInv A x fr (withSpace L i vm (isShared ranges)) held)

include h

variable (hc : Cloned A fr vm ranges fr' vm' child)

include hc

theorem exists_origin (hn : n ≠ i)
    (hm' : withSpace (withSpace L i vm' (isShared ranges)) n child (isShared ranges) j q =
      some m') : ∃ m, Origin fr L i vm ranges n j q m' m := by
  rcases withSpace_eq_some hm' with ⟨rfl, hleaf, hshared⟩ | ⟨hj, hm'⟩
  · obtain ⟨e, hmem, hpte⟩ := hc.child_leaf q _ hleaf
    obtain ⟨hframe, hpriv⟩ := h.childPte_cases hmem hpte
    refine ⟨⟨e, isShared ranges q⟩, ?_, hframe, hshared, fun _ => ?_, fun hji => absurd hji hn,
      fun hne => absurd rfl hne⟩
    · rw [if_pos rfl]
      exact mapping_self (mem_userLeaves.1 hmem).1
    · grind [mem_userLeaves]
  · rcases withSpace_eq_some hm' with ⟨rfl, hleaf, hshared⟩ | ⟨hji, hm'⟩
    · obtain ⟨e, he, hframe, hw, hpriv⟩ := h.parentPte_cases hc hleaf
      refine ⟨⟨e, isShared ranges q⟩, ?_, hframe, hshared, fun hjn => absurd hjn hj, fun _ => ?_,
        fun _ => hw⟩
      · rw [if_neg hj]
        exact mapping_self he
      · rw [hshared]
        exact hpriv
    · refine ⟨m', ?_, rfl, rfl, fun hjn => absurd hjn hj, fun h => absurd h hji, fun _ => id⟩
      rw [if_neg hj, withSpace_of_ne hji, hm']

/-- The references after a clone: the child takes one for each private leaf. -/
theorem cloned_backed (hn : n ≠ i) (f : ℕ) :
    Backed fr' (withSpace (withSpace L i vm' (isShared ranges)) n child (isShared ranges))
      held f := by
  obtain ⟨eager, hl⟩ := hc.ledger
  unfold Backed
  rw [hl.count_eq]
  by_cases hacq : f ∈ child.treeFrames ++ eager
  · have hfree := hl.acquired_free f hacq
    refine .inr ⟨∅, fun j q m' hm' hframe => ?_, ?_⟩
    · obtain ⟨m, hm⟩ := h.exists_origin hc hn hm'
      exact absurd (hm.frame ▸ hframe ▸ hfree) (h.not_free hm.before)
    · simp_all [h.not_mem_held_of_free]
  rw [if_neg fun h => hacq h.1]
  by_cases ht : f ∈ takenFrames fr ranges vm.userLeaves
  · rw [count_eq_one_of_mem h.nodup_takenFrames ht, Function.iterate_one, satInc]
    rcases h.backed f with hmax | ⟨s, hs, hcard⟩
    · exact .inl (by rw [if_pos hmax, hmax])
    split_ifs with hmax
    · exact .inl hmax
    refine .inr ⟨insert n s, fun j q m' hm' hframe => ?_, ?_⟩
    · obtain ⟨m, hm⟩ := h.exists_origin hc hn hm'
      refine ⟨insert_nonempty n s, fun hpriv => ?_⟩
      by_cases hj : j = n
      · exact hj ▸ Finset.mem_insert_self n s
      · have hmem := (hs _ q m hm.before (hm.frame ▸ hframe)).2 (hm.shared ▸ hpriv)
        simp_all
    · have := card_insert_le n s
      omega
  · rw [count_eq_zero.2 ht]
    refine (h.backed f).imp_right ?_
    rintro ⟨s, hs, hcard⟩
    refine ⟨s, fun j q m' hm' hframe => ?_, hcard⟩
    obtain ⟨m, hm⟩ := h.exists_origin hc hn hm'
    obtain ⟨hne, hmem⟩ := hs _ q m hm.before (hm.frame ▸ hframe)
    refine ⟨hne, fun hpriv => ?_⟩
    by_cases hj : j = n
    · exact absurd (hframe ▸ ((hm.child hj).2 hpriv).2) ht
    · simp_all [hm.shared]

/-- **A clone that succeeds** keeps the invariant, with the child as a new address space. -/
theorem cloned (hn : n ≠ i) :
    CowInv A x fr' (withSpace (withSpace L i vm' (isShared ranges)) n child (isShared ranges))
      held := by
  obtain ⟨eager, hl⟩ := hc.ledger
  refine ⟨fun f hf => ?_, fun f hf => ?_, h.cloned_backed hc hn, ?_, ?_, ?_⟩
  · rw [hl.free_eq, mem_sdiff] at hf
    exact hl.refLen_eq ▸ h.free_lt f hf.1
  · rw [hl.free_eq, mem_sdiff, mem_toFinset] at hf
    have hzero := h.free_zero f hf.1
    have hcount : (takenFrames fr ranges vm.userLeaves).count f = 0 :=
      count_eq_zero.2 fun ht => hl.taken_ne_zero f ht hzero
    simp_all [hl.count_eq]
  · intro j q m₁ k r m₂ h₁ h₂ heq
    obtain ⟨m, hm⟩ := h.exists_origin hc hn h₁
    obtain ⟨m', hm'⟩ := h.exists_origin hc hn h₂
    rw [hm.shared, hm'.shared]
    exact h.same_page hm.before hm'.before (by rw [← hm.frame, heq, hm'.frame])
  · intro hx j q m₁ h₁ hs hw k r m₂ h₂ heq
    obtain ⟨m, hm⟩ := h.exists_origin hc hn h₁
    obtain ⟨m', hm'⟩ := h.exists_origin hc hn h₂
    have hj : j ≠ n := fun hj => by
      rw [((hm.child hj).2 hs).1] at hw
      cases hw
    have hbefore := hm.before
    rw [if_neg hj] at hbefore
    have hsame : m'.pte.frame = m.pte.frame := by rw [← hm'.frame, heq, hm.frame]
    have hk := h.exclusive hx hbefore (hm.shared ▸ hs) (hm.writable hj hw) _ r m' hm'.before
      hsame
    by_cases hkn : k = n
    · -- A leaf of the child is at a user page, where the parent has lost its write permission.
      rw [if_pos hkn] at hk
      obtain ⟨rfl, -⟩ := h.same_page hm'.before hbefore hsame
      rw [hm.parent hk.symm (hm'.child hkn).1 hs] at hw
      cases hw
    · rwa [if_neg hkn] at hk
  · intro j q m₁ h₁ hs
    obtain ⟨m, hm⟩ := h.exists_origin hc hn h₁
    have hms : m.shared = true := hm.shared ▸ hs
    have ht : m.pte.frame ∉ takenFrames fr ranges vm.userLeaves := fun ht => by
      have hls : ∀ l ∈ vm.userLeaves, vm.leaf l.1 = some l.2 := fun l hl =>
        (mem_userLeaves.1 hl).1
      rw [(h.private_of_taken hls ht).2 _ _ m hm.before rfl] at hms
      cases hms
    rw [hm.frame, hl.count_eq, if_neg fun hf => h.not_free hm.before (hl.acquired_free _ hf.1),
      count_eq_zero.2 ht]
    exact h.shared_count hm.before hms

end CowInv

end CypheraKernel.Mm
