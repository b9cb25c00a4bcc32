import CypheraKernel.Mm.CloneFailure

/-!
# The copy-on-write invariant

All address spaces together are seen as one table of mappings: for each space and page the present
leaf entry, and whether the page is shared between processes on purpose.

`CowInv` relates the table to the reference counts; `x` says whether it speaks of exclusive leaves,
the only part that a careless change of permissions breaks.  `held` are references that are in no leaf
at the moment: those of a frame on the way into or out of a leaf.

* `exclusive`: a writable private leaf is the only leaf of its frame;
* `backed`: no frame has fewer references than private leaves and holders, unless its count has
  saturated;
* `same_page`: the leaves of one frame are at one page, all shared or all private;
* `shared_count`: a shared page is not counted a second time.

The lemmas say what a single change of the table or of the frames preserves: acquiring and freeing
frames (`CowInv.acquire`, `CowInv.free`), entering and removing a leaf (`CowInv.install`,
`CowInv.remove`), new flags (`CowInv.restamp`).
-/

namespace CypheraKernel.Mm

open Frames Multiset

/-- A leaf entry, and whether its page is shared. -/
structure Mapping where
  pte : Pte
  shared : Bool

/-- The mapping of each page of each address space. -/
abbrev Mappings := ℕ → ℕ → Option Mapping

namespace Mappings

/-- Change one mapping. -/
def set (L : Mappings) (i p : ℕ) (m : Option Mapping) : Mappings :=
  fun j q => if j = i ∧ q = p then m else L j q

/-- Mark pages of one space as shared. -/
def share (L : Mappings) (i : ℕ) (S : ℕ → Bool) : Mappings :=
  fun j q => if j = i ∧ S q then (L j q).map fun m => { m with shared := true } else L j q

theorem share_eq_some {L : Mappings} {i j q : ℕ} {S : ℕ → Bool} {m' : Mapping} :
    L.share i S j q = some m' ↔ ∃ m, L j q = some m ∧ m'.pte = m.pte ∧
      m'.shared = (m.shared || decide (j = i ∧ S q)) := by
  unfold share
  split_ifs with h
  · rw [decide_eq_true h]
    simp only [Option.map_eq_some_iff, Bool.or_true]
    refine exists_congr fun m => and_congr_right fun _ => ?_
    constructor
    · rintro rfl
      exact ⟨rfl, rfl⟩
    · rintro ⟨hpte, hshared⟩
      rw [← hpte, ← hshared]
  · rw [decide_eq_false h]
    simp only [Bool.or_false]
    constructor
    · exact fun hm => ⟨m', hm, rfl, rfl⟩
    rintro ⟨m, hm, hpte, hshared⟩
    rw [hm]
    cases m
    cases m'
    cases hpte
    cases hshared
    rfl

end Mappings

variable {σ : Type} (A : FrameAllocator σ) (x : Prop)

/-- The references to a frame are at least its private leaves and its holders; shared leaves
together count for one. -/
def Backed (fr : Frames σ) (L : Mappings) (held : Multiset ℕ) (f : ℕ) : Prop :=
  fr.frameRefCount f = countMax ∨
    ∃ s : Finset ℕ, (∀ i p m, L i p = some m → m.pte.frame = f →
      s.Nonempty ∧ (m.shared = false → i ∈ s)) ∧
      s.card + held.count f ≤ fr.frameRefCount f

/-- No space but `i` maps the frame. -/
def Sole (L : Mappings) (i f : ℕ) : Prop :=
  ∀ j q m, L j q = some m → m.pte.frame = f → j = i

structure CowInv (fr : Frames σ) (L : Mappings) (held : Multiset ℕ) : Prop where
  free_lt : ∀ f ∈ A.free fr.pool, f < fr.refLen
  free_zero : ∀ f ∈ A.free fr.pool, fr.frameRefCount f = 0
  backed : ∀ f, Backed fr L held f
  same_page : ∀ {i p m j q m'}, L i p = some m → L j q = some m' → m.pte.frame = m'.pte.frame →
    p = q ∧ m.shared = m'.shared
  exclusive : x → ∀ {i p m}, L i p = some m → m.shared = false → m.pte.writable = true →
    Sole L i m.pte.frame
  shared_count : ∀ {i p m}, L i p = some m → m.shared = true → fr.frameRefCount m.pte.frame ≤ 1

namespace CowInv

variable {A x} {fr fr' : Frames σ} {L L' : Mappings} {held held' : Multiset ℕ} {i p f : ℕ}
  {m : Mapping}

/-! ### Consequences -/

section

variable (h : CowInv A x fr L held)

include h

theorem count_ne_zero (hm : L i p = some m) : fr.frameRefCount m.pte.frame ≠ 0 := by
  rcases h.backed m.pte.frame with hmax | ⟨s, hs, hle⟩
  · rw [hmax]
    decide
  · grind

theorem not_free (hm : L i p = some m) :
    m.pte.frame ∉ A.free fr.pool := fun hf => h.count_ne_zero hm (h.free_zero _ hf)

theorem count_held_le (f : ℕ) (hf : fr.frameRefCount f ≠ countMax) :
    held.count f ≤ fr.frameRefCount f := by
  rcases h.backed f with hmax | ⟨s, -, hle⟩
  · exact absurd hmax hf
  · omega

theorem not_mem_held_of_free (hf : f ∈ A.free fr.pool) : f ∉ held := by
  have hzero := h.free_zero f hf
  have hle := h.count_held_le f (by rw [hzero]; decide)
  rw [hzero] at hle
  exact count_eq_zero.1 (by omega)

theorem lt_refLen_of_held (hf : f ∈ held) : f < fr.refLen := by
  by_contra hlt
  have hzero : fr.frameRefCount f = 0 := if_neg hlt
  have hle := h.count_held_le f (by rw [hzero]; decide)
  have := count_pos.2 hf
  omega

/-- A private leaf of a frame with one reference is the only leaf. -/
theorem sole_of_count_le (hm : L i p = some m) (hs : m.shared = false)
    (hle : fr.frameRefCount m.pte.frame ≤ 1) : Sole L i m.pte.frame := by
  intro j q m' hm' hframe
  rcases h.backed m.pte.frame with hmax | ⟨s, hmem, hcard⟩
  · rw [hmax] at hle
    exact absurd hle (by decide)
  · grind [h.same_page, Finset.card_le_one]

/-- A frame whose only reference is held is in no leaf. -/
theorem not_mapped_of_held (hf : f ∈ held)
    (hle : fr.frameRefCount f ≤ 1) (hm : L i p = some m) : m.pte.frame ≠ f := by
  rintro rfl
  rcases h.backed m.pte.frame with hmax | ⟨s, hmem, hcard⟩
  · rw [hmax] at hle
    exact absurd hle (by decide)
  · grind [count_pos]

end

/-! ### Changes of the frames -/

section

variable (h : CowInv A x fr L held)
include h

/-- Holders can be forgotten. -/
theorem mono (hle : held' ≤ held) : CowInv A x fr L held' :=
  { h with
    backed := fun f => (h.backed f).imp_right fun ⟨s, hs, hcard⟩ =>
      ⟨s, hs, le_trans (Nat.add_le_add_left (count_le_of_le f hle) _) hcard⟩ }

/-- Acquired frames are held. -/
theorem acquire {acquired : List ℕ} (hl : Ledger A fr fr' [] acquired) :
    CowInv A x fr' L (held + acquired) where
  free_lt f hf := by simp_all [hl.free_eq, hl.refLen_eq, h.free_lt]
  free_zero f hf := by simp_all [hl.free_eq, hl.count_eq, h.free_zero]
  backed f := by
    unfold Backed
    rw [hl.count_eq, count_add, coe_count]
    by_cases hf : f ∈ acquired
    · have hfree := hl.acquired_free f hf
      refine .inr ⟨∅, fun i p m hm hframe => absurd (hframe ▸ hfree) (h.not_free hm), ?_⟩
      rw [if_pos ⟨hf, h.free_lt f hfree⟩, count_eq_zero.2 (h.not_mem_held_of_free hfree),
        List.count_eq_one_of_mem hl.nodup hf]
      rfl
    · rw [if_neg fun h => hf h.1, List.count_eq_zero.2 hf]
      exact h.backed f
  same_page := h.same_page
  exclusive := h.exclusive
  shared_count hm hs := by
    rw [hl.count_eq, if_neg fun hf => h.not_free hm (hl.acquired_free _ hf.1)]
    exact h.shared_count hm hs

/-- A held frame is freed. -/
theorem free (hf : f ∈ held) :
    CowInv A x (fr.freeFrame A f) L (held.erase f) where
  free_lt g hg := by
    rw [mem_free_freeFrame] at hg
    rw [refLen_freeFrame]
    rcases hg with hg | ⟨rfl, -⟩
    · exact h.free_lt g hg
    · exact h.lt_refLen_of_held hf
  free_zero g hg := by
    rw [mem_free_freeFrame] at hg
    rw [frameRefCount_freeFrame]
    rcases hg with hg | ⟨rfl, hone⟩
    · have hne : g ≠ f := by
        rintro rfl
        exact h.not_mem_held_of_free hg hf
      rw [if_neg hne, h.free_zero g hg]
    · rw [if_pos rfl, hone (h.lt_refLen_of_held hf)]
      rfl
  backed g := by
    unfold Backed
    rw [frameRefCount_freeFrame]
    by_cases hg : g = f
    · subst hg
      have hpos := count_pos.2 hf
      rw [if_pos rfl, count_erase_self, satDec]
      rcases h.backed g with hmax | ⟨s, hs, hcard⟩
      · exact .inl (by rw [if_pos hmax, hmax])
      · grind
    · rw [if_neg hg, count_erase_of_ne hg]
      exact h.backed g
  same_page := h.same_page
  exclusive := h.exclusive
  shared_count {i p m} hm hs := by
    have hle := h.shared_count hm hs
    grind [frameRefCount_freeFrame, satDec]

omit h in
theorem freeFrames (fs : List ℕ) (h : CowInv A x fr L (held + fs)) :
    CowInv A x (fr.freeFrames A fs) L held := by
  induction fs generalizing fr with
  | nil => simpa [Frames.freeFrames] using h
  | cons f fs ih =>
    refine ih ((h.free (f := f) ?_).mono ?_)
    · simp
    · rw [← cons_coe, add_cons, erase_cons_head]

/-! ### Changes of the table -/

/-- New flags: a leaf may become writable if it was, or if its frame is mapped nowhere else.
Leaves may also go, with their references forgotten. -/
theorem restamp
    (hL : ∀ j q m', L' j q = some m' → ∃ m, L j q = some m ∧ m'.pte.frame = m.pte.frame ∧
      m'.shared = m.shared ∧ (x → m'.pte.writable = true → m'.shared = false →
        m.pte.writable = true ∨ Sole L j m.pte.frame)) :
    CowInv A x fr L' held where
  free_lt := h.free_lt
  free_zero := h.free_zero
  backed f := (h.backed f).imp_right fun ⟨s, hs, hcard⟩ => by
    refine ⟨s, fun i p m' hm' hf => ?_, hcard⟩
    obtain ⟨m, hm, hframe, hshared, -⟩ := hL i p m' hm'
    exact hshared ▸ hs i p m hm (hframe ▸ hf)
  same_page {i p m₁ j q m₂} h₁ h₂ heq := by grind [h.same_page]
  exclusive hx {i p m'} hm' hs hw := by grind [Sole, h.exclusive]
  shared_count {i p m'} hm' hs := by
    obtain ⟨m, hm, hframe, hshared, -⟩ := hL i p m' hm'
    rw [hframe]
    exact h.shared_count hm (hshared ▸ hs)

/-- A held frame goes into a new leaf. -/
theorem install {e : Pte} (hnone : L i p = none) (hf : e.frame ∈ held)
    (hle : fr.frameRefCount e.frame ≤ 1) :
    CowInv A x fr (L.set i p (some ⟨e, false⟩)) (held.erase e.frame) := by
  -- No old leaf maps the frame, so the new one shares nothing with the others.
  have hnew : ∀ j q m, L j q = some m → m.pte.frame ≠ e.frame :=
    fun j q m hm => h.not_mapped_of_held hf hle hm
  have hcases : ∀ {j q m}, L.set i p (some ⟨e, false⟩) j q = some m →
      j = i ∧ q = p ∧ m = ⟨e, false⟩ ∨ L j q = some m := by
    intro j q m hm
    unfold Mappings.set at hm
    split_ifs at hm with hjq
    · exact .inl ⟨hjq.1, hjq.2, (Option.some.inj hm).symm⟩
    · exact .inr hm
  refine ⟨h.free_lt, h.free_zero, fun f => ?_, ?_, ?_, ?_⟩
  · by_cases hfe : f = e.frame
    · subst hfe
      have hpos := count_pos.2 hf
      have hheld := h.count_held_le e.frame (by
        intro hmax
        rw [hmax] at hle
        exact absurd hle (by decide))
      refine .inr ⟨{i}, fun j q m hm hframe => ?_, ?_⟩
      · grind
      · rw [count_erase_self, Finset.card_singleton]
        omega
    · refine (h.backed f).imp_right fun ⟨s, hs, hcard⟩ => ⟨s, fun j q m hm hframe => ?_, ?_⟩
      · grind
      · rwa [count_erase_of_ne hfe]
  · grind [h.same_page]
  · intro hx j q m hm hs hw k r m' hm' heq
    rcases hcases hm with ⟨rfl, rfl, rfl⟩ | h₁ <;> rcases hcases hm' with ⟨rfl, rfl, rfl⟩ | h₂
    · rfl
    · exact absurd heq (hnew _ _ _ h₂)
    · exact absurd heq.symm (hnew _ _ _ h₁)
    · exact h.exclusive hx h₁ hs hw k r m' h₂ heq
  · intro j q m hm hs
    rcases hcases hm with ⟨rfl, rfl, rfl⟩ | hm
    · cases hs
    · exact h.shared_count hm hs

/-- The frame of a removed private leaf is held. -/
theorem remove (hm : L i p = some m) (hs : m.shared = false) :
    CowInv A x fr (L.set i p none) (m.pte.frame ::ₘ held) := by
  have hold : ∀ {j q m'}, L.set i p none j q = some m' → ¬ (j = i ∧ q = p) ∧ L j q = some m' := by
    simp [Mappings.set]
  have hrest : CowInv A x fr (L.set i p none) held :=
    h.restamp fun j q m' hm' => ⟨m', (hold hm').2, rfl, rfl, fun _ hw _ => .inl hw⟩
  refine { hrest with backed := fun f => ?_ }
  by_cases hf : f = m.pte.frame
  · subst hf
    refine (h.backed m.pte.frame).imp_right fun ⟨s, hmem, hcard⟩ => ?_
    refine ⟨s.erase i, fun j q m' hm' hframe => ?_, ?_⟩
    · -- Another leaf of the frame is at the same page, hence in another space.
      grind [h.same_page]
    · grind [count_cons_self]
  · have hcount : (m.pte.frame ::ₘ held).count f = held.count f := count_cons_of_ne hf held
    unfold Backed
    rw [hcount]
    exact hrest.backed f

/-- Pages with one reference can be declared shared. -/
theorem share {S : ℕ → Bool}
    (hS : ∀ p m, L i p = some m → S p = true → m.shared = false →
      fr.frameRefCount m.pte.frame ≤ 1) :
    CowInv A x fr (L.share i S) held where
  free_lt := h.free_lt
  free_zero := h.free_zero
  backed f := (h.backed f).imp_right fun ⟨s, hs, hcard⟩ => by
    refine ⟨s, fun j q m' hm' hf => ?_, hcard⟩
    obtain ⟨m, hm, hpte, hshared⟩ := Mappings.share_eq_some.1 hm'
    obtain ⟨hne, hmem⟩ := hs j q m hm (hpte ▸ hf)
    refine ⟨hne, fun hfalse => hmem ?_⟩
    rw [hshared, Bool.or_eq_false_iff] at hfalse
    exact hfalse.1
  same_page {j q m₁ k r m₂} h₁ h₂ heq := by
    obtain ⟨m, hm, hpte, hshared⟩ := Mappings.share_eq_some.1 h₁
    obtain ⟨m', hm', hpte', hshared'⟩ := Mappings.share_eq_some.1 h₂
    rw [hpte, hpte'] at heq
    obtain ⟨rfl, hsame⟩ := h.same_page hm hm' heq
    refine ⟨rfl, ?_⟩
    rw [hshared, hshared', ← hsame]
    cases hs : m.shared with
    | true => rfl
    | false =>
      by_cases hq : S q = true
      · -- A private leaf that becomes shared is the only leaf of its frame.
        by_cases hj : j = i
        · subst hj
          rw [h.sole_of_count_le hm hs (hS q m hm hq hs) k q m' hm' heq.symm]
        by_cases hk : k = i
        · subst hk
          have hs' := hsame.symm.trans hs
          exact absurd (h.sole_of_count_le hm' hs' (hS q m' hm' hq hs') j q m hm heq) hj
        · simp [hj, hk]
      · simp [hq]
  exclusive hx {j q m₁} h₁ hs hw k r m₂ h₂ heq := by
    obtain ⟨m, hm, hpte, hshared⟩ := Mappings.share_eq_some.1 h₁
    obtain ⟨m', hm', hpte', -⟩ := Mappings.share_eq_some.1 h₂
    rw [hshared, Bool.or_eq_false_iff] at hs
    rw [hpte] at hw heq
    rw [hpte'] at heq
    exact h.exclusive hx hm hs.1 hw k r m' hm' heq
  shared_count {j q m₁} h₁ hs := by
    obtain ⟨m, hm, hpte, hshared⟩ := Mappings.share_eq_some.1 h₁
    rw [hpte]
    cases hms : m.shared with
    | true => exact h.shared_count hm hms
    | false =>
      rw [hshared, hms, Bool.false_or, decide_eq_true_eq] at hs
      exact hS q m (hs.1 ▸ hm) hs.2 hms

end

end CowInv

end CypheraKernel.Mm
