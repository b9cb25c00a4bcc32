import Mathlib.Tactic

/-!
# Sorted lists of disjoint intervals

An interval is a pair `(a, b)` of natural numbers, standing for `[a, b)`.

`gapsFrom`: the sweep that collects the parts of a window that a list leaves free, and
`mem_gapsFrom`: for a sorted disjoint list they are the maximal free subranges.
-/

namespace CypheraKernel.Intervals

open List

/-- Nonempty intervals, each ending before the next begins. -/
structure SortedDisjoint (l : List (ℕ × ℕ)) : Prop where
  pairwise : l.Pairwise fun i j => i.2 ≤ j.1
  nonempty : ∀ i ∈ l, i.1 < i.2

variable {l : List (ℕ × ℕ)} {i : ℕ × ℕ} {lo hi cov lo hi cov p q : ℕ}

theorem SortedDisjoint.tail (h : SortedDisjoint (i :: l)) : SortedDisjoint l :=
  ⟨h.pairwise.of_cons, fun j hj => h.nonempty j (mem_cons_of_mem i hj)⟩

/-- `a` lies in an interval of the list. -/
def Covered (l : List (ℕ × ℕ)) (a : ℕ) : Prop := ∃ i ∈ l, i.1 ≤ a ∧ a < i.2

@[simp] theorem covered_nil (a : ℕ) : ¬ Covered [] a := by simp [Covered]

@[simp] theorem covered_cons (i : ℕ × ℕ) (l : List (ℕ × ℕ)) (a : ℕ) :
    Covered (i :: l) a ↔ (i.1 ≤ a ∧ a < i.2) ∨ Covered l a := by
  simp [Covered]

/-- In a sorted list the first interval ends before the others begin. -/
theorem SortedDisjoint.le_of_covered (h : SortedDisjoint (i :: l))
    {a : ℕ} (ha : Covered l a) : i.2 ≤ a := by
  obtain ⟨j, hj, h1, -⟩ := ha
  exact (rel_of_pairwise_cons h.pairwise hj).trans h1

/-- The free parts of `[lo, hi)` from `cov` on: intervals outside the window are passed over, and
`cov` is how far the window is known to be covered or listed. -/
def gapsFrom (lo hi : ℕ) : List (ℕ × ℕ) → ℕ → List (ℕ × ℕ)
  | [], cov => if cov < hi then [(cov, hi)] else []
  | i :: l, cov =>
    if i.2 ≤ lo ∨ hi ≤ i.1 then gapsFrom lo hi l cov
    else (if cov < i.1 then [(cov, i.1)] else []) ++ gapsFrom lo hi l (max cov (min i.2 hi))

/-- A maximal subrange `[p, q)` of `[lo, hi)` outside the set `C`. -/
structure MaximalGap (C : ℕ → Prop) (lo hi p q : ℕ) : Prop where
  lt : p < q
  lo_le : lo ≤ p
  le_hi : q ≤ hi
  free : ∀ a, p ≤ a → a < q → ¬ C a
  left : p = lo ∨ C (p - 1)
  right : q = hi ∨ C q

/-- An interval outside the window does not matter. -/
theorem maximalGap_cons_outside (hout : i.2 ≤ lo ∨ hi ≤ i.1) (hlo : lo ≤ cov) :
    MaximalGap (Covered (i :: l)) cov hi p q ↔ MaximalGap (Covered l) cov hi p q := by
  constructor
  · rintro ⟨h1, h2, h3, h4, h5, h6⟩
    refine ⟨h1, h2, h3, fun a ha ha' hc => h4 a ha ha' ((covered_cons ..).2 (.inr hc)), ?_, ?_⟩
    · grind [covered_cons]
    · grind [covered_cons]
  · rintro ⟨h1, h2, h3, h4, h5, h6⟩
    refine ⟨h1, h2, h3, fun a ha ha' hc => ?_, h5.imp id fun h => (covered_cons ..).2 (.inr h),
      h6.imp id fun h => (covered_cons ..).2 (.inr h)⟩
    grind [covered_cons]

/-- The first interval inside the window bounds the first gap; the others begin behind it. -/
theorem maximalGap_cons_inside (hs : SortedDisjoint (i :: l))
    (hin : lo < i.2 ∧ i.1 < hi) (hlo : lo ≤ cov) (hcov : cov ≤ max i.1 lo) :
    MaximalGap (Covered (i :: l)) cov hi p q ↔
      (cov < i.1 ∧ p = cov ∧ q = i.1) ∨ MaximalGap (Covered l) (max cov (min i.2 hi)) hi p q := by
  have hne : i.1 < i.2 := hs.nonempty i mem_cons_self
  have hbehind (a : ℕ) (ha : Covered l a) : i.2 ≤ a := hs.le_of_covered ha
  constructor
  · rintro ⟨h1, h2, h3, h4, h5, h6⟩
    have hfree : ¬ (p < i.2 ∧ i.1 < q) := fun h =>
      h4 (max p i.1) (le_max_left _ _) (by omega) ((covered_cons ..).2 (.inl (by omega)))
    by_cases hq : q ≤ i.1
    · -- before the interval: both ends are determined
      grind [covered_cons]
    right
    refine ⟨h1, by omega, h3, fun a ha ha' hc => h4 a ha ha' ((covered_cons ..).2 (.inr hc)),
      ?_, ?_⟩
    · grind [covered_cons]
    · grind [covered_cons]
  · rintro (⟨h1, rfl, rfl⟩ | ⟨h1, h2, h3, h4, h5, h6⟩)
    · refine ⟨h1, le_rfl, by omega, fun a ha ha' hc => ?_, .inl rfl,
        .inr ((covered_cons ..).2 (.inl ⟨le_rfl, hne⟩))⟩
      grind [covered_cons]
    · refine ⟨h1, by omega, h3, fun a ha ha' hc => ?_, ?_,
        h6.imp id fun h => (covered_cons ..).2 (.inr h)⟩
      · grind [covered_cons]
      · grind [covered_cons]

/-- The sweep may go on from the end of the first interval. -/
theorem SortedDisjoint.cov_next (hs : SortedDisjoint (i :: l))
    (hcov : ∀ j ∈ i :: l, lo < j.2 → j.1 < hi → cov ≤ max j.1 lo) :
    ∀ j ∈ l, lo < j.2 → j.1 < hi → max cov (min i.2 hi) ≤ max j.1 lo := by
  grind [rel_of_pairwise_cons, hs.pairwise]

section

variable (hs : SortedDisjoint l) (hlo : lo ≤ cov)
  (hcov : ∀ i ∈ l, lo < i.2 → i.1 < hi → cov ≤ max i.1 lo)

include hs hlo hcov

/-- **The sweep lists exactly the maximal gaps.** -/
theorem mem_gapsFrom (p q : ℕ) :
    (p, q) ∈ gapsFrom lo hi l cov ↔ MaximalGap (Covered l) cov hi p q := by
  induction l generalizing cov with
  | nil =>
    rw [gapsFrom]
    constructor
    · intro h
      split_ifs at h with hlt
      · obtain ⟨rfl, rfl⟩ := Prod.mk.inj (mem_singleton.1 h)
        exact ⟨hlt, le_rfl, le_rfl, fun a _ _ => covered_nil a, .inl rfl, .inl rfl⟩
      · cases h
    rintro ⟨h1, h2, h3, -, h5, h6⟩
    obtain rfl := h5.resolve_right (covered_nil _)
    obtain rfl := h6.resolve_right (covered_nil _)
    rw [if_pos h1]
    exact mem_singleton_self _
  | cons i l ih =>
    rw [gapsFrom]
    split_ifs with hout hgap
    · grind [maximalGap_cons_outside, hs.tail]
    all_goals
      have hin : lo < i.2 ∧ i.1 < hi := by omega
      rw [maximalGap_cons_inside hs hin hlo (hcov i mem_cons_self hin.1 hin.2),
        mem_append, ih hs.tail (hlo.trans (le_max_left _ _)) (hs.cov_next hcov)]
    · simp [hgap]
    · simp [hgap]

/-- The gaps come in increasing order. -/
theorem pairwise_gapsFrom : (gapsFrom lo hi l cov).Pairwise fun g h => g.2 < h.1 := by
  induction l generalizing cov with
  | nil =>
    rw [gapsFrom]
    split_ifs <;> simp
  | cons i l ih =>
    rw [gapsFrom]
    split_ifs with hout hgap
    · exact ih hs.tail hlo fun j hj => hcov j (mem_cons_of_mem i hj)
    all_goals
      have hnext := hs.cov_next hcov
      have htail := ih hs.tail (hlo.trans (le_max_left cov (min i.2 hi))) hnext
    · refine List.Pairwise.cons (fun g hg => ?_) htail
      have hmem := (mem_gapsFrom hs.tail (hlo.trans (le_max_left _ _)) hnext g.1 g.2).1 hg
      have := hmem.lo_le
      have := hs.nonempty i mem_cons_self
      omega
    · exact htail

end

end CypheraKernel.Intervals
