import Mathlib.Data.List.Perm.Basic

/-!
# Things that are in one place only

Items stand in slots, several in a slot.  `Exclusive` says that no item stands in two slots, or
twice in one.  Things are moved by taking them out of a slot and putting them into another; in
between they are `Free`.

`Exclusive.take` takes an item out, which is free then, and `Exclusive.put` puts a free item in.
-/

namespace CypheraKernel.Occupancy

variable {σ α : Type} {occ occ' : σ → List α} {s t : σ} {x y : α}

/-- No item stands in two slots, or twice in one. -/
structure Exclusive (occ : σ → List α) : Prop where
  nodup : ∀ s, (occ s).Nodup
  unique : ∀ {s t x}, x ∈ occ s → x ∈ occ t → s = t

/-- The item stands in no slot. -/
def Free (occ : σ → List α) (x : α) : Prop := ∀ s, x ∉ occ s

/-- One `x` is added to the slot `s`. -/
structure Adds (occ occ' : σ → List α) (s : σ) (x : α) : Prop where
  here : (occ' s).Perm (x :: occ s)
  elsewhere : ∀ t, t ≠ s → occ' t = occ t

namespace Adds

section

variable (h : Adds occ occ' s x)

include h

theorem mem_iff : y ∈ occ' t ↔ (t = s ∧ y = x) ∨ y ∈ occ t := by
  by_cases ht : t = s
  · subst ht
    rw [h.here.mem_iff, List.mem_cons]
    simp
  · rw [h.elsewhere t ht]
    simp [ht]

theorem mem_self : x ∈ occ' s := h.mem_iff.2 (.inl ⟨rfl, rfl⟩)

theorem mem_of_mem (hy : y ∈ occ t) : y ∈ occ' t := h.mem_iff.2 (.inr hy)

/-- Another item is free after the step if it was free before. -/
theorem free_of_ne (hy : Free occ y) (hne : y ≠ x) : Free occ' y := by
  intro t ht
  rcases h.mem_iff.1 ht with ⟨-, hx⟩ | ht
  · exact hne hx
  · exact hy t ht

theorem free_of_free (hy : Free occ' y) : Free occ y :=
  fun t ht => hy t (h.mem_of_mem ht)

end

end Adds

namespace Exclusive

/-- What has been taken out is free. -/
theorem free_of_adds (h : Exclusive occ') (ha : Adds occ occ' s x) : Free occ x := by
  intro t ht
  obtain rfl := h.unique (ha.mem_of_mem ht) ha.mem_self
  exact (List.nodup_cons.1 (ha.here.nodup_iff.1 (h.nodup t))).1 ht

theorem take (h : Exclusive occ') (ha : Adds occ occ' s x) : Exclusive occ where
  nodup t := by
    by_cases ht : t = s
    · subst ht
      exact (List.nodup_cons.1 (ha.here.nodup_iff.1 (h.nodup t))).2
    · rw [← ha.elsewhere t ht]
      exact h.nodup t
  unique hs ht := h.unique (ha.mem_of_mem hs) (ha.mem_of_mem ht)

theorem put (h : Exclusive occ) (hx : Free occ x) (ha : Adds occ occ' s x) : Exclusive occ' where
  nodup t := by
    by_cases ht : t = s
    · subst ht
      exact ha.here.nodup_iff.2 (List.nodup_cons.2 ⟨hx t, h.nodup t⟩)
    · rw [ha.elsewhere t ht]
      exact h.nodup t
  unique {t u y} ht hu := by
    rcases ha.mem_iff.1 ht with ⟨rfl, rfl⟩ | ht
    · rcases ha.mem_iff.1 hu with ⟨rfl, -⟩ | hu
      · rfl
      · exact absurd hu (hx u)
    · rcases ha.mem_iff.1 hu with ⟨rfl, rfl⟩ | hu
      · exact absurd ht (hx t)
      · exact h.unique ht hu

end Exclusive

end CypheraKernel.Occupancy
