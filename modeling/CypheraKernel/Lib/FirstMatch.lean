import Mathlib.Data.PEquiv
import Mathlib.Tactic

/-!
# First match in a list of partial bijections

A list of partial bijections translates a value by the first of them that is defined on it, in
either direction.  The two translations need not be inverse to each other when domains or ranges
overlap.

`inverse_iff`: they are, up to a set of values on the lower side, when at every pair of related
values an earlier member meets the one side exactly if an earlier member meets the other.
-/

namespace CypheraKernel.FirstMatch

open List Option

variable {α β : Type}

variable (l : List (α ≃. β))

def down (x : α) : Option β := l.findSome? fun f => f x

def up (y : β) : Option α := l.findSome? fun f => f.symm y

/-- Overlaps with earlier members occur on both sides or on neither, over the values in `L`. -/
def Agree (L : β → Prop) : Prop :=
  ∀ pre f post, l = pre ++ f :: post → ∀ x y, f x = some y → L y →
    ((∃ g ∈ pre, (g x).isSome) ↔ ∃ g ∈ pre, (g.symm y).isSome)

/-- The translations are inverse to each other over the values in `L`. -/
def InverseOn (L : β → Prop) : Prop :=
  ∀ x y, L y → (down l x = some y ↔ up l y = some x)

variable {l pre post : List (α ≃. β)} {f : α ≃. β} {x : α} {y : β}

theorem down_of_first (hf : f x = some y) (h : ∀ g ∈ pre, g x = none) :
    down (pre ++ f :: post) x = some y :=
  findSome?_eq_some_iff.2 ⟨pre, f, post, rfl, hf, h⟩

theorem up_of_first (hf : f x = some y) (h : ∀ g ∈ pre, g.symm y = none) :
    up (pre ++ f :: post) y = some x :=
  findSome?_eq_some_iff.2 ⟨pre, f, post, rfl, f.eq_some_iff.2 hf, h⟩

/-- When an earlier member has a value, the first value found is an earlier member's. -/
theorem exists_of_findSome? {γ δ : Type} {F : γ → Option δ} {pre rest : List γ} {z : δ}
    (hz : (pre ++ rest).findSome? F = some z) (h : ∃ g ∈ pre, (F g).isSome) :
    ∃ g ∈ pre, F g = some z := by
  obtain ⟨w, hw⟩ := isSome_iff_exists.1 (findSome?_isSome_iff.2 h)
  rw [findSome?_append, hw, some_or] at hz
  cases hz
  exact exists_of_findSome?_eq_some hw

/-- **First match is invertible** exactly when overlaps agree. -/
theorem inverse_iff {L : β → Prop} : InverseOn l L ↔ Agree l L := by
  constructor
  · rintro h pre f post rfl x y hf hy
    constructor
    · intro hx
      by_contra hno
      push Not at hno
      have hup : up (pre ++ f :: post) y = some x :=
        up_of_first hf fun g hg => not_isSome_iff_eq_none.1 (hno g hg)
      obtain ⟨g, hg, hgx⟩ := exists_of_findSome? ((h x y hy).2 hup) hx
      exact hno g hg (by rw [g.eq_some_iff.2 hgx]; rfl)
    · intro hx
      by_contra hno
      push Not at hno
      have hdown : down (pre ++ f :: post) x = some y :=
        down_of_first hf fun g hg => not_isSome_iff_eq_none.1 (hno g hg)
      obtain ⟨g, hg, hgy⟩ := exists_of_findSome? ((h x y hy).1 hdown) hx
      exact hno g hg (by rw [g.eq_some_iff.1 hgy]; rfl)
  · intro h x y hy
    constructor
    · intro hd
      obtain ⟨pre, f, post, rfl, hf, hnone⟩ := findSome?_eq_some_iff.1 hd
      refine up_of_first hf fun g hg => ?_
      by_contra hsome
      obtain ⟨g', hg', hx⟩ := (h pre f post rfl x y hf hy).2
        ⟨g, hg, isSome_iff_ne_none.2 hsome⟩
      rw [hnone g' hg'] at hx
      cases hx
    · intro hu
      obtain ⟨pre, f, post, rfl, hf, hnone⟩ := findSome?_eq_some_iff.1 hu
      have hf := f.eq_some_iff.1 hf
      refine down_of_first hf fun g hg => ?_
      by_contra hsome
      obtain ⟨g', hg', hy'⟩ := (h pre f post rfl x y hf hy).1
        ⟨g, hg, isSome_iff_ne_none.2 hsome⟩
      rw [hnone g' hg'] at hy'
      cases hy'

end CypheraKernel.FirstMatch
