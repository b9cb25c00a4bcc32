import Mathlib.Algebra.Order.BigOperators.Group.Finset

/-!
# Ledgers over a tree of accounts

The members of a ledger stand at places, each with an amount.  A place counts the amounts of the
members at it and at the places below; `above` lists, for each place, the places that count it.

`total_change`: when one member changes, the total changes by the difference of its shares.
-/

namespace CypheraKernel

open Finset

/-- Members with their places and amounts. -/
structure TreeLedger (ι π : Type) where
  members : Finset ι
  place : ι → Option π
  amount : ι → ℕ

namespace TreeLedger

variable {ι π : Type} [DecidableEq ι] [DecidableEq π]

/-- What the member `i` adds to the total of the place `g`. -/
def share (above : π → List π) (L : TreeLedger ι π) (i : ι) (g : π) : ℕ :=
  if i ∈ L.members ∧ ∃ c ∈ L.place i, g ∈ above c then L.amount i else 0

/-- The sum of the shares of all members. -/
def total (above : π → List π) (L : TreeLedger ι π) (g : π) : ℕ := ∑ i ∈ L.members, L.share above i g

variable {above : π → List π} {L L' : TreeLedger ι π} {i : ι} {g : π}

theorem share_of_not_mem (h : i ∉ L.members) : L.share above i g = 0 :=
  if_neg fun hi => h hi.1

/-- The sum may be taken over more than the members. -/
theorem total_eq_sum {s : Finset ι} (h : L.members ⊆ s) :
    L.total above g = ∑ i ∈ s, L.share above i g :=
  sum_subset h fun _ _ hi => share_of_not_mem hi

theorem share_le_total (above : π → List π) (L : TreeLedger ι π) (i : ι) (g : π) :
    L.share above i g ≤ L.total above g := by
  by_cases hi : i ∈ L.members
  · exact single_le_sum (f := fun j => L.share above j g) (fun _ _ => Nat.zero_le _) hi
  · rw [share_of_not_mem hi]
    exact Nat.zero_le _

/-- **One member changes**: it joins, leaves, moves or gets another amount. -/
theorem total_change (h : ∀ j, j ≠ i → L'.share above j g = L.share above j g) :
    L'.total above g + L.share above i g = L.total above g + L'.share above i g := by
  let s := insert i (L.members ∪ L'.members)
  have hi : i ∈ s := mem_insert_self _ _
  have hL : L.members ⊆ s := subset_union_left.trans (subset_insert _ _)
  have hL' : L'.members ⊆ s := subset_union_right.trans (subset_insert _ _)
  have hrest : ∑ j ∈ s.erase i, L'.share above j g = ∑ j ∈ s.erase i, L.share above j g :=
    sum_congr rfl fun j hj => h j (ne_of_mem_erase hj)
  rw [total_eq_sum hL, total_eq_sum hL', ← add_sum_erase s _ hi,
    ← add_sum_erase s (fun j => L.share above j g) hi, hrest]
  omega

/-- No share changes. -/
theorem total_congr (h : ∀ j, L'.share above j g = L.share above j g) :
    L'.total above g = L.total above g := by
  let s := L.members ∪ L'.members
  rw [total_eq_sum (L := L) (s := s) subset_union_left,
    total_eq_sum (L := L') (s := s) subset_union_right]
  exact sum_congr rfl fun j _ => h j

end TreeLedger

end CypheraKernel
