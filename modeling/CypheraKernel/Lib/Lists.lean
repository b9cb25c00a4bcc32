import Mathlib.Tactic

/-!
# Folds and searches over lists

* `keepLess`: the fold that keeps the entry with the least key, an earlier one winning a tie;
* `findSome?_flatMap`: searching a list that was built piece by piece;
* `foldl_update`: changing a function at each point of a list;
* `pushNew`: the loop that collects entries without repetitions.
-/

namespace CypheraKernel.Lists

open List

section KeepLess

variable {α κ : Type} [LinearOrder κ] (key : α → κ) (l : List α)

/-- Replace the best entry so far when the new one has a smaller key. -/
def keepLess (best a : α) : α := if key a < key best then a else best

theorem key_keepLess_le (best a : α) :
    key (keepLess key best a) ≤ key best ∧ key (keepLess key best a) ≤ key a := by
  unfold keepLess
  split_ifs with h
  · exact ⟨h.le, le_rfl⟩
  · exact ⟨le_rfl, not_lt.1 h⟩

/-- The result has the least key among the entries and the initial value. -/
theorem key_foldl_keepLess_le (b : α) :
    key (l.foldl (keepLess key) b) ≤ key b ∧ ∀ a ∈ l, key (l.foldl (keepLess key) b) ≤ key a := by
  induction l generalizing b with
  | nil => simp
  | cons a l ih =>
    obtain ⟨h1, h2⟩ := ih (keepLess key b a)
    obtain ⟨hb, ha⟩ := key_keepLess_le key b a
    refine ⟨h1.trans hb, fun c hc => ?_⟩
    rcases mem_cons.1 hc with rfl | hc
    · exact h1.trans ha
    · exact h2 c hc

/-- The result is the initial value or one of the entries. -/
theorem foldl_keepLess_mem (b : α) :
    l.foldl (keepLess key) b = b ∨ l.foldl (keepLess key) b ∈ l := by
  induction l generalizing b with
  | nil => simp
  | cons a l ih =>
    rw [foldl_cons]
    rcases ih (keepLess key b a) with h | h
    · rw [h]
      unfold keepLess
      split_ifs <;> simp
    · exact .inr (mem_cons_of_mem a h)

end KeepLess

/-- Searching the pieces of a list. -/
theorem findSome?_flatMap {α β γ : Type} (f : α → List β) (p : β → Option γ) (l : List α) :
    (l.flatMap f).findSome? p = l.findSome? fun x => (f x).findSome? p := by
  induction l with
  | nil => rfl
  | cons x l ih =>
    rw [flatMap_cons, findSome?_append, ih, findSome?_cons]
    cases (f x).findSome? p <;> rfl

/-- An entry of the right list has a partner in the left one. -/
theorem exists_of_forall₂_mem {α β : Type} {R : α → β → Prop} {as : List α} {bs : List β}
    (h : List.Forall₂ R as bs) {b : β} (hb : b ∈ bs) : ∃ a ∈ as, R a b := by
  induction h with
  | nil => simp at hb
  | cons hab _ ih =>
    rcases mem_cons.1 hb with rfl | hb
    · exact ⟨_, mem_cons_self, hab⟩
    · obtain ⟨a, ha, hr⟩ := ih hb
      exact ⟨a, mem_cons_of_mem _ ha, hr⟩

/-- A function is changed at the points of a list, one after the other and each of them once. -/
theorem foldl_update {α β : Type} [DecidableEq α] (f : β → β) {l : List α} (hl : l.Nodup)
    (h : α → β) (a : α) :
    l.foldl (fun h b => Function.update h b (f (h b))) h a = if a ∈ l then f (h a) else h a := by
  induction l generalizing h with
  | nil => simp
  | cons b l ih =>
    obtain ⟨hb, hl⟩ := nodup_cons.1 hl
    rw [foldl_cons, ih hl]
    by_cases hab : a = b
    · subst hab
      simp [hb]
    · simp [hab]

section PushNew

variable {α : Type} [DecidableEq α] {l : List α}

/-- Append an entry that is not there yet. -/
def pushNew (l : List α) (a : α) : List α := if a ∈ l then l else l ++ [a]

theorem mem_pushNew {a b : α} : a ∈ pushNew l b ↔ a ∈ l ∨ a = b := by
  unfold pushNew
  split_ifs with hb
  · constructor
    · exact .inl
    · rintro (h | rfl)
      · exact h
      · exact hb
  · simp

theorem mem_foldl_pushNew {acc : List α} {a : α} : a ∈ l.foldl pushNew acc ↔ a ∈ acc ∨ a ∈ l := by
  induction l generalizing acc with
  | nil => simp
  | cons b l ih => rw [foldl_cons, ih, mem_pushNew, mem_cons, or_assoc]

theorem nodup_pushNew (h : l.Nodup) (a : α) : (pushNew l a).Nodup := by
  unfold pushNew
  split_ifs with ha
  · exact h
  · exact nodup_append.2 ⟨h, nodup_singleton a, fun b hb c hc hbc => by simp_all⟩

theorem nodup_foldl_pushNew (l : List α) {acc : List α} (h : acc.Nodup) :
    (l.foldl pushNew acc).Nodup := by
  induction l generalizing acc with
  | nil => exact h
  | cons a l ih => exact ih (nodup_pushNew h a)

end PushNew

end CypheraKernel.Lists
