import Mathlib.Data.List.Sigma
import Mathlib.Order.Lattice

/-!
# Ordered maps

A finite map whose entries stand in the order of their keys, as a search tree hands them out.
-/

namespace CypheraKernel

open List

/-- A map kept as the list of its entries, the keys increasing. -/
structure SortedMap (κ ν : Type) [LinearOrder κ] where
  entries : List (κ × ν)
  sorted : entries.Pairwise fun a b => a.1 < b.1

namespace SortedMap

variable {κ ν : Type} [LinearOrder κ]

def empty : SortedMap κ ν := ⟨[], .nil⟩

def keys (m : SortedMap κ ν) : List κ := m.entries.map Prod.fst

def get? (m : SortedMap κ ν) (k : κ) : Option ν := (m.entries.find? fun e => e.1 = k).map Prod.snd

def isEmpty (m : SortedMap κ ν) : Bool := m.entries.isEmpty

/-- The entries with `k` set to `v`. -/
def insertEntry (k : κ) (v : ν) : List (κ × ν) → List (κ × ν)
  | [] => [(k, v)]
  | e :: l =>
    if k < e.1 then (k, v) :: e :: l
    else if e.1 = k then (k, v) :: l
    else e :: insertEntry k v l

variable {l : List (κ × ν)} {k : κ} {m : SortedMap κ ν} {v : ν} {e : κ × ν}

theorem mem_insertEntry (h : e ∈ insertEntry k v l) : e = (k, v) ∨ e ∈ l := by
  induction l with
  | nil => exact .inl (mem_singleton.1 h)
  | cons a l ih =>
    rw [insertEntry] at h
    split_ifs at h with hlt heq
    · exact mem_cons.1 h
    · grind
    · grind

theorem sorted_insertEntry (k : κ) (v : ν) (h : l.Pairwise fun a b => a.1 < b.1) :
    (insertEntry k v l).Pairwise fun a b => a.1 < b.1 := by
  induction l with
  | nil => exact pairwise_singleton _ _
  | cons a l ih =>
    obtain ⟨ha, hl⟩ := pairwise_cons.1 h
    rw [insertEntry]
    split_ifs with hlt heq
    · grind
    · subst heq
      exact pairwise_cons.2 ⟨ha, hl⟩
    · refine pairwise_cons.2 ⟨fun b hb => ?_, ih hl⟩
      rcases mem_insertEntry hb with rfl | hb
      · exact lt_of_le_of_ne (not_lt.1 hlt) heq
      · exact ha b hb

def insert (m : SortedMap κ ν) (k : κ) (v : ν) : SortedMap κ ν :=
  ⟨insertEntry k v m.entries, sorted_insertEntry k v m.sorted⟩

/-- The map without the key `k`. -/
def eraseKey (m : SortedMap κ ν) (k : κ) : SortedMap κ ν :=
  ⟨m.entries.filter fun e => e.1 ≠ k, m.sorted.filter _⟩

/-- `split_off(k)`: what stays, the entries below `k`. -/
def takeBelow (m : SortedMap κ ν) (k : κ) : SortedMap κ ν :=
  ⟨m.entries.filter fun e => e.1 < k, m.sorted.filter _⟩

/-- `split_off(k)`: what is handed out, the entries from `k` on. -/
def dropBelow (m : SortedMap κ ν) (k : κ) : SortedMap κ ν :=
  ⟨m.entries.filter fun e => k ≤ e.1, m.sorted.filter _⟩

/-- The first entry and the rest. -/
def popFirst (m : SortedMap κ ν) : Option ((κ × ν) × SortedMap κ ν) :=
  match m with
  | ⟨[], _⟩ => none
  | ⟨e :: l, h⟩ => some (e, ⟨l, (List.pairwise_cons.1 h).2⟩)

section

variable (m) {k j : κ}

theorem nodup_keys : m.keys.Nodup :=
  pairwise_map.2 (m.sorted.imp ne_of_lt)

/-! ### Looking up -/

theorem find?_insertEntry_self (k : κ) (v : ν) (l : List (κ × ν)) :
    (insertEntry k v l).find? (fun e => e.1 = k) = some (k, v) := by
  induction l with
  | nil => simp [insertEntry]
  | cons a l ih =>
    rw [insertEntry]
    split_ifs with hlt heq
    · simp
    · simp
    · rw [find?_cons_of_neg (by simpa using heq), ih]

theorem find?_insertEntry_of_ne (hj : j ≠ k) (v : ν) (l : List (κ × ν)) :
    (insertEntry k v l).find? (fun e => e.1 = j) = l.find? fun e => e.1 = j := by
  induction l with
  | nil => simp [insertEntry, hj.symm]
  | cons a l ih =>
    rw [insertEntry]
    split_ifs with hlt heq
    · rw [find?_cons_of_neg (by simpa using hj.symm)]
    · grind
    · rw [find?_cons, find?_cons, ih]

@[simp] theorem get?_insert_self (k : κ) (v : ν) : (m.insert k v).get? k = some v := by
  rw [get?, insert, find?_insertEntry_self]
  rfl

theorem get?_insert_of_ne (hj : j ≠ k) (v : ν) : (m.insert k v).get? j = m.get? j := by
  rw [get?, insert, find?_insertEntry_of_ne hj]
  rfl

@[simp] theorem get?_eraseKey_self (k : κ) : (m.eraseKey k).get? k = none := by
  simp [get?, eraseKey, find?_filter]

theorem get?_eraseKey_of_ne (hj : j ≠ k) : (m.eraseKey k).get? j = m.get? j := by
  rw [get?, eraseKey, find?_filter, get?]
  congr 2
  funext e
  by_cases he : e.1 = j
  · simp [he, hj]
  · simp [he]

end

theorem mem_entries_of_get? (h : m.get? k = some v) : (k, v) ∈ m.entries := by
  obtain ⟨e, he, rfl⟩ := Option.map_eq_some_iff.1 h
  have hk : e.1 = k := by simpa using find?_some he
  rw [← hk]
  exact mem_of_find?_eq_some he

theorem get?_of_mem_entries (h : (k, v) ∈ m.entries) : m.get? k = some v := by
  have hsome : (m.entries.find? fun e => e.1 = k).isSome := find?_isSome.2 ⟨(k, v), h, by simp⟩
  obtain ⟨e, he⟩ := Option.isSome_iff_exists.1 hsome
  have hk : e.1 = k := by simpa using find?_some he
  have heq : e = (k, v) := inj_on_of_nodup_map m.nodup_keys (mem_of_find?_eq_some he) h hk
  rw [get?, he, heq]
  rfl

/-! ### The keys -/

theorem perm_keys_insertEntry (v : ν)
    (hk : k ∉ l.map Prod.fst) : ((insertEntry k v l).map Prod.fst).Perm (k :: l.map Prod.fst) := by
  induction l with
  | nil => exact .refl _
  | cons a l ih =>
    obtain ⟨ha, hl⟩ := not_or.1 (mt mem_cons.2 hk)
    rw [insertEntry]
    split_ifs with hlt heq
    · exact .refl _
    · exact absurd heq.symm ha
    · exact ((ih hl).cons a.1).trans (.swap k a.1 _)

theorem perm_keys_insert (v : ν) (hk : k ∉ m.keys) :
    (m.insert k v).keys.Perm (k :: m.keys) := perm_keys_insertEntry v hk

theorem keys_eraseKey (m : SortedMap κ ν) (k : κ) :
    (m.eraseKey k).keys = m.keys.filter fun j => j ≠ k := by
  rw [keys, eraseKey, keys, filter_map]
  rfl

theorem keys_popFirst {rest : SortedMap κ ν} (h : m.popFirst = some (e, rest)) :
    m.keys = e.1 :: rest.keys := by
  obtain ⟨entries, hs⟩ := m
  cases entries with
  | nil => cases h
  | cons a l =>
    cases h
    rfl

end SortedMap

end CypheraKernel
