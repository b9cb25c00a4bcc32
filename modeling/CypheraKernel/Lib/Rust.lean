import Mathlib.Data.UInt
import Mathlib.Tactic

/-!
# Rust arithmetic and indexing

Compiled with overflow checks, an integer operation of Rust either has a value or stops the
program.  A computation that can stop is an `Except Panic`; the constructors of `Panic` say which
check failed.  Machine words that no operation wraps are natural numbers, and `usizeAdd` and its
relatives are the checked operations on them.

`Returns x P`: the computation `x` does not stop and its result satisfies `P`, with the rule for
sequences.
-/

namespace CypheraKernel.Rust

open List

/-- The checks whose failure stops the program. -/
inductive Panic
  | addOverflow
  | subOverflow
  | mulOverflow
  | indexOutOfBounds
  | assertFailed
  deriving DecidableEq, Repr

/-- The number of values of a 64-bit word. -/
def usizeBound : ℕ := 2 ^ 64

/-- `a + b` on 64-bit words. -/
def usizeAdd (a b : ℕ) : Except Panic ℕ :=
  if a + b < usizeBound then .ok (a + b) else .error .addOverflow

/-- `a - b` on 64-bit words. -/
def usizeSub (a b : ℕ) : Except Panic ℕ := if b ≤ a then .ok (a - b) else .error .subOverflow

/-- `a * b` on 64-bit words. -/
def usizeMul (a b : ℕ) : Except Panic ℕ :=
  if a * b < usizeBound then .ok (a * b) else .error .mulOverflow

/-- `a + b` on signed 64-bit words. -/
def i64Add (a b : ℤ) : Except Panic ℤ :=
  if -2 ^ 63 ≤ a + b ∧ a + b < 2 ^ 63 then .ok (a + b) else .error .addOverflow

/-- `a.saturating_add(b)` on 64-bit words. -/
def saturatingAddU64 (a b : ℕ) : ℕ := min (a + b) (usizeBound - 1)

/-- `a.saturating_mul(b)` on 64-bit words. -/
def saturatingMulU64 (a b : ℕ) : ℕ := min (a * b) (usizeBound - 1)

/-- `l[i]`. -/
def index {α : Type*} (l : List α) (i : ℕ) : Except Panic α :=
  match l[i]? with
  | some x => .ok x
  | none => .error .indexOutOfBounds

/-- `&l[lo..hi]`. -/
def slice {α : Type*} (l : List α) (lo hi : ℕ) : Except Panic (List α) :=
  if lo ≤ hi ∧ hi ≤ l.length then .ok ((l.take hi).drop lo) else .error .indexOutOfBounds

/-- `assert!(p)`. -/
def assert (p : Prop) [Decidable p] : Except Panic Unit :=
  if p then .ok () else .error .assertFailed

variable {a b : ℕ} {α : Type*} {l : List α}

theorem usizeAdd_eq (h : a + b < usizeBound) : usizeAdd a b = .ok (a + b) := if_pos h

theorem usizeAdd_eq_ok {c : ℕ} (h : usizeAdd a b = .ok c) : c = a + b := by
  unfold usizeAdd at h
  split_ifs at h
  exact (Except.ok.inj h).symm

theorem index_eq {i : ℕ} (h : i < l.length) : index l i = .ok l[i] := by
  simp [index, h]

theorem index_eq_ok {i : ℕ} {x : α} (h : index l i = .ok x) : l[i]? = some x := by
  unfold index at h
  split at h <;> cases h
  assumption

@[simp] theorem index_cons_zero (x : α) (l : List α) : index (x :: l) 0 = .ok x := by
  simp [index]

@[simp] theorem index_cons_succ (x : α) (l : List α) (i : ℕ) :
    index (x :: l) (i + 1) = index l i := by
  simp [index]

theorem index_add (l : List α) (k i : ℕ) : index l (k + i) = index (l.drop k) i := by
  simp [index]

@[simp] theorem ok_bind {ε α β : Type} (a : α) (f : α → Except ε β) :
    (Except.ok a >>= f) = f a := rfl

@[simp] theorem pure_eq_ok {ε α : Type} (a : α) : (pure a : Except ε α) = .ok a := by
  simp [pure, Except.pure]

/-- A sequence of checked operations succeeds when both halves do. -/
theorem bind_eq_ok {ε α β : Type} {x : Except ε α} {f : α → Except ε β} {r : β} :
    (x >>= f) = .ok r ↔ ∃ a, x = .ok a ∧ f a = .ok r := by
  cases x with
  | error | ok => simp [bind, Except.bind]

/-- The reason why a computation has failed. -/
def error? {ε α : Type} : Except ε α → Option ε
  | .error e => some e
  | .ok _ => none

theorem eq_error {ε α : Type} {x : Except ε α} {e : ε} (h : error? x = some e) : x = .error e := by
  cases x with
  | error e' => rw [Option.some.inj h]
  | ok a => cases h

/-- A computation that has been evaluated as far as `f`. -/
theorem exists_ok {ε α β : Type} {x : Except ε α} {f : α → β} {b : β}
    (h : x.toOption.map f = some b) : ∃ a, x = .ok a ∧ f a = b := by
  cases x with
  | error e => cases h
  | ok a => exact ⟨a, rfl, Option.some.inj h⟩

/-- A loop of checked operations that all succeed. -/
theorem mapM_eq_ok {ε α β : Type} {f : α → Except ε β} {g : α → β} {l : List α}
    (h : ∀ x ∈ l, f x = .ok (g x)) : l.mapM f = .ok (l.map g) := by
  induction l with
  | nil => rfl
  | cons x l ih =>
    rw [mapM_cons, h x mem_cons_self, ih fun y hy => h y (mem_cons_of_mem x hy)]
    rfl

/-- In a loop that succeeds every operation does. -/
theorem exists_of_mapM_eq_ok {ε α β : Type} {f : α → Except ε β} {l : List α} {r : List β}
    (h : l.mapM f = .ok r) {x : α} (hx : x ∈ l) : ∃ y, f x = .ok y := by
  induction l generalizing r with
  | nil => cases hx
  | cons y l ih =>
    rw [mapM_cons] at h
    obtain ⟨a, ha, h⟩ := bind_eq_ok.1 h
    obtain ⟨b, hb, -⟩ := bind_eq_ok.1 h
    rcases mem_cons.1 hx with rfl | hx
    · exact ⟨a, ha⟩
    · exact ih hb hx

/-! ### Computations that return -/

/-- The computation does not stop, and its result satisfies `P`. -/
def Returns {ε α : Type} (x : Except ε α) (P : α → Prop) : Prop := ∃ a, x = .ok a ∧ P a

section Returns

variable {ε α β : Type} {x : Except ε α} {P Q : α → Prop}

theorem Returns.ok {a : α} (h : P a) : Returns (.ok a : Except ε α) P := ⟨a, rfl, h⟩

theorem Returns.mono (h : Returns x P) (hPQ : ∀ a, P a → Q a) : Returns x Q := by
  obtain ⟨a, ha, hP⟩ := h
  exact ⟨a, ha, hPQ a hP⟩

/-- A sequence returns when its first part does, and its second part does on every result of it. -/
theorem Returns.bind {f : α → Except ε β} {R : β → Prop} (h : Returns x P)
    (hf : ∀ a, P a → Returns (f a) R) : Returns (x >>= f) R := by
  obtain ⟨a, rfl, hP⟩ := h
  exact hf a hP

/-- A sequence whose second part always returns does so when its first part does. -/
theorem returns_bind_iff {f : α → Except ε β} {R : β → Prop} {c : Prop}
    (hx : ∀ P : α → Prop, (∀ a, Q a → P a) → (Returns x P ↔ c))
    (hf : ∀ a, Q a → Returns (f a) R) : Returns (x >>= f) R ↔ c := by
  refine ⟨?_, fun hc => ((hx Q fun _ h => h).2 hc).bind hf⟩
  rintro ⟨r, hr, -⟩
  obtain ⟨a, ha, -⟩ := bind_eq_ok.1 hr
  exact (hx (fun _ => True) fun _ _ => trivial).1 ⟨a, ha, trivial⟩

theorem not_returns_error {e : ε} : ¬ Returns (.error e : Except ε α) P := by
  rintro ⟨a, ha, -⟩
  cases ha

end Returns

theorem returns_usizeAdd (h : a + b < usizeBound) :
    Returns (usizeAdd a b) (· = a + b) := ⟨a + b, usizeAdd_eq h, rfl⟩

theorem returns_usizeSub (h : b ≤ a) : Returns (usizeSub a b) (· = a - b) :=
  ⟨a - b, if_pos h, rfl⟩

theorem returns_usizeMul (h : a * b < usizeBound) :
    Returns (usizeMul a b) (· = a * b) := ⟨a * b, if_pos h, rfl⟩

theorem returns_slice {α : Type} {l : List α} {lo hi : ℕ} (hlo : lo ≤ hi) (hhi : hi ≤ l.length) :
    Returns (slice l lo hi) fun part => part.length = hi - lo := by
  refine ⟨(l.take hi).drop lo, if_pos ⟨hlo, hhi⟩, ?_⟩
  show ((l.take hi).drop lo).length = hi - lo
  rw [length_drop, length_take, Nat.min_eq_left hhi]

theorem returns_assert {p : Prop} [Decidable p] (h : p) : Returns (assert p) fun _ => True :=
  ⟨(), if_pos h, trivial⟩

/-- The number denoted by a byte string, least significant byte first. -/
def leNat : List UInt8 → ℕ
  | [] => 0
  | b :: bs => b.toNat + 256 * leNat bs

/-- `u32::checked_add`. -/
def checkedAdd (a b : UInt32) : Option UInt32 :=
  if a.toNat + b.toNat < 2 ^ 32 then some (a + b) else none

/-- `u32::checked_sub`. -/
def checkedSub (a b : UInt32) : Option UInt32 := if b ≤ a then some (a - b) else none

/-- The `n` low bytes of a number, least significant byte first. -/
def leBytes : ℕ → ℕ → List UInt8
  | 0, _ => []
  | n + 1, v => .ofNat v :: leBytes n (v / 256)

theorem leNat_lt (bs : List UInt8) : leNat bs < 256 ^ bs.length := by
  induction bs with
  | nil => simp [leNat]
  | cons b bs ih =>
    have hb : b.toNat < 256 := b.toNat_lt
    rw [leNat, length_cons, pow_succ]
    omega

/-- A mask of the high bits rounds down. -/
theorem and_high_bits {x j k : ℕ} (h : x < 2 ^ (j + k)) :
    x &&& (2 ^ j - 1) * 2 ^ k = x / 2 ^ k * 2 ^ k := by
  apply Nat.eq_of_testBit_eq
  intro i
  rw [Nat.testBit_and, Nat.testBit_mul_two_pow, Nat.testBit_mul_two_pow,
    Nat.testBit_two_pow_sub_one, Nat.testBit_div_two_pow]
  by_cases hk : k ≤ i
  · by_cases hj : i < j + k
    · have hlt : i - k < j := by omega
      simp [hk, hlt, Nat.sub_add_cancel hk]
    · have hbit : x.testBit i = false :=
        Nat.testBit_lt_two_pow (h.trans_le (Nat.pow_le_pow_right (by decide) (by omega)))
      simp [hk, hbit, Nat.sub_add_cancel hk]
  · simp [hk]

/-- A mask applies to both sides of a union of bits. -/
theorem or_and_mask (x y m : UInt64) : (x ||| y) &&& m = x &&& m ||| y &&& m := by
  apply UInt64.toBitVec_inj.1
  exact BitVec.and_or_distrib_right

end CypheraKernel.Rust
