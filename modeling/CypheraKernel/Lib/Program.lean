import Mathlib.Tactic

/-!
# Programs on a state that can stop

A program reads and changes a state, and either returns a value or stops for a reason; both outcomes
carry the state reached.  This is the monad `EStateM ε σ` of the core library.

* `wp_pure`, `wp_bind`, …: the rules for the constructs of a program, as rewrite rules, with the
  rule of consequence `wp.mono`;
* `not_wp`: a program does one thing only, so what it fails to satisfy it refutes.
-/

namespace CypheraKernel.Program

variable {σ ε α β : Type}

/-- Run from `s`, the program returns with `Q` or stops with `E`. -/
def wp (x : EStateM ε σ α) (Q : α → σ → Prop) (E : ε → σ → Prop) (s : σ) : Prop :=
  match x.run s with
  | .ok a s' => Q a s'
  | .error e s' => E e s'

variable {Q Q' : α → σ → Prop} {E E' : ε → σ → Prop} {s : σ} {a : α}

@[simp] theorem wp_pure (a : α) : wp (pure a) Q E s ↔ Q a s := Iff.rfl

@[simp] theorem wp_throw (e : ε) : wp (throw e : EStateM ε σ α) Q E s ↔ E e s := Iff.rfl

@[simp] theorem wp_get {Q : σ → σ → Prop} : wp (get : EStateM ε σ σ) Q E s ↔ Q s s := Iff.rfl

@[simp] theorem wp_set {Q : PUnit → σ → Prop} (s' : σ) :
    wp (set s' : EStateM ε σ PUnit) Q E s ↔ Q ⟨⟩ s' := Iff.rfl

@[simp] theorem wp_modify {Q : PUnit → σ → Prop} (f : σ → σ) :
    wp (modify f : EStateM ε σ PUnit) Q E s ↔ Q ⟨⟩ (f s) := Iff.rfl

@[simp] theorem wp_bind (x : EStateM ε σ α) (f : α → EStateM ε σ β) {Q : β → σ → Prop} :
    wp (x >>= f) Q E s ↔ wp x (fun a => wp (f a) Q E) E s := by
  show (match (EStateM.bind x f) s with
    | .ok a s' => Q a s'
    | .error e s' => E e s') ↔ (match x s with
    | .ok a s' => wp (f a) Q E s'
    | .error e s' => E e s')
  unfold EStateM.bind
  cases x s <;> exact Iff.rfl

theorem wp.pure (h : Q a s) : wp (pure a) Q E s := h

variable {x : EStateM ε σ α}

/-- The rule of the conditional. -/
theorem wp.ite {c : Prop} {_ : Decidable c} {y : EStateM ε σ α} (hx : c → wp x Q E s)
    (hy : ¬ c → wp y Q E s) : wp (if c then x else y) Q E s := by
  split_ifs with h
  · exact hx h
  · exact hy h

/-- The rule of a test that ends the program. -/
theorem wp.guard {c : Prop} {_ : Decidable c} (ha : Q a s) (hx : ¬ c → wp x Q E s) :
    wp (if c then Pure.pure a else x) Q E s := wp.ite (fun _ => wp.pure ha) hx

/-- The rule of consequence. -/
theorem wp.mono (h : wp x Q E s) (hQ : ∀ a s', Q a s' → Q' a s') (hE : ∀ e s', E e s' → E' e s') :
    wp x Q' E' s := by
  unfold wp at h ⊢
  cases hx : x.run s with
  | ok a s' => exact hQ a s' (by rwa [hx] at h)
  | error e s' => exact hE e s' (by rwa [hx] at h)

/-- The rule of consequence for the value returned. -/
theorem wp.post (h : wp x Q E s) (hQ : ∀ a s', Q a s' → Q' a s') :
    wp x Q' E s := h.mono hQ fun _ _ he => he

/-- What a program does not satisfy it refutes. -/
theorem not_wp : ¬ wp x Q E s ↔ wp x (fun a s' => ¬ Q a s') (fun e s' => ¬ E e s') s := by
  unfold wp
  cases x.run s <;> exact Iff.rfl

-- from here on programs are taken apart by the rules only, never by evaluation
attribute [irreducible] wp

/-! ### Loops -/

/-- The turns `i, i + 1, …, i + n - 1` of a loop. -/
def forFrom (body : ℕ → EStateM ε σ PUnit) : ℕ → ℕ → EStateM ε σ PUnit
  | _, 0 => pure ⟨⟩
  | i, n + 1 => do
    body i
    forFrom body (i + 1) n

variable (I : ℕ → σ → Prop) {body : ℕ → EStateM ε σ PUnit} {i n j : ℕ} {l : List α}

/-- An invariant that every turn carries on holds at the end. -/
theorem wp_forFrom
    (hbody : ∀ j, i ≤ j → j < i + n → ∀ s, I j s → wp (body j) (fun _ => I (j + 1)) E s)
    (hs : I i s) : wp (forFrom body i n) (fun _ => I (i + n)) E s := by
  induction n generalizing i s with
  | zero => exact wp.pure hs
  | succ n ih =>
    rw [forFrom, wp_bind]
    refine (hbody i le_rfl (by omega) s hs).post fun _ s' hs' => ?_
    rw [show i + (n + 1) = i + 1 + n by omega]
    exact ih (fun j hj hj' => hbody j (by omega) (by omega)) hs'

/-- A loop whose turns keep `I` up to the turn `j`, which stops. -/
theorem wp_forFrom_stop {Q : PUnit → σ → Prop} (hij : i ≤ j) (hj : j < i + n)
    (hbody : ∀ k, i ≤ k → k < j → ∀ s, I k s → wp (body k) (fun _ => I (k + 1)) E s)
    (hstop : ∀ s, I j s → wp (body j) (fun _ _ => False) E s) (hs : I i s) :
    wp (forFrom body i n) Q E s := by
  refine (wp_forFrom (fun k s => k ≤ j ∧ I k s) (fun k hk _ s ⟨hkj, hs⟩ => ?_) ⟨hij, hs⟩).post
    fun _ _ h => absurd h.1 (by omega)
  rcases hkj.eq_or_lt with rfl | hlt
  · exact (hstop s hs).post fun _ _ h => h.elim
  · exact (hbody k hk hlt s hs).post fun _ _ hs' => ⟨hlt, hs'⟩

/-- The number of turns `i, i + 1, …`, at most `n`, before one answers `false`. -/
def countWhile (body : ℕ → EStateM ε σ Bool) : ℕ → ℕ → EStateM ε σ ℕ
  | _, 0 => pure 0
  | i, n + 1 => do
    if ← body i then
      return (← countWhile body (i + 1) n) + 1
    else
      return 0

/-- An invariant that every turn carries on when it answers `true`, and that gives the end
condition `D` when it answers `false`. -/
theorem wp_countWhile {body : ℕ → EStateM ε σ Bool} (D : ℕ → σ → Prop)
    (hbody : ∀ j, i ≤ j → j < i + n → ∀ s, I j s →
      wp (body j) (fun b s' => if b then I (j + 1) s' else D j s') E s) (hs : I i s) :
    wp (countWhile body i n) (fun k s' => k = n ∧ I (i + n) s' ∨ k < n ∧ D (i + k) s') E s := by
  induction n generalizing i s with
  | zero => exact wp.pure (.inl ⟨rfl, hs⟩)
  | succ n ih =>
    rw [countWhile, wp_bind]
    refine (hbody i le_rfl (by omega) s hs).post fun b s' hb => ?_
    cases b with
    | false => exact wp.pure (.inr ⟨by omega, hb⟩)
    | true =>
      rw [if_pos rfl, wp_bind]
      refine (ih (fun j hj hj' => hbody j (by omega) (by omega)) hb).post fun k s'' hk => ?_
      rw [wp_pure]
      rcases hk with ⟨rfl, hI⟩ | ⟨hlt, hD⟩
      · exact .inl ⟨rfl, by rwa [show i + (k + 1) = i + 1 + k by omega]⟩
      · exact .inr ⟨by omega, by rwa [show i + (k + 1) = i + 1 + k by omega]⟩

/-- A counting loop whose turns answer `true` up to the turn `j`, which stops. -/
theorem wp_countWhile_stop {body : ℕ → EStateM ε σ Bool} {Q : ℕ → σ → Prop}
    (hij : i ≤ j) (hj : j < i + n)
    (hbody : ∀ k, i ≤ k → k < j → ∀ s, I k s →
      wp (body k) (fun b s' => b = true ∧ I (k + 1) s') E s)
    (hstop : ∀ s, I j s → wp (body j) (fun _ _ => False) E s) (hs : I i s) :
    wp (countWhile body i n) Q E s := by
  induction n generalizing i s Q with
  | zero => omega
  | succ n ih =>
    rw [countWhile, wp_bind]
    rcases hij.eq_or_lt with rfl | hlt
    · exact (hstop s hs).post fun _ _ h => h.elim
    · refine (hbody i le_rfl hlt s hs).post fun b s' ⟨hb, hs'⟩ => ?_
      rw [if_pos hb, wp_bind]
      exact ih (by omega) (by omega) (fun k hk hk' => hbody k (by omega) hk') hs'

/-- The turns for the elements of a list. -/
def forEach (body : α → EStateM ε σ PUnit) : List α → EStateM ε σ PUnit
  | [] => pure ⟨⟩
  | a :: l => do
    body a
    forEach body l

theorem wp_forEach {body : α → EStateM ε σ PUnit} (I : σ → Prop)
    (hbody : ∀ a ∈ l, ∀ s, I s → wp (body a) (fun _ => I) E s) (hs : I s) :
    wp (forEach body l) (fun _ => I) E s := by
  induction l generalizing s with
  | nil => exact wp.pure hs
  | cons a l ih =>
    rw [forEach, wp_bind]
    refine (hbody a List.mem_cons_self s hs).post fun _ s' hs' => ?_
    exact ih (fun b hb => hbody b (List.mem_cons_of_mem a hb)) hs'

/-- A loop over a list with an element whose turn always stops, when no turn stops otherwise. -/
theorem wp_forEach_stop {body : α → EStateM ε σ PUnit} {Q : PUnit → σ → Prop}
    (hbody : ∀ a ∈ l, ∀ s, wp (body a) (fun _ _ => True) E s) (ha : a ∈ l)
    (hstop : ∀ s, wp (body a) (fun _ _ => False) E s) : wp (forEach body l) Q E s := by
  induction l generalizing s with
  | nil => cases ha
  | cons b l ih =>
    rw [forEach, wp_bind]
    rcases List.mem_cons.1 ha with rfl | ha
    · exact (hstop s).post fun _ _ h => h.elim
    · exact (hbody b List.mem_cons_self s).post fun _ s' _ =>
        ih (fun c hc => hbody c (List.mem_cons_of_mem b hc)) ha

end CypheraKernel.Program
