import Mathlib.Data.Option.Basic

/-!
# Runs of a machine

A machine takes steps, each of which may be impossible in a state.  A run is a list of steps.

`always_of_invariant`: an invariant of the steps that meet a condition holds along every run of
such steps.
-/

namespace CypheraKernel.Runs

variable {σ ε : Type} (step : σ → ε → Option σ)

/-- The steps of a run, one after the other. -/
def exec : List ε → σ → Option σ
  | [], s => some s
  | e :: es, s => (step s e).bind (exec es)

/-- The property holds in every state of the run. -/
def Always (P : σ → Prop) : List ε → σ → Prop
  | [], s => P s
  | e :: es, s => P s ∧ ∀ s' ∈ step s e, Always P es s'

/-- Every step of the run meets the condition in the state in which it is taken. -/
def Meets (C : σ → ε → Prop) : List ε → σ → Prop
  | [], _ => True
  | e :: es, s => C s e ∧ ∀ s' ∈ step s e, Meets C es s'

/-- The machine with a record of what is observed of its steps. -/
def logged {α : Type} (observe : σ → ε → Option α) (x : List α × σ) (e : ε) :
    Option (List α × σ) :=
  (step x.2 e).map fun s' => (x.1 ++ (observe x.2 e).toList, s')

instance decidableMeets (C : σ → ε → Prop) [∀ s e, Decidable (C s e)] :
    (es : List ε) → (s : σ) → Decidable (Meets step C es s)
  | [], _ => isTrue trivial
  | e :: es, s =>
    have := decidableMeets C es
    inferInstanceAs (Decidable (C s e ∧ ∀ s' ∈ step s e, Meets step C es s'))

variable {step} {I P : σ → Prop} {C : σ → ε → Prop} {es : List ε}

theorem meets_true (es : List ε) (s : σ) : Meets step (fun _ _ => True) es s := by
  induction es generalizing s with
  | nil => trivial
  | cons e es ih => exact ⟨trivial, fun s' _ => ih s'⟩

/-- **Invariants.**  What every step keeps that meets the condition holds along every run of such
steps. -/
theorem always_of_invariant (hstep : ∀ s e s', I s → C s e → step s e = some s' → I s')
    (hP : ∀ s, I s → P s) {s : σ} (hs : I s) (hes : Meets step C es s) : Always step P es s := by
  induction es generalizing s with
  | nil => exact hP s hs
  | cons e es ih =>
    obtain ⟨he, hrest⟩ := hes
    refine ⟨hP s hs, fun s' hs' => ?_⟩
    exact ih (hstep s e s' hs he hs') (hrest s' hs')

theorem Always.mono {Q : σ → Prop} (hPQ : ∀ s, P s → Q s) {s : σ}
    (h : Always step P es s) : Always step Q es s := by
  induction es generalizing s with
  | nil => exact hPQ s h
  | cons e es ih => exact ⟨hPQ s h.1, fun s' hs' => ih (h.2 s' hs')⟩

/-- What holds in every state of a run holds at its end. -/
theorem Always.exec {s s' : σ} (h : Always step P es s)
    (hs' : exec step es s = some s') : P s' := by
  induction es generalizing s with
  | nil =>
    cases hs'
    exact h
  | cons e es ih =>
    obtain ⟨s₁, hs₁, hs'⟩ := Option.bind_eq_some_iff.1 hs'
    exact ih (h.2 s₁ hs₁) hs'

end CypheraKernel.Runs
