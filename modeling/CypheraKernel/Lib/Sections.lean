import CypheraKernel.Lib.Runs
import Mathlib.Data.Nat.Notation
import Mathlib.Logic.Function.Basic

/-!
# Threads that take turns at a lock

Any number of threads work on one shared state.  What a thread does under the lock, a section, is
one step; between two sections of a thread the others may take theirs.  A section may put a token
into the shared state for its thread, or take it out again.

`Owned`: the tokens in the state are those of the threads, so that there is none when no thread
is at work (`Owned.no_token`); `Discipline.always`: this is so in every run of sections that find
the state clear.
-/

namespace CypheraKernel.Sections

open Function

/-- The sections that a thread can take. -/
structure Interface (σ τ : Type) where
  Act : Type
  Answer : Act → Type
  /-- What the section does; `none` if the whole machine stops. -/
  run : (a : Act) → σ → Option (Answer a × σ)
  /-- The token of the thread after the section. -/
  holds : Option τ → (a : Act) → Answer a → Option τ

variable {σ τ ρ κ : Type}

/-- What a thread has still to do: nothing, nothing any more, or a section and what follows it. -/
inductive Work (I : Interface σ τ) (ρ : Type) : Type
  | done (r : ρ)
  | stop
  | act (a : I.Act) (k : I.Answer a → Work I ρ)

def Work.isDone {I : Interface σ τ} : Work I ρ → Bool
  | done _ => true
  | _ => false

structure System (I : Interface σ τ) (ρ : Type) where
  shared : σ
  work : ℕ → Work I ρ
  /-- The token that a thread has in the shared state. -/
  held : ℕ → Option τ

/-- A thread begins a call, or takes its next section. -/
inductive Event (κ : Type)
  | call (i : ℕ) (c : κ)
  | go (i : ℕ)

variable {I : Interface σ τ}

/-- One step of the threads; `work` says what a call is. -/
def step (work : κ → Work I ρ) (s : System I ρ) : Event κ → Option (System I ρ)
  | .call i c =>
    match s.work i with
    | .done _ => some { s with work := update s.work i (work c) }
    | _ => none
  | .go i =>
    match s.work i with
    | .act a k =>
      match I.run a s.shared with
      | some (x, shared) => some ⟨shared, update s.work i (k x),
          update s.held i (I.holds (s.held i) a x)⟩
      | none => none
    | _ => none

/-- The thread that takes the step. -/
def Event.thread : Event κ → ℕ
  | call i _ => i
  | go i => i

variable {s s' : System I ρ} {work : κ → Work I ρ} {i : ℕ} {es : List (Event κ)} {e : Event κ}

/-- A step leaves the work of the other threads. -/
theorem step_work_of_ne (hi : e.thread ≠ i) (hs' : step work s e = some s') :
    s'.work i = s.work i := by
  cases e with
  | call j c =>
    rw [step] at hs'
    split at hs'
    · cases hs'
      exact update_of_ne hi.symm _ _
    · cases hs'
  | go j =>
    rw [step] at hs'
    split at hs'
    · split at hs'
      · cases hs'
        exact update_of_ne hi.symm _ _
      · cases hs'
    · cases hs'

theorem exec_work_of_ne (hi : ∀ e ∈ es, e.thread ≠ i)
    (hs' : Runs.exec (step work) es s = some s') : s'.work i = s.work i := by
  induction es generalizing s with
  | nil =>
    cases hs'
    rfl
  | cons e es ih =>
    obtain ⟨s₁, hs₁, hs'⟩ := Option.bind_eq_some_iff.1 hs'
    rw [ih (fun e he => hi e (List.mem_cons_of_mem _ he)) hs',
      step_work_of_ne (hi e List.mem_cons_self) hs₁]

/-- No call is in progress. -/
def System.Quiet (s : System I ρ) : Prop := ∀ i, (s.work i).isDone = true

/-- What a section does to the tokens: the one of the thread goes, unless it has it afterwards, and
a new one is not yet there. -/
structure Moves (Token Token' : τ → Prop) (held held' : Option τ) : Prop where
  iff : ∀ t, Token' t ↔ (Token t ∧ held ≠ some t) ∨ held' = some t
  new : ∀ t, held' = some t → held ≠ some t → ¬ Token t

structure Discipline (I : Interface σ τ) where
  Good : σ → Prop
  /-- The token is in the state. -/
  Token : σ → τ → Prop
  /-- The section is in its place in a thread with the given token. -/
  Fit : Option τ → I.Act → Prop
  /-- The section finds the state as it should be. -/
  Clear : σ → I.Act → Prop
  /-- What can be said of the answer. -/
  Possible : (a : I.Act) → I.Answer a → Prop
  sound : ∀ {s held a x s'}, Good s → (∀ t, held = some t → Token s t) → Fit held a →
    Clear s a → I.run a s = some (x, s') →
      Good s' ∧ Possible a x ∧ Moves (Token s) (Token s') held (I.holds held a x)

namespace Discipline

variable (D : Discipline I)

/-- Every section of the thread is in its place, and at the end there is no token. -/
def Proper : Option τ → Work I ρ → Prop
  | held, .done _ => held = none
  | _, .stop => True
  | held, .act a k => D.Fit held a ∧ ∀ x, D.Possible a x → Proper (I.holds held a x) (k x)

/-- The next section finds the state clear. -/
def Calm (s : System I ρ) : Event κ → Prop
  | .call _ _ => True
  | .go i =>
    match s.work i with
    | .act a _ => D.Clear s.shared a
    | _ => True

instance decidableCalm [∀ s a, Decidable (D.Clear s a)] (s : System I ρ) :
    (e : Event κ) → Decidable (D.Calm s e)
  | .call _ _ => isTrue trivial
  | .go i =>
    match h : s.work i with
    | .act a _ => decidable_of_iff (D.Clear s.shared a) (by rw [Calm, h])
    | .done _ => isTrue (by rw [Calm, h]; trivial)
    | .stop => isTrue (by rw [Calm, h]; trivial)

/-- The tokens in the state are those of the threads, each that of one thread. -/
structure Owned (s : System I ρ) : Prop where
  good : D.Good s.shared
  proper : ∀ i, D.Proper (s.held i) (s.work i)
  token_iff : ∀ t, D.Token s.shared t ↔ ∃ i, s.held i = some t
  unique : ∀ i j t, s.held i = some t → s.held j = some t → i = j

variable {D}

theorem Owned.call (h : D.Owned s) {w : Work I ρ} {r : ρ} (hi : s.work i = .done r)
    (hw : D.Proper none w) : D.Owned { s with work := update s.work i w } where
  good := h.good
  token_iff := h.token_iff
  unique := h.unique
  proper j := by
    by_cases hj : j = i
    · subst hj
      have hnone : s.held j = none := by
        have hproper := h.proper j
        rwa [hi] at hproper
      simpa only [update_self, hnone] using hw
    · simpa only [update_of_ne hj] using h.proper j

theorem Owned.go (h : D.Owned s) {a : I.Act} {k : I.Answer a → Work I ρ} {x : I.Answer a}
    {shared : σ} (hi : s.work i = .act a k) (hclear : D.Clear s.shared a)
    (hrun : I.run a s.shared = some (x, shared)) :
    D.Owned ⟨shared, update s.work i (k x), update s.held i (I.holds (s.held i) a x)⟩ := by
  obtain ⟨hfit, hk⟩ : D.Proper (s.held i) (.act a k) := hi ▸ h.proper i
  have hown : ∀ t, s.held i = some t → D.Token s.shared t := fun t ht => (h.token_iff t).2 ⟨i, ht⟩
  obtain ⟨hgood, hx, hmoves⟩ := D.sound h.good hown hfit hclear hrun
  -- another thread keeps its token, which is not the one of this thread
  have hother : ∀ j t, j ≠ i → s.held j = some t → I.holds (s.held i) a x ≠ some t := by
    intro j t hj ht hnew
    by_cases hold : s.held i = some t
    · exact hj (h.unique j i t ht hold)
    · exact hmoves.new t hnew hold ((h.token_iff t).2 ⟨j, ht⟩)
  refine ⟨hgood, fun j => ?_, fun t => ?_, fun j j' t hj hj' => ?_⟩
  · by_cases hj : j = i
    · grind
    · grind [h.proper]
  · rw [hmoves.iff, h.token_iff]
    constructor
    · rintro (⟨⟨j, hj⟩, hne⟩ | hnew)
      · refine ⟨j, ?_⟩
        grind
      · exact ⟨i, by simpa only [update_self] using hnew⟩
    · rintro ⟨j, hj⟩
      by_cases hji : j = i
      · grind
      · grind [h.unique]
  · by_cases hji : j = i
    · by_cases hji' : j' = i
      · rw [hji, hji']
      · grind
    · simp only [update_of_ne hji] at hj
      by_cases hji' : j' = i
      · grind
      · grind [h.unique]

theorem Owned.step (hwork : ∀ c, D.Proper none (work c)) (h : D.Owned s)
    (hcalm : D.Calm s e) (hs' : Sections.step work s e = some s') : D.Owned s' := by
  cases e with
  | call i c =>
    rw [Sections.step] at hs'
    cases hi : s.work i with
    | done r =>
      rw [hi] at hs'
      cases hs'
      exact h.call hi (hwork c)
    | stop | act =>
      rw [hi] at hs'
      cases hs'
  | go i =>
    rw [Sections.step] at hs'
    rw [Calm] at hcalm
    cases hi : s.work i with
    | done | stop =>
      rw [hi] at hs'
      cases hs'
    | act a k =>
      rw [hi] at hs' hcalm
      dsimp only at hs' hcalm
      cases hrun : I.run a s.shared with
      | none =>
        rw [hrun] at hs'
        cases hs'
      | some p =>
        rw [hrun] at hs'
        cases hs'
        exact h.go hi hcalm hrun

theorem Owned.no_token (h : D.Owned s) (hquiet : s.Quiet) (t : τ) : ¬ D.Token s.shared t := by
  rw [h.token_iff]
  rintro ⟨i, hi⟩
  have hproper := h.proper i
  have hdone := hquiet i
  cases hw : s.work i with
  | done r =>
    rw [hw] at hproper
    rw [Proper] at hproper
    rw [hproper] at hi
    cases hi
  | stop | act =>
    rw [hw] at hdone
    cases hdone

/-- **Interleavings.**  In every run in which the sections find the state clear, the state stays
good and its tokens are those of the threads, and so all that follows from this holds. -/
theorem always (hwork : ∀ c, D.Proper none (work c)) {P : System I ρ → Prop}
    (hP : ∀ s, D.Owned s → P s) (hs : D.Owned s)
    (hes : Runs.Meets (step work) D.Calm es s) : Runs.Always (step work) P es s :=
  Runs.always_of_invariant (fun _ _ _ h hcalm hstep => Owned.step hwork h hcalm hstep) hP hs hes

end Discipline

end CypheraKernel.Sections
