import CypheraKernel.Lib.Runs
import Mathlib.Tactic

/-!
# Pid namespaces

`PidNamespace` of `kernel/src/process_model/namespaces.rs`: a process has a number in its own
namespace and in all namespaces above it.  The numbers of a namespace count up and begin anew after
`2 ^ 32` of them, whether the first are still in use or not.

`pids_translate`: what the maps say after every sequence of creations and reaps.
-/

namespace CypheraKernel.PidNamespace

open Function

/-- A namespace is known by the way to it: the host is `[]`, and the parent of `k :: ns` is `ns`. -/
abbrev Ns := List ℕ

/-- The maps of a namespace; `given` lists the numbers that were handed out. -/
structure Maps where
  localToHost : UInt32 → Option ℕ
  hostToLocal : ℕ → Option UInt32
  nextLocal : UInt32
  given : List UInt32

/-! ### One namespace -/

namespace Maps

def empty : Maps := ⟨fun _ => none, fun _ => none, 1, []⟩

def assign (m : Maps) (pid : ℕ) : Maps :=
  match m.hostToLocal pid with
  | some _ => m
  | none =>
    { localToHost := update m.localToHost m.nextLocal (some pid)
      hostToLocal := update m.hostToLocal pid (some m.nextLocal)
      nextLocal := m.nextLocal + 1
      given := m.given ++ [m.nextLocal] }

/-- One round of the loop of `drop_chain`. -/
def remove (m : Maps) (pid : ℕ) : Maps :=
  match m.hostToLocal pid with
  | some l =>
    { m with
      hostToLocal := update m.hostToLocal pid none
      localToHost := update m.localToHost l none }
  | none => m

/-- The two maps are inverse to each other. -/
def Inverse (m : Maps) : Prop := ∀ l pid, m.localToHost l = some pid ↔ m.hostToLocal pid = some l

/-- What holds as long as the numbers have not begun anew. -/
structure Counted (m : Maps) : Prop where
  inverse : m.Inverse
  nodup : m.given.Nodup
  le : ∀ l ∈ m.given, l.toNat ≤ m.given.length
  used : ∀ l pid, m.localToHost l = some pid → l ∈ m.given

/-- The processes of `P` have numbers. -/
structure Kept (m : Maps) (P : ℕ → Prop) : Prop where
  numbered : ∀ pid, (m.hostToLocal pid).isSome ↔ P pid
  next : m.nextLocal.toNat = (m.given.length + 1) % 2 ^ 32
  counted : m.given.length < 2 ^ 32 → m.Counted

variable {m : Maps} {P : ℕ → Prop} {pid : ℕ}

theorem Counted.assign (h : m.Counted) (hpid : m.hostToLocal pid = none)
    (hnext : m.nextLocal.toNat = m.given.length + 1) : (m.assign pid).Counted := by
  have hnew : m.nextLocal ∉ m.given := fun hmem => by
    have := h.le _ hmem
    omega
  rw [Maps.assign, hpid]
  refine ⟨fun l q => ?_, ?_, fun l hl => ?_, fun l q hl => ?_⟩ <;> dsimp only at *
  · -- the number was free, so the entry replaces none
    have hfree := mt (h.used m.nextLocal q) hnew
    have hl := h.inverse l q
    grind
  · exact List.nodup_append.2 ⟨h.nodup, List.nodup_singleton _, by grind⟩
  · have := h.le l
    grind
  · have := h.used l q
    grind

theorem Counted.remove (h : m.Counted) : (m.remove pid).Counted := by
  unfold Maps.remove
  split
  · rename_i k hk
    refine { h with inverse := fun l q => ?_, used := fun l q hl => h.used l q ?_ }
    · have hl := h.inverse l q
      have hpid := (h.inverse k pid).2 hk
      grind
    · grind
  · exact h

theorem Kept.assign (h : m.Kept P) (hpid : ¬ P pid) :
    (m.assign pid).Kept fun q => P q ∨ q = pid := by
  have hnone : m.hostToLocal pid = none := by simpa [hpid] using h.numbered pid
  refine ⟨fun q => ?_, ?_, fun hlt => ?_⟩
  · rw [← h.numbered, Maps.assign, hnone]
    grind
  · rw [Maps.assign, hnone]
    rw [UInt32.toNat_add, h.next, List.length_append]
    simp
  have hlen : (m.assign pid).given.length = m.given.length + 1 := by simp [Maps.assign, hnone]
  have hnext := h.next
  rw [hlen] at hlt
  rw [Nat.mod_eq_of_lt hlt] at hnext
  exact (h.counted (by omega)).assign hnone hnext

theorem Kept.remove (h : m.Kept P) (pid : ℕ) : (m.remove pid).Kept fun q => P q ∧ q ≠ pid := by
  refine ⟨fun q => ?_, ?_, fun hlt => Counted.remove (h.counted ?_)⟩
  · have hq := h.numbered q
    unfold Maps.remove
    split <;> grind
  · have hnext := h.next
    unfold Maps.remove
    split <;> exact hnext
  · unfold Maps.remove at hlt
    split at hlt <;> exact hlt

end Maps

/-! ### All namespaces -/

/-- `f` at a namespace and at all namespaces above it, as in the loops of `assign_chain` and
`drop_chain`. -/
def alongChain (f : Maps → Maps) : Ns → (Ns → Maps) → Ns → Maps
  | [], maps => update maps [] (f (maps []))
  | k :: parent, maps => alongChain f parent (update maps (k :: parent) (f (maps (k :: parent))))

theorem alongChain_apply (f : Maps → Maps) (ns : Ns) (maps : Ns → Maps) (n : Ns) :
    alongChain f ns maps n = if n <:+ ns then f (maps n) else maps n := by
  induction ns generalizing maps with
  | nil => rcases eq_or_ne n [] with rfl | hn <;> simp [alongChain, *]
  | cons k parent ih =>
    rw [alongChain, ih]
    by_cases hn : n = k :: parent
    · subst hn
      have hlong : ¬ k :: parent <:+ parent := fun h => by simpa using h.length_le
      simp [hlong]
    · simp [hn, List.suffix_cons_iff]

/-- The namespaces, and the processes of the table with their own. -/
structure State where
  maps : Ns → Maps
  processes : ℕ → Option Ns

def init : State := ⟨fun _ => .empty, fun _ => none⟩

/-- A process is created or reaped. -/
inductive Step
  | create (pid : ℕ) (ns : Ns)
  | reap (pid : ℕ)

/-- A new process has a pid that no process has; one that is reaped is in the table. -/
def step (s : State) : Step → Option State
  | .create pid ns =>
    if s.processes pid = none then
      some ⟨alongChain (·.assign pid) ns s.maps, update s.processes pid (some ns)⟩
    else none
  | .reap pid => (s.processes pid).map fun ns =>
      ⟨alongChain (·.remove pid) ns s.maps, update s.processes pid none⟩

/-- The processes of a namespace: their own is the namespace or below it. -/
def State.Below (s : State) (ns : Ns) (pid : ℕ) : Prop := ∃ own ∈ s.processes pid, ns <:+ own

def Inv (s : State) : Prop := ∀ ns, (s.maps ns).Kept (s.Below ns)

theorem Inv.step {s s' : State} {e : Step} (h : Inv s) (hs : step s e = some s') : Inv s' := by
  intro n
  cases e with
  | create pid ns =>
    simp only [PidNamespace.step] at hs
    split_ifs at hs with hpid
    cases hs
    dsimp only
    rw [alongChain_apply]
    split_ifs with hn
    · convert (h n).assign (by simp [State.Below, hpid] : ¬ s.Below n pid) using 1
      grind [State.Below]
    · convert h n using 1
      grind [State.Below]
  | reap pid =>
    obtain ⟨ns, hns, rfl⟩ := Option.map_eq_some_iff.1 hs
    dsimp only
    rw [alongChain_apply]
    split_ifs with hn
    · convert (h n).remove pid using 1
      grind [State.Below]
    · convert h n using 1
      grind [State.Below]

/-- A process has a number in its own namespace and above it, and nowhere else.  In a namespace
with fewer than `2 ^ 32` creations the maps are inverse to each other, and no number was handed out
twice. -/
def Translates (s : State) : Prop :=
  ∀ ns, (∀ pid, ((s.maps ns).hostToLocal pid).isSome ↔ s.Below ns pid) ∧
    ((s.maps ns).given.length < 2 ^ 32 → (s.maps ns).Inverse ∧ (s.maps ns).given.Nodup)

/-- **Pids translate.** -/
theorem pids_translate (es : List Step) : Runs.Always step Translates es init := by
  have hinit : Inv init := by
    refine fun ns => ⟨fun pid => ?_, rfl, fun _ => ⟨fun l pid => ?_, ?_, ?_, ?_⟩⟩ <;>
      simp [init, Maps.empty, State.Below]
  refine Runs.always_of_invariant (fun s e s' h _ hs => h.step hs)
    (fun s h ns => ⟨(h ns).numbered, fun hlt => ?_⟩) hinit (Runs.meets_true es _)
  exact ⟨((h ns).counted hlt).inverse, ((h ns).counted hlt).nodup⟩

/-- The processes with pid 2 come and go, and one stays. -/
def comings : ℕ → List Step
  | 0 => [.create 2 []]
  | n + 1 => .create 2 [] :: .reap 2 :: comings n

theorem not_inverse_of_comings {s : State} (n : ℕ) (hgone : s.processes 2 = none)
    (hone : (s.maps []).hostToLocal 1 = some 1) (htwo : (s.maps []).hostToLocal 2 = none)
    (hnext : (s.maps []).nextLocal + UInt32.ofNat n = 1) :
    ∃ s', Runs.exec step (comings n) s = some s' ∧ ¬ (s'.maps []).Inverse := by
  induction n generalizing s with
  | zero =>
    have hwrap : (s.maps []).nextLocal = 1 := by simpa using hnext
    simp only [comings, Runs.exec, step, hgone, if_true, Option.bind_some]
    refine ⟨_, rfl, fun hinv => ?_⟩
    have hlast := (hinv 1 1).2
    simp [alongChain, Maps.assign, htwo, hone, hwrap] at hlast
  | succ n ih =>
    simp only [comings, Runs.exec, step, hgone, if_true, Option.bind_some, update_self,
      Option.map_some]
    apply ih
    · simp
    · simp [alongChain, Maps.assign, Maps.remove, htwo, hone]
    · simp [alongChain, Maps.assign, Maps.remove, htwo]
    · rw [UInt32.ofNat_add, UInt32.add_comm (UInt32.ofNat n)] at hnext
      simpa [alongChain, Maps.assign, Maps.remove, htwo, UInt32.add_assoc] using hnext

/-- The number of the first process is handed out again while it is there. -/
theorem number_reused : ∃ es s, Runs.exec step es init = some s ∧ ¬ (s.maps []).Inverse := by
  have hall : ∀ n, 2 + UInt32.ofNat n = 1 →
      ∃ es s, Runs.exec step es init = some s ∧ ¬ (s.maps []).Inverse := by
    intro n hn
    obtain ⟨s, hs⟩ := not_inverse_of_comings (s := ⟨alongChain (·.assign 1) [] init.maps,
      update init.processes 1 (some [])⟩) n rfl rfl rfl hn
    exact ⟨.create 1 [] :: comings n, s, hs⟩
  exact hall (2 ^ 32 - 1) (by decide)

end CypheraKernel.PidNamespace
