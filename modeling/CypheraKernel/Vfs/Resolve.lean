import CypheraKernel.Errno
import CypheraKernel.Vfs.PathText

/-!
# Path resolution

`resolve_with_depth` of `kernel/src/vfs/path.rs` over a tree of inodes with symbolic links, the magic
ones of procfs among them, and a table of mounts.

* `Traced`: a computation with its result and the log of what it does on the way.  The log is not
  part of the program: it says which mounts are entered, where a link is followed, where a magic
  link leads and where `..` is taken, and is what later results count and compare;
* `resolveNames`: the resolution of a canonical path, which has no `..`; `resolveWithDepth`: that of
  any path.  On canonical paths they agree (`resolveWithDepth_ofNames`), so the recursive calls in
  the source are calls of one function;
* `chroot_confined`: under a changed root and without magic links nothing is reached but by lookups
  from it or from where the resolution starts.
-/

namespace CypheraKernel.Vfs

/-- The kinds of inodes. -/
inductive InodeKind
  | regular
  | directory
  | symlink
  | charDevice
  | pipe
  | socket
  deriving DecidableEq, Repr

/-- `MS_RDONLY`, `MS_NOSUID`, `MS_NODEV` and `MS_NOEXEC`. -/
structure MountFlags where
  (rdonly nosuid nodev noexec : Bool)
  deriving DecidableEq, Repr

/-- Where a magic link leads.  `home` are the flags of the mount that the inode is on, which the
resolver does not ask for. -/
structure MagicTarget (ι : Type) where
  inode : ι
  home : MountFlags

/-- The inodes: what they are, what is in them, and what the links hold. -/
structure Tree (ι : Type) where
  kind : ι → InodeKind
  lookup : ι → Name → Except Errno ι
  readLink : ι → Except Errno (List Char)
  magicResolve : ι → Option (MagicTarget ι) := fun _ => none

/-- `MountInUseTag`: a mount with its flags. -/
structure MountTag where
  id : ℕ
  flags : MountFlags
  deriving DecidableEq, Repr

/-- What is mounted at a path. -/
structure MountEntry (ι : Type) where
  root : ι
  inUse : MountTag

/-- What a process sees: its root, and the mounts by their canonical paths. -/
structure Context (ι : Type) where
  root : ι
  mounts : List Name → Option (MountEntry ι)
  chrooted : Bool

/-! ### Computations with a log -/

/-- What a resolution does on its way. -/
inductive Event
  | enter (mount : MountTag)
  | follow
  | magic (home : MountFlags)
  | up
  deriving DecidableEq, Repr

structure Traced (α : Type) where
  log : List Event
  result : Except Errno α

namespace Traced

def bind {α β : Type} (x : Traced α) (f : α → Traced β) : Traced β :=
  match x.result with
  | .error e => ⟨x.log, .error e⟩
  | .ok a => ⟨x.log ++ (f a).log, (f a).result⟩

instance : Monad Traced where
  pure a := ⟨[], .ok a⟩
  bind := bind

def emit (e : Event) : Traced Unit := ⟨[e], .ok ()⟩

/-- A computation that does nothing worth a note. -/
def lift {α : Type} (r : Except Errno α) : Traced α := ⟨[], r⟩

variable {α β : Type} {x : Traced α} {f : α → Traced β} {a : α}

@[simp] theorem result_pure (a : α) : (pure a : Traced α).result = .ok a := rfl

@[simp] theorem log_pure (a : α) : (pure a : Traced α).log = [] := rfl

@[simp] theorem result_lift (r : Except Errno α) : (lift r).result = r := rfl

@[simp] theorem emit_bind (e : Event) (f : Unit → Traced β) :
    (emit e >>= f) = ⟨e :: (f ()).log, (f ()).result⟩ := rfl

theorem bind_of_ok (h : x.result = .ok a) : (x >>= f) = ⟨x.log ++ (f a).log, (f a).result⟩ := by
  show Traced.bind x f = _
  rw [Traced.bind, h]

theorem bind_of_error {e : Errno} (h : x.result = .error e) : (x >>= f) = ⟨x.log, .error e⟩ := by
  show Traced.bind x f = _
  rw [Traced.bind, h]

instance : LawfulMonad Traced := LawfulMonad.mk' Traced
  (fun x => by
    show Traced.bind x _ = x
    obtain ⟨log, result⟩ := x
    cases result with
    | error e => rfl
    | ok a => exact congrArg (Traced.mk · (.ok a)) (List.append_nil log))
  (fun _ _ => rfl)
  (fun x f g => by
    cases hx : x.result with
    | error e => rw [bind_of_error hx, bind_of_error hx, bind_of_error rfl]
    | ok a =>
      rw [bind_of_ok hx, bind_of_ok hx]
      cases hf : (f a).result with
      | error e => rw [bind_of_error hf, bind_of_error rfl]
      | ok b => rw [bind_of_ok hf, bind_of_ok rfl, List.append_assoc])

/-- A sequence succeeds when both halves do. -/
theorem result_bind_eq_ok {b : β} :
    (x >>= f).result = .ok b ↔ ∃ a, x.result = .ok a ∧ (f a).result = .ok b := by
  cases h : x.result with
  | error e =>
    rw [bind_of_error h]
    simp
  | ok a =>
    rw [bind_of_ok h]
    simp

end Traced

/-! ### The resolver -/

/-- What is found: an inode, and the mount crossed last. -/
structure Found (ι : Type) where
  inode : ι
  tag : Option MountTag

/-- Where the loop stands. -/
structure Cursor (ι : Type) where
  inode : ι
  canonical : List Name
  tag : Option MountTag

def Cursor.found {ι : Type} (c : Cursor ι) : Found ι := ⟨c.inode, c.tag⟩

def maxSymlinkDepth : ℕ := 40

section Resolver

open Traced List

variable {ι : Type} (t : Tree ι) (ctx : Context ι)

/-- The mount at a canonical path, none under a changed root. -/
def Context.mountAt (canonical : List Name) : Option (MountEntry ι) :=
  if ctx.chrooted then none else ctx.mounts canonical

/-- The child of a name: the root of a mount, or what the directory has under the name. -/
def child (c : Cursor ι) (n : Name) : Traced (ι × Option MountTag) :=
  match ctx.mountAt (c.canonical ++ [n]) with
  | some entry => do
    emit (.enter entry.inUse)
    return (entry.root, some entry.inUse)
  | none => do
    let inode ← lift (t.lookup c.inode n)
    return (inode, c.tag)

/-- Follow a link that was found in the directory at `base`; `link` resolves its target. -/
def followLink (link : List Name → Traced (Found ι)) (base : List Name) (inode : ι)
    (tag : Option MountTag) : Traced (Cursor ι) := do
  let target ← lift (t.readLink inode)
  emit .follow
  let r ← link (normalize base (.parse target))
  return ⟨r.inode, normalize base (.parse target), r.tag <|> tag⟩

/-- Go on to a child, or to where it leads if it is a link that is to be followed. -/
def arrive (link : List Name → Traced (Found ι)) (follow : Bool) (base : List Name) (n : Name)
    (found : ι × Option MountTag) : Traced (Cursor ι) :=
  if follow ∧ t.kind found.1 = .symlink then
    match t.magicResolve found.1 with
    | some m => do
      emit (.magic m.home)
      return ⟨m.inode, base ++ [n], found.2⟩
    | none => followLink t link base found.1 found.2
  else pure ⟨found.1, base ++ [n], found.2⟩

/-- One turn of the loop at a name. -/
def stepName (link : List Name → Traced (Found ι)) (follow : Bool) (c : Cursor ι) (n : Name) :
    Traced (Cursor ι) :=
  child t ctx c n >>= arrive t link follow c.canonical n

/-- The loop over the names of a canonical path, in which every link is followed. -/
def walkNames (link : List Name → Traced (Found ι)) : List Name → Cursor ι → Traced (Cursor ι)
  | [], c => pure c
  | n :: names, c => do
    let c ← stepName t ctx link true c n
    walkNames link names c

/-- Where every resolution of an absolute path begins. -/
def Context.start : Cursor ι := ⟨ctx.root, [], none⟩

/-- `resolve_with_depth` for a canonical path; the first argument is the number of levels left. -/
def resolveNames : ℕ → List Name → Traced (Found ι)
  | 0, _ => lift (.error .inval)
  | levels + 1, names => do
    let c ← walkNames t ctx (resolveNames levels) names ctx.start
    return c.found

/-- One turn of the loop; `parent` resolves the canonical path of a parent. -/
def step (parent link : List Name → Traced (Found ι)) (follow : Bool) (c : Cursor ι) :
    Component → Traced (Cursor ι)
  | .up =>
    if c.canonical = [] then pure c
    else do
      emit .up
      let r ← parent c.canonical.dropLast
      return ⟨r.inode, c.canonical.dropLast, r.tag <|> c.tag⟩
  | .name n => stepName t ctx link follow c n

/-- The loop over the components of a path; the last one is followed if `followLast` says so. -/
def walk (parent link : List Name → Traced (Found ι)) (followLast : Bool) :
    List Component → Cursor ι → Traced (Cursor ι)
  | [], c => pure c
  | x :: xs, c => do
    let c ← step t ctx parent link (xs ≠ [] || followLast) c x
    walk parent link followLast xs c

def resolveWithDepth (start : ι) (startCanonical : List Name) (path : Path) (followLast : Bool) :
    ℕ → Traced (Found ι)
  | 0 => lift (.error .inval)
  | levels + 1 => do
    let c ← walk t ctx (resolveNames t ctx (levels + 1)) (resolveNames t ctx levels) followLast
      path.components (if path.absolute then ctx.start else ⟨start, startCanonical, none⟩)
    return c.found

/-- `resolve`, with the mount that `resolve_with_mount` returns as well. -/
def resolve (start : ι) (path : List Char) : Traced (Found ι) :=
  resolveWithDepth t ctx start [] (.parse path) true (maxSymlinkDepth + 1)

/-! ### Canonical paths -/

variable {t ctx}

theorem walk_names (parent link : List Name → Traced (Found ι)) (names : List Name) (c : Cursor ι) :
    walk t ctx parent link true (names.map .name) c = walkNames t ctx link names c := by
  induction names generalizing c with
  | nil => rfl
  | cons n names ih =>
    rw [map_cons, walk, walkNames, Bool.or_true, step]
    congr 1
    funext c'
    exact ih c'

/-- **The recursive calls** of the resolver are calls of the resolver on canonical paths. -/
theorem resolveWithDepth_ofNames (start : ι) (startCanonical names : List Name) (levels : ℕ) :
    resolveWithDepth t ctx start startCanonical (.ofNames names) true levels =
      resolveNames t ctx levels names := by
  cases levels with
  | zero => rfl
  | succ levels =>
    rw [resolveWithDepth, resolveNames, Path.ofNames, if_pos rfl, walk_names]

/-! ### What a walk keeps -/

/-- `I c log d` holds for every piece of a walk that goes from `c` to `d` and leaves the log: for a
step to a child, for a magic link, for a nested resolution, and for two pieces together. -/
structure WalkRule (t : Tree ι) (ctx : Context ι)
    (I : Cursor ι → List Event → Cursor ι → Prop) : Prop where
  refl : ∀ c, I c [] c
  trans : ∀ {c d d' log log'}, I c log d → I d log' d' → I c (log ++ log') d'
  child : ∀ {c n found}, (child t ctx c n).result = .ok found →
    I c (child t ctx c n).log ⟨found.1, c.canonical ++ [n], found.2⟩
  magic : ∀ {c m}, t.magicResolve c.inode = some m →
    I c [.magic m.home] ⟨m.inode, c.canonical, c.tag⟩
  nested : ∀ {c d e log} canonical, e = .follow ∨ e = .up → I ctx.start log d →
    I c (e :: log) ⟨d.inode, canonical, d.tag <|> c.tag⟩

namespace WalkRule

variable {I : Cursor ι → List Event → Cursor ι → Prop} (w : WalkRule t ctx I) {levels : ℕ}
  {r : Found ι}

include w

theorem of_stepName {link : List Name → Traced (Found ι)} {follow : Bool} {c c' : Cursor ι}
    {n : Name} (hlink : ∀ names r, (link names).result = .ok r →
      ∃ d, d.found = r ∧ I ctx.start (link names).log d)
    (h : (stepName t ctx link follow c n).result = .ok c') :
    I c (stepName t ctx link follow c n).log c' := by
  obtain ⟨found, hfound, h⟩ := result_bind_eq_ok.1 h
  rw [stepName, bind_of_ok hfound]
  refine w.trans (w.child hfound) ?_
  rw [arrive] at h ⊢
  split_ifs at h ⊢
  · cases hmagic : t.magicResolve found.1 with
    | some m =>
      rw [hmagic] at h
      cases h
      exact w.magic (c := ⟨found.1, c.canonical ++ [n], found.2⟩) hmagic
    | none =>
      rw [hmagic] at h
      obtain ⟨target, htarget, h⟩ := result_bind_eq_ok.1 h
      obtain ⟨-, -, h⟩ := result_bind_eq_ok.1 h
      obtain ⟨r, hr, hret⟩ := result_bind_eq_ok.1 h
      cases hret
      obtain ⟨d, rfl, hd⟩ := hlink _ r hr
      rw [followLink, bind_of_ok htarget, emit_bind, bind_of_ok hr, log_pure, append_nil]
      exact w.nested _ (.inl rfl) hd
  · cases h
    exact w.refl _

theorem of_resolveNames {names : List Name} (h : (resolveNames t ctx levels names).result = .ok r) :
    ∃ d, d.found = r ∧ I ctx.start (resolveNames t ctx levels names).log d := by
  induction levels generalizing names r with
  | zero => cases h
  | succ levels ih =>
    obtain ⟨d, hd, hret⟩ := result_bind_eq_ok.1 h
    cases hret
    refine ⟨d, rfl, ?_⟩
    rw [resolveNames, bind_of_ok hd, log_pure, append_nil]
    clear h
    generalize ctx.start = c at hd ⊢
    induction names generalizing c with
    | nil =>
      cases hd
      exact w.refl _
    | cons n names ihn =>
      obtain ⟨c', hc', hd⟩ := result_bind_eq_ok.1 hd
      rw [walkNames, bind_of_ok hc']
      exact w.trans (w.of_stepName (fun _ _ hr => ih hr) hc') (ihn _ hd)

theorem of_walk {followLast : Bool} {xs : List Component} {c d : Cursor ι}
    (h : (walk t ctx (resolveNames t ctx (levels + 1)) (resolveNames t ctx levels) followLast xs
      c).result = .ok d) :
    I c (walk t ctx (resolveNames t ctx (levels + 1)) (resolveNames t ctx levels) followLast xs
      c).log d := by
  induction xs generalizing c with
  | nil =>
    cases h
    exact w.refl _
  | cons x xs ih =>
    obtain ⟨c', hc', h⟩ := result_bind_eq_ok.1 h
    rw [walk, bind_of_ok hc']
    refine w.trans ?_ (ih h)
    cases x with
    | name n => exact w.of_stepName (fun _ _ hr => w.of_resolveNames hr) hc'
    | up =>
      rw [step] at hc' ⊢
      split_ifs at hc' ⊢
      · cases hc'
        exact w.refl _
      obtain ⟨-, -, hc'⟩ := result_bind_eq_ok.1 hc'
      obtain ⟨r, hr, hret⟩ := result_bind_eq_ok.1 hc'
      cases hret
      obtain ⟨d, rfl, hd⟩ := w.of_resolveNames hr
      rw [emit_bind, bind_of_ok hr, log_pure, append_nil]
      exact w.nested _ (.inr rfl) hd

/-- The rule for a whole resolution. -/
theorem of_resolve {start : ι} {path : List Char} (h : (resolve t ctx start path).result = .ok r) :
    ∃ d, d.found = r ∧ I (if (Path.parse path).absolute then ctx.start else ⟨start, [], none⟩)
      (resolve t ctx start path).log d := by
  rw [resolve, resolveWithDepth] at h ⊢
  obtain ⟨d, hd, hret⟩ := result_bind_eq_ok.1 h
  cases hret
  refine ⟨d, rfl, ?_⟩
  rw [bind_of_ok hd, log_pure, append_nil]
  exact w.of_walk hd

end WalkRule

/-! ### Confinement -/

/-- `x` is found from `a` by lookups. -/
inductive Reaches (t : Tree ι) (a : ι) : ι → Prop
  | refl : Reaches t a a
  | lookup {d x : ι} {n : Name} : Reaches t a d → t.lookup d n = .ok x → Reaches t a x

/-- A set of inodes that has the root and with a directory what is in it. -/
structure Closed (t : Tree ι) (ctx : Context ι) (P : ι → Prop) : Prop where
  root : P ctx.root
  lookup : ∀ d n x, P d → t.lookup d n = .ok x → P x

theorem Closed.walkRule {P : ι → Prop} (hP : Closed t ctx P) (hroot : ctx.chrooted = true)
    (hmagic : ∀ x, t.magicResolve x = none) :
    WalkRule t ctx fun c _ d => P c.inode → P d.inode where
  refl _ := id
  trans h h' := h' ∘ h
  child {c n found} h hc := by
    rw [child, Context.mountAt, if_pos hroot] at h
    obtain ⟨x, hx, hret⟩ := result_bind_eq_ok.1 h
    cases hret
    exact hP.lookup c.inode n x hc hx
  magic {c m} h := by
    rw [hmagic c.inode] at h
    cases h
  nested _ _ h _ := h hP.root

/-- **Confinement by a changed root.**  What a resolution finds is reached by lookups from the root
or from the inode it started at. -/
theorem chroot_confined {t : Tree ι} {ctx : Context ι} (hroot : ctx.chrooted = true)
    (hmagic : ∀ x, t.magicResolve x = none) {start : ι} (path : List Char) {r : Found ι}
    (h : (resolve t ctx start path).result = .ok r) :
    Reaches t ctx.root r.inode ∨ Reaches t start r.inode := by
  have hP : Closed t ctx fun x => Reaches t ctx.root x ∨ Reaches t start x := by
    refine ⟨.inl .refl, fun d n x hd hx => ?_⟩
    exact hd.imp (·.lookup hx) (·.lookup hx)
  obtain ⟨d, rfl, hreach⟩ := (hP.walkRule hroot hmagic).of_resolve h
  refine hreach ?_
  split_ifs
  · exact .inl .refl
  · exact .inr .refl

end Resolver

/-- A root directory `0` with a file `3` and a directory `1`, in which the link `2` leads up. -/
def jailTree : Tree ℕ where
  kind i := if i = 2 then .symlink else if i = 3 then .regular else .directory
  lookup d n :=
    if d = 0 ∧ n.text = ['a'] then .ok 1
    else if d = 0 ∧ n.text = ['f'] then .ok 3
    else if d = 1 ∧ n.text = ['l'] then .ok 2
    else .error .noent
  readLink i := if i = 2 then .ok "../../f".toList else .error .inval

def jail : Context ℕ := ⟨0, fun _ => none, true⟩

theorem chroot_confined_jail :
    (resolve jailTree jail 1 ['l']).result = .ok ⟨3, none⟩ ∧
      (Reaches jailTree 0 3 ∨ Reaches jailTree 1 3) :=
  ⟨rfl, chroot_confined (show jail.chrooted = true from rfl) (fun _ => rfl) ['l'] (r := ⟨3, none⟩) rfl⟩

end CypheraKernel.Vfs
