import CypheraKernel.Lib.Lists
import CypheraKernel.Mm.CowClone

/-!
# What a clone does

The effect of `forkClone` in terms of the state before the call.

`forkClone_outcome`: the whole effect of the two outcomes.
-/

namespace CypheraKernel.Mm

open List CowLeaf

namespace VmSpace

open Frames Mapper

variable {σ : Type} (A : FrameAllocator σ) {pre rest : List Deferred} {s : Install σ} {d : Deferred}
  {stop : Bool} (child : VmSpace) (pages : List ℕ) (vm : VmSpace)

/-! ### The walk, seen from before -/

/-- What `fork` does with a leaf. -/
inductive CloneKind
  | shared
  | cow
  | readonly
  | eager
  deriving DecidableEq, Repr

variable (fr : Frames σ) (ranges : List (ℕ × ℕ))

/-- What the walk does with a leaf. -/
def cloneKind (l : ℕ × Pte) : CloneKind :=
  if isShared ranges l.1 then .shared
  else if fr.frameRefCount l.2.frame = 0 then .eager
  else if l.2.writable || l.2.cow then .cow
  else .readonly

/-- The leaves a walk comes past when there are `n` frames for copies. -/
def reached (fr : Frames σ) (ranges : List (ℕ × ℕ)) : ℕ → List (ℕ × Pte) → List (ℕ × Pte)
  | _, [] => []
  | n, l :: ls =>
    if cloneKind fr ranges l = .eager then
      match n with
      | 0 => []
      | n + 1 => l :: reached fr ranges n ls
    else l :: reached fr ranges n ls

/-- The leaves that the walk of a clone comes past.  The first free frame is the child's root. -/
def reachedLeaves (vm : VmSpace) (ranges : List (ℕ × ℕ)) : List (ℕ × Pte) :=
  match (A.free fr.pool).card with
  | 0 => []
  | n + 1 => reached fr ranges n vm.userLeaves

/-- The frames to which a walk over these leaves takes a reference, as often as it does. -/
def takenFrames (ls : List (ℕ × Pte)) : List ℕ :=
  (ls.filter fun l => cloneKind fr ranges l = .cow ∨ cloneKind fr ranges l = .readonly).map
    fun l => l.2.frame

/-- The leaves that become copy-on-write. -/
def cowLeaves (ls : List (ℕ × Pte)) : List CowLeaf :=
  (ls.filter fun l => cloneKind fr ranges l = .cow).map
    fun l => ⟨l.1, l.2.frame, clonePerms l.2⟩

def eagerFrames (ds : List Deferred) : List ℕ :=
  (ds.filter fun d => d.kind = .eagerCopy).map Deferred.frame

/-- The frames a clone needs: the child's root and tables, and the copies. -/
def cloneFrames (vm : VmSpace) (ranges : List (ℕ × ℕ)) : ℕ :=
  1 + vm.userLeaves.countP (fun l => cloneKind fr ranges l = .eager) +
    tableCount (vm.userLeaves.map Prod.fst)

/-! ### The error path -/

theorem leaf_detachLeaves [Mapper A] (q : ℕ) :
    (detachLeaves A child pages).leaf q = if q ∈ pages then none else child.leaf q := by
  induction pages generalizing child with
  | nil => rfl
  | cons p pages ih =>
    have h : detachLeaves A child (p :: pages) = detachLeaves A (unmap A child p).2 pages := rfl
    rw [h, ih, leaf_unmap]
    by_cases hp : q = p <;> simp [hp]

@[simp] theorem treeFrames_detachLeaves [Mapper A] :
    (detachLeaves A child pages).treeFrames = child.treeFrames := by
  induction pages generalizing child with
  | nil => rfl
  | cons p pages ih => exact (ih _).trans (treeFrames_unmap child p)

@[simp] theorem leaf_upgradeLeafFromCow (p q : ℕ) :
    (upgradeLeafFromCow vm p).leaf q = if q = p then (vm.leaf q).map upgradePte else vm.leaf q := by
  unfold upgradeLeafFromCow
  split
  · grind [leaf_setLeaf]
  · grind

theorem leaf_upgradeLeaves (pages : List ℕ) (q : ℕ) :
    (pages.foldl upgradeLeafFromCow vm).leaf q =
      if q ∈ pages then (vm.leaf q).map upgradePte else vm.leaf q := by
  induction pages generalizing vm with
  | nil => rfl
  | cons p pages ih =>
    rw [foldl_cons, ih, leaf_upgradeLeafFromCow]
    by_cases hp : q = p
    · subst hp
      have hidem : upgradePte ∘ upgradePte = upgradePte := rfl
      simp [hidem]
    · simp [hp]

theorem foldl_installed [Mapper A] (installed : List (ℕ × ℕ × Bool)) (fr : Frames σ)
    (child : VmSpace) :
    installed.foldl (fun s l => (s.1.freeFrame A l.2.1, (unmap A s.2 l.1).2)) (fr, child) =
      (fr.freeFrames A (installed.map fun l => l.2.1),
        detachLeaves A child (installed.map (·.1))) := by
  induction installed generalizing fr child with
  | nil => rfl
  | cons l installed ih => exact ih _ _

theorem foldl_cow [Mapper A] (cow : List CowLeaf) (n done : ℕ) (fr : Frames σ)
    (vm child : VmSpace) :
    (cow.zipIdx n).foldl
      (fun s l => (s.1.freeFrame A l.1.frame, upgradeLeafFromCow s.2.1 l.1.page,
        if l.2 < done then (unmap A s.2.2 l.1.page).2 else s.2.2)) (fr, vm, child) =
      (fr.freeFrames A (cow.map frame), (cow.map page).foldl upgradeLeafFromCow vm,
        detachLeaves A child ((cow.take (done - n)).map page)) := by
  induction cow generalizing n fr vm child with
  | nil => simp [freeFrames, detachLeaves]
  | cons c cow ih =>
    rw [zipIdx_cons, foldl_cons, ih]
    by_cases h : n < done
    · have htake : done - n = done - (n + 1) + 1 := by omega
      rw [if_pos h, htake]
      rfl
    · have h0 : done - n = 0 := by omega
      have h1 : done - (n + 1) = 0 := by omega
      rw [if_neg h, h0, h1]
      rfl

/-- The drop of a tree without leaves. -/
theorem drop_of_leafless {vm : VmSpace} (h : ∀ p, vm.leaf p = none) :
    drop A fr vm = fr.freeFrames A vm.treeFrames.reverse := by
  have hnil : vm.userLeaves = [] := by simp_all [eq_nil_iff_forall_not_mem, mem_userLeaves]
  unfold drop
  rw [hnil]
  rfl

/-- **The error path settles the account**, if the frames it returns are those taken and acquired,
and the leaves it detaches are those of the child. -/
theorem abandonClone_spec [Mapper A] {fr₀ fr fr' : Frames σ} {taken acquired : List ℕ}
    {vm vm' child : VmSpace}
    {shared : List ℕ} {installed : List (ℕ × ℕ × Bool)} {cow : List CowLeaf} {done : ℕ}
    (h : Ledger A fr₀ fr taken acquired) (hzero : ∀ f ∈ A.free fr₀.pool, fr₀.frameRefCount f = 0)
    (hfs : ((installed.map fun l => l.2.1) ++ cow.map frame ++ heldFrames rest ++
      child.treeFrames).Perm (taken ++ acquired))
    (hleaf : ∀ p, p ∉ shared → p ∉ installed.map (·.1) → p ∉ (cow.take done).map page →
      child.leaf p = none)
    (hr : abandonClone A fr vm child shared installed cow done rest = (fr', vm')) :
    fr'.refLen = fr₀.refLen ∧ A.free fr'.pool = A.free fr₀.pool ∧
      (∀ f, fr'.frameRefCount f =
        satDec^[taken.count f] (satInc^[taken.count f] (fr₀.frameRefCount f))) ∧
      ∀ p, vm'.leaf p =
        if p ∈ cow.map page then (vm.leaf p).map upgradePte else vm.leaf p := by
  unfold abandonClone at hr
  have happend (child : VmSpace) (l l' : List ℕ) :
      detachLeaves A (detachLeaves A child l) l' = detachLeaves A child (l ++ l') :=
    foldl_append.symm
  simp only [unwindCowShare, foldl_installed, foldl_cow, ← freeFrames_append, happend,
    Nat.sub_zero] at hr
  rw [drop_of_leafless, treeFrames_detachLeaves, ← freeFrames_append] at hr
  · grind [h.release, leaf_upgradeLeaves, refLen_freeFrames, h.refLen_eq]
  · simp_all [leaf_detachLeaves]

/-! ### The walk -/

/-- How a deferred leaf comes from a leaf of the parent. -/
def DeferredFrom (l : ℕ × Pte) (d : Deferred) : Prop :=
  d.page = l.1 ∧ d.perms = clonePerms l.2 ∧
    match cloneKind fr ranges l with
    | .shared => d.kind = .sharedFile ∧ d.frame = l.2.frame
    | .readonly => d.kind = .readonlyShare ∧ d.frame = l.2.frame
    | .eager => d.kind = .eagerCopy
    | .cow => False

/-- The state of the walk after the leaves `ls`, for a child with the given root. -/
structure Walked (fr₀ : Frames σ) (vm₀ : VmSpace) (ranges : List (ℕ × ℕ)) (root : ℕ)
    (ls : List (ℕ × Pte)) (w : Walk σ) : Prop where
  ledger : Ledger A fr₀ w.fr (takenFrames fr₀ ranges ls) (root :: eagerFrames w.deferred)
  cow_eq : w.cow = cowLeaves fr₀ ranges ls
  deferred : List.Forall₂ (DeferredFrom fr₀ ranges)
    (ls.filter fun l => cloneKind fr₀ ranges l ≠ .cow) w.deferred
  leaf : ∀ p, w.vm.leaf p =
    if p ∈ (cowLeaves fr₀ ranges ls).map page then (vm₀.leaf p).map downgradePte
    else vm₀.leaf p

section Walk

variable {A} {fr₀ : Frames σ} {vm₀ : VmSpace} {ranges : List (ℕ × ℕ)} {root : ℕ}
  {ls : List (ℕ × Pte)} {w : Walk σ} {l : ℕ × Pte}

theorem mem_pages_cowLeaves {p : ℕ} :
    p ∈ (cowLeaves fr₀ ranges ls).map page ↔
      ∃ e, (p, e) ∈ ls ∧ cloneKind fr₀ ranges (p, e) = .cow := by
  simp [cowLeaves]

theorem takenFrames_snoc : takenFrames fr₀ ranges (ls ++ [l]) = takenFrames fr₀ ranges ls ++
    if cloneKind fr₀ ranges l = .cow ∨ cloneKind fr₀ ranges l = .readonly then [l.2.frame]
    else [] := by grind [takenFrames]

theorem cowLeaves_snoc : cowLeaves fr₀ ranges (ls ++ [l]) = cowLeaves fr₀ ranges ls ++
    if cloneKind fr₀ ranges l = .cow then [⟨l.1, l.2.frame, clonePerms l.2⟩] else [] := by
  grind [cowLeaves]

theorem eagerFrames_snoc (ds : List Deferred) (d : Deferred) :
    eagerFrames (ds ++ [d]) = eagerFrames ds ++ if d.kind = .eagerCopy then [d.frame] else [] := by
  grind [eagerFrames]

section

variable (h : Walked A fr₀ vm₀ ranges root ls w)

include h

/-- A leaf that is deferred. -/
theorem Walked.defer {fr : Frames σ}
    (hk : cloneKind fr₀ ranges l ≠ .cow) (hd : DeferredFrom fr₀ ranges l d)
    (hl : Ledger A fr₀ fr (takenFrames fr₀ ranges (ls ++ [l]))
      (root :: eagerFrames (w.deferred ++ [d]))) :
    Walked A fr₀ vm₀ ranges root (ls ++ [l]) { w with
      fr := fr
      deferred := w.deferred ++ [d] } := by
  have hcow : cowLeaves fr₀ ranges (ls ++ [l]) = cowLeaves fr₀ ranges ls := by
    rw [cowLeaves_snoc, if_neg hk, append_nil]
  refine ⟨hl, ?_, ?_, ?_⟩
  · rw [hcow]
    exact h.cow_eq
  · rw [filter_append, filter_singleton, decide_eq_true hk, cond_true]
    exact rel_append h.deferred (.cons hd .nil)
  · rw [hcow]
    exact h.leaf

/-- A further leaf: the walk goes on, or it is an eager copy and there is no frame left. -/
theorem Walked.step (hl : vm₀.leaf l.1 = some l.2)
    (hfree : l.2.frame ∉ A.free fr₀.pool) (hnew : l.1 ∉ ls.map Prod.fst) :
    (walkLeaf A ranges w l = none ∧ cloneKind fr₀ ranges l = .eager ∧ A.free w.fr.pool = ∅) ∨
      ∃ w', walkLeaf A ranges w l = some w' ∧ Walked A fr₀ vm₀ ranges root (ls ++ [l]) w' := by
  have htracked := h.ledger.frameRefCount_eq_zero hfree
  cases hs : isShared ranges l.1 with
  | true =>
    have hk : cloneKind fr₀ ranges l = .shared := by simp [cloneKind, hs]
    simp only [walkLeaf, hs, if_true]
    refine .inr ⟨_, rfl, h.defer (by simp [hk]) (by simp [DeferredFrom, hk]) ?_⟩
    rw [takenFrames_snoc, eagerFrames_snoc, hk]
    simpa using h.ledger
  | false =>
    by_cases h0 : fr₀.frameRefCount l.2.frame = 0
    · have hk : cloneKind fr₀ ranges l = .eager := by simp [cloneKind, hs, h0]
      simp only [walkLeaf, hs, htracked.2 h0, ne_eq, not_true, and_false, if_false, Bool.false_eq_true]
      cases ha : w.fr.allocFrame A with
      | none => exact .inl ⟨rfl, hk, (allocFrame_eq_none A).1 ha⟩
      | some r =>
        refine .inr ⟨_, rfl, h.defer (by simp [hk]) (by simp [DeferredFrom, hk]) ?_⟩
        rw [takenFrames_snoc, eagerFrames_snoc, hk]
        simpa using (h.ledger.alloc ha).copyFrame l.2.frame r.1
    · have hinc := h.ledger.inc hfree h0
      have ht : ¬ w.fr.frameRefCount l.2.frame = 0 := fun h' => h0 (htracked.1 h')
      cases hw : l.2.writable || l.2.cow with
      | false =>
        have hk : cloneKind fr₀ ranges l = .readonly := by simp [cloneKind, hs, h0, hw]
        simp only [walkLeaf, hs, show (clonePerms l.2).write = false from hw, ht, ne_eq, not_false_iff,
          false_and, and_self, if_true, if_false, Bool.false_eq_true]
        refine .inr ⟨_, rfl, h.defer (by simp [hk]) (by simp [DeferredFrom, hk]) ?_⟩
        rw [takenFrames_snoc, eagerFrames_snoc, hk]
        simpa using hinc
      | true =>
        have hk : cloneKind fr₀ ranges l = .cow := by simp [cloneKind, hs, h0, hw]
        have hleaf : w.vm.leaf l.1 = some l.2 := by
          rw [h.leaf, if_neg, hl]
          intro hmem
          obtain ⟨e, he, -⟩ := mem_pages_cowLeaves.1 hmem
          exact hnew (mem_map.2 ⟨_, he, rfl⟩)
        simp only [walkLeaf, hs, show (clonePerms l.2).write = true from hw, ht, ne_eq, not_false_iff,
          and_self, if_true, if_false, Bool.false_eq_true, downgradeLeafToCowAndInc, hleaf]
        refine .inr ⟨_, rfl, ⟨?_, ?_, ?_, fun p => ?_⟩⟩
        · rw [takenFrames_snoc, hk]
          simpa using hinc
        · rw [cowLeaves_snoc, hk, h.cow_eq]
          rfl
        · grind [h.deferred]
        rw [cowLeaves_snoc, hk, leaf_setLeaf, h.leaf]
        by_cases hp : p = l.1
        · rw [hp, hl]
          simp
        · simp [hp]

/-- The whole walk: it comes past all leaves, or up to an eager copy without a frame. -/
theorem Walked.walkLeaves {rest : List (ℕ × Pte)} (hleaf : ∀ l ∈ rest, vm₀.leaf l.1 = some l.2)
    (hfree : ∀ p e, vm₀.leaf p = some e → e.frame ∉ A.free fr₀.pool)
    (hpair : (ls ++ rest).Pairwise fun l l' => l.1 ≠ l'.1) {w' : Walk σ}
    (hr : walkLeaves A ranges rest w = (stop, w')) :
    (stop = false ∧ Walked A fr₀ vm₀ ranges root (ls ++ rest) w') ∨
      (stop = true ∧ ∃ pre l post, rest = pre ++ l :: post ∧ cloneKind fr₀ ranges l = .eager ∧
        A.free w'.fr.pool = ∅ ∧ Walked A fr₀ vm₀ ranges root (ls ++ pre) w') := by
  induction rest generalizing ls w with
  | nil =>
    cases hr
    exact .inl ⟨rfl, by simpa using h⟩
  | cons l rest ih =>
    have hl := hleaf l mem_cons_self
    have hnew : l.1 ∉ ls.map Prod.fst := by grind
    unfold VmSpace.walkLeaves at hr
    rcases h.step hl (hfree _ _ hl) hnew with ⟨hnone, hk, hempty⟩ | ⟨w₁, hsome, h₁⟩
    · rw [hnone] at hr
      cases hr
      exact .inr ⟨rfl, [], l, rest, rfl, hk, hempty, by simpa using h⟩
    rw [hsome] at hr
    rw [append_cons] at hpair
    rcases ih h₁ (fun l' hl' => hleaf l' (mem_cons_of_mem _ hl')) hpair hr with
      ⟨hs, h'⟩ | ⟨hs, pre, l', post, rfl, hk, hempty, h'⟩
    · exact .inl ⟨hs, by simpa using h'⟩
    · exact .inr ⟨hs, l :: pre, l', post, rfl, hk, hempty, by simpa using h'⟩

end

end Walk

/-! ### Entering leaves in the child -/

/-- The child holds the leaves `ents`, its tables are on the ways to `pages`, and its tree and the
copies `eager` are on the account. -/
structure Entered (fr₀ : Frames σ) (taken eager pages : List ℕ) (ents : List (ℕ × Pte))
    (fr : Frames σ) (child : VmSpace) : Prop where
  ledger : Ledger A fr₀ fr taken (child.treeFrames ++ eager)
  leaf : ∀ p e, child.leaf p = some e ↔ (p, e) ∈ ents
  tables : TablesFor pages child
  tablesAt : ∀ l ∈ ents, child.TablesAt l.1

/-- The state of `installDeferred` after the leaves `done`. -/
structure Installed (fr₀ : Frames σ) (taken eager pages : List ℕ) (done : List Deferred)
    (s : Install σ) : Prop where
  entered : Entered A fr₀ taken eager pages (done.map fun d => (d.page, deferredPte d)) s.fr s.child
  frames_eq : (s.installed.map fun l => l.2.1) = heldFrames done
  pages : ∀ d ∈ done, d.page ∈ s.shared ∨ d.page ∈ s.installed.map (·.1)

/-- No frame is left, and the child still misses a table. -/
def Starved (pages : List ℕ) (fr : Frames σ) (child : VmSpace) : Prop :=
  A.free fr.pool = ∅ ∧ child.tables.length < tableCount pages

section Enter

variable {A} {fr₀ fr fr' : Frames σ} {taken eager pages : List ℕ} {ents : List (ℕ × Pte)}
  {child child' : VmSpace}

theorem Entered.mapTo [Mapper A] {p : ℕ} {e : Pte} {r : Option MapError}
    (h : Entered A fr₀ taken eager pages ents fr child) (hp : p ∈ pages)
    (hr : mapTo A fr child p e = (r, fr', child')) :
    Entered A fr₀ taken eager pages (ents ++ if r = none then [(p, e)] else []) fr' child' ∧
      (r ≠ none → p ∉ ents.map Prod.fst → Starved A pages fr' child') := by
  obtain ⟨new, htree, hl, hkeep, hleaf, hnone, -⟩ := mapTo_spec h.ledger hr
  obtain ⟨htables, hat, hfail⟩ := tablesFor_mapTo h.tables hp hr
  refine ⟨⟨hl.perm ?_, fun q e' => ?_, htables, fun l hl => ?_⟩, fun hne hnew => hfail hne ?_⟩
  · grind
  · rw [hleaf, mem_append, ← h.leaf]
    by_cases hr : r = none
    · by_cases hq : q = p
      · rw [hq, hnone hr]
        simp [hr, eq_comm]
      · simp [hr, hq]
    · simp [hr]
  · rcases mem_append.1 hl with hl | hl
    · exact hkeep _ (h.tablesAt l hl)
    · by_cases hr : r = none
      · simp_all
      · simp [hr] at hl
  · simp_all [Option.eq_none_iff_forall_ne_some, h.leaf]

theorem Installed.push {done : List Deferred} (h : Installed A fr₀ taken eager pages done s)
    (he : Entered A fr₀ taken eager pages ((done ++ [d]).map fun d => (d.page,
      deferredPte d)) fr child) :
    Installed A fr₀ taken eager pages (done ++ [d]) (s.push d fr child) := by
  have hframes := h.frames_eq
  obtain ⟨page, frame, perms, kind⟩ := d
  cases kind with
  | sharedFile =>
    refine ⟨he, by simpa [Install.push, heldFrames] using hframes, fun d hd => ?_⟩
    rcases mem_append.1 hd with hd | hd
    · exact (h.pages d hd).imp_left (mem_append_left _)
    · exact .inl (by simp [Install.push, mem_singleton.1 hd])
  | readonlyShare | eagerCopy =>
    refine ⟨he, by simpa [Install.push, heldFrames] using hframes, fun d hd => ?_⟩
    rcases mem_append.1 hd with hd | hd
    · grind [h.pages, Install.push]
    · exact .inr (by simp [Install.push, mem_singleton.1 hd])

/-- All deferred leaves are entered, or an initial part of them. -/
theorem Installed.installDeferred [Mapper A] {done ds : List Deferred} {s' : Install σ}
    {r : Option (MapError × List Deferred)} (h : Installed A fr₀ taken eager pages done s)
    (hpages : ∀ d ∈ ds, d.page ∈ pages) (hnodup : ((done ++ ds).map Deferred.page).Nodup)
    (hr : installDeferred A ds s = (r, s')) :
    (r = none ∧ Installed A fr₀ taken eager pages (done ++ ds) s') ∨
      ∃ e pre rest, r = some (e, rest) ∧ ds = pre ++ rest ∧
        Installed A fr₀ taken eager pages (done ++ pre) s' ∧ Starved A pages s'.fr s'.child := by
  induction ds generalizing done s with
  | nil =>
    cases hr
    exact .inl ⟨rfl, by simpa using h⟩
  | cons d ds ih =>
    have hd := hpages d mem_cons_self
    have hnew : d.page ∉ (done.map fun d => (d.page, deferredPte d)).map Prod.fst := by grind
    unfold VmSpace.installDeferred at hr
    split at hr
    · rename_i e fr child hm
      cases hr
      obtain ⟨he, hstarved⟩ := h.entered.mapTo hd hm
      refine .inr ⟨e, [], d :: ds, rfl, rfl, ?_, hstarved (by simp) hnew⟩
      exact ⟨by simpa using he, by simpa using h.frames_eq, by simpa using h.pages⟩
    rename_i fr child hm
    obtain ⟨he, -⟩ := h.entered.mapTo hd hm
    rw [append_cons] at hnodup
    rcases ih (h.push (by simpa using he)) (fun d hd => hpages d (mem_cons_of_mem _ hd))
      hnodup hr with ⟨hn, h'⟩ | ⟨e, pre, rest, hs, rfl, h', hstarved⟩
    · exact .inl ⟨hn, by simpa using h'⟩
    · exact .inr ⟨e, d :: pre, rest, hs, rfl, by simpa using h', hstarved⟩

/-- The leaf that `finish_cow_clone` enters. -/
def cowEntry (c : CowLeaf) : ℕ × Pte := (c.page, forkPte c.perms c.frame true)

/-- All copy-on-write leaves are entered, or an initial part of the length returned. -/
theorem Entered.installCow [Mapper A] {cs : List CowLeaf} {n : ℕ} {r : Option (MapError × ℕ)}
    (h : Entered A fr₀ taken eager pages ents fr child) (hpages : ∀ c ∈ cs, c.page ∈ pages)
    (hnodup : (ents.map Prod.fst ++ cs.map page).Nodup)
    (hr : installCow A cs n fr child = (r, fr', child')) :
    (r = none ∧ Entered A fr₀ taken eager pages (ents ++ cs.map cowEntry) fr' child') ∨
      ∃ e k, r = some (e, n + k) ∧ Starved A pages fr' child' ∧
        Entered A fr₀ taken eager pages (ents ++ (cs.take k).map cowEntry) fr' child' := by
  induction cs generalizing ents n fr child with
  | nil =>
    cases hr
    exact .inl ⟨rfl, by simpa using h⟩
  | cons c cs ih =>
    have hc := hpages c mem_cons_self
    have hnew : c.page ∉ ents.map Prod.fst := fun hmem =>
      (nodup_append.1 hnodup).2.2 _ hmem _ mem_cons_self rfl
    unfold VmSpace.installCow at hr
    split at hr
    · rename_i e fr₁ child₁ hm
      cases hr
      obtain ⟨he, hstarved⟩ := h.mapTo hc hm
      exact .inr ⟨e, 0, rfl, hstarved (by simp) hnew, by simpa using he⟩
    rename_i fr₁ child₁ hm
    obtain ⟨he, -⟩ := h.mapTo hc hm
    rcases ih he (fun c hc => hpages c (mem_cons_of_mem _ hc)) (by simpa using hnodup) hr with
      ⟨hn, h'⟩ | ⟨e, k, hs, hstarved, h'⟩
    · exact .inl ⟨hn, by simpa [cowEntry] using h'⟩
    · refine .inr ⟨e, k + 1, ?_, hstarved, by simpa [cowEntry] using h'⟩
      rw [hs, add_assoc, add_comm 1]

end Enter

/-! ### The account of a clone -/

section Account

variable {A} {fr₀ : Frames σ} {ranges : List (ℕ × ℕ)}

variable {ls : List (ℕ × Pte)} {ds : List Deferred}

/-- What the lists of a walk name is what the walk took: references for the copy-on-write and the
read-only leaves, frames for the copies. -/
theorem held_perm
    (h : List.Forall₂ (DeferredFrom fr₀ ranges)
      (ls.filter fun l => cloneKind fr₀ ranges l ≠ .cow) ds) :
    ((cowLeaves fr₀ ranges ls).map frame ++ heldFrames ds).Perm
      (takenFrames fr₀ ranges ls ++ eagerFrames ds) := by
  induction ls generalizing ds with
  | nil =>
    cases h
    rfl
  | cons l ls ih =>
    by_cases hcow : cloneKind fr₀ ranges l = .cow
    · rw [filter_cons_of_neg (by simp [hcow])] at h
      simpa [cowLeaves, takenFrames, hcow] using ih h
    rw [filter_cons_of_pos (by simp [hcow])] at h
    obtain ⟨d, ds, hd, hds, rfl⟩ := forall₂_cons_left_iff.1 h
    cases hk : cloneKind fr₀ ranges l with
    | cow => exact absurd hk hcow
    | shared =>
      simp only [DeferredFrom, hk] at hd
      simpa [cowLeaves, takenFrames, heldFrames, eagerFrames, hk, hd] using ih hds
    | readonly =>
      simp only [DeferredFrom, hk] at hd
      have hheld : heldFrames (d :: ds) = l.2.frame :: heldFrames ds := by simp [heldFrames, hd]
      rw [hheld]
      refine perm_middle.trans ?_
      simpa [cowLeaves, takenFrames, eagerFrames, hk, hd] using ih hds
    | eager =>
      simp only [DeferredFrom, hk] at hd
      have hheld : heldFrames (d :: ds) = d.frame :: heldFrames ds := by simp [heldFrames, hd]
      have heager : eagerFrames (d :: ds) = d.frame :: eagerFrames ds := by simp [eagerFrames, hd]
      rw [hheld, heager]
      refine perm_middle.trans (List.Perm.trans ?_ perm_middle.symm)
      simpa [cowLeaves, takenFrames, hk] using ih hds

theorem length_eagerFrames (h : List.Forall₂ (DeferredFrom fr₀ ranges) ls ds) :
    (eagerFrames ds).length = ls.countP fun l => cloneKind fr₀ ranges l = .eager := by
  induction h with
  | nil => rfl
  | @cons l d ls ds hd _ ih =>
    rw [countP_cons, ← ih]
    cases hk : cloneKind fr₀ ranges l <;> simp only [DeferredFrom, hk] at hd
    case cow => exact hd.2.2.elim
    all_goals simp [eagerFrames, hd]

/-- The same with the part `pre` of the deferred leaves entered, and with the child's tree. -/
theorem account_perm (tree : List ℕ)
    (h : List.Forall₂ (DeferredFrom fr₀ ranges)
      (ls.filter fun l => cloneKind fr₀ ranges l ≠ .cow) (pre ++ rest)) :
    (heldFrames pre ++ (cowLeaves fr₀ ranges ls).map frame ++ heldFrames rest ++ tree).Perm
      (takenFrames fr₀ ranges ls ++ (tree ++ eagerFrames (pre ++ rest))) := by
  have happ : heldFrames (pre ++ rest) = heldFrames pre ++ heldFrames rest := by simp [heldFrames]
  have hheld := held_perm h
  rw [happ, ← append_assoc] at hheld
  refine ((perm_append_comm.append_right _).trans hheld).append_right tree |>.trans ?_
  grind

/-- A walk comes past a part of the leaves if there are frames for its copies. -/
theorem reached_append (ls post : List (ℕ × Pte)) (n : ℕ) :
    reached fr₀ ranges (ls.countP (fun l => cloneKind fr₀ ranges l = .eager) + n) (ls ++ post) =
      ls ++ reached fr₀ ranges n post := by
  induction ls with
  | nil => simp
  | cons l ls ih =>
    rw [countP_cons, cons_append, cons_append, ← ih]
    by_cases hk : cloneKind fr₀ ranges l = .eager
    · simp [reached, hk, add_right_comm _ 1]
    · simp [reached, hk]

end Account

/-! ### The two outcomes -/

/-- What a clone that gives up after the leaves `ls` leaves behind. -/
structure GivenUp (fr : Frames σ) (vm : VmSpace) (ranges : List (ℕ × ℕ)) (ls : List (ℕ × Pte))
    (fr' : Frames σ) (vm' : VmSpace) : Prop where
  refLen_eq : fr'.refLen = fr.refLen
  free_eq : A.free fr'.pool = A.free fr.pool
  count_eq : ∀ f, fr'.frameRefCount f =
    satDec^[(takenFrames fr ranges ls).count f]
      (satInc^[(takenFrames fr ranges ls).count f] (fr.frameRefCount f))
  leaf : ∀ p, vm'.leaf p =
    if p ∈ (cowLeaves fr ranges ls).map page then (vm.leaf p).map upgradePte
    else vm.leaf p

/-- The entry of the child for a leaf of the parent. -/
def ChildPte (fr : Frames σ) (ranges : List (ℕ × ℕ)) (l : ℕ × Pte) (e : Pte) : Prop :=
  match cloneKind fr ranges l with
  | .shared | .readonly => e = (clonePerms l.2).toPte l.2.frame
  | .cow => e = forkPte (clonePerms l.2) l.2.frame true
  | .eager => ∃ f, e = (clonePerms l.2).toPte f

/-- What a clone that succeeds makes of the memory and the parent, and its child. -/
structure Cloned (fr : Frames σ) (vm : VmSpace) (ranges : List (ℕ × ℕ)) (fr' : Frames σ)
    (vm' child : VmSpace) : Prop where
  ledger : ∃ eager, Ledger A fr fr' (takenFrames fr ranges vm.userLeaves)
    (child.treeFrames ++ eager)
  leaf : ∀ p, vm'.leaf p =
    if p ∈ (cowLeaves fr ranges vm.userLeaves).map page then (vm.leaf p).map downgradePte
    else vm.leaf p
  child_leaf : ∀ p e', child.leaf p = some e' →
    ∃ e, (p, e) ∈ vm.userLeaves ∧ ChildPte fr ranges (p, e) e'
  child_complete : ∀ l ∈ vm.userLeaves, ∃ e', child.leaf l.1 = some e'

section Outcome

variable {A} {fr fr' : Frames σ} {vm vm' : VmSpace} {ranges : List (ℕ × ℕ)} {root : ℕ}
  {ls : List (ℕ × Pte)} {w : Walk σ}

theorem Walked.length_eagerFrames (h : Walked A fr vm ranges root ls w) :
    (eagerFrames w.deferred).length = ls.countP fun l => cloneKind fr ranges l = .eager := by
  rw [VmSpace.length_eagerFrames h.deferred, countP_filter]
  refine countP_congr fun l _ => ?_
  by_cases hk : cloneKind fr ranges l = .eager <;> simp [hk]

/-- Every deferred leaf and every copy-on-write leaf is at its own page of the parent. -/
theorem Walked.pages_perm (h : Walked A fr vm ranges root ls w) :
    (w.deferred.map Deferred.page ++ w.cow.map page).Perm (ls.map Prod.fst) := by
  have hdef : w.deferred.map Deferred.page =
      (ls.filter fun l => cloneKind fr ranges l ≠ .cow).map Prod.fst := by
    refine forall₂_eq_eq_eq ▸ ?_
    rw [forall₂_map_left_iff, forall₂_map_right_iff]
    exact h.deferred.flip.imp fun d l hd => hd.1
  have hcow : w.cow.map page =
      (ls.filter fun l => cloneKind fr ranges l = .cow).map Prod.fst := by
    rw [h.cow_eq, cowLeaves, map_map]
    rfl
  grind [filter_append_perm]

variable {child : VmSpace} {pages : List ℕ}

/-- The first part of a clone: a root for the child, and the walk. -/
theorem walked_newUser {fr₁ : Frames σ}
    (hfree : ∀ p e, vm.leaf p = some e → e.frame ∉ A.free fr.pool)
    (hnew : newUser A fr = some (child, fr₁))
    (hr : walkLeaves A ranges vm.userLeaves ⟨fr₁, vm, [], []⟩ = (stop, w)) :
    Walked A fr vm ranges child.root (reachedLeaves A fr vm ranges) w ∧
      (stop = false → reachedLeaves A fr vm ranges = vm.userLeaves) ∧
      (stop = true → (A.free fr.pool).card < cloneFrames fr vm ranges) ∧
      child = ⟨child.root, [], ∅⟩ := by
  obtain ⟨⟨f, fr₂⟩, ha, heq⟩ := Option.map_eq_some_iff.1 hnew
  obtain ⟨rfl, rfl⟩ := Prod.mk.inj heq
  have hinit : Walked A fr vm ranges f [] ⟨fr₂.zeroFrame f, vm, [], []⟩ :=
    ⟨((Ledger.refl fr).alloc ha).zeroFrame f, rfl, .nil, fun p => rfl⟩
  obtain ⟨n, hn⟩ : ∃ n, (A.free fr.pool).card = n + 1 :=
    Nat.exists_eq_add_one_of_ne_zero
      (Finset.card_ne_zero_of_mem (allocFrame_eq_some A ha).1)
  have hreached : reachedLeaves A fr vm ranges = reached fr ranges n vm.userLeaves := by
    rw [reachedLeaves, hn]
  rcases hinit.walkLeaves (fun l hl => (mem_userLeaves.1 hl).1) hfree vm.pairwise_userLeaves hr with
    ⟨rfl, hw⟩ | ⟨rfl, pre, l, post, hsplit, hk, hempty, hw⟩
  · have hall : _ = vm.userLeaves ++ reached fr ranges (A.free w.fr.pool).card [] :=
      reached_append _ _ _
    grind [hw.ledger.length_acquired, hw.length_eagerFrames, reached]
  have hlen := hw.ledger.length_acquired
  rw [length_cons, hw.length_eagerFrames, hempty, Finset.card_empty, hn] at hlen
  have hpre : reachedLeaves A fr vm ranges = pre := by
    rw [hreached, hsplit, ← Nat.succ.inj hlen]
    exact (reached_append pre (l :: post) 0).trans (by simp [reached, hk])
  grind [cloneFrames]

/-- The error path of a clone, wherever it starts. -/
theorem Walked.abandon [Mapper A] (h : Walked A fr vm ranges root ls w)
    (hzero : ∀ f ∈ A.free fr.pool, fr.frameRefCount f = 0)
    (hsplit : w.deferred = pre ++ rest)
    (hs : Installed A fr (takenFrames fr ranges ls) (eagerFrames w.deferred) pages pre s) {done : ℕ}
    {fr₂ : Frames σ}
    (he : Entered A fr (takenFrames fr ranges ls) (eagerFrames w.deferred) pages
      ((pre.map fun d => (d.page, deferredPte d)) ++ (w.cow.take done).map cowEntry) fr₂ child)
    (hr : abandonClone A fr₂ w.vm child s.shared s.installed w.cow done rest = (fr', vm')) :
    GivenUp A fr vm ranges ls fr' vm' := by
  have hperm := account_perm child.treeFrames (hsplit ▸ h.deferred)
  rw [← hsplit, ← h.cow_eq, ← hs.frames_eq] at hperm
  have hgone : ∀ p, p ∉ s.shared → p ∉ s.installed.map (·.1) →
      p ∉ (w.cow.take done).map page → child.leaf p = none := by
    intro p hshared hinst hcow
    cases hp : child.leaf p with
    | none => rfl
    | some e =>
      rcases mem_append.1 ((he.leaf p e).1 hp) with hmem | hmem
      · obtain ⟨d, hd, heq⟩ := mem_map.1 hmem
        have hpage : d.page = p := congrArg Prod.fst heq
        rcases hs.pages d hd with h' | h'
        · exact absurd (hpage ▸ h') hshared
        · exact absurd (hpage ▸ h') hinst
      · obtain ⟨c, hc, heq⟩ := mem_map.1 hmem
        exact absurd (mem_map.2 ⟨c, hc, congrArg Prod.fst heq⟩) hcow
  obtain ⟨hlen, hpool, hcount, hleaf⟩ := abandonClone_spec A he.ledger hzero hperm hgone hr
  refine ⟨hlen, hpool, hcount, fun p => ?_⟩
  rw [hleaf, h.leaf, h.cow_eq]
  split_ifs
  · rw [Option.map_map]
    rfl
  · rfl

/-- The state before the first deferred leaf is entered. -/
theorem Walked.installed_nil (h : Walked A fr vm ranges root ls w) (pages : List ℕ) :
    Installed A fr (takenFrames fr ranges ls) (eagerFrames w.deferred) pages []
      ⟨w.fr, ⟨root, [], ∅⟩, [], []⟩ where
  entered := ⟨h.ledger, by simp [VmSpace.leaf], ⟨nodup_nil, by simp⟩, by simp⟩
  frames_eq := rfl
  pages := by simp

section

variable {ents : List (ℕ × Pte)} {taken eager : List ℕ}
  (h : Entered A fr taken eager pages ents fr' child)

include h

/-- A clone whose child misses a table had too few frames. -/
theorem Entered.card_lt (hs : Starved A pages fr' child) :
    (A.free fr.pool).card < 1 + eager.length + tableCount pages := by
  have hlen := h.ledger.length_acquired
  rw [hs.1, Finset.card_empty, length_append, treeFrames, length_cons,
    length_map] at hlen
  have := hs.2
  omega

/-- A clone that has entered all leaves had enough frames. -/
theorem Entered.le_card (hall : ∀ p ∈ pages, p ∈ ents.map Prod.fst) :
    1 + eager.length + tableCount pages ≤ (A.free fr.pool).card := by
  have hlen := h.ledger.length_acquired
  rw [length_append, treeFrames, length_cons, length_map] at hlen
  have hle : tableCount pages ≤ child.tables.length := TablesFor.le_length fun p hp => by
    obtain ⟨l, hl, rfl⟩ := mem_map.1 (hall p hp)
    exact h.tablesAt l hl
  omega

end

/-- A child with all leaves entered. -/
theorem Walked.cloned (h : Walked A fr vm ranges root vm.userLeaves w)
    (he : Entered A fr (takenFrames fr ranges vm.userLeaves) (eagerFrames w.deferred) pages
      ((w.deferred.map fun d => (d.page, deferredPte d)) ++ w.cow.map cowEntry) fr' child) :
    Cloned A fr vm ranges fr' w.vm child := by
  refine ⟨⟨_, he.ledger⟩, h.leaf, fun p e' hp => ?_, fun l hl => ?_⟩
  · rcases mem_append.1 ((he.leaf p e').1 hp) with hmem | hmem
    · obtain ⟨d, hd, heq⟩ := mem_map.1 hmem
      obtain ⟨rfl, rfl⟩ := Prod.mk.inj heq
      obtain ⟨l, hl, hpage, hperms, hkind⟩ := Lists.exists_of_forall₂_mem h.deferred hd
      grind [ChildPte, deferredPte, forkPte]
    obtain ⟨c, hc, heq⟩ := mem_map.1 hmem
    obtain ⟨rfl, rfl⟩ := Prod.mk.inj heq
    rw [h.cow_eq] at hc
    obtain ⟨l, hl, rfl⟩ := mem_map.1 hc
    obtain ⟨hl, hk⟩ := mem_filter.1 hl
    refine ⟨l.2, hl, ?_⟩
    simp only [decide_eq_true_eq] at hk
    simp [ChildPte, hk]
  · have hmem := h.pages_perm.mem_iff.2 (mem_map_of_mem hl)
    rcases mem_append.1 hmem with hmem | hmem
    · obtain ⟨d, hd, hpage⟩ := mem_map.1 hmem
      rw [← hpage]
      exact ⟨_, (he.leaf _ _).2 (mem_append_left _ (mem_map.2 ⟨d, hd, rfl⟩))⟩
    · obtain ⟨c, hc, hpage⟩ := mem_map.1 hmem
      rw [← hpage]
      exact ⟨_, (he.leaf _ _).2 (mem_append_right _ (mem_map.2 ⟨c, hc, rfl⟩))⟩

/-- **The two outcomes of a clone.**  With too few frames it gives up, and then it has returned
every frame, and every leaf it had come to downgrade is writable in the parent.  Otherwise the child
has a leaf for each leaf of the parent. -/
theorem forkClone_outcome [Mapper A] (hzero : ∀ f ∈ A.free fr.pool, fr.frameRefCount f = 0)
    (hfree : ∀ p e, vm.leaf p = some e → e.frame ∉ A.free fr.pool)
    {r : Except MapError (VmSpace × List ℕ)} (h : forkClone A fr vm ranges = (r, fr', vm')) :
    (∃ err, r = .error err ∧ (A.free fr.pool).card < cloneFrames fr vm ranges ∧
      GivenUp A fr vm ranges (reachedLeaves A fr vm ranges) fr' vm') ∨
      ∃ child shared, r = .ok (child, shared) ∧ cloneFrames fr vm ranges ≤ (A.free fr.pool).card ∧
        Cloned A fr vm ranges fr' vm' child := by
  unfold forkClone cloneUserHalfPhase1 at h
  cases hnew : newUser A fr with
  | none =>
    rw [hnew] at h
    cases h
    have hempty : A.free fr.pool = ∅ := (allocFrame_eq_none A).1 (Option.map_eq_none_iff.1 hnew)
    have hnil : reachedLeaves A fr vm ranges = [] := by
      rw [reachedLeaves, hempty]
      rfl
    refine .inl ⟨_, rfl, ?_, ?_⟩
    · rw [hempty, Finset.card_empty, cloneFrames]
      omega
    · rw [hnil]
      exact ⟨rfl, rfl, fun f => rfl, fun p => rfl⟩
  | some r =>
    obtain ⟨child, fr₁⟩ := r
    rw [hnew] at h
    dsimp only at h
    cases hwalk : walkLeaves A ranges vm.userLeaves ⟨fr₁, vm, [], []⟩ with
    | mk stop w =>
      obtain ⟨hw, hall, hstop, hchild⟩ := walked_newUser hfree hnew hwalk
      have hinst := hw.installed_nil (vm.userLeaves.map Prod.fst)
      rw [← hchild] at hinst
      rw [hwalk] at h
      cases stop with
      | true =>
        cases h
        exact .inl ⟨_, rfl, hstop rfl,
          hw.abandon hzero rfl hinst (by simpa using hinst.entered) rfl⟩
      | false =>
        dsimp only at h
        rw [hall rfl] at hw hinst ⊢
        have hperm := hw.pages_perm
        have hnodup := hperm.nodup_iff.2 (pairwise_map.2 vm.pairwise_userLeaves)
        have hcard : cloneFrames fr vm ranges = 1 + (eagerFrames w.deferred).length +
            tableCount (vm.userLeaves.map Prod.fst) := by rw [hw.length_eagerFrames, cloneFrames]
        rw [hcard]
        cases hdef : installDeferred A w.deferred ⟨w.fr, child, [], []⟩ with
        | mk r s =>
          rw [hdef] at h
          rcases hinst.installDeferred
            (fun d hd => hperm.mem_iff.1 (mem_append_left _ (mem_map_of_mem hd)))
            (nodup_append.1 hnodup).1 hdef with
            ⟨rfl, hs⟩ | ⟨e, pre, rest, rfl, hsplit, hs, hstarved⟩
          · dsimp only [finishCowClone] at h
            cases hcow : installCow A w.cow 0 s.fr s.child with
            | mk r t =>
              obtain ⟨fr₂, child₂⟩ := t
              rw [hcow] at h
              rcases hs.entered.installCow
                (fun c hc => hperm.mem_iff.1 (mem_append_right _ (mem_map_of_mem hc)))
                (by simpa [Function.comp_def] using hnodup) hcow with
                ⟨rfl, he⟩ | ⟨e, k, rfl, hstarved, he⟩
              · cases h
                refine .inr ⟨_, _, rfl, he.le_card fun p hp => ?_, hw.cloned he⟩
                simpa [Function.comp_def, cowEntry] using hperm.mem_iff.2 hp
              · rw [Nat.zero_add] at h
                cases h
                exact .inl ⟨_, rfl, he.card_lt hstarved,
                  hw.abandon hzero (append_nil _).symm hs he rfl⟩
          · cases h
            exact .inl ⟨_, rfl, hs.entered.card_lt hstarved,
              hw.abandon hzero hsplit hs (by simpa using hs.entered) rfl⟩

end Outcome

end VmSpace

end CypheraKernel.Mm
