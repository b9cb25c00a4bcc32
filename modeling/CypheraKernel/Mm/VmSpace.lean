import CypheraKernel.Mm.FrameAlloc

/-!
# Address spaces

`VmSpace` of `frame/src/mm/vm.rs`: the user half of a four-level page-table tree.

A tree is given by its root frame, its lower tables and its leaf entries.  A table of level
`l = 1, 2, 3` is named by `(l, page / 512 ^ l)`, the part of a page number that leads to it.

The mapper of the paging library is not part of the source.  It is a parameter (`Mapper`) with the
laws that the proofs use; its instance creates the missing tables from the top down, keeps those it
has created when the allocation of a further one fails, and keeps the tables of a removed leaf.

The functions take page-aligned addresses of the user half in bytes.  Each works under the lock on
page-table changes; TLB maintenance and the bits the hardware sets are left out.
-/

namespace CypheraKernel.Mm

open List

/-- Why a mapping fails. -/
inductive MapError
  | outOfFrames
  | misaligned
  | alreadyMapped
  | parentTableHugePage
  | outOfUserRange
  deriving DecidableEq, Repr

/-- The number of pages of the user half. -/
def userPages : ℕ := 2 ^ 35

/-- An address space. -/
structure VmSpace where
  root : ℕ
  tables : List ((ℕ × ℕ) × ℕ)
  leaves : Std.ExtTreeMap ℕ Pte

namespace VmSpace

open Frames

variable {σ : Type} (A : FrameAllocator σ)

/-! ### Leaves and tables -/

/-- The present leaf entry of a page: `leaf_pte_ptr` and the read through it. -/
def leaf (vm : VmSpace) (p : ℕ) : Option Pte := vm.leaves[p]?

def setLeaf (vm : VmSpace) (p : ℕ) (e : Pte) : VmSpace :=
  { vm with leaves := vm.leaves.insert p e }

def clearLeaf (vm : VmSpace) (p : ℕ) : VmSpace := { vm with leaves := vm.leaves.erase p }

variable (vm : VmSpace) (p : ℕ) (e : Pte)

@[simp] theorem leaf_setLeaf (q : ℕ) :
    (vm.setLeaf p e).leaf q = if q = p then some e else vm.leaf q := by
  simp only [leaf, setLeaf, Std.ExtTreeMap.getElem?_insert, Std.LawfulEqCmp.compare_eq_iff_eq,
    eq_comm (a := p)]

@[simp] theorem leaf_clearLeaf (p q : ℕ) :
    (vm.clearLeaf p).leaf q = if q = p then none else vm.leaf q := by
  simp only [leaf, clearLeaf, Std.ExtTreeMap.getElem?_erase, Std.LawfulEqCmp.compare_eq_iff_eq,
    eq_comm (a := p)]

/-- The frames of the tree itself. -/
def treeFrames (vm : VmSpace) : List ℕ := vm.root :: vm.tables.map Prod.snd

/-- The user leaves in the order of the page-table walk. -/
def userLeaves (vm : VmSpace) : List (ℕ × Pte) :=
  vm.leaves.toList.filter fun l => l.1 < userPages

variable {p} {e}

theorem mem_userLeaves {vm : VmSpace} :
    (p, e) ∈ vm.userLeaves ↔ vm.leaf p = some e ∧ p < userPages := by
  simp [userLeaves, leaf, Std.ExtTreeMap.mem_toList_iff_getElem?_eq_some]

theorem pairwise_userLeaves : vm.userLeaves.Pairwise fun l l' => l.1 ≠ l'.1 := by
  refine (Std.ExtTreeMap.ordered_keys_toList.filter _).imp fun {l l'} h => ?_
  exact (Nat.compare_eq_lt.1 h).ne

/-- The tables on the way to a page, from the top down. -/
def tableKeys (p : ℕ) : List (ℕ × ℕ) := [(3, p / 512 ^ 3), (2, p / 512 ^ 2), (1, p / 512)]

/-- `new_user`: a tree without user entries. -/
def newUser (fr : Frames σ) : Option (VmSpace × Frames σ) :=
  (fr.allocFrame A).map fun (f, fr) => (⟨f, [], ∅⟩, fr.zeroFrame f)

/-- Create the missing tables of a list; `false` when a frame is missing. -/
def createTables : List (ℕ × ℕ) → Frames σ → VmSpace → Bool × Frames σ × VmSpace
  | [], fr, vm => (true, fr, vm)
  | key :: keys, fr, vm =>
    if key ∈ vm.tables.map Prod.fst then createTables keys fr vm
    else
      match fr.allocFrame A with
      | none => (false, fr, vm)
      | some (f, fr) =>
        createTables keys (fr.zeroFrame f) { vm with tables := vm.tables ++ [(key, f)] }

/-- Enter a leaf that is not in use. -/
def enterLeaf (fr : Frames σ) (vm : VmSpace) (p : ℕ) (e : Pte) :
    Option MapError × Frames σ × VmSpace :=
  match createTables A (tableKeys p) fr vm with
  | (false, fr, vm) => (some .outOfFrames, fr, vm)
  | (true, fr, vm) =>
    if (vm.leaf p).isSome then (some .alreadyMapped, fr, vm) else (none, fr, vm.setLeaf p e)

/-- Remove a leaf: the frame it leads to. -/
def removeLeaf (vm : VmSpace) (p : ℕ) : Option ℕ × VmSpace :=
  match vm.leaf p with
  | none => (none, vm)
  | some e => (some e.frame, vm.clearLeaf p)

variable {vm vm' : VmSpace} {fr fr' : Frames σ} {pages taken acquired : List ℕ}
  {keys : List (ℕ × ℕ)} {r : Option MapError}

/-- New tables are the only frames that `createTables` takes; they are zeroed. -/
theorem createTables_spec {fr₀ : Frames σ} (keys : List (ℕ × ℕ)) {ok : Bool}
    (h : Ledger A fr₀ fr taken acquired) (hr : createTables A keys fr vm = (ok, fr', vm')) :
    ∃ new, vm' = { vm with tables := vm.tables ++ new } ∧
      Ledger A fr₀ fr' taken (acquired ++ new.map Prod.snd) ∧
      (∀ f, fr.mem f = (fun _ => 0) → fr'.mem f = fun _ => 0) ∧
      (ok = true → ∀ key ∈ keys, key ∈ vm'.tables.map Prod.fst) := by
  induction keys generalizing fr vm acquired with
  | nil =>
    cases hr
    exact ⟨[], by simp, by simpa using h, fun _ => id, by simp⟩
  | cons key keys ih =>
    unfold createTables at hr
    split_ifs at hr with hkey
    · obtain ⟨new, hvm, hl, hzero, hkeys⟩ := ih h hr
      exact ⟨new, hvm, hl, hzero, by grind⟩
    split at hr
    · cases hr
      exact ⟨[], by simp, by simpa using h, fun _ => id, nofun⟩
    rename_i f fr₁ ha
    obtain ⟨new, hvm, hl, hzero, hkeys⟩ := ih ((h.alloc ha).zeroFrame f) hr
    refine ⟨(key, f) :: new, ?_, ?_, fun g hg => hzero g (mem_zeroFrame ?_), by grind⟩
    · rw [hvm, append_assoc]
      rfl
    · simpa using hl
    · exact .inr (by rwa [mem_allocFrame A ha])

/-- The number of tables on the ways to some pages. -/
def tableCount (pages : List ℕ) : ℕ := (pages.flatMap tableKeys).toFinset.card

/-- Every table is there once, and is on the way to one of the pages. -/
structure TablesFor (pages : List ℕ) (vm : VmSpace) : Prop where
  nodup : (vm.tables.map Prod.fst).Nodup
  mem : ∀ key ∈ vm.tables.map Prod.fst, key ∈ pages.flatMap tableKeys

theorem TablesFor.length_lt (h : TablesFor pages vm) {key : ℕ × ℕ}
    (hkey : key ∈ pages.flatMap tableKeys) (hnot : key ∉ vm.tables.map Prod.fst) :
    vm.tables.length < tableCount pages := by
  rw [← length_map (f := Prod.fst), ← toFinset_card_of_nodup h.nodup]
  refine Finset.card_lt_card ⟨fun k hk => ?_, fun hsub => ?_⟩
  · exact mem_toFinset.2 (h.mem k (mem_toFinset.1 hk))
  · exact hnot (mem_toFinset.1 (hsub (mem_toFinset.2 hkey)))

/-- `createTables` fails only when no frame is free and a table is missing. -/
theorem TablesFor.createTables {ok : Bool} (h : TablesFor pages vm)
    (hkeys : ∀ key ∈ keys, key ∈ pages.flatMap tableKeys)
    (hr : createTables A keys fr vm = (ok, fr', vm')) :
    TablesFor pages vm' ∧
      (ok = false → A.free fr'.pool = ∅ ∧ vm'.tables.length < tableCount pages) := by
  induction keys generalizing fr vm with
  | nil =>
    cases hr
    exact ⟨h, by simp⟩
  | cons key keys ih =>
    have hkey := hkeys key mem_cons_self
    have hkeys' := fun k hk => hkeys k (mem_cons_of_mem key hk)
    unfold VmSpace.createTables at hr
    split_ifs at hr with hmem
    · exact ih h hkeys' hr
    split at hr
    · grind [allocFrame_eq_none, h.length_lt]
    · refine ih ⟨?_, ?_⟩ hkeys' hr
      · grind [h.nodup]
      · grind [h.mem]

/-- The tables on the way to a page are all there. -/
def TablesAt (vm : VmSpace) (p : ℕ) : Prop := ∀ key ∈ tableKeys p, key ∈ vm.tables.map Prod.fst

theorem tablesAt_append (vm : VmSpace) (new : List ((ℕ × ℕ) × ℕ)) (q : ℕ) (h : vm.TablesAt q) :
    TablesAt { vm with tables := vm.tables ++ new } q := fun key hkey => by
  rw [map_append]
  exact mem_append_left _ (h key hkey)

theorem TablesFor.enterLeaf (h : TablesFor pages vm) (hp : p ∈ pages)
    (hr : enterLeaf A fr vm p e = (r, fr', vm')) :
    TablesFor pages vm' ∧ (r = none → vm'.TablesAt p) ∧ (r ≠ none → vm.leaf p = none →
      A.free fr'.pool = ∅ ∧ vm'.tables.length < tableCount pages) := by
  have hkeys : ∀ key ∈ tableKeys p, key ∈ pages.flatMap tableKeys :=
    fun key hkey => mem_flatMap.2 ⟨p, hp, hkey⟩
  unfold VmSpace.enterLeaf at hr
  split at hr
  · rename_i fr₁ vm₁ hc
    obtain ⟨h₁, hfail⟩ := h.createTables A hkeys hc
    cases hr
    exact ⟨h₁, nofun, fun _ _ => hfail rfl⟩
  rename_i fr₁ vm₁ hc
  obtain ⟨h₁, -⟩ := h.createTables A hkeys hc
  obtain ⟨new, rfl, -, -, hat⟩ := createTables_spec A _ (Ledger.refl fr) hc
  split_ifs at hr with hsome
  · cases hr
    refine ⟨h₁, nofun, fun _ hnone => ?_⟩
    have hsome : (vm.leaf p).isSome := hsome
    rw [hnone] at hsome
    cases hsome
  · cases hr
    exact ⟨⟨h₁.nodup, h₁.mem⟩, fun _ => hat rfl, fun h => absurd rfl h⟩

theorem TablesFor.le_length (h : ∀ p ∈ pages, vm.TablesAt p) :
    tableCount pages ≤ vm.tables.length := by
  rw [← length_map (f := Prod.fst)]
  refine le_trans (Finset.card_le_card fun key hkey => ?_) (toFinset_card_le _)
  obtain ⟨p, hp, hkey⟩ := mem_flatMap.1 (mem_toFinset.1 hkey)
  exact mem_toFinset.2 (h p hp key hkey)

theorem enterLeaf_spec {fr₀ : Frames σ}
    (h : Ledger A fr₀ fr taken acquired) (hr : enterLeaf A fr vm p e = (r, fr', vm')) :
    ∃ new, vm'.treeFrames = vm.treeFrames ++ new ∧ Ledger A fr₀ fr' taken (acquired ++ new) ∧
      (∀ q, vm.TablesAt q → vm'.TablesAt q) ∧
      (∀ q, vm'.leaf q = if q = p ∧ r = none then some e else vm.leaf q) ∧
      (r = none → vm.leaf p = none) ∧ ∀ f, fr.mem f = (fun _ => 0) → fr'.mem f = fun _ => 0 := by
  unfold enterLeaf at hr
  split at hr
  · rename_i fr₁ vm₁ hc
    obtain ⟨new, rfl, hl, hzero, -⟩ := createTables_spec A _ h hc
    cases hr
    exact ⟨new.map Prod.snd, by simp [treeFrames], hl, tablesAt_append vm new, by simp [leaf], by simp,
      hzero⟩
  rename_i fr₁ vm₁ hc
  obtain ⟨new, rfl, hl, hzero, -⟩ := createTables_spec A _ h hc
  split_ifs at hr with hsome
  · cases hr
    simp_all [treeFrames, tablesAt_append, leaf]
  cases hr
  refine ⟨new.map Prod.snd, by simp [treeFrames, setLeaf], hl, tablesAt_append vm new, fun q => ?_,
    fun _ => ?_, hzero⟩
  · simp only [and_true]
    exact leaf_setLeaf _ p e q
  · exact Option.not_isSome_iff_eq_none.1 hsome

theorem enterLeaf_of_tablesAt (ht : vm.TablesAt p)
    (hl : vm.leaf p = none) : enterLeaf A fr vm p e = (none, fr, vm.setLeaf p e) := by
  have hc (keys : List (ℕ × ℕ)) (h : ∀ key ∈ keys, key ∈ vm.tables.map Prod.fst) :
      createTables A keys fr vm = (true, fr, vm) := by
    induction keys with
    | nil => rfl
    | cons key keys ih =>
      rw [createTables, if_pos (h key mem_cons_self)]
      exact ih fun k hk => h k (mem_cons_of_mem key hk)
  rw [enterLeaf, hc _ ht]
  simp [hl]

/-- The mapper of the paging library. -/
class Mapper {σ : Type} (A : FrameAllocator σ) where
  /-- `map_to`: enter a leaf that is not in use. -/
  mapTo : Frames σ → VmSpace → ℕ → Pte → Option MapError × Frames σ × VmSpace
  /-- `unmap`: remove a leaf, and return the frame it leads to. -/
  unmap : VmSpace → ℕ → Option ℕ × VmSpace
  /-- Entering a leaf takes frames for new tables, and changes no other leaf. -/
  mapTo_spec {fr₀ fr fr' : Frames σ} {vm vm' : VmSpace} {p : ℕ} {e : Pte} {r : Option MapError}
    {taken acquired : List ℕ} (h : Ledger A fr₀ fr taken acquired)
    (hr : mapTo fr vm p e = (r, fr', vm')) :
    ∃ new, vm'.treeFrames = vm.treeFrames ++ new ∧ Ledger A fr₀ fr' taken (acquired ++ new) ∧
      (∀ q, vm.TablesAt q → vm'.TablesAt q) ∧
      (∀ q, vm'.leaf q = if q = p ∧ r = none then some e else vm.leaf q) ∧
      (r = none → vm.leaf p = none) ∧ ∀ f, fr.mem f = (fun _ => 0) → fr'.mem f = fun _ => 0
  /-- It fails for a page without a leaf only when no frame is free and a table is missing. -/
  tablesFor_mapTo {fr fr' : Frames σ} {vm vm' : VmSpace} {p : ℕ} {e : Pte} {r : Option MapError}
    {pages : List ℕ} (h : TablesFor pages vm) (hp : p ∈ pages)
    (hr : mapTo fr vm p e = (r, fr', vm')) :
    TablesFor pages vm' ∧ (r = none → vm'.TablesAt p) ∧ (r ≠ none → vm.leaf p = none →
      A.free fr'.pool = ∅ ∧ vm'.tables.length < tableCount pages)
  /-- A free leaf with all its tables can be entered. -/
  mapTo_of_tablesAt {fr : Frames σ} {vm : VmSpace} {p : ℕ} {e : Pte} (ht : vm.TablesAt p)
    (hl : vm.leaf p = none) : mapTo fr vm p e = (none, fr, vm.setLeaf p e)
  unmap_none {vm : VmSpace} {p : ℕ} (h : vm.leaf p = none) : unmap vm p = (none, vm)
  unmap_some {vm : VmSpace} {p : ℕ} {e : Pte} (h : vm.leaf p = some e) :
    (unmap vm p).1 = some e.frame
  leaf_unmap (vm : VmSpace) (p q : ℕ) :
    (unmap vm p).2.leaf q = if q = p then none else vm.leaf q
  treeFrames_unmap (vm : VmSpace) (p : ℕ) : (unmap vm p).2.treeFrames = vm.treeFrames

instance : Mapper A where
  mapTo := enterLeaf A
  unmap := removeLeaf
  mapTo_spec := enterLeaf_spec A
  tablesFor_mapTo := TablesFor.enterLeaf A
  mapTo_of_tablesAt := enterLeaf_of_tablesAt A
  unmap_none h := by rw [removeLeaf, h]
  unmap_some h := by rw [removeLeaf, h]
  leaf_unmap vm p q := by grind [removeLeaf, leaf_clearLeaf]
  treeFrames_unmap vm p := by
    unfold removeLeaf
    split <;> rfl

attribute [simp] Mapper.leaf_unmap Mapper.treeFrames_unmap

open Mapper

variable [Mapper A]

/-! ### Anonymous mappings -/

/-- `user_mapping_in_range`, with `checked_add` and `saturating_mul`. -/
def userMappingInRange (start pages : ℕ) (perms : Perms) : Bool :=
  !perms.user || (start + min (pages * pageSize) (2 ^ 64 - 1) < 2 ^ 64 ∧
    start + min (pages * pageSize) (2 ^ 64 - 1) ≤ userVaEnd)

/-- Where the loop of `map_anon` stops: the error, if any, with a frame that was allocated but not
entered, and the frames entered. -/
structure AnonLoop (σ : Type) where
  failed : Option (MapError × Option ℕ)
  owned : List ℕ
  fr : Frames σ
  vm : VmSpace

/-- The loop of `map_anon` over `n` pages from `p` on. -/
def mapAnonLoop (perms : Perms) : ℕ → ℕ → List ℕ → Frames σ → VmSpace → AnonLoop σ
  | 0, _, owned, fr, vm => ⟨none, owned, fr, vm⟩
  | n + 1, p, owned, fr, vm =>
    match fr.allocFrame A with
    | none => ⟨some (.outOfFrames, none), owned, fr, vm⟩
    | some (f, fr) =>
      match mapTo A (fr.zeroFrame f) vm p (perms.toPte f) with
      | (none, fr, vm) => mapAnonLoop perms n (p + 1) (owned ++ [f]) fr vm
      | (some e, fr, vm) => ⟨some (e, some f), owned, fr, vm⟩

/-- Remove the leaves of `n` pages from `p` on. -/
def clearPages : ℕ → ℕ → VmSpace → VmSpace
  | 0, _, vm => vm
  | n + 1, p, vm => clearPages n (p + 1) (unmap A vm p).2

def mapAnon (fr : Frames σ) (vm : VmSpace) (vaddr pages : ℕ) (perms : Perms) :
    Option MapError × Frames σ × VmSpace :=
  if userMappingInRange vaddr pages perms = false then (some .outOfUserRange, fr, vm)
  else if vaddr % pageSize ≠ 0 then (some .misaligned, fr, vm)
  else
    let r := mapAnonLoop A perms pages (vaddr / pageSize) [] fr vm
    match r.failed with
    | none => (none, r.fr, r.vm)
    | some (e, orphan) =>
      let vm := clearPages A r.owned.length (vaddr / pageSize) r.vm
      (some e, r.fr.freeFrames A (r.owned ++ orphan.toList), vm)

/-! ### Copy on write -/

/-- What `break_cow` found or did. -/
inductive CowBreak
  | broken (oldFrame : ℕ)
  | brokenInPlace
  | alreadyWritable
  | notCow
  | notPresent
  deriving DecidableEq, Repr

/-- The writable entry that `break_cow` installs for a frame. -/
def brokenPte (e : Pte) (newPerms : Option Perms) (frame : ℕ) : Pte :=
  match newPerms with
  | some perms => { perms.toPte frame with writable := true }
  | none => { e with frame := frame, cow := false, writable := true }

def breakCow (fr : Frames σ) (vm : VmSpace) (vaddr : ℕ) (newPerms : Option Perms) :
    Except MapError CowBreak × Frames σ × VmSpace :=
  let p := vaddr / pageSize
  match vm.leaf p with
  | none => (.ok .notPresent, fr, vm)
  | some e =>
    if e.writable then (.ok .alreadyWritable, fr, vm)
    else if e.cow = false then (.ok .notCow, fr, vm)
    else if fr.frameRefCount e.frame = 0 then (.ok .notCow, fr, vm)
    else if fr.frameRefCount e.frame = 1 then
      (.ok .brokenInPlace, fr, vm.setLeaf p (brokenPte e newPerms e.frame))
    else
      match fr.allocFrame A with
      | none => (.error .outOfFrames, fr, vm)
      | some (f, fr) =>
        (.ok (.broken e.frame), fr.copyFrame e.frame f, vm.setLeaf p (brokenPte e newPerms f))

/-- The frame that the caller of `break_cow` has to free. -/
def oldFrames : Except MapError CowBreak → List ℕ
  | .ok (.broken f) => [f]
  | _ => []

variable {vaddr : ℕ} {newPerms : Option Perms}

omit [Mapper A] in
/-- `break_cow` reports a writable page when it finds one, and then does nothing. -/
theorem breakCow_alreadyWritable
    (h : breakCow A fr vm vaddr newPerms = (.ok .alreadyWritable, fr', vm')) :
    fr' = fr ∧ vm' = vm ∧ ∃ e, vm.leaf (vaddr / pageSize) = some e ∧ e.writable = true := by
  dsimp only [breakCow] at h
  grind

/-- `restamp_perms`. -/
def restampPerms (vm : VmSpace) (p : ℕ) (perms : Perms) : Bool × VmSpace :=
  match vm.leaf p with
  | none => (false, vm)
  | some e => (true, vm.setLeaf p { perms.toPte e.frame with writable := true })

/-! ### Changing permissions -/

/-- The new entry of a leaf in the first loop of `change_perms`, and whether the page has to be
copied afterwards. -/
def protectPte (fr : Frames σ) (perms : Perms) (e : Pte) : Pte × Bool :=
  if e.cow ∧ perms.write then
    if fr.frameRefCount e.frame > 1 then ({ e with writable := false, cow := true }, true)
    else (perms.toPte e.frame, false)
  else if e.cow then ({ perms.toPte e.frame with writable := false, cow := true }, false)
  else (perms.toPte e.frame, false)

/-- The first loop over `n` pages from `p` on: the number of absent pages and the pages to copy. -/
def protectLoop (fr : Frames σ) (perms : Perms) : ℕ → ℕ → VmSpace → ℕ × List ℕ × VmSpace
  | 0, _, vm => (0, [], vm)
  | n + 1, p, vm =>
    match vm.leaf p with
    | none =>
      let (absent, breaks, vm) := protectLoop fr perms n (p + 1) vm
      (absent + 1, breaks, vm)
    | some e =>
      let (e', copy) := protectPte fr perms e
      let (absent, breaks, vm) := protectLoop fr perms n (p + 1) (vm.setLeaf p e')
      (absent, if copy then p :: breaks else breaks, vm)

/-- The state of the second loop. -/
structure BreakLoop (σ : Type) where
  copied : ℕ
  anyBroken : Bool
  freed : List ℕ
  fr : Frames σ
  vm : VmSpace

/-- One turn of the second loop. -/
def breakPage (perms : Perms) (s : BreakLoop σ) (p : ℕ) : BreakLoop σ :=
  match breakCow A s.fr s.vm (p * pageSize) (some perms) with
  | (.ok (.broken f), fr, vm) => ⟨s.copied + 1, true, s.freed ++ [f], fr, vm⟩
  | (.ok .brokenInPlace, fr, vm) => { s with anyBroken := true, fr := fr, vm := vm }
  | (.ok .alreadyWritable, fr, vm) =>
    let (done, vm) := restampPerms vm p perms
    { s with anyBroken := s.anyBroken || done, fr := fr, vm := vm }
  | (_, fr, vm) => { s with fr := fr, vm := vm }

structure ProtectResult where
  (notPresent copied : ℕ)
  deriving DecidableEq, Repr

def changePerms (fr : Frames σ) (vm : VmSpace) (vaddr pages : ℕ) (perms : Perms) :
    Except MapError ProtectResult × Frames σ × VmSpace :=
  if vaddr % pageSize ≠ 0 then (.error .misaligned, fr, vm)
  else
    let (absent, breaks, vm) := protectLoop fr perms pages (vaddr / pageSize) vm
    let s := breaks.foldl (breakPage A perms) ⟨0, false, [], fr, vm⟩
    let fr := if s.anyBroken then s.fr.freeFrames A s.freed else s.fr
    (.ok ⟨absent, s.copied⟩, fr, s.vm)

/-! ### Unmapping -/

/-- `unmap_keep_frame`. -/
def unmapKeepFrame (vm : VmSpace) (vaddr : ℕ) : VmSpace :=
  if vaddr % pageSize ≠ 0 then vm else (unmap A vm (vaddr / pageSize)).2

/-- The loop of `unmap_pages_collect`: the frames of the removed leaves. -/
def collectPages : ℕ → ℕ → VmSpace → List ℕ × VmSpace
  | 0, _, vm => ([], vm)
  | n + 1, p, vm =>
    let (f, vm) := unmap A vm p
    let (fs, vm) := collectPages n (p + 1) vm
    (f.toList ++ fs, vm)

def unmapPages (fr : Frames σ) (vm : VmSpace) (vaddr pages : ℕ) : Frames σ × VmSpace :=
  if vaddr % pageSize ≠ 0 then (fr, vm)
  else
    let (freed, vm) := collectPages A pages (vaddr / pageSize) vm
    (fr.freeFrames A freed, vm)

/-- The end of an address space: `clear_user` and the release of the root.  The walk of the source
releases a table right after what is below it; here all tables follow all leaves. -/
def drop (fr : Frames σ) (vm : VmSpace) : Frames σ :=
  (fr.freeFrames A (vm.userLeaves.map fun l => l.2.frame)).freeFrames A vm.treeFrames.reverse

/-! ### The leaves an operation can change -/

variable {q : ℕ}

theorem leaf_mapTo_of_ne (h : q ≠ p) : (mapTo A fr vm p e).2.2.leaf q = vm.leaf q := by
  cases hr : mapTo A fr vm p e with
  | mk r rest =>
    obtain ⟨new, -, -, -, hleaf, -⟩ := mapTo_spec (Ledger.refl fr) hr
    rw [hleaf q, if_neg fun hq => h hq.1]

omit [Mapper A] in
theorem leaf_breakCow_of_ne
    (h : q ≠ vaddr / pageSize) : (breakCow A fr vm vaddr newPerms).2.2.leaf q = vm.leaf q := by
  dsimp only [breakCow]
  split
  · rfl
  split_ifs
  · rfl
  · rfl
  · rfl
  · rw [leaf_setLeaf, if_neg h]
  · split
    · rfl
    · rw [leaf_setLeaf, if_neg h]

theorem leaf_collectPages (n p : ℕ) (vm : VmSpace) (q : ℕ) :
    (collectPages A n p vm).2.leaf q = if p ≤ q ∧ q < p + n then none else vm.leaf q := by
  induction n generalizing p vm with
  | zero => rw [if_neg (by omega), collectPages]
  | succ n ih =>
    show (collectPages A n (p + 1) (unmap A vm p).2).2.leaf q = _
    rw [ih, leaf_unmap]
    split_ifs <;> first | rfl | omega

theorem leaf_unmapPages (h : vaddr % pageSize = 0) (pages q : ℕ) :
    (unmapPages A fr vm vaddr pages).2.leaf q =
      if vaddr / pageSize ≤ q ∧ q < vaddr / pageSize + pages then none else vm.leaf q := by
  rw [unmapPages, if_neg (not_not.2 h)]
  exact leaf_collectPages A pages _ vm q

variable {perms : Perms}

theorem leaf_protectLoop_of_not_mem {n : ℕ}
    (h : ¬ (p ≤ q ∧ q < p + n)) : (protectLoop fr perms n p vm).2.2.leaf q = vm.leaf q := by
  induction n generalizing p vm with
  | zero => rfl
  | succ n ih =>
    unfold protectLoop
    split
    · exact ih (by omega)
    · exact (ih (by omega)).trans (by rw [leaf_setLeaf, if_neg (by omega)])

/-- Where every page is present and none is copy-on-write, the first loop of `change_perms` gives
all of them the new permissions. -/
theorem protectLoop_present (fr : Frames σ) (perms : Perms) (he : e.cow = false) (n : ℕ)
    (h : ∀ q, p ≤ q → q < p + n → vm.leaf q = some e) :
    (protectLoop fr perms n p vm).1 = 0 ∧ (protectLoop fr perms n p vm).2.1 = [] ∧
      ∀ q, p ≤ q → q < p + n →
        (protectLoop fr perms n p vm).2.2.leaf q = some (perms.toPte e.frame) := by
  induction n generalizing p vm with
  | zero => exact ⟨rfl, rfl, fun q h1 h2 => by omega⟩
  | succ n ih =>
    have hpte : protectPte fr perms e = (perms.toPte e.frame, false) := by simp [protectPte, he]
    obtain ⟨h1, h2, h3⟩ := @ih (p + 1) (vm.setLeaf p (perms.toPte e.frame))
      fun q hq hq' => by
        rw [leaf_setLeaf, if_neg (by omega)]
        exact h q (by omega) (by omega)
    unfold protectLoop
    rw [h p le_rfl (by omega)]
    dsimp only
    rw [hpte]
    refine ⟨h1, h2, fun q hq hq' => ?_⟩
    rcases hq.eq_or_lt with rfl | hlt
    · simp [leaf_protectLoop_of_not_mem]
    · exact h3 q hlt (by omega)

theorem mem_protectLoop {n : ℕ}
    (h : q ∈ (protectLoop fr perms n p vm).2.1) : p ≤ q ∧ q < p + n := by
  induction n generalizing p vm with
  | zero => cases h
  | succ n ih =>
    unfold protectLoop at h
    split at h
    · have := ih h
      omega
    · grind

omit [Mapper A] in
theorem leaf_breakPage_of_ne {s : BreakLoop σ} (h : q ≠ p) :
    (breakPage A perms s p).vm.leaf q = s.vm.leaf q := by
  have hb : (breakCow A s.fr s.vm (p * pageSize) (some perms)).2.2.leaf q = s.vm.leaf q :=
    leaf_breakCow_of_ne A (by rwa [Nat.mul_div_cancel _ (by decide : 0 < pageSize)])
  unfold breakPage
  split <;> rename_i hc <;> rw [hc] at hb
  · exact hb
  · exact hb
  · rename_i vm'
    show (restampPerms vm' p perms).2.leaf q = s.vm.leaf q
    unfold restampPerms
    split
    · exact hb
    · exact (leaf_setLeaf ..).trans ((if_neg h).trans hb)
  · exact hb

omit [Mapper A] in
/-- `change_perms` changes no leaf outside its range. -/
theorem leaf_changePerms_of_not_mem {pages : ℕ}
    (h : ¬ (vaddr / pageSize ≤ q ∧ q < vaddr / pageSize + pages)) :
    (changePerms A fr vm vaddr pages perms).2.2.leaf q = vm.leaf q := by
  have hfold (breaks : List ℕ) (s : BreakLoop σ) (hne : ∀ p ∈ breaks, q ≠ p) :
      (breaks.foldl (breakPage A perms) s).vm.leaf q = s.vm.leaf q := by
    induction breaks generalizing s with
    | nil => rfl
    | cons p breaks ih =>
      exact (ih _ fun r hr => hne r (mem_cons_of_mem p hr)).trans
        (leaf_breakPage_of_ne A (hne p mem_cons_self))
  unfold changePerms
  split_ifs
  · rfl
  · refine (hfold _ _ ?_).trans (leaf_protectLoop_of_not_mem h)
    rintro p hp rfl
    exact h (mem_protectLoop hp)

end VmSpace

end CypheraKernel.Mm
