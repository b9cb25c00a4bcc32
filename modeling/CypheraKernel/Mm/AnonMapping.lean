import CypheraKernel.Mm.VmSpace

/-!
# Anonymous mappings, whole or not at all

`map_anon` of `frame/src/mm/vm.rs` enters zeroed frames page by page, and takes the pages back when
there is no frame for a page or a table, or a page is in use.  New tables stay in the tree.
`mapAnon_whole`: the call leaves either the whole mapping, `Mapped`, or the old leaves, `Undone`.
-/

namespace CypheraKernel.Mm.VmSpace

open List Frames Mapper

variable {σ : Type} (A : FrameAllocator σ) [Mapper A] {fr fr₀ fr' : Frames σ} {vm : VmSpace}
  {perms : Perms} {n p : ℕ} {acquired : List ℕ}

/-- Each of the `n` pages from `p` on, none of which was in use, has got a zeroed frame of its own
with the permissions asked for, and no other leaf has changed. -/
def Mapped (fr fr' : Frames σ) (vm vm' : VmSpace) (p n : ℕ) (perms : Perms) : Prop :=
  ∃ fs tables : List ℕ, fs.length = n ∧ Ledger A fr fr' [] (fs ++ tables) ∧
    (∀ f ∈ fs, fr'.mem f = fun _ => 0) ∧ ∀ q, (p ≤ q → q < p + n → vm.leaf q = none) ∧ vm'.leaf q =
      if p ≤ q ∧ q < p + n then fs[q - p]?.map perms.toPte else vm.leaf q

/-- The leaves are as before, and of the frames that were free only those of new tables are not. -/
def Undone (fr fr' : Frames σ) (vm vm' : VmSpace) : Prop :=
  (∀ q, vm'.leaf q = vm.leaf q) ∧ ∃ tables, vm'.treeFrames = vm.treeFrames ++ tables ∧
    A.free fr'.pool = A.free fr.pool \ tables.toFinset

theorem leaf_clearPages (n p : ℕ) (vm : VmSpace) (q : ℕ) :
    (clearPages A n p vm).leaf q = if p ≤ q ∧ q < p + n then none else vm.leaf q := by
  induction n generalizing p vm with
  | zero => grind [clearPages]
  | succ n ih =>
    rw [clearPages, ih, leaf_unmap]
    grind

theorem treeFrames_clearPages (n p : ℕ) (vm : VmSpace) :
    (clearPages A n p vm).treeFrames = vm.treeFrames := by
  induction n generalizing p vm with
  | zero => rfl
  | succ n ih => rw [clearPages, ih, treeFrames_unmap]

/-- The frame that the loop of `map_anon` has allocated and not entered. -/
def AnonLoop.orphan (r : AnonLoop σ) : List ℕ := (r.failed.bind Prod.snd).toList

/-- The loop enters the new frames `fs` at the free pages from `p` on. -/
theorem mapAnonLoop_spec (owned : List ℕ) {r : AnonLoop σ}
    (hr : mapAnonLoop A perms n p owned fr vm = r) (hl : Ledger A fr₀ fr [] (owned ++ acquired))
    (hz : ∀ f ∈ owned, fr.mem f = fun _ => 0) :
    ∃ fs tables, r.owned = owned ++ fs ∧ (r.failed = none → fs.length = n) ∧
      r.vm.treeFrames = vm.treeFrames ++ tables ∧
      Ledger A fr₀ r.fr [] (r.owned ++ r.orphan ++ (acquired ++ tables)) ∧
      (∀ f ∈ r.owned, r.fr.mem f = fun _ => 0) ∧
      ∀ q, (p ≤ q → q < p + fs.length → vm.leaf q = none) ∧ r.vm.leaf q =
        if p ≤ q ∧ q < p + fs.length then fs[q - p]?.map perms.toPte else vm.leaf q := by
  induction n generalizing p owned fr vm acquired with
  | zero =>
    subst hr
    refine ⟨[], [], ?_⟩
    simpa [mapAnonLoop, AnonLoop.orphan] using ⟨hl, hz, by grind⟩
  | succ n ih =>
    unfold mapAnonLoop at hr
    cases ha : fr.allocFrame A with
    | none =>
      simp only [ha] at hr
      subst hr
      refine ⟨[], [], ?_⟩
      simpa [AnonLoop.orphan] using ⟨hl, hz, by grind⟩
    | some a =>
      obtain ⟨f, fr₁⟩ := a
      have hz₁ : ∀ g ∈ owned ++ [f], (fr₁.zeroFrame f).mem g = fun _ => 0 := by
        grind [mem_zeroFrame, mem_allocFrame]
      simp only [ha] at hr
      cases hm : mapTo A (fr₁.zeroFrame f) vm p (perms.toPte f) with
      | mk e t =>
        obtain ⟨fr₂, vm₂⟩ := t
        obtain ⟨new, htree, hl₂, -, hleaf, hnone, hzero⟩ :=
          mapTo_spec ((hl.alloc ha).zeroFrame f) hm
        have hl₃ : Ledger A fr₀ fr₂ [] ((owned ++ [f]) ++ (acquired ++ new)) :=
          hl₂.perm (by grind)
        have hz₂ : ∀ g ∈ owned ++ [f], fr₂.mem g = fun _ => 0 := fun g hg => hzero g (hz₁ g hg)
        simp only [hm] at hr
        cases e with
        | some e =>
          subst hr
          refine ⟨[], new, ?_⟩
          simpa [AnonLoop.orphan] using
            ⟨htree, by simpa using hl₃, fun g hg => hz₂ g (by simp [hg]), by grind⟩
        | none =>
          obtain ⟨fs, tables, howned, hlen, htree', hl', hz', hleaf'⟩ := ih _ hr hl₃ hz₂
          refine ⟨f :: fs, new ++ tables, by simpa using howned, by simpa using hlen,
            by rw [htree', htree, append_assoc], by simpa using hl', hz', fun q => ?_⟩
          have hq := hleaf' q
          rw [hleaf] at hq
          -- the page of this turn was free, and the later turns are above it
          grind

/-- The call maps all pages, or it has not changed a leaf and returns the frames for pages. -/
theorem mapAnon_spec (fr : Frames σ) (vm : VmSpace) (vaddr pages : ℕ) (perms : Perms) :
    (∃ fr' vm', mapAnon A fr vm vaddr pages perms = (none, fr', vm') ∧
      Mapped A fr fr' vm vm' (vaddr / pageSize) pages perms) ∨
    ∃ e fr₁ fs tables vm', mapAnon A fr vm vaddr pages perms = (some e, fr₁.freeFrames A fs, vm') ∧
      Ledger A fr fr₁ [] (fs ++ tables) ∧ (∀ q, vm'.leaf q = vm.leaf q) ∧
      vm'.treeFrames = vm.treeFrames ++ tables := by
  unfold mapAnon
  split_ifs
  · exact .inr ⟨_, fr, [], [], vm, rfl, .refl fr, fun _ => rfl, by simp⟩
  · exact .inr ⟨_, fr, [], [], vm, rfl, .refl fr, fun _ => rfl, by simp⟩
  obtain ⟨r, hr⟩ : ∃ r, mapAnonLoop A perms pages (vaddr / pageSize) [] fr vm = r := ⟨_, rfl⟩
  obtain ⟨fs, tables, howned, hlen, htree, hl, hz, hleaf⟩ :=
    mapAnonLoop_spec A [] hr (Ledger.refl fr) (by simp)
  rw [List.nil_append] at howned
  rw [hr]
  dsimp only
  cases hf : r.failed with
  | none =>
    obtain rfl := hlen hf
    exact .inl ⟨_, _, rfl, fs, tables, rfl, by simpa [AnonLoop.orphan, hf, howned] using hl,
      by rwa [← howned], hleaf⟩
  | some e =>
    refine .inr ⟨_, _, _, tables, _, rfl, by simpa [AnonLoop.orphan, hf] using hl, fun q => ?_, ?_⟩
    · rw [leaf_clearPages, howned]
      grind
    · rw [treeFrames_clearPages, htree]

/-- **Anonymous mappings.**  A failure at any page leaves nothing behind but tables. -/
theorem mapAnon_whole (fr : Frames σ) (vm : VmSpace) (vaddr pages : ℕ) (perms : Perms) :
    (∃ fr' vm', mapAnon A fr vm vaddr pages perms = (none, fr', vm') ∧
      Mapped A fr fr' vm vm' (vaddr / pageSize) pages perms) ∨
    ∃ e fr' vm', mapAnon A fr vm vaddr pages perms = (some e, fr', vm') ∧
      Undone A fr fr' vm vm' := by
  refine (mapAnon_spec A fr vm vaddr pages perms).imp_right ?_
  rintro ⟨e, fr₁, fs, tables, vm', hr, hl, hleaf, htree⟩
  refine ⟨e, _, vm', hr, hleaf, tables, htree, ?_⟩
  have hnodup := nodup_append.1 hl.nodup
  ext f
  rw [mem_free_freeFrames, hl.free_eq, hl.count_eq, hl.refLen_eq]
  grind [countMax, hl.acquired_free, mem_toFinset]

end CypheraKernel.Mm.VmSpace
