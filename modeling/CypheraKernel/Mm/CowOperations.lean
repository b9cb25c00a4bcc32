import CypheraKernel.Mm.AnonMapping
import CypheraKernel.Mm.CowInvariant

/-!
# The operations on an address space keep the copy-on-write invariant

One address space `i` is changed, the others stand still: `withSpace L i vm S` is the table of
mappings `L` with the leaves of `vm` for space `i`, the pages in `S` being the shared ones.

For each operation of `VmSpace` there is one theorem.  Two of them carry a condition:

* `CowInv.changePerms`: a private page that is read-only, not copy-on-write and has a frame with
  more than one reference must not be made writable;
* `CowInv.unmapPages`: shared pages are not unmapped this way.
-/

namespace CypheraKernel.Mm

open Frames Multiset

/-- The mappings of one address space. -/
def VmSpace.view (vm : VmSpace) (S : ℕ → Bool) (p : ℕ) : Option Mapping :=
  (vm.leaf p).map fun e => ⟨e, S p⟩

/-- The table with the leaves of an address space. -/
def withSpace (L : Mappings) (i : ℕ) (vm : VmSpace) (S : ℕ → Bool) : Mappings :=
  Function.update L i (vm.view S)

section WithSpace

variable {L : Mappings} {i p : ℕ} {vm vm' : VmSpace} {S S' : ℕ → Bool}

theorem withSpace_self : withSpace L i vm S i p = (vm.leaf p).map fun e => ⟨e, S p⟩ := by
  rw [withSpace, Function.update_self]
  rfl

theorem withSpace_of_ne {j : ℕ} (hj : j ≠ i) : withSpace L i vm S j p = L j p := by
  rw [withSpace, Function.update_of_ne hj]

theorem withSpace_eq_some {j : ℕ} {m : Mapping} (h : withSpace L i vm S j p = some m) :
    j = i ∧ vm.leaf p = some m.pte ∧ m.shared = S p ∨ j ≠ i ∧ L j p = some m := by
  by_cases hj : j = i
  · grind [withSpace_self, Option.map_eq_some_iff]
  · rw [withSpace_of_ne hj] at h
    exact .inr ⟨hj, h⟩

/-- A change of one leaf. -/
theorem withSpace_set {m : Option Pte} (h : ∀ q, vm'.leaf q = if q = p then m else vm.leaf q) :
    withSpace L i vm' S = (withSpace L i vm S).set i p (m.map fun e => ⟨e, S p⟩) := by
  funext j q
  unfold Mappings.set
  by_cases hj : j = i
  · subst hj
    rw [withSpace_self, withSpace_self, h]
    by_cases hq : q = p
    · simp [hq]
    · simp [hq]
  · rw [withSpace_of_ne hj, withSpace_of_ne hj, if_neg fun h => hj h.1]

theorem withSpace_congr (hleaf : ∀ q, vm'.leaf q = vm.leaf q)
    (hS : ∀ q, (vm.leaf q).isSome → S' q = S q) : withSpace L i vm' S' = withSpace L i vm S := by
  funext j q
  by_cases hj : j = i
  · subst hj
    rw [withSpace_self, withSpace_self, hleaf]
    cases hq : vm.leaf q with
    | none => rfl
    | some e => rw [hS q (by simp [hq])]
  · rw [withSpace_of_ne hj, withSpace_of_ne hj]

end WithSpace

theorem Mappings.set_set (L : Mappings) (i p : ℕ) (m m' : Option Mapping) :
    (L.set i p m).set i p m' = L.set i p m' := by
  funext j q
  unfold Mappings.set
  split_ifs <;> rfl

namespace CowInv

open VmSpace Mapper

variable {σ : Type} {A : FrameAllocator σ} {x : Prop} {fr fr' : Frames σ} {L : Mappings} {i p : ℕ}
  {vm vm' : VmSpace} {S : ℕ → Bool} {held : Multiset ℕ} {r : Option MapError} {e : Pte}
  {fs : List ℕ}

/-! ### Single leaves -/

section

variable (h : CowInv A x fr (withSpace L i vm S) held)

include h

/-- New flags for one leaf. -/
theorem setLeaf {e' : Pte} (he : vm.leaf p = some e) (hframe : e'.frame = e.frame)
    (hw : x → e'.writable = true → S p = false →
      e.writable = true ∨ Sole (withSpace L i vm S) i e.frame) :
    CowInv A x fr (withSpace L i (vm.setLeaf p e') S) held := by
  grind [h.restamp, leaf_setLeaf, withSpace_self, withSpace_of_ne]

/-- A private leaf is removed. -/
theorem unmap [Mapper A] (hS : (vm.leaf p).isSome → S p = false) :
    CowInv A x fr (withSpace L i (unmap A vm p).2 S) (held + (unmap A vm p).1.toList) := by
  cases hp : vm.leaf p with
  | none =>
    have hsame : Mapper.unmap A vm p = (none, vm) := unmap_none hp
    rw [hsame]
    simpa using h
  | some e =>
    have hfst : (Mapper.unmap A vm p).1 = some e.frame := unmap_some hp
    have hm : withSpace L i vm S i p = some ⟨e, S p⟩ := by rw [withSpace_self, hp]; rfl
    rw [hfst, withSpace_set (leaf_unmap vm p)]
    refine (h.remove hm (hS (by simp [hp]))).mono (le_of_eq ?_)
    rw [Option.toList_some, coe_singleton, add_comm]
    rfl

/-- A leaf is removed and its reference kept elsewhere. -/
theorem unmapKeep [Mapper A] : CowInv A x fr (withSpace L i (Mapper.unmap A vm p).2 S) held := by
  grind [h.restamp, leaf_unmap, withSpace_self, withSpace_of_ne]

/-- A held frame is entered with `mapTo`. -/
theorem mapTo [Mapper A] (hf : e.frame ∈ held) (hle : fr.frameRefCount e.frame ≤ 1)
    (hS : S p = true → (vm.leaf p).isSome) (hr : mapTo A fr vm p e = (r, fr', vm')) :
    CowInv A x fr' (withSpace L i vm' S) (if r = none then held.erase e.frame else held) := by
  obtain ⟨new, -, hl, -, hleaf, hnone, -⟩ := mapTo_spec (Ledger.refl fr) hr
  rw [List.nil_append] at hl
  have h' := (h.acquire hl).mono (le_add_right held new)
  by_cases hr : r = none
  · have hcount : fr'.frameRefCount e.frame ≤ 1 := by
      rw [hl.count_eq, if_neg fun hmem => h.not_mem_held_of_free (hl.acquired_free _ hmem.1) hf]
      exact hle
    rw [if_pos hr, withSpace_set (m := some e) (p := p) (fun q => by simpa [hr] using hleaf q)]
    grind [h'.install, withSpace_self]
  · rw [if_neg hr, withSpace_congr (fun q => by simpa [hr] using hleaf q) fun _ _ => rfl]
    exact h'

end

/-! ### Anonymous mappings -/

/-- Held frames are entered at private pages, one after the other. -/
theorem enter {perms : Perms} (h : CowInv A x fr (withSpace L i vm S) (held + fs))
    (hcount : ∀ f ∈ fs, fr.frameRefCount f ≤ 1)
    (hleaf : ∀ q, (p ≤ q → q < p + fs.length → vm.leaf q = none ∧ S q = false) ∧ vm'.leaf q =
      if p ≤ q ∧ q < p + fs.length then fs[q - p]?.map perms.toPte else vm.leaf q) :
    CowInv A x fr (withSpace L i vm' S) held := by
  induction fs generalizing p vm with
  | nil =>
    rw [withSpace_congr (fun q => (hleaf q).2.trans (if_neg (by simp))) fun _ _ => rfl]
    simpa using h
  | cons f fs ih =>
    obtain ⟨hfree, hS⟩ := (hleaf p).1 le_rfl (by simp)
    have hnone : withSpace L i vm S i p = none := by
      rw [withSpace_self, hfree]
      rfl
    have hnew := h.install (e := perms.toPte f) hnone (by simp [Perms.toPte])
      (hcount f List.mem_cons_self)
    have hset := withSpace_set (L := L) (i := i) (S := S) (leaf_setLeaf vm p (perms.toPte f))
    rw [Option.map_some, hS] at hset
    rw [← hset, ← cons_coe, add_cons, show (perms.toPte f).frame = f from rfl, erase_cons_head]
      at hnew
    refine ih (p := p + 1) hnew (fun f hf => hcount f (List.mem_cons_of_mem _ hf)) fun q => ?_
    have hq := hleaf q
    grind [leaf_setLeaf]

section

variable (h : CowInv A x fr (withSpace L i vm S) held) {perms : Perms} {vaddr pages : ℕ}
include h

/-- **Anonymous mappings** keep the invariant, also when they fail. -/
theorem mapAnon [Mapper A] (hS : ∀ q, S q = true → (vm.leaf q).isSome)
    (hr : mapAnon A fr vm vaddr pages perms = (r, fr', vm')) :
    CowInv A x fr' (withSpace L i vm' S) held := by
  have hsub (fs tables : List ℕ) : fs.Subperm (fs ++ tables) :=
    (List.sublist_append_left fs tables).subperm
  rcases mapAnon_spec A fr vm vaddr pages perms with
    ⟨fr₁, vm₁, hr', fs, tables, rfl, hl, -, hleaf⟩ | ⟨e, fr₁, fs, tables, vm₁, hr', hl, hleaf, -⟩
  · cases hr.symm.trans hr'
    have hheld : CowInv A x fr' (withSpace L i vm S) (held + fs) :=
      (h.acquire hl).mono (by simp [hsub])
    refine enter (p := vaddr / pageSize) hheld (fun f hf => ?_)
      fun q => ⟨fun hle hlt => ?_, (hleaf q).2⟩
    · rw [hl.count_eq]
      grind [h.free_lt, hl.acquired_free]
    · have hnone := (hleaf q).1 hle hlt
      grind
  · cases hr.symm.trans hr'
    rw [withSpace_congr hleaf fun _ _ => rfl]
    exact freeFrames fs ((h.acquire hl).mono (by simp [hsub]))

/-! ### Copy on write -/

omit h in
theorem mapping_self (he : vm.leaf p = some e) : withSpace L i vm S i p = some ⟨e, S p⟩ := by
  rw [withSpace_self, he]
  rfl

omit h in
theorem frame_brokenPte (e : Pte) (newPerms : Option Perms) (f : ℕ) :
    (brokenPte e newPerms f).frame = f := by
  cases newPerms <;> rfl

/-- **Breaking copy-on-write.**  The old frame of a copied page is held by the caller. -/
theorem breakCow {newPerms : Option Perms} {r : Except MapError CowBreak}
    (hr : breakCow A fr vm vaddr newPerms = (r, fr', vm')) :
    CowInv A x fr' (withSpace L i vm' S) (held + oldFrames r) := by
  have hsame : CowInv A x fr (withSpace L i vm S) (held + ([] : List ℕ)) := by simpa using h
  dsimp only [VmSpace.breakCow] at hr
  cases he : vm.leaf (vaddr / pageSize) with
  | none =>
    rw [he] at hr
    cases hr
    exact hsame
  | some e =>
    rw [he] at hr
    dsimp only at hr
    have hm := mapping_self (L := L) (i := i) (S := S) he
    split_ifs at hr with hw hcow hzero hone
    · cases hr
      exact hsame
    · cases hr
      exact hsame
    · cases hr
      exact hsame
    · cases hr
      exact hsame.setLeaf he (frame_brokenPte e newPerms _) fun _ _ hs =>
        .inr (h.sole_of_count_le hm hs hone.le)
    · cases ha : fr.allocFrame A with
      | none =>
        rw [ha] at hr
        cases hr
        exact hsame
      | some t =>
        obtain ⟨f, fr₁⟩ := t
        rw [ha] at hr
        cases hr
        have hs : S (vaddr / pageSize) = false := by
          by_contra hs
          have hle : fr.frameRefCount e.frame ≤ 1 := h.shared_count hm (by simpa using hs)
          omega
        have hfree := (allocFrame_eq_some A ha).1
        have hl := ((Ledger.refl fr).alloc ha).copyFrame e.frame f
        have hcount : (fr₁.copyFrame e.frame f).frameRefCount f ≤ 1 := by
          rw [hl.count_eq, if_pos ⟨by simp, h.free_lt f hfree⟩]
        -- The old leaf goes, its frame is held; the new frame, held since its allocation, takes
        -- its place.
        have hgone := (h.acquire hl).remove hm hs
        have hnew := hgone.install (e := brokenPte e newPerms f) (i := i) (p := vaddr / pageSize)
          (by simp [Mappings.set]) (by simp [frame_brokenPte]) (by rwa [frame_brokenPte])
        rw [Mappings.set_set, frame_brokenPte] at hnew
        rw [withSpace_set (leaf_setLeaf vm _ _), Option.map_some, hs]
        refine hnew.mono (le_of_eq ?_)
        rw [List.nil_append, coe_singleton, add_comm held {f}, singleton_add,
          cons_swap, erase_cons_head, oldFrames, coe_singleton, add_comm,
          singleton_add]

/-! ### Changing permissions -/

/-- The first loop of `change_perms` does not make this leaf writable while others map its frame. -/
def ProtectOk (fr : Frames σ) (perms : Perms) (e : Pte) : Prop :=
  perms.write = true → e.cow = false → e.writable = false → fr.frameRefCount e.frame ≤ 1

theorem protectLeaf (he : vm.leaf p = some e) (hok : x → S p = false → ProtectOk fr perms e) :
    CowInv A x fr (withSpace L i (vm.setLeaf p (protectPte fr perms e).1) S) held := by
  have hm := mapping_self (L := L) (i := i) (S := S) he
  refine h.setLeaf he ?_ fun hx hw hs => ?_
  · unfold protectPte
    split_ifs <;> rfl
  unfold protectPte at hw
  split_ifs at hw with hcw hcount hcow
  · exact .inr (h.sole_of_count_le hm hs (not_lt.1 hcount))
  cases hew : e.writable with
  | true => exact .inl rfl
  | false =>
    have hle := hok hx hs hw (by simpa using hcow) hew
    exact .inr (h.sole_of_count_le hm hs hle)

theorem protectLoop (n : ℕ)
    (hok : x → ∀ q e, p ≤ q → q < p + n → vm.leaf q = some e → S q = false → ProtectOk fr perms e) :
    CowInv A x fr (withSpace L i (protectLoop fr perms n p vm).2.2 S) held := by
  induction n generalizing p vm with
  | zero => exact h
  | succ n ih =>
    unfold protectLoop
    cases he : vm.leaf p with
    | none => exact ih h fun hx q e hle hlt => hok hx q e (by omega) (by omega)
    | some e =>
      have h' := h.protectLeaf he fun hx => hok hx p e le_rfl (by omega) he
      refine ih h' fun hx q e' hle hlt hq => ?_
      rw [leaf_setLeaf, if_neg (by omega)] at hq
      exact hok hx q e' (by omega) (by omega) hq

omit h in
/-- The second loop holds the frames it will free. -/
theorem breakPage {s : BreakLoop σ} (h : CowInv A x s.fr (withSpace L i s.vm S) (held + s.freed))
    (hfreed : s.anyBroken = false → s.freed = []) (p : ℕ) :
    CowInv A x (breakPage A perms s p).fr (withSpace L i (breakPage A perms s p).vm S)
        (held + (breakPage A perms s p).freed) ∧
      ((breakPage A perms s p).anyBroken = false → (breakPage A perms s p).freed = []) := by
  unfold VmSpace.breakPage
  cases hb : VmSpace.breakCow A s.fr s.vm (p * pageSize) (some perms) with
  | mk r t =>
    obtain ⟨fr₁, vm₁⟩ := t
    have h' := h.breakCow hb
    rcases r with err | (f | _ | _ | _ | _)
    · exact ⟨by simpa [oldFrames] using h', hfreed⟩
    · refine ⟨?_, nofun⟩
      rw [add_assoc] at h'
      exact h'
    · exact ⟨by simpa [oldFrames] using h', nofun⟩
    · -- The page was writable already, and stays so under its new flags.
      obtain ⟨rfl, rfl, e, he, hw⟩ := breakCow_alreadyWritable A hb
      rw [Nat.mul_div_cancel _ (by decide)] at he
      have hstamp : restampPerms s.vm p perms =
          (true, s.vm.setLeaf p { perms.toPte e.frame with writable := true }) := by
        rw [restampPerms, he]
      dsimp only
      rw [hstamp]
      exact ⟨h.setLeaf he rfl fun _ _ _ => .inl hw, by simp⟩
    · exact ⟨by simpa [oldFrames] using h', hfreed⟩
    · exact ⟨by simpa [oldFrames] using h', hfreed⟩

/-- **Changing permissions** keeps the invariant, if no private page is made writable that is
read-only, not copy-on-write, and has a frame with several references. -/
theorem changePerms {r : Except MapError ProtectResult}
    (hok : x → ∀ q e, vaddr / pageSize ≤ q → q < vaddr / pageSize + pages → vm.leaf q = some e →
      S q = false → ProtectOk fr perms e)
    (hr : changePerms A fr vm vaddr pages perms = (r, fr', vm')) :
    CowInv A x fr' (withSpace L i vm' S) held := by
  unfold VmSpace.changePerms at hr
  split_ifs at hr
  · cases hr
    exact h
  dsimp only at hr
  have hfirst := h.protectLoop pages hok
  set t := VmSpace.protectLoop fr perms pages (vaddr / pageSize) vm
  have hfold : ∀ (breaks : List ℕ) (s : BreakLoop σ),
      CowInv A x s.fr (withSpace L i s.vm S) (held + s.freed) →
      (s.anyBroken = false → s.freed = []) →
      let s' := breaks.foldl (VmSpace.breakPage A perms) s
      CowInv A x s'.fr (withSpace L i s'.vm S) (held + s'.freed) ∧
        (s'.anyBroken = false → s'.freed = []) := by
    intro breaks
    induction breaks with
    | nil => exact fun s hs hf => ⟨hs, hf⟩
    | cons p breaks ih =>
      intro s hs hf
      exact ih (VmSpace.breakPage A perms s p) (hs.breakPage hf p).1 (hs.breakPage hf p).2
  obtain ⟨hinv, hfreed⟩ := hfold t.2.1 ⟨0, false, [], fr, t.2.2⟩ (by simpa using hfirst)
    fun _ => rfl
  cases hr
  split_ifs with hany
  · exact freeFrames _ hinv
  · simp_all

/-! ### Unmapping -/

/-- **Unmapping** pages that are not shared. -/
theorem unmapPages [Mapper A]
    (hok : ∀ q, vaddr / pageSize ≤ q → q < vaddr / pageSize + pages → (vm.leaf q).isSome →
      S q = false) (hr : unmapPages A fr vm vaddr pages = (fr', vm')) :
    CowInv A x fr' (withSpace L i vm' S) held := by
  have hcollect : ∀ (n p : ℕ) (vm : VmSpace) (held : Multiset ℕ),
      CowInv A x fr (withSpace L i vm S) held →
      (∀ q, p ≤ q → q < p + n → (vm.leaf q).isSome → S q = false) →
      CowInv A x fr (withSpace L i (collectPages A n p vm).2 S)
        (held + (collectPages A n p vm).1) := by
    intro n
    induction n with
    | zero => exact fun p vm held h _ => by simpa [collectPages] using h
    | succ n ih =>
      intro p vm held h hok
      have h' := ih (p + 1) _ _ (h.unmap (p := p) (hok p le_rfl (by omega))) fun q hle hlt hq => by
        rw [leaf_unmap, if_neg (by omega)] at hq
        exact hok q (by omega) (by omega) hq
      rw [add_assoc, coe_add] at h'
      exact h'
  grind [unmapPages, freeFrames]

theorem unmapKeepFrame [Mapper A] :
    CowInv A x fr (withSpace L i (unmapKeepFrame A vm vaddr) S) held := by
  unfold VmSpace.unmapKeepFrame
  split_ifs
  · exact h
  · exact h.unmapKeep

end

end CowInv

end CypheraKernel.Mm
