import CypheraKernel.Lib.Bytes
import CypheraKernel.Mm.CowIsolation

/-!
# A debugger's writes

`poke_other_vmspace` of `frame/src/user/mod.rs`, by which `PTRACE_POKE` and `process_vm_writev`
write to the memory of another process.  The write goes through the direct map: a copy-on-write page
is broken first, and any other page is written in place, also one that the process could not write
itself.

`poke_confined_iff`: `fork` shares the frames of read-only pages and does not mark them
copy-on-write, so a write is confined exactly if it comes to no such page.
-/

namespace CypheraKernel.Mm

open Frames VmSpace Mapper List Option Function

/-! ### The write -/

variable {src : List UInt8}

section

variable {σ : Type} (A : FrameAllocator σ)

/-- Write a block of bytes. -/
def Frames.writeBytes (fr : Frames σ) (f off : ℕ) (bs : List UInt8) : Frames σ :=
  { fr with mem := update fr.mem f (Bytes.write (fr.mem f) off bs) }

def VmSpace.pageIsCow (vm : VmSpace) (p : ℕ) : Bool := (vm.leaf p).any Pte.cow

/-- One round of the loop: the part of the write in the page of `va`.  The answer is the list of the
frames to be freed, or nothing if there is a fault. -/
def pokePage (fr : Frames σ) (vm : VmSpace) (va : ℕ) (bs : List UInt8) :
    Option (List ℕ) × Frames σ × VmSpace :=
  let page := va / pageSize
  let (r, fr, vm) :=
    if vm.pageIsCow page then breakCow A fr vm (page * pageSize) none else (.ok .notCow, fr, vm)
  match r, vm.leaf page with
  | .ok r, some e => (some (oldFrames (.ok r)), fr.writeBytes e.frame (va % pageSize) bs, vm)
  | _, _ => (none, fr, vm)

/-- What a write leaves: the frames to be freed, whether it has succeeded, and the target. -/
structure Poked (σ : Type) where
  freed : List ℕ
  ok : Bool
  fr : Frames σ
  vm : VmSpace

/-- The part of the write in the first page. -/
def chunkOf (va : ℕ) (src : List UInt8) : ℕ := min (pageSize - va % pageSize) src.length

theorem chunkOf_pos {va : ℕ} (h : src ≠ []) : 0 < chunkOf va src := by
  grind [chunkOf, pageSize]

def pokeLoop (fr : Frames σ) (vm : VmSpace) (va : ℕ) (src : List UInt8) (freed : List ℕ) :
    Poked σ :=
  if h : src = [] then ⟨freed, true, fr, vm⟩
  else
    match pokePage A fr vm va (src.take (chunkOf va src)) with
    | (none, fr, vm) => ⟨freed, false, fr, vm⟩
    | (some old, fr, vm) =>
      pokeLoop fr vm (va + chunkOf va src) (src.drop (chunkOf va src)) (freed ++ old)
termination_by src.length
decreasing_by
  have hchunk : 0 < chunkOf va src := chunkOf_pos h
  have hlen := List.length_pos_iff.2 h
  rw [List.length_drop]
  omega

def pokeOtherVmspace (fr : Frames σ) (vm : VmSpace) (va : ℕ) (src : List UInt8) : Poked σ :=
  if src = [] then ⟨[], true, fr, vm⟩
  else if va + src.length > 2 ^ 47 then ⟨[], false, fr, vm⟩
  else pokeLoop A fr vm va src []

end

/-! ### How far a write comes -/

/-- The page must be copied before it is written. -/
def copies {σ : Type} (fr : Frames σ) (vm : VmSpace) (p : ℕ) : Bool :=
  (vm.leaf p).any fun e => e.cow && !e.writable && 2 ≤ fr.frameRefCount e.frame

/-- A write of `n` bytes from `va` on comes to the page `p`: the pages up to it are mapped, and
there are enough frames for those that must be copied. -/
def Reached (mapped copied : ℕ → Bool) (free va n p : ℕ) : Prop :=
  0 < n ∧ va / pageSize ≤ p ∧ p * pageSize < va + n ∧
    (∀ q, va / pageSize ≤ q → q ≤ p → mapped q = true) ∧
    (List.range' (va / pageSize) (p + 1 - va / pageSize)).countP copied ≤ free

section Reached

variable {mapped copied mapped' copied' : ℕ → Bool} {free va n p : ℕ}

theorem Reached.congr (hm : ∀ q, va / pageSize ≤ q → mapped' q = mapped q)
    (hc : ∀ q, va / pageSize ≤ q → copied' q = copied q) :
    Reached mapped' copied' free va n p ↔ Reached mapped copied free va n p := by
  have hcount : (range' (va / pageSize) (p + 1 - va / pageSize)).countP copied' =
      (range' (va / pageSize) (p + 1 - va / pageSize)).countP copied := by
    refine countP_congr fun q hq => ?_
    rw [hc q (mem_range'_1.1 hq).1]
  unfold Reached
  rw [hcount]
  refine and_congr_right fun _ => and_congr_right fun _ => and_congr_right fun _ =>
    and_congr_left' (forall_congr' fun q => imp_congr_right fun hq => ?_)
  rw [hm q hq]

theorem countP_range'_succ {first : ℕ} (h : first ≤ p) :
    (List.range' first (p + 1 - first)).countP copied =
      (copied first).toNat + (List.range' (first + 1) (p + 1 - (first + 1))).countP copied := by
  have hlen : p + 1 - first = (p + 1 - (first + 1)) + 1 := by omega
  grind [range'_succ]

/-- The first page, and the others after it. -/
theorem reached_step (hn : 0 < n) :
    Reached mapped copied free va n p ↔ mapped (va / pageSize) = true ∧
      (copied (va / pageSize) = true → 0 < free) ∧
      (p = va / pageSize ∨ Reached mapped copied (free - (copied (va / pageSize)).toNat)
        (va + min (pageSize - va % pageSize) n) (n - min (pageSize - va % pageSize) n) p) := by
  have hps : pageSize = 4096 := rfl
  unfold Reached
  rw [hps]
  generalize hfirst : va / 4096 = first
  -- the write ends in the first page, or goes on with the first byte of the next one
  have hnext : n ≤ 4096 - va % 4096 ∨ (va + min (4096 - va % 4096) n) / 4096 = first + 1 ∧
      0 < n - min (4096 - va % 4096) n := by
    omega
  constructor
  · rintro ⟨-, hle, hlt, hmapped, hcount⟩
    rw [countP_range'_succ hle] at hcount
    refine ⟨hmapped first le_rfl hle, fun h => ?_, ?_⟩
    · rw [h] at hcount
      exact lt_of_lt_of_le Nat.one_pos (le_trans (Nat.le_add_right _ _) hcount)
    · by_cases hp : p = first
      · exact .inl hp
      · grind
  · rintro ⟨hmapped, hfree, hlater⟩
    have hone : (copied first).toNat ≤ free := by
      cases hc : copied first with
      | false => exact Nat.zero_le _
      | true => exact hfree hc
    rcases hlater with rfl | ⟨hpos, hle, hlt, hrest, hcount⟩
    · refine ⟨hn, le_rfl, by omega, fun q hq hqp => ?_, ?_⟩
      · rwa [le_antisymm hqp hq]
      · rwa [countP_range'_succ le_rfl, Nat.sub_self, range'_zero, countP_nil]
    rcases hnext with hnext | ⟨hnext, -⟩
    · omega
    rw [hnext] at hle hrest hcount
    refine ⟨hn, by omega, by omega, fun q hq hqp => ?_, ?_⟩
    · grind
    rw [countP_range'_succ (by omega)]
    omega

end Reached

/-! ### What a write does -/

section

variable {σ : Type} {A : FrameAllocator σ} {x : Prop} {fr fr' : Frames σ} {L : Mappings} {i : ℕ}
  {vm vm' : VmSpace} {S : ℕ → Bool} {held : Multiset ℕ} {va : ℕ} {bs : List UInt8} {e : Pte}

theorem mem_freeFrames (fr : Frames σ) (fs : List ℕ) : (fr.freeFrames A fs).mem = fr.mem := by
  induction fs generalizing fr with
  | nil => rfl
  | cons f fs ih =>
    have hone : (fr.freeFrame A f).mem = fr.mem := by
      unfold freeFrame
      split_ifs <;> rfl
    exact (ih _).trans hone

/-- The invariant is not about the bytes. -/
theorem CowInv.withMem (h : CowInv A x fr L held) (mem : ℕ → ℕ → UInt8) :
    CowInv A x { fr with mem := mem } L held :=
  ⟨h.free_lt, h.free_zero, h.backed, h.same_page, h.exclusive, h.shared_count⟩

/-- The page of `va` has been written in the frame `f`: its own one, or a free one with a copy. -/
structure PageWritten (A : FrameAllocator σ) (fr fr' : Frames σ) (vm vm' : VmSpace) (va : ℕ)
    (bs : List UInt8) (e : Pte) (f : ℕ) : Prop where
  leaf_other : ∀ q, q ≠ va / pageSize → vm'.leaf q = vm.leaf q
  leaf_self : ∃ e', vm'.leaf (va / pageSize) = some e' ∧ e'.frame = f
  fresh : copies fr vm (va / pageSize) = true → f ∈ A.free fr.pool
  own : copies fr vm (va / pageSize) = false → f = e.frame
  free : A.free fr'.pool =
    if copies fr vm (va / pageSize) then (A.free fr.pool).erase f else A.free fr.pool
  mem : fr'.mem = update fr.mem f (Bytes.write (fr.mem e.frame) (va % pageSize) bs)
  count : ∀ g, g ∉ A.free fr.pool → fr'.frameRefCount g = fr.frameRefCount g

/-- A page that is written in place. -/
theorem pageWritten_inPlace {e' : Pte} (hcopies : copies fr vm (va / pageSize) = false)
    (hframe : e'.frame = e.frame) (hself : vm'.leaf (va / pageSize) = some e')
    (hother : ∀ q, q ≠ va / pageSize → vm'.leaf q = vm.leaf q) :
    PageWritten A fr (fr.writeBytes e'.frame (va % pageSize) bs) vm vm' va bs e e.frame where
  leaf_other := hother
  leaf_self := ⟨e', hself, hframe⟩
  fresh h := by
    rw [hcopies] at h
    cases h
  own _ := rfl
  free := by
    rw [hcopies]
    rfl
  mem := by
    rw [hframe]
    rfl
  count _ _ := rfl

/-- One round of the loop. -/
theorem pokePage_cases (h : CowInv A x fr (withSpace L i vm S) held) {r : Option (List ℕ)}
    (hr : pokePage A fr vm va bs = (r, fr', vm')) :
    r = none ∧ fr' = fr ∧ vm' = vm ∧ (vm.leaf (va / pageSize) = none ∨
        copies fr vm (va / pageSize) = true ∧ A.free fr.pool = ∅) ∨
      ∃ old e f, r = some old ∧ vm.leaf (va / pageSize) = some e ∧
        CowInv A x fr' (withSpace L i vm' S) (held + old) ∧
        PageWritten A fr fr' vm vm' va bs e f := by
  have hpage : va / pageSize * pageSize / pageSize = va / pageSize :=
    Nat.mul_div_cancel _ (by decide)
  have hnil : CowInv A x fr (withSpace L i vm S) (held + ([] : List ℕ)) := by simpa using h
  unfold pokePage pageIsCow at hr
  cases he : vm.leaf (va / pageSize) with
  | none =>
    simp only [he, any_none, Bool.false_eq_true, if_false] at hr
    cases hr
    exact .inl ⟨rfl, rfl, rfl, .inl rfl⟩
  | some e =>
    cases hcow : e.cow with
    | false =>
      simp only [he, any_some, hcow, Bool.false_eq_true, if_false] at hr
      cases hr
      exact .inr ⟨[], e, e.frame, rfl, rfl, hnil.withMem _,
        pageWritten_inPlace (by simp [copies, he, hcow]) rfl he fun _ _ => rfl⟩
    | true =>
      simp only [he, any_some, hcow, if_true] at hr
      cases hbreak : breakCow A fr vm (va / pageSize * pageSize) none with
      | mk rb t =>
        obtain ⟨fr₁, vm₁⟩ := t
        have hinv := h.breakCow hbreak
        rw [hbreak] at hr
        dsimp only [breakCow] at hbreak
        rw [hpage, he] at hbreak
        dsimp only at hbreak
        split_ifs at hbreak with hw hc hzero hone
        · cases hbreak
          rw [he] at hr
          cases hr
          exact .inr ⟨[], e, e.frame, rfl, rfl, hnil.withMem _,
            pageWritten_inPlace (by simp [copies, he, hw]) rfl he fun _ _ => rfl⟩
        · simp [hcow] at hc
        · cases hbreak
          rw [he] at hr
          cases hr
          exact .inr ⟨[], e, e.frame, rfl, rfl, hnil.withMem _,
            pageWritten_inPlace (by simp [copies, he, hzero]) rfl he fun _ _ => rfl⟩
        · -- nobody else has the frame, and the page is made writable
          cases hbreak
          have hself : (vm.setLeaf (va / pageSize) (brokenPte e none e.frame)).leaf
              (va / pageSize) = some (brokenPte e none e.frame) := by
            rw [leaf_setLeaf, if_pos rfl]
          rw [hself] at hr
          cases hr
          have hcopies : copies fr vm (va / pageSize) = false := by simp [copies, he, hone]
          refine .inr ⟨[], e, e.frame, rfl, rfl, hinv.withMem _,
            pageWritten_inPlace hcopies (CowInv.frame_brokenPte e none _) hself ?_⟩
          intro q hq
          rw [leaf_setLeaf, if_neg hq]
        · have hcopies : copies fr vm (va / pageSize) = true := by
            have hw' : e.writable = false := by simpa using hw
            have htwo : 2 ≤ fr.frameRefCount e.frame := by omega
            simp [copies, he, hcow, hw', htwo]
          cases ha : fr.allocFrame A with
          | none =>
            rw [ha] at hbreak
            cases hbreak
            rw [he] at hr
            cases hr
            exact .inl ⟨rfl, rfl, rfl, .inr ⟨hcopies, (allocFrame_eq_none A).1 ha⟩⟩
          | some t =>
            obtain ⟨f, fr₂⟩ := t
            rw [ha] at hbreak
            cases hbreak
            obtain ⟨hfree, hpool, hlen, hcount⟩ := allocFrame_eq_some A ha
            have hself : (vm.setLeaf (va / pageSize) (brokenPte e none f)).leaf
                (va / pageSize) = some (brokenPte e none f) := by
              rw [leaf_setLeaf, if_pos rfl]
            rw [hself] at hr
            cases hr
            refine .inr ⟨[e.frame], e, f, rfl, rfl, hinv.withMem _, ?_⟩
            have hframe : (brokenPte e none f).frame = f := CowInv.frame_brokenPte e none f
            refine ⟨fun q hq => ?_, ⟨_, hself, hframe⟩, fun _ => hfree, ?_, ?_, ?_, fun g hg => ?_⟩
            · rw [leaf_setLeaf, if_neg hq]
            · grind
            · rw [if_pos hcopies]
              exact hpool
            · rw [hframe, writeBytes, copyFrame, mem_allocFrame A ha]
              dsimp only
              rw [update_self, update_idem]
            · refine (hcount g).trans (if_neg fun hgf => ?_)
              exact hg (hgf.1 ▸ hfree)

/-- The pages to which a write of `n` bytes from `va` on comes. -/
def PokeReached (A : FrameAllocator σ) (fr : Frames σ) (vm : VmSpace) (va n p : ℕ) : Prop :=
  Reached (fun q => (vm.leaf q).isSome) (copies fr vm) (A.free fr.pool).card va n p

/-- What the loop does: in the pages to which it comes it leaves the bytes of `src`, in the frame
that the page had unless it was copied. -/
structure LoopWritten (A : FrameAllocator σ) (fr : Frames σ) (vm : VmSpace) (va : ℕ)
    (src : List UInt8) (r : Poked σ) : Prop where
  mem_other : ∀ g, g ∉ A.free fr.pool →
    (∀ p e, PokeReached A fr vm va src.length p → vm.leaf p = some e → copies fr vm p = false →
      g ≠ e.frame) → r.fr.mem g = fr.mem g
  leaf_other : ∀ q, (∀ k < src.length, (va + k) / pageSize ≠ q) → r.vm.leaf q = vm.leaf q
  written : ∀ k (hk : k < src.length), PokeReached A fr vm va src.length ((va + k) / pageSize) →
    ∃ e', r.vm.leaf ((va + k) / pageSize) = some e' ∧
      r.fr.mem e'.frame ((va + k) % pageSize) = src[k] ∧
      ∀ e, vm.leaf ((va + k) / pageSize) = some e →
        copies fr vm ((va + k) / pageSize) = false → e'.frame = e.frame
  ok : r.ok = true → ∀ k < src.length, PokeReached A fr vm va src.length ((va + k) / pageSize)

section

variable {f p : ℕ} (hw : PageWritten A fr fr' vm vm' va bs e f)
  (h : CowInv A x fr (withSpace L i vm S) held)

include hw h

/-- The first round does not change which other pages have to be copied. -/
theorem PageWritten.copies_eq (hp : p ≠ va / pageSize) : copies fr' vm' p = copies fr vm p := by
  unfold copies
  rw [hw.leaf_other p hp]
  cases hq : vm.leaf p with
  | none => rfl
  | some e' =>
    have hnot := h.not_free (CowInv.mapping_self (L := L) (i := i) (S := S) hq)
    rw [any_some, any_some, hw.count e'.frame hnot]

/-- The pages after the first one are reached as they would be after the first round. -/
theorem PageWritten.reached_iff {n : ℕ} (he : vm.leaf (va / pageSize) = some e) (hn : 0 < n) :
    PokeReached A fr vm va n p ↔ p = va / pageSize ∨
      PokeReached A fr' vm' (va + min (pageSize - va % pageSize) n)
        (n - min (pageSize - va % pageSize) n) p := by
  have hmapped : (vm.leaf (va / pageSize)).isSome = true := by rw [he]; rfl
  have hfree : copies fr vm (va / pageSize) = true → 0 < (A.free fr.pool).card := fun hc =>
    Finset.card_pos.2 ⟨f, hw.fresh hc⟩
  have hcard : (A.free fr'.pool).card =
      (A.free fr.pool).card - (copies fr vm (va / pageSize)).toNat := by
    rw [hw.free]
    split_ifs with hc
    · grind [hw.fresh]
    · rw [Bool.eq_false_iff.2 hc]
      rfl
  unfold PokeReached
  rw [reached_step hn, hcard]
  refine (and_iff_right hmapped).trans ((and_iff_right hfree).trans (or_congr_right ?_))
  -- without a further page neither side holds
  rcases Nat.eq_zero_or_pos (n - min (pageSize - va % pageSize) n) with hend | hmore
  · rw [hend]
    exact ⟨fun hr => absurd hr.1 (lt_irrefl 0), fun hr => absurd hr.1 (lt_irrefl 0)⟩
  have hne (q : ℕ) (hq : (va + min (pageSize - va % pageSize) n) / pageSize ≤ q) :
      q ≠ va / pageSize := by
    have hps : pageSize = 4096 := rfl
    rw [hps] at hmore hq ⊢
    omega
  refine (Reached.congr (fun q hq => ?_) fun q hq => ?_).symm
  · rw [hw.leaf_other q (hne q hq)]
  · exact hw.copies_eq h (hne q hq)

end

/-- A byte of the write is in the first page, or it is one of the bytes that are left. -/
theorem lt_chunkOf_or (va : ℕ) {k : ℕ} (hk : k < src.length) :
    k < chunkOf va src ∧ (va + k) / pageSize = va / pageSize ∧
        (va + k) % pageSize = va % pageSize + k ∨
      chunkOf va src ≤ k ∧ (va + k) / pageSize ≠ va / pageSize := by grind [pageSize, chunkOf]

/-- The first round and the others after it. -/
theorem LoopWritten.cons {f : ℕ} {r : Poked σ} {held' : Multiset ℕ}
    (hloop : LoopWritten A fr' vm' (va + chunkOf va src) (src.drop (chunkOf va src)) r)
    (hsrc : src ≠ []) (h : CowInv A x fr (withSpace L i vm S) held)
    (h' : CowInv A x fr' (withSpace L i vm' S) held') (he : vm.leaf (va / pageSize) = some e)
    (hw : PageWritten A fr fr' vm vm' va (src.take (chunkOf va src)) e f) :
    LoopWritten A fr vm va src r := by
  have hreached (p : ℕ) : PokeReached A fr vm va src.length p ↔ p = va / pageSize ∨
      PokeReached A fr' vm' (va + chunkOf va src) (src.drop (chunkOf va src)).length p := by
    rw [length_drop]
    exact hw.reached_iff h he (length_pos_iff.2 hsrc)
  have hlater {p : ℕ} (hp : PokeReached A fr' vm' (va + chunkOf va src)
      (src.drop (chunkOf va src)).length p) : p ≠ va / pageSize := by
    obtain ⟨hpos, hle, -⟩ := hp
    rw [length_drop] at hpos
    have hps : pageSize = 4096 := rfl
    unfold chunkOf at hpos hle
    rw [hps] at hpos hle ⊢
    omega
  obtain ⟨e₁, he₁, hf⟩ := hw.leaf_self
  have hm₁ := CowInv.mapping_self (L := L) (i := i) (S := S) he₁
  -- the other rounds leave the frame of the first page alone
  have hkeep : r.fr.mem f = fr'.mem f := by
    refine hloop.mem_other f (hf ▸ h'.not_free hm₁) fun p e' hp he' _ hframe => ?_
    have hm' := CowInv.mapping_self (L := L) (i := i) (S := S) he'
    exact hlater hp (h'.same_page hm' hm₁ (by rw [hf, hframe])).1
  have hcopies (p : ℕ) (hp : p ≠ va / pageSize) := hw.copies_eq h hp
  have htail {k : ℕ} (hk : k < src.length) (hle : chunkOf va src ≤ k) :
      k - chunkOf va src < (src.drop (chunkOf va src)).length ∧
        va + chunkOf va src + (k - chunkOf va src) = va + k := by
    rw [length_drop]
    omega
  refine ⟨fun g hg hframes => ?_, fun q hq => ?_, fun k hk hp => ?_, fun hok k hk => ?_⟩
  · have hsub : g ∉ A.free fr'.pool := by grind [hw.free]
    rw [hloop.mem_other g hsub fun p e' hp he' hc => ?_, hw.mem, update_of_ne]
    · grind [hw.own, hw.fresh]
    · grind [hw.leaf_other]
  · have hne : q ≠ va / pageSize := (hq 0 (length_pos_iff.2 hsrc)).symm
    rw [hloop.leaf_other q fun k hk => ?_, hw.leaf_other q hne]
    rw [length_drop] at hk
    rw [add_assoc]
    exact hq _ (by omega)
  · rcases lt_chunkOf_or va hk with ⟨hlt, hdiv, hmod⟩ | ⟨hle, hne⟩
    · rw [hdiv, hmod]
      refine ⟨e₁, ?_, ?_, fun e' he' hc => ?_⟩
      · rw [hloop.leaf_other _ fun k' hk' => ?_, he₁]
        rw [length_drop] at hk'
        have hlast : chunkOf va src + k' < src.length := by omega
        rcases lt_chunkOf_or va hlast with ⟨hlt', -⟩ | ⟨-, hne⟩
        · omega
        · rwa [add_assoc]
      · simp_all [hw.mem, Bytes.write]
      · grind [hw.own]
    · obtain ⟨hk', hsum⟩ := htail hk hle
      obtain ⟨e', he', hmem, hframe⟩ := hloop.written (k - chunkOf va src) hk' (by
        rw [hsum]
        exact ((hreached _).1 hp).resolve_left hne)
      rw [hsum] at he' hmem hframe
      refine ⟨e', he', ?_, fun e'' he'' hc => ?_⟩
      · rw [hmem, getElem_drop]
        congr 1
        omega
      · grind [hw.leaf_other]
  · rw [hreached]
    rcases lt_chunkOf_or va hk with ⟨-, hdiv, -⟩ | ⟨hle, hne⟩
    · exact .inl hdiv
    · obtain ⟨hk', hsum⟩ := htail hk hle
      have hlast := hloop.ok hok (k - chunkOf va src) hk'
      rw [hsum] at hlast
      exact .inr hlast

/-- The whole loop, by induction on the bytes that are left. -/
theorem pokeLoop_spec (h : CowInv A x fr (withSpace L i vm S) held) (va : ℕ) (src : List UInt8)
    (freed : List ℕ) :
    ∃ new, (pokeLoop A fr vm va src freed).freed = freed ++ new ∧
      CowInv A x (pokeLoop A fr vm va src freed).fr
        (withSpace L i (pokeLoop A fr vm va src freed).vm S) (held + new) ∧
      LoopWritten A fr vm va src (pokeLoop A fr vm va src freed) := by
  induction hlen : src.length using Nat.strong_induction_on
    generalizing fr vm va src freed held with
  | _ n ih =>
    by_cases hsrc : src = []
    · subst hsrc
      rw [pokeLoop, dif_pos rfl]
      exact ⟨[], (append_nil _).symm, by simpa using h,
        ⟨fun _ _ _ => rfl, fun _ _ => rfl, nofun, fun _ => nofun⟩⟩
    have hpos : 0 < src.length := length_pos_iff.2 hsrc
    have hchunk : 0 < chunkOf va src := chunkOf_pos hsrc
    cases hr : pokePage A fr vm va (src.take (chunkOf va src)) with
    | mk r t =>
      obtain ⟨fr', vm'⟩ := t
      rcases pokePage_cases h hr with ⟨rfl, rfl, rfl, hfail⟩ | ⟨old, e, f, rfl, he, h', hw⟩
      · -- the first page is not reached, and so none is
        have hnot (p : ℕ) : ¬ PokeReached A fr' vm' va src.length p := by
          intro hreached
          obtain ⟨hmapped, hfree, -⟩ := (reached_step hpos).1 hreached
          rcases hfail with hnone | ⟨hcopies, hempty⟩
          · rw [hnone] at hmapped
            cases hmapped
          · grind
        rw [pokeLoop, dif_neg hsrc, hr]
        exact ⟨[], (append_nil _).symm, by simpa using h,
          ⟨fun _ _ _ => rfl, fun _ _ => rfl, fun k hk hreached => absurd hreached (hnot _),
            nofun⟩⟩
      · rw [pokeLoop, dif_neg hsrc, hr]
        obtain ⟨new, hfreed, hinv, hloop⟩ := ih _ (by rw [length_drop]; omega) h'
          (va + chunkOf va src) (src.drop (chunkOf va src)) (freed ++ old) rfl
        refine ⟨old ++ new, by rw [hfreed, append_assoc], ?_, hloop.cons hsrc h h' he hw⟩
        rwa [← Multiset.coe_add, ← add_assoc]

end

/-! ### Runs -/

section

variable {σ : Type} (A : FrameAllocator σ) [Mapper A]

/-- `fault_in_page` for a private page of a file: a frame of its own with the bytes of the file. -/
def mapFile (fr : Frames σ) (vm : VmSpace) (vaddr : ℕ) (perms : Perms) (data : ℕ → UInt8) :
    Frames σ × VmSpace :=
  match fr.allocFrame A with
  | none => (fr, vm)
  | some (f, fr) =>
    match mapTo A { fr with mem := update fr.mem f data } vm (vaddr / pageSize)
        (perms.toPte f) with
    | (none, fr, vm) => (fr, vm)
    | (some _, fr, vm) => (fr.freeFrame A f, vm)

/-- The steps of address spaces, with private pages of files, the stores of the processes and the
writes of a debugger. -/
inductive DebugEvent
  | vm (ev : Event)
  | mapFile (i vaddr : ℕ) (perms : Perms) (data : ℕ → UInt8)
  | store (i p off : ℕ) (b : UInt8)
  | poke (i va : ℕ) (src : List UInt8)

namespace Machine

variable (m : Machine σ) (i : ℕ)

/-- A write of a debugger.  The caller frees the frames of the pages that were copied. -/
def poke (va : ℕ) (src : List UInt8) : Machine σ := m.onProc i fun pr =>
  let r := pokeOtherVmspace A m.fr pr.vm va src
  m.put i (r.fr.freeFrames A r.freed) r.vm pr.shared

def debugStep : DebugEvent → Machine σ
  | .vm ev => m.step A ev
  | .mapFile i vaddr perms data => m.onProc i fun pr =>
    let r := mapFile A m.fr pr.vm vaddr perms data
    m.put i r.1 r.2 pr.shared
  | .store i p off b => m.store i p off b
  | .poke i va src => m.poke A i va src

/-- What the runs of address spaces ask of their steps. -/
def DebugOk : DebugEvent → Prop
  | .vm ev => m.Contract ev ∧ m.Careful A ev
  | _ => True

/-- The machines that runs lead to. -/
inductive Reachable : Machine σ → Prop
  | init (fr : Frames σ) (hfree : ∀ f ∈ A.free fr.pool, f < fr.refLen ∧ fr.frameRefCount f = 0) :
    Reachable ⟨fr, []⟩
  | step {m : Machine σ} (h : Reachable m) (ev : DebugEvent) (hok : m.DebugOk A ev) :
    Reachable (m.debugStep A ev)

/-- No private page of another process shows the write. -/
def Confined (va : ℕ) (src : List UInt8) : Prop :=
  ∀ j q off, j ≠ i → m.sharedAt j q = false →
    (m.poke A i va src).load j q off = m.load j q off

/-- After a success the target reads what was written. -/
def ReadsBack (va : ℕ) (src : List UInt8) : Prop :=
  ∀ pr, m.procs[i]? = some pr → (pokeOtherVmspace A m.fr pr.vm va src).ok = true →
    ∀ k (hk : k < src.length),
      (m.poke A i va src).load i ((va + k) / pageSize) ((va + k) % pageSize) = some src[k]

/-- A write of `n` bytes comes to no read-only private page without the copy-on-write mark whose
frame another process maps. -/
def PokeSafe (va n : ℕ) : Prop :=
  ∀ pr, m.procs[i]? = some pr → va + n ≤ 2 ^ 47 →
    ∀ p e, PokeReached A m.fr pr.vm va n p → pr.vm.leaf p = some e → pr.shared p = false →
      e.writable = false → e.cow = false →
      ∀ j q e', j ≠ i → m.leafAt j q = some e' → e'.frame ≠ e.frame

end Machine

end

namespace Machine

variable {σ : Type} {A : FrameAllocator σ} {x : Prop} {m : Machine σ} {i va : ℕ}

theorem Inv.mapFile [Mapper A] (h : m.Inv A x) (i vaddr : ℕ) (perms : Perms) (data : ℕ → UInt8) :
    (m.debugStep A (.mapFile i vaddr perms data)).Inv A x := by
  refine h.onProc fun pr hi hcow => h.put hi ?_
  unfold Mm.mapFile
  cases ha : m.fr.allocFrame A with
  | none => exact hcow
  | some t =>
    obtain ⟨f, fr₁⟩ := t
    dsimp only
    have hl := (Ledger.refl m.fr).alloc ha
    have hacq := (hcow.acquire hl).withMem (update fr₁.mem f data)
    rw [nil_append, Multiset.coe_singleton, zero_add] at hacq
    have hcount : fr₁.frameRefCount f ≤ 1 := by
      rw [hl.count_eq, if_pos ⟨by simp, hcow.free_lt f (allocFrame_eq_some A ha).1⟩]
    have hS : pr.shared (vaddr / pageSize) = true → (pr.vm.leaf (vaddr / pageSize)).isSome := by
      intro hs
      rw [← leafAt_of_proc hi]
      exact h.mapped i _ (by rwa [sharedAt_of_proc hi])
    cases hm : mapTo A { fr₁ with mem := update fr₁.mem f data } pr.vm
        (vaddr / pageSize) (perms.toPte f) with
    | mk r t =>
      obtain ⟨fr₂, vm₂⟩ := t
      have hmap := hacq.mapTo (e := perms.toPte f) (by simp [Perms.toPte]) hcount hS hm
      cases r with
      | some e =>
        rw [if_neg (by simp)] at hmap
        exact CowInv.freeFrames [f] (by simpa using hmap)
      | none => exact hmap.mono (Multiset.zero_le _)

theorem Inv.store (h : m.Inv A x) (i p off : ℕ) (b : UInt8) : (m.store i p off b).Inv A x := by
  unfold Machine.store
  split
  · exact h
  · split_ifs
    · exact ⟨h.cow.withMem _, h.mapped⟩
    · exact h

/-- `poke_other_vmspace` as a whole: a write that is refused comes to no page. -/
theorem pokeOtherVmspace_spec {fr : Frames σ} {L : Mappings} {vm : VmSpace} {S : ℕ → Bool}
    (h : CowInv A x fr (withSpace L i vm S) 0) (va : ℕ) (src : List UInt8) :
    CowInv A x (pokeOtherVmspace A fr vm va src).fr
        (withSpace L i (pokeOtherVmspace A fr vm va src).vm S)
        (pokeOtherVmspace A fr vm va src).freed ∧
      (va + src.length ≤ 2 ^ 47 → LoopWritten A fr vm va src (pokeOtherVmspace A fr vm va src)) ∧
      (¬ va + src.length ≤ 2 ^ 47 → (pokeOtherVmspace A fr vm va src).fr.mem = fr.mem ∧
        ((pokeOtherVmspace A fr vm va src).ok = true → src = [])) := by
  unfold pokeOtherVmspace
  split_ifs with hsrc hgt
  · subst hsrc
    refine ⟨by simpa using h, fun _ => ?_, fun _ => ⟨rfl, fun _ => rfl⟩⟩
    exact ⟨fun _ _ _ => rfl, fun _ _ => rfl, nofun, fun _ => nofun⟩
  · exact ⟨by simpa using h, fun hle => absurd hle (by omega), fun _ => ⟨rfl, nofun⟩⟩
  · obtain ⟨new, hfreed, hinv, hloop⟩ := pokeLoop_spec h va src []
    grind

theorem Inv.poke (h : m.Inv A x) (i va : ℕ) (src : List UInt8) : (m.poke A i va src).Inv A x := by
  refine h.onProc fun pr hi hcow => h.put hi (CowInv.freeFrames _ ?_)
  rw [zero_add]
  exact (pokeOtherVmspace_spec hcow va src).1

theorem Reachable.inv [Mapper A] (h : Reachable A m) : m.Inv A True := by
  induction h with
  | init fr hfree => exact Inv.init hfree
  | step _ ev hok ih =>
    cases ev with
    | vm ev => exact ih.step hok.1 fun _ => hok.2
    | mapFile i vaddr perms data => exact ih.mapFile i vaddr perms data
    | store i p off b => exact ih.store i p off b
    | poke i va src => exact ih.poke i va src

/-! ### Whether a write is confined -/

theorem load_poke {pr : Proc} (hi : m.procs[i]? = some pr) (src : List UInt8) (j q off : ℕ) :
    (m.poke A i va src).load j q off =
      (if j = i then (pokeOtherVmspace A m.fr pr.vm va src).vm.leaf q else m.leafAt j q).map
        fun e => (pokeOtherVmspace A m.fr pr.vm va src).fr.mem e.frame off := by
  unfold load Machine.poke onProc leafAt
  rw [hi]
  rw [getElem?_put hi]
  split_ifs <;> simp only [put, mem_freeFrames, bind_some]

theorem Inv.cow_proc (h : m.Inv A x) (hi : m.procs[i]? = some pr) :
    CowInv A x m.fr (withSpace m.mappings i pr.vm pr.shared) 0 := mappings_eq_withSpace hi ▸ h.cow

theorem Inv.readsBack (h : m.Inv A x) (i va : ℕ) (src : List UInt8) : m.ReadsBack A i va src := by
  intro pr hi hok k hk
  obtain ⟨-, hloop, hrefused⟩ := pokeOtherVmspace_spec (h.cow_proc hi) va src
  by_cases hle : va + src.length ≤ 2 ^ 47
  · obtain ⟨e', he', hmem, -⟩ := (hloop hle).written k hk ((hloop hle).ok hok k hk)
    rw [load_poke hi, if_pos rfl, he', map_some, hmem]
  · rw [(hrefused hle).2 hok] at hk
    exact absurd hk (Nat.not_lt_zero k)

/-- A private page of another process has its own frame, unless it is read-only and not
copy-on-write. -/
theorem Inv.confined (h : m.Inv A True) (hsafe : m.PokeSafe A i va src.length) :
    m.Confined A i va src := by
  intro j q off hj hshared
  cases hi : m.procs[i]? with
  | none =>
    have hsame : m.poke A i va src = m := by
      unfold Machine.poke Machine.onProc
      rw [hi]
    rw [hsame]
  | some pr =>
    obtain ⟨-, hloop, hrefused⟩ := pokeOtherVmspace_spec (h.cow_proc hi) va src
    rw [load_poke hi, if_neg hj, load]
    cases he' : m.leafAt j q with
    | none => rfl
    | some e' =>
      rw [map_some, map_some]
      by_cases hle : va + src.length ≤ 2 ^ 47
      · have hm' := mappings_of_leafAt he'
        rw [(hloop hle).mem_other e'.frame (h.cow.not_free hm') fun p e hp he hcopies hframe => ?_]
        have hm := mappings_of_leafAt ((leafAt_of_proc hi p).trans he)
        have hpriv : m.sharedAt i p = false := (h.cow.same_page hm hm' hframe.symm).2.trans hshared
        -- the frame is the own one of a page that is writable, or has one reference, or is as the
        -- condition says
        cases hw : e.writable with
        | true => exact hj (h.cow.exclusive trivial hm hpriv hw j q _ hm' hframe)
        | false =>
          cases hc : e.cow with
          | true =>
            have hcount : m.fr.frameRefCount e.frame ≤ 1 := by simp_all [copies]
            exact hj (h.cow.sole_of_count_le hm hpriv hcount j q _ hm' hframe)
          | false =>
            rw [sharedAt_of_proc hi] at hpriv
            exact hsafe pr hi hle p e hp he hpriv hw hc j q e' hj he' hframe
      · rw [(hrefused hle).1]

/-- A byte that differs is seen by those who map the frame. -/
theorem Inv.pokeSafe (h : m.Inv A x) {n : ℕ}
    (hconfined : ∀ src, src.length = n → m.Confined A i va src) : m.PokeSafe A i va n := by
  intro pr hi hle p e hp he hpriv hw hc j q e' hj he' hframe
  -- every byte of the page is written with another value
  let src := (range n).map fun k => m.fr.mem e.frame ((va + k) % pageSize) + 1
  have hlen : src.length = n := by simp [src]
  obtain ⟨k, hk, hpage⟩ : ∃ k < n, (va + k) / pageSize = p := by
    obtain ⟨hpos, hfirst, hlast, -⟩ := hp
    have hps : pageSize = 4096 := rfl
    rw [hps] at hfirst hlast ⊢
    exact ⟨p * 4096 - va, by omega, by omega⟩
  obtain ⟨-, hloop, -⟩ := pokeOtherVmspace_spec (h.cow_proc hi) va src
  have hwritten := (hloop (by rwa [hlen])).written k (by rwa [hlen])
  rw [hpage] at hwritten
  obtain ⟨e₁, -, hmem, hown⟩ := hwritten (by rwa [hlen])
  rw [hown e he (by simp [copies, he, hc])] at hmem
  have hm := mappings_of_leafAt ((leafAt_of_proc hi p).trans he)
  have hm' := mappings_of_leafAt he'
  have hshared : m.sharedAt j q = false := by
    have hsame : m.sharedAt j q = m.sharedAt i p := (h.cow.same_page hm' hm hframe).2
    rw [hsame, sharedAt_of_proc hi, hpriv]
  have hload := hconfined src hlen j q ((va + k) % pageSize) hj hshared
  grind [load_poke, load]

/-- **Writes of a debugger.**  In every machine that a run leads to, a write of `n` bytes is seen by
no private page of another process and is read back by the target after a success, whatever the
bytes are, exactly if it comes to no read-only private page without the copy-on-write mark whose
frame another process maps. -/
theorem poke_confined_iff [Mapper A] (h : Reachable A m) (i va n : ℕ) :
    (∀ src, src.length = n → m.Confined A i va src ∧ m.ReadsBack A i va src) ↔
      m.PokeSafe A i va n := by
  constructor
  · grind [h.inv.pokeSafe]
  · grind [h.inv.confined, h.inv.readsBack]

/-- A process with one page. -/
def onePage (perms : Perms) : Machine (List ℕ) :=
  run listAllocator ⟨freshFrames, []⟩ [.newUser, .mapAnon 0 (1024 * pageSize) 1 perms]

/-- The process and its child. -/
def forked (perms : Perms) : Machine (List ℕ) := (onePage perms).step listAllocator (.fork 0 [])

theorem reachable_forked {perms : Perms}
    (henough : (onePage perms).procs[0]?.all (fun pr => cloneFrames (onePage perms).fr pr.vm [] ≤
      (listAllocator.free (onePage perms).fr.pool).card) = true) :
    Reachable listAllocator (forked perms) := by
  have hinit := Reachable.init (A := listAllocator) freshFrames freshFrames_free
  have hpage := (hinit.step (.vm .newUser) ⟨trivial, trivial⟩).step
    (.vm (.mapAnon 0 (1024 * pageSize) 1 perms)) ⟨trivial, trivial⟩
  refine hpage.step (.vm (.fork 0 [])) ⟨⟨nofun, nofun⟩, fun pr hi hlt => ?_⟩
  have hi : (onePage perms).procs[0]? = some pr := hi
  have hlt : (listAllocator.free (onePage perms).fr.pool).card <
    cloneFrames (onePage perms).fr pr.vm [] := hlt
  rw [hi, all_some, decide_eq_true_eq] at henough
  omega

/-- A write to the copy-on-write page of the child is confined and read back. -/
theorem poke_cow_page_confined :
    Reachable listAllocator (forked Perms.userRw) ∧ ∀ src : List UInt8, src.length = 8 →
      (forked Perms.userRw).Confined listAllocator 1 (1024 * pageSize) src ∧
        (forked Perms.userRw).ReadsBack listAllocator 1 (1024 * pageSize) src := by
  have hreachable : Reachable listAllocator (forked Perms.userRw) :=
    reachable_forked (by decide +kernel)
  refine ⟨hreachable, (poke_confined_iff hreachable 1 (1024 * pageSize) 8).2 ?_⟩
  intro pr hi _ p e hp he _ _ hc
  have hp : p = 1024 := by
    obtain ⟨-, hfirst, hlast, -⟩ := hp
    grind [pageSize]
  have hcow : ((forked Perms.userRw).leafAt 1 1024).all Pte.cow = true := by decide +kernel
  grind [leafAt_of_proc]

/-- A page of code, which a process may not write. -/
def readOnly : Perms := ⟨true, false, true, true⟩

/-- A breakpoint that a debugger sets in the code of a process is seen by its child. -/
theorem breakpoint_in_child :
    Reachable listAllocator (forked readOnly) ∧
      ¬ (forked readOnly).Confined listAllocator 0 (1024 * pageSize) [0xcc] := by
  refine ⟨reachable_forked (by decide +kernel), fun hconfined => ?_⟩
  have hload := hconfined 1 1024 0 (by decide) (by decide +kernel)
  have hafter : ((forked readOnly).poke listAllocator 0 (1024 * pageSize) [0xcc]).load 1 1024 0 =
      some 0xcc := by decide +kernel
  have hbefore : (forked readOnly).load 1 1024 0 = some 0 := by decide +kernel
  rw [hafter, hbefore] at hload
  exact absurd hload (by decide)

end Machine

end CypheraKernel.Mm
