import CypheraKernel.Mm.MapInvariant
import CypheraKernel.Syscall.Mm

/-!
# Programs confined to the user half

A program is confined when it leaves the memory map and the leaves of the kernel half alone, and
does not stop at an address.

* `Confined`, with rules for the constructs of a program and for the loops over pages;
* page faults and user accesses are confined (`Confined.faultInPage`, `Confined.accessOk`);
* so are the loops of the memory calls over ranges of the user half.
-/

namespace CypheraKernel.Syscall

open Mm Rust Program VmSpace Mapper

variable {σ : Type} {α β : Type} (A : FrameAllocator σ) [Mapper A] (w : World)

/-- The leaves of the kernel half are those of `g`. -/
def KernelHalf (g : ℕ → Option Pte) (st : Caller σ) : Prop :=
  ∀ p, userPages ≤ p → st.vm.leaf p = g p

/-- A stop that no address is to blame for, with the kernel half as before. -/
def Benign (g : ℕ → Option Pte) (e : Stop) (st : Caller σ) : Prop :=
  (e = .offsetOverflow ∨ e = .killed) ∧ KernelHalf g st

/-- The memory map is `m` and the kernel half is `g`. -/
structure At (m : MmapState) (g : ℕ → Option Pte) (st : Caller σ) : Prop where
  mmap : st.mmap = m
  kernel : KernelHalf g st

/-- The program leaves the memory map and the kernel half alone. -/
structure Confined (m : MmapState) (g : ℕ → Option Pte) (x : CallM σ α) : Prop where
  keeps : ∀ st, At m g st → wp x (fun _ => At m g) (Benign g) st

theorem page_lt_userPages {a : ℕ} (h : a < userVaEnd) : a / pageSize < userPages := by
  unfold userVaEnd at h
  unfold pageSize userPages
  omega

namespace Confined

variable {m : MmapState} {g : ℕ → Option Pte} {body : ℕ → CallM σ PUnit} {x : CallM σ α}

/-! ### Rules -/

theorem pure (a : α) : Confined m g (pure a : CallM σ α) := ⟨fun _ h => wp.pure h⟩

theorem bind {f : α → CallM σ β} (hx : Confined m g x)
    (hf : ∀ a, Confined m g (f a)) : Confined m g (x >>= f) := by
  refine ⟨fun st h => ?_⟩
  rw [wp_bind]
  exact (hx.keeps st h).post fun a st' h' => (hf a).keeps st' h'

theorem get {f : Caller σ → CallM σ α} (hf : ∀ st, At m g st → Confined m g (f st)) :
    Confined m g (MonadState.get >>= f) :=
  ⟨fun st h => (wp_bind ..).2 (wp_get.2 ((hf st h).keeps st h))⟩

theorem ite (c : Prop) [Decidable c] {y : CallM σ α} (hx : c → Confined m g x)
    (hy : ¬ c → Confined m g y) : Confined m g (if c then x else y) := by
  split_ifs with h
  · exact hx h
  · exact hy h

theorem killed : Confined m g (throw .killed : CallM σ α) :=
  ⟨fun _ h => (wp_throw _).2 ⟨.inr rfl, h.kernel⟩⟩

theorem discard (hx : Confined m g x) : Confined m g (Functor.discard x : CallM σ PUnit) := by
  refine ⟨fun st h => ?_⟩
  exact (wp_bind x fun _ => Pure.pure PUnit.unit).2 ((hx.keeps st h).post fun _ _ h' => wp.pure h')

theorem forFrom {i n : ℕ}
    (h : ∀ j, i ≤ j → j < i + n → Confined m g (body j)) : Confined m g (forFrom body i n) :=
  ⟨fun _ hst => wp_forFrom (fun _ => At m g) (fun j hj hj' s hs => (h j hj hj').keeps s hs) hst⟩

theorem countWhile {body : ℕ → CallM σ Bool} {i n : ℕ}
    (h : ∀ j, i ≤ j → j < i + n → Confined m g (body j)) : Confined m g (countWhile body i n) := by
  refine ⟨fun st hst => (wp_countWhile (fun _ => At m g) (fun _ => At m g)
    (fun j hj hj' s hs => ((h j hj hj').keeps s hs).post fun b s' hs' => ?_) hst).post
      fun k s' hk => ?_⟩
  · cases b <;> exact hs'
  · rcases hk with ⟨-, hk⟩ | ⟨-, hk⟩ <;> exact hk

theorem forEach {body : α → CallM σ PUnit} {l : List α} (h : ∀ a ∈ l, Confined m g (body a)) :
    Confined m g (forEach body l) :=
  ⟨fun _ hst => wp_forEach (At m g) (fun a ha => (h a ha).keeps) hst⟩

/-! ### Addresses and page tables -/

variable {a addr stop lo hi : ℕ}

theorem virtAddr (h : a < userVaEnd) : Confined m g (virtAddr a : CallM σ PUnit) := by
  unfold Mm.virtAddr
  rw [if_pos (.inl h)]
  exact pure _

theorem addAddr (a b : ℕ) {f : ℕ → CallM σ α} (h : a + b < usizeBound)
    (hf : Confined m g (f (a + b))) : Confined m g (addAddr a b >>= f) := by
  unfold Mm.addAddr
  rw [if_pos h]
  exact hf

theorem addAddr_discard (a b : ℕ) (h : a + b < usizeBound) :
    Confined m g (Functor.discard (Mm.addAddr a b) : CallM σ PUnit) :=
  discard (by
    unfold Mm.addAddr
    rw [if_pos h]
    exact pure _)

theorem addOffset (a b : ℕ) : Confined m g (addOffset a b : CallM σ ℕ) := by
  exact ite _ (fun _ => pure _) fun _ =>
    ⟨fun st h => (wp_throw _).2 ⟨.inl rfl, h.kernel⟩⟩

theorem translate (h : a < userVaEnd) : Confined m g (translate w a : CallM σ Bool) :=
  bind (virtAddr h) fun _ => get fun _ _ => pure _

/-- A change of frames and page tables that keeps the kernel half. -/
theorem set {st' : Caller σ} (h : At m g st') :
    Confined m g (MonadStateOf.set st' : CallM σ PUnit) := ⟨fun _ _ => (wp_set _).2 h⟩

omit [Mapper A] in
theorem freeFrameOf (f : ℕ) : Confined m g (freeFrameOf A f) :=
  ⟨fun _ h => (wp_modify _).2 ⟨h.mmap, h.kernel⟩⟩

section

variable (h : a < userVaEnd)

include h

theorem mapOneFrame (f : ℕ) (perms : Perms) : Confined m g (mapOneFrame A a f perms) := by
  refine get fun st hst => bind (set ⟨hst.mmap, fun p hp => ?_⟩) fun _ => pure _
  have hne : p ≠ a / pageSize := by
    have := page_lt_userPages h
    omega
  exact (leaf_mapTo_of_ne A hne).trans (hst.kernel p hp)

theorem unmapKeep : Confined m g (unmapKeep A a : CallM σ PUnit) := by
  refine bind (virtAddr h) fun _ =>
    ⟨fun st hst => (wp_modify _).2 ⟨hst.mmap, fun p hp => ?_⟩⟩
  have hne : p ≠ a / pageSize := by
    have := page_lt_userPages h
    omega
  unfold unmapKeepFrame
  split_ifs
  · exact hst.kernel p hp
  · rw [leaf_unmap, if_neg hne]
    exact hst.kernel p hp

/-! ### Faults -/

theorem installPage (f : ℕ) (prot : Perms) (sharedFile grow : Bool) :
    Confined m g (installPage A a f prot sharedFile grow) := by
  have hrel : Confined m g
      (if sharedFile then Pure.pure ⟨⟩ else Mm.freeFrameOf A f : CallM σ PUnit) :=
    ite _ (fun _ => pure _) fun _ => freeFrameOf A f
  refine bind (virtAddr h) fun _ => ite _ (fun _ => bind hrel fun _ => pure _) fun _ => ?_
  refine bind (mapOneFrame A h f prot) fun r => ?_
  split
  · exact pure _
  · exact bind hrel fun _ => pure _
  · exact bind hrel fun _ => ite _ (fun _ => killed) fun _ => pure _
  · exact bind hrel fun _ => pure _

theorem growStack : Confined m g (growStack A w a) := by
  refine ite _ (fun _ => pure _) fun _ => get fun st hst => ?_
  split
  · exact killed
  · rename_i f fr _
    refine bind (set ⟨hst.mmap, hst.kernel⟩) fun _ => bind (virtAddr h) fun _ => ?_
    refine ite _ (fun _ => bind (freeFrameOf A f) fun _ => pure _) fun _ => ?_
    grind [bind, mapOneFrame, pure, freeFrameOf, killed]

theorem faultInPage (isWrite grow : Bool) : Confined m g (faultInPage A w a isWrite grow) := by
  have hframes (f : Frames σ → Frames σ) :
      Confined m g (modify fun st => { st with fr := f st.fr } : CallM σ PUnit) :=
    ⟨fun _ hst => (wp_modify _).2 ⟨hst.mmap, hst.kernel⟩⟩
  refine get fun st hst => ?_
  split
  · exact ite _ (fun _ => growStack A w h) fun _ => pure _
  refine ite _ (fun _ => pure _) fun _ => ite _ (fun _ => pure _) fun _ =>
    ite _ (fun _ => pure _) fun _ => ?_
  split
  · grind [bind, addOffset, pure, installPage]
  split
  · exact ite _ (fun _ => killed) fun _ => pure _
  rename_i f fr _
  refine bind (set ⟨hst.mmap, hst.kernel⟩) fun _ => ?_
  split
  · exact bind (hframes fun fr => fr.zeroFrame f) fun _ => installPage A h _ _ _ _
  · refine bind (hframes fun fr => fr.zeroFrame f) fun _ => bind (addOffset _ _) fun off => ?_
    split
    · exact bind (freeFrameOf A f) fun _ => pure _
    · exact bind (hframes fun fr => writeToFrame fr f _) fun _ => installPage A h _ _ _ _
  · exact bind (freeFrameOf A f) fun _ => pure _

end

/-- Faulting in a page of the user half, or one whose range allows no access. -/
theorem populateOnePage
    (h : a < userVaEnd ∨ ∀ v, m.findContaining a = some v → v.prot.accessible = false) :
    Confined m g (populateOnePage A w a) := by
  refine get fun st hst => ?_
  split
  · exact pure _
  rename_i v hv
  refine ite _ (fun _ => pure _) fun hacc => ?_
  have ha : a < userVaEnd := h.resolve_right fun h => hacc (h v (hst.mmap ▸ hv))
  split
  · exact pure _
  · exact bind (translate w ha) fun b => ite _ (fun _ => pure _) fun _ => faultInPage A w ha _ _

omit [Mapper A] in
theorem tryBreakCow (h : a < userVaEnd) : Confined m g (tryBreakCow A w a) := by
  refine get fun st hst => ite _ (fun _ => pure _) fun _ => ite _ (fun _ => pure _) fun _ => ?_
  refine bind (virtAddr h) fun _ => bind (set ⟨hst.mmap, fun p hp => ?_⟩) fun _ => ?_
  · have hne : p ≠ a / pageSize := by
      have := page_lt_userPages h
      omega
    exact (leaf_breakCow_of_ne A hne).trans (hst.kernel p hp)
  · grind [bind, freeFrameOf, pure, killed]

theorem accessPage (h : a < userVaEnd) (isWrite : Bool) :
    Confined m g (accessPage A w a isWrite) := by
  have hp : a / pageSize * pageSize < userVaEnd := (Nat.div_mul_le_self _ _).trans_lt h
  have hhandle (present : Bool) : Confined m g (tryHandle A w a present isWrite) :=
    ite _ (fun _ => ite _ (fun _ => tryBreakCow A w hp) fun _ => pure _) fun _ =>
      faultInPage A w hp isWrite true
  refine bind (virtAddr h) fun _ => get fun st hst => ite _ (fun _ => pure _) fun _ => ?_
  refine bind (hhandle _) fun b => ite _ (fun _ => ?_) fun _ => pure _
  exact bind (virtAddr h) fun _ => get fun _ _ => pure _

theorem accessOk (a len : ℕ) (isWrite : Bool) : Confined m g (accessOk A w a len isWrite) := by
  refine ite _ (fun _ => pure _) fun hlen => ite _ (fun _ => pure _) fun _ =>
    ite _ (fun _ => pure _) fun hend => bind (countWhile fun i _ hi => accessPage A w ?_ _) fun _ =>
      pure _
  grind [pageSize]

/-! ### Loops over pages -/

theorem pageAddresses {base pages : ℕ} (h : base + pages * pageSize ≤ userVaEnd) :
    Confined m g (pageAddresses base pages : CallM σ PUnit) := by
  refine forFrom fun i _ hi => ?_
  have hlt : base + i * pageSize < userVaEnd := by
    unfold pageSize at *
    omega
  exact addAddr _ _ (hlt.trans (by decide)) (virtAddr hlt)

theorem eachPage (hhi : hi ≤ kernelVaStart)
    (h : ∀ p, lo ≤ p → p < hi → Confined m g (body p)) : Confined m g (eachPage lo hi body) := by
  refine forFrom fun i _ hi' => ?_
  grind [pageSize, bind, addAddr_discard, kernelVaStart, usizeBound]

theorem allMapped (hhi : hi ≤ userVaEnd) : Confined m g (allMapped w lo hi : CallM σ Bool) := by
  refine bind (countWhile fun i _ hi' => ?_) fun _ => pure _
  have hlt : lo + i * pageSize < hi := by
    unfold pageSize at *
    omega
  refine bind (translate w (hlt.trans_le hhi)) fun b => ite _ (fun _ => ?_) fun _ => pure _
  grind [bind, addAddr_discard, pure, userVaEnd, usizeBound, pageSize]

theorem gapsMapped {gaps : List (ℕ × ℕ)} (h : ∀ r ∈ gaps, r.2 ≤ userVaEnd) :
    Confined m g (gapsMapped w gaps : CallM σ Bool) := by
  induction gaps with
  | nil => exact pure _
  | cons r gaps ih =>
    refine bind (allMapped w (h r List.mem_cons_self)) fun b => ite _ (fun _ => ?_) fun _ => pure _
    exact ih fun r' hr' => h r' (List.mem_cons_of_mem r hr')

theorem unmapPagesLocked {vaddr pages : ℕ} (hv : vaddr < userVaEnd)
    (h : vaddr + pages * pageSize ≤ userVaEnd) : Confined m g (unmapPagesLocked A vaddr pages) := by
  refine bind (virtAddr hv) fun _ => ite _ (fun hal => ?_) fun _ => pure _
  refine bind (pageAddresses h) fun _ =>
    ⟨fun st hst => (wp_modify _).2 ⟨hst.mmap, fun p hp => ?_⟩⟩
  have hout : ¬ (vaddr / pageSize ≤ p ∧ p < vaddr / pageSize + pages) := by
    grind [userVaEnd, userPages, pageSize]
  refine (leaf_unmapPages A hal pages p).trans ?_
  rw [if_neg hout]
  exact hst.kernel p hp

theorem detachVma {v : Vma} (hv : v.stop ≤ stop) (hstop : stop ≤ userVaEnd) :
    Confined m g (detachVma A w addr stop v : CallM σ PUnit) := by
  unfold Syscall.detachVma
  split
  · refine ite _ (fun _ => eachPage ?_ fun p _ hp => ?_) fun _ => pure _
    · exact (min_le_right _ _).trans (hstop.trans (by decide))
    · have hlt : p < userVaEnd := hp.trans_le ((min_le_right _ _).trans hstop)
      refine bind (translate w hlt) fun b => ite _ (fun _ => ?_) fun _ => pure _
      exact bind (unmapKeep A hlt) fun _ => discard (addOffset _ _)
  · refine forFrom fun i _ hi => ?_
    have hlt : v.start + i * pageSize < userVaEnd := by
      unfold pageSize at *
      omega
    exact addAddr _ _ (hlt.trans (by decide)) (unmapKeep A hlt)
  · exact pure _

theorem detachSharedDropped {dropped : List Vma}
    (h : ∀ v ∈ dropped, v.stop ≤ stop) (hstop : stop ≤ userVaEnd) :
    Confined m g (detachSharedDropped A w dropped addr stop : CallM σ PUnit) :=
  forEach fun v hv => detachVma A w (h v hv) hstop

theorem writebackVma (addr hi : ℕ) (v : Vma) :
    Confined m g (writebackVma addr hi v : CallM σ PUnit) := by
  unfold Syscall.writebackVma
  split
  · exact ite _ (fun _ => bind (addOffset _ _) fun _ => discard (addOffset _ _)) fun _ => pure _
  · exact pure _

theorem unmapMapped {vaddr mapped : ℕ} (h : vaddr + mapped * pageSize ≤ userVaEnd) :
    Confined m g (unmapMapped A vaddr mapped : CallM σ PUnit) := by
  refine forFrom fun i _ hi => ?_
  have hlt : vaddr + i * pageSize < userVaEnd := by
    unfold pageSize at *
    omega
  exact addAddr _ _ (hlt.trans (by decide)) (unmapKeep A hlt)

theorem copyPages {oldAddr dest copyLen : ℕ} (hold : oldAddr + copyLen ≤ userVaEnd)
    (hdest : dest + copyLen ≤ userVaEnd) : Confined m g (copyPages A w oldAddr dest copyLen) := by
  have hsum {a i : ℕ} (ha : a + copyLen ≤ userVaEnd) (hi : i < 0 + copyLen / pageSize) :
      a + i * pageSize < usizeBound := by
    have hend : userVaEnd < usizeBound := by decide
    unfold pageSize at *
    omega
  refine bind (countWhile fun i _ hi => ?_) fun _ => pure _
  refine addAddr _ _ (hsum hold hi) ?_
  refine bind (accessOk A w _ _ _) fun b => ite _ (fun _ => ?_) fun _ => pure _
  exact addAddr _ _ (hsum hdest hi) (accessOk A w _ _ _)

end Confined

end CypheraKernel.Syscall
