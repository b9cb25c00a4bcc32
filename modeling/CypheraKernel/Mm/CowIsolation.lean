import CypheraKernel.Mm.CowFork

/-!
# Isolation of private pages

A machine of several address spaces over one physical memory, and its runs: new address spaces,
anonymous mappings, `fork`, breaking copy-on-write, changes of permissions and unmapping, in any
order.  A page counts as shared from the `fork` that passes it in its shared ranges until it is
unmapped.

`Isolated` is what copy-on-write is for: a writable private leaf is the only leaf of its frame, so
that no other page shows a store through it.  Two operations break it:

* `change_perms` makes a read-only page writable in place.  `fork` shares the frame of a read-only
  page without marking it copy-on-write, so after a `fork` parent and child can both write to it;
* a `fork` that fails makes writable the copy-on-write pages it has come past, also those whose
  frame another process maps.

`isolated_run` shows that nothing else does.  `Contract` is what the callers see to: the shared
ranges of the `fork`s of a process agree, and shared pages are unmapped without freeing their frame.
`Careful` excludes the two cases above.
-/

namespace CypheraKernel.Mm

open Frames VmSpace

variable {σ : Type} (A : FrameAllocator σ) [Mapper A] (x : Prop)

/-! ### Machines -/

/-- An address space with its shared pages. -/
structure Proc where
  vm : VmSpace
  shared : ℕ → Bool

/-- Address spaces over one allocator. -/
structure Machine (σ : Type) where
  fr : Frames σ
  procs : List Proc

/-- The calls on address spaces. -/
inductive Event
  | newUser
  | mapAnon (i vaddr pages : ℕ) (perms : Perms)
  | fork (i : ℕ) (ranges : List (ℕ × ℕ))
  | breakCow (i vaddr : ℕ) (newPerms : Option Perms)
  | changePerms (i vaddr pages : ℕ) (perms : Perms)
  | unmapPages (i vaddr pages : ℕ)
  | unmapKeepFrame (i vaddr : ℕ)

namespace Machine

variable (m : Machine σ)

def leafAt (i p : ℕ) : Option Pte := m.procs[i]?.bind fun pr => pr.vm.leaf p

def sharedAt (i p : ℕ) : Bool := m.procs[i]?.any fun pr => pr.shared p

/-- The machine after an operation on space `i`; a page that is no longer mapped is not shared. -/
def put (i : ℕ) (fr : Frames σ) (vm : VmSpace) (S : ℕ → Bool) : Machine σ where
  fr := fr
  procs := m.procs.set i ⟨vm, fun q => S q && (vm.leaf q).isSome⟩

/-- The machine with a new address space. -/
def add (fr : Frames σ) (vm : VmSpace) (S : ℕ → Bool) : Machine σ where
  fr := fr
  procs := m.procs ++ [⟨vm, fun q => S q && (vm.leaf q).isSome⟩]

/-- An operation on space `i`, if there is one. -/
def onProc (i : ℕ) (f : Proc → Machine σ) : Machine σ :=
  match m.procs[i]? with
  | none => m
  | some pr => f pr

def step : Event → Machine σ
  | .newUser =>
    match newUser A m.fr with
    | none => m
    | some (vm, fr) => m.add fr vm fun _ => false
  | .mapAnon i vaddr pages perms => m.onProc i fun pr =>
    let r := mapAnon A m.fr pr.vm vaddr pages perms
    m.put i r.2.1 r.2.2 pr.shared
  | .fork i ranges => m.onProc i fun pr =>
    let r := forkClone A m.fr pr.vm ranges
    let parent := m.put i r.2.1 r.2.2 fun q => pr.shared q || isShared ranges q
    match r.1 with
    | .ok (child, _) => parent.add r.2.1 child (isShared ranges)
    | .error _ => parent
  | .breakCow i vaddr newPerms => m.onProc i fun pr =>
    let r := breakCow A m.fr pr.vm vaddr newPerms
    -- The fault handler frees the frame of a page that was copied.
    m.put i (r.2.1.freeFrames A (oldFrames r.1)) r.2.2 pr.shared
  | .changePerms i vaddr pages perms => m.onProc i fun pr =>
    let r := changePerms A m.fr pr.vm vaddr pages perms
    m.put i r.2.1 r.2.2 pr.shared
  | .unmapPages i vaddr pages => m.onProc i fun pr =>
    let r := unmapPages A m.fr pr.vm vaddr pages
    m.put i r.1 r.2 pr.shared
  | .unmapKeepFrame i vaddr => m.onProc i fun pr =>
    m.put i m.fr (unmapKeepFrame A pr.vm vaddr) pr.shared

def run (evs : List Event) : Machine σ := evs.foldl (step A) m

/-! ### What is to hold -/

/-- The byte a process reads. -/
def load (i p off : ℕ) : Option UInt8 :=
  (m.leafAt i p).map fun e => m.fr.mem e.frame off

/-- A store by a process; without a writable leaf it faults and changes nothing. -/
def store (i p off : ℕ) (b : UInt8) : Machine σ :=
  match m.leafAt i p with
  | none => m
  | some e => if e.writable then { m with fr := m.fr.writeByte e.frame off b } else m

/-- A writable private leaf is the only leaf of its frame, and a store to a private page is seen at
no other page. -/
def Isolated : Prop :=
  (∀ i p e, m.leafAt i p = some e → m.sharedAt i p = false → e.writable = true →
    ∀ j q e', m.leafAt j q = some e' → e'.frame = e.frame → j = i ∧ q = p) ∧
    ∀ i p, m.sharedAt i p = false → ∀ off b j q off', (j, q) ≠ (i, p) →
      (m.store i p off b).load j q off' = m.load j q off'

/-! ### Conditions on a step -/

/-- What the callers see to. -/
def Contract : Event → Prop
  | .fork i ranges =>
    (∀ q, (m.leafAt i q).isSome → m.sharedAt i q = true → isShared ranges q = true) ∧
      ∀ q e, m.leafAt i q = some e → isShared ranges q = true → m.sharedAt i q = false →
        m.fr.frameRefCount e.frame ≤ 1
  | .unmapPages i vaddr pages =>
    ∀ q, vaddr / pageSize ≤ q → q < vaddr / pageSize + pages → m.sharedAt i q = false
  | _ => True

/-- What nobody sees to: no page is made writable whose frame has several references. -/
def Careful : Event → Prop
  | .fork i ranges => ∀ pr, m.procs[i]? = some pr →
    (A.free m.fr.pool).card < cloneFrames m.fr pr.vm ranges →
      ∀ l ∈ reachedLeaves A m.fr pr.vm ranges, cloneKind m.fr ranges l = .cow → l.2.cow = true →
        m.fr.frameRefCount l.2.frame ≤ 1
  | .changePerms i vaddr pages perms =>
    ∀ q e, vaddr / pageSize ≤ q → q < vaddr / pageSize + pages → m.leafAt i q = some e →
      m.sharedAt i q = false → CowInv.ProtectOk m.fr perms e
  | _ => True

/-- A condition met by all steps of a run. -/
def Along (P : Machine σ → Event → Prop) : Machine σ → List Event → Prop
  | _, [] => True
  | m, ev :: evs => P m ev ∧ Along P (m.step A ev) evs

/-! ### The invariant of a machine -/

/-- The table of all mappings. -/
def mappings : Mappings :=
  fun i p => (m.leafAt i p).map fun e => ⟨e, m.sharedAt i p⟩

structure Inv (m : Machine σ) : Prop where
  cow : CowInv A x m.fr m.mappings 0
  mapped : ∀ i q, m.sharedAt i q = true → (m.leafAt i q).isSome

section Lookup

variable {m m' : Machine σ} {i : ℕ} {pr : Proc} {fr : Frames σ} {vm : VmSpace} {S : ℕ → Bool}

section

variable (hi : m.procs[i]? = some pr)

include hi

theorem leafAt_of_proc (q : ℕ) : m.leafAt i q = pr.vm.leaf q := by
  simp [leafAt, hi]

theorem sharedAt_of_proc (q : ℕ) : m.sharedAt i q = pr.shared q := by
  simp [sharedAt, hi]

theorem mappings_eq_withSpace : m.mappings = withSpace m.mappings i pr.vm pr.shared := by
  funext j q
  by_cases hj : j = i
  · subst hj
    rw [withSpace_self, mappings, leafAt_of_proc hi, sharedAt_of_proc hi]
  · rw [withSpace_of_ne hj]

theorem getElem?_put (j : ℕ) :
    (m.put i fr vm S).procs[j]? =
      if j = i then some ⟨vm, fun q => S q && (vm.leaf q).isSome⟩ else m.procs[j]? := by
  have hlt : i < m.procs.length := (List.getElem?_eq_some_iff.1 hi).1
  by_cases hj : j = i
  · simp [put, hj, hlt]
  · simp [put, hj, List.getElem?_set_ne (Ne.symm hj)]

end

/-- The mappings of a machine whose space `i` has been replaced or added. -/
theorem mappings_of_getElem?
    (h : ∀ j, m'.procs[j]? =
      if j = i then some ⟨vm, fun q => S q && (vm.leaf q).isSome⟩ else m.procs[j]?) :
    m'.mappings = withSpace m.mappings i vm S := by
  funext j q
  unfold mappings leafAt sharedAt
  rw [h]
  by_cases hj : j = i
  · subst hj
    rw [if_pos rfl, withSpace_self]
    cases hq : vm.leaf q <;> simp [hq]
  · rw [if_neg hj, withSpace_of_ne hj]

variable {A x}

omit [Mapper A] in
theorem Inv.of_getElem? (h : m.Inv A x)
    (hget : ∀ j, m'.procs[j]? =
      if j = i then some ⟨vm, fun q => S q && (vm.leaf q).isSome⟩ else m.procs[j]?)
    (hcow : CowInv A x m'.fr (withSpace m.mappings i vm S) 0) : m'.Inv A x := by
  refine ⟨by rwa [mappings_of_getElem? hget], fun j q => ?_⟩
  unfold sharedAt leafAt
  rw [hget]
  by_cases hj : j = i
  · rw [if_pos hj]
    simp
  · rw [if_neg hj]
    exact h.mapped j q

omit [Mapper A] in
theorem Inv.put (h : m.Inv A x) (hi : m.procs[i]? = some pr)
    (hcow : CowInv A x fr (withSpace m.mappings i vm S) 0) : (m.put i fr vm S).Inv A x :=
  h.of_getElem? (getElem?_put hi) hcow

omit [Mapper A] in
theorem Inv.add (h : m.Inv A x) (hcow : CowInv A x fr (withSpace m.mappings m.procs.length vm S) 0) :
    (m.add fr vm S).Inv A x :=
  h.of_getElem? (fun j => by grind [Machine.add]) hcow

end Lookup

/-! ### Steps and runs -/

variable {A x} {m}

omit [Mapper A] in
theorem Inv.onProc {i : ℕ} {f : Proc → Machine σ} (h : m.Inv A x)
    (hf : ∀ pr, m.procs[i]? = some pr → CowInv A x m.fr (withSpace m.mappings i pr.vm pr.shared) 0 →
      (f pr).Inv A x) : (m.onProc i f).Inv A x := by
  grind [Machine.onProc, mappings_eq_withSpace, h.cow]

/-- `fork` keeps the invariant. -/
theorem Inv.fork {i : ℕ} {ranges : List (ℕ × ℕ)} (h : m.Inv A x)
    (hcontract : m.Contract (.fork i ranges)) (hcareful : x → m.Careful A (.fork i ranges)) :
    (m.step A (.fork i ranges)).Inv A x := by
  refine h.onProc fun pr hi hcow => ?_
  obtain ⟨hagain, hfresh⟩ := hcontract
  simp only [leafAt_of_proc hi, sharedAt_of_proc hi] at hagain hfresh
  have hS : (fun q => pr.shared q || isShared ranges q) = isShared ranges := by
    funext q
    cases hq : pr.shared q with
    | false => rfl
    | true =>
      have hmapped := h.mapped i q (by rwa [sharedAt_of_proc hi])
      rw [leafAt_of_proc hi] at hmapped
      rw [hagain q hmapped hq]
      rfl
  have hshare := hcow.shareRanges hagain hfresh
  have hfree : ∀ p e, pr.vm.leaf p = some e → e.frame ∉ A.free m.fr.pool := fun p e he =>
    hcow.not_free (CowInv.mapping_self he)
  rw [hS]
  cases hr : forkClone A m.fr pr.vm ranges with
  | mk r t =>
    obtain ⟨fr', vm'⟩ := t
    rcases forkClone_outcome h.cow.free_zero hfree hr with
      ⟨err, rfl, hcard, hg⟩ | ⟨child, shared, rfl, -, hc⟩
    · have hls : ∀ l ∈ reachedLeaves A m.fr pr.vm ranges, pr.vm.leaf l.1 = some l.2 :=
        fun l hl => (mem_userLeaves.1 (mem_userLeaves_of_reachedLeaves hl)).1
      exact h.put hi (hshare.givenUp hls (fun hx => hcareful hx pr hi hcard) hg)
    have hlt : i < m.procs.length := (List.getElem?_eq_some_iff.1 hi).1
    have hcloned := hshare.cloned hc hlt.ne'
    -- The parent alone is what the table says without the child.
    have hparent : (m.put i fr' vm' (isShared ranges)).Inv A x := by
      grind [h.put, hcloned.restamp, withSpace_of_ne, mappings, leafAt]
    refine hparent.add ?_
    rw [mappings_of_getElem? (getElem?_put hi)]
    simpa [Machine.put] using hcloned

/-- One step keeps the invariant. -/
theorem Inv.step (h : m.Inv A x) {ev : Event} (hcontract : m.Contract ev)
    (hcareful : x → m.Careful A ev) : (m.step A ev).Inv A x := by
  cases ev with
  | newUser =>
    unfold Machine.step
    cases hnew : newUser A m.fr with
    | none => exact h
    | some r =>
      obtain ⟨⟨f, fr₁⟩, ha, rfl⟩ := Option.map_eq_some_iff.1 hnew
      have hacq := h.cow.acquire (((Ledger.refl m.fr).alloc ha).zeroFrame f)
      refine h.add ((hacq.mono (Multiset.zero_le _)).restamp fun j q m' hm' => ?_)
      rcases withSpace_eq_some hm' with ⟨-, hleaf, -⟩ | ⟨-, hm'⟩
      · simp [leaf] at hleaf
      · exact ⟨m', hm', rfl, rfl, fun _ hw _ => .inl hw⟩
  | mapAnon i vaddr pages perms =>
    refine h.onProc fun pr hi hcow => ?_
    have hr : mapAnon A m.fr pr.vm vaddr pages perms = (_, _, _) := rfl
    refine h.put hi (hcow.mapAnon (fun q hq => ?_) hr)
    rw [← leafAt_of_proc hi]
    exact h.mapped i q (by rwa [sharedAt_of_proc hi])
  | fork i ranges => exact h.fork hcontract hcareful
  | breakCow i vaddr newPerms =>
    refine h.onProc fun pr hi hcow => ?_
    have hr : breakCow A m.fr pr.vm vaddr newPerms = (_, _, _) := rfl
    exact h.put hi (CowInv.freeFrames _ (hcow.breakCow hr))
  | changePerms i vaddr pages perms =>
    refine h.onProc fun pr hi hcow => ?_
    have hr : changePerms A m.fr pr.vm vaddr pages perms = (_, _, _) := rfl
    refine h.put hi (hcow.changePerms (fun hx q e hle hlt he hs => ?_) hr)
    exact hcareful hx q e hle hlt (by rwa [leafAt_of_proc hi]) (by rwa [sharedAt_of_proc hi])
  | unmapPages i vaddr pages =>
    refine h.onProc fun pr hi hcow => ?_
    have hr : unmapPages A m.fr pr.vm vaddr pages = (_, _) := rfl
    refine h.put hi (hcow.unmapPages (fun q hle hlt _ => ?_) hr)
    rw [← sharedAt_of_proc hi]
    exact hcontract q hle hlt
  | unmapKeepFrame i vaddr =>
    exact h.onProc fun pr hi hcow => h.put hi hcow.unmapKeepFrame

theorem Inv.run (h : m.Inv A x) {evs : List Event} (hcontract : Along A Contract m evs)
    (hcareful : x → Along A (Careful A) m evs) : (m.run A evs).Inv A x := by
  induction evs generalizing m with
  | nil => exact h
  | cons ev evs ih =>
    exact ih (h.step hcontract.1 fun hx => (hcareful hx).1) hcontract.2 fun hx => (hcareful hx).2

omit [Mapper A] in
/-- A machine without address spaces. -/
theorem Inv.init {fr : Frames σ}
    (hfree : ∀ f ∈ A.free fr.pool, f < fr.refLen ∧ fr.frameRefCount f = 0) :
    Inv A x ⟨fr, []⟩ where
  cow := {
    free_lt := fun f hf => (hfree f hf).1
    free_zero := fun f hf => (hfree f hf).2
    backed := fun f => .inr ⟨∅, fun i p m hm => by simp [mappings, leafAt] at hm, by simp⟩
    same_page := fun hm => by simp [mappings, leafAt] at hm
    exclusive := fun _ _ _ _ hm => by simp [mappings, leafAt] at hm
    shared_count := fun hm => by simp [mappings, leafAt] at hm }
  mapped i q := by simp [sharedAt]

theorem mappings_of_leafAt {p : ℕ} {e : Pte} (he : m.leafAt i p = some e) :
    m.mappings i p = some ⟨e, m.sharedAt i p⟩ := by
  rw [mappings, he]
  rfl

omit [Mapper A] in
theorem Inv.isolated (h : m.Inv A True) : m.Isolated := by
  have halias : ∀ i p e, m.leafAt i p = some e → m.sharedAt i p = false → e.writable = true →
      ∀ j q e', m.leafAt j q = some e' → e'.frame = e.frame → j = i ∧ q = p := by
    intro i p e he hs hw j q e' he' hframe
    have hm := mappings_of_leafAt he
    have hm' := mappings_of_leafAt he'
    exact ⟨h.cow.exclusive trivial hm hs hw j q _ hm' hframe, (h.cow.same_page hm' hm hframe).1⟩
  refine ⟨halias, fun i p hs off b j q off' hne => ?_⟩
  unfold store
  cases he : m.leafAt i p with
  | none => rfl
  | some e =>
    dsimp only
    split_ifs with hw
    · have hload : load { m with fr := m.fr.writeByte e.frame off b } j q off' =
          (m.leafAt j q).map fun e' => (m.fr.writeByte e.frame off b).mem e'.frame off' := rfl
      rw [hload, load]
      cases he' : m.leafAt j q with
      | none => rfl
      | some e' =>
        have hframe : e'.frame ≠ e.frame := fun hframe => by
          obtain ⟨rfl, rfl⟩ := halias i p e he hs hw j q e' he' hframe
          exact hne rfl
        rw [Option.map_some, Option.map_some, mem_writeByte_of_ne _ hframe]
    · rfl

variable (A) in
/-- **Isolation.**  Start without address spaces, with free frames that are counted and have no
references.  In every run whose steps all meet the contract and are careful, and so in every state
on the way, a writable private leaf is the only leaf of its frame, and no other page shows a store
through it. -/
theorem isolated_run (fr : Frames σ)
    (hfree : ∀ f ∈ A.free fr.pool, f < fr.refLen ∧ fr.frameRefCount f = 0) (evs : List Event)
    (hcontract : Along A Contract ⟨fr, []⟩ evs) (hcareful : Along A (Careful A) ⟨fr, []⟩ evs) :
    (run A ⟨fr, []⟩ evs).Isolated :=
  ((Inv.init hfree).run hcontract fun _ => hcareful).isolated

/-- Memory with sixteen free frames. -/
def freshFrames : Frames (List ℕ) where
  pool := List.range 16
  refLen := 16
  count _ := 0
  mem _ _ := 0

theorem freshFrames_free : ∀ f ∈ listAllocator.free freshFrames.pool,
    f < freshFrames.refLen ∧ freshFrames.frameRefCount f = 0 := by
  decide

/-- A writable page, a `fork`, and the child's copy of the page. -/
def forkThenCopy : List Event :=
  [.newUser, .mapAnon 0 (1024 * pageSize) 1 Perms.userRw, .fork 0 [],
    .breakCow 1 (1024 * pageSize) none]

theorem forkThenCopy_isolated :
    ((run listAllocator ⟨freshFrames, []⟩ forkThenCopy).leafAt 1 1024).any (·.writable) = true ∧
      (run listAllocator ⟨freshFrames, []⟩ forkThenCopy).Isolated := by
  refine ⟨by decide +kernel, isolated_run listAllocator freshFrames freshFrames_free _ ?_ ?_⟩
  · exact ⟨trivial, trivial, ⟨nofun, nofun⟩, trivial, trivial⟩
  refine ⟨trivial, trivial, fun pr hi hlt => ?_, trivial, trivial⟩
  let m := run listAllocator ⟨freshFrames, []⟩ (forkThenCopy.take 2)
  have henough : m.procs[0]?.all (fun pr => cloneFrames m.fr pr.vm [] ≤ 11) = true := by
    decide +kernel
  have hcard : (listAllocator.free m.fr.pool).card = 11 := by decide +kernel
  have hi : m.procs[0]? = some pr := hi
  have hlt : (listAllocator.free m.fr.pool).card < cloneFrames m.fr pr.vm [] := hlt
  rw [hi, Option.all_some, decide_eq_true_eq] at henough
  omega

/-- A read-only page, a `fork`, and the page made writable in the parent. -/
def forkThenWrite : List Event :=
  [.newUser, .mapAnon 0 (1024 * pageSize) 1 ⟨true, false, false, true⟩, .fork 0 [],
    .changePerms 0 (1024 * pageSize) 1 Perms.userRw]

theorem forkThenWrite_not_isolated :
    Along listAllocator Contract ⟨freshFrames, []⟩ forkThenWrite ∧
      ¬ (run listAllocator ⟨freshFrames, []⟩ forkThenWrite).Isolated := by
  constructor
  · refine ⟨trivial, trivial, ⟨fun q _ hq => ?_, fun q e _ hq => ?_⟩, trivial, trivial⟩
    · cases hq
    · cases hq
  intro h
  have h0 : (run listAllocator ⟨freshFrames, []⟩ forkThenWrite).leafAt 0 1024 =
    some (Perms.userRw.toPte 1) := by decide +kernel
  have h1 : (run listAllocator ⟨freshFrames, []⟩ forkThenWrite).leafAt 1 1024 =
    some (Perms.toPte ⟨true, false, false, true⟩ 1) := by decide +kernel
  have hs : (run listAllocator ⟨freshFrames, []⟩ forkThenWrite).sharedAt 0 1024 = false := by
    decide +kernel
  exact absurd (h.1 0 1024 _ h0 hs rfl 1 1024 _ h1 rfl).1 (by decide)

/-- A frame has the references of its leaves, and no leaf leads to a free frame. -/
def Counted (A : FrameAllocator σ) (m : Machine σ) : Prop :=
  ∀ f, Backed m.fr m.mappings 0 f ∧
    (f ∈ A.free m.fr.pool → ∀ i p e, m.leafAt i p = some e → e.frame ≠ f)

/-- **No frame is used after it was freed** in a run whose steps all meet the contract, careful or
not. -/
theorem counted_run (fr : Frames σ)
    (hfree : ∀ f ∈ A.free fr.pool, f < fr.refLen ∧ fr.frameRefCount f = 0) (evs : List Event)
    (hcontract : Along A Contract ⟨fr, []⟩ evs) : (run A ⟨fr, []⟩ evs).Counted A := by
  have h := ((Inv.init (x := False) hfree).run hcontract nofun).cow
  refine fun f => ⟨h.backed f, fun hf i p e he hframe => ?_⟩
  exact h.not_free (mappings_of_leafAt he) (hframe ▸ hf)

/-- The page is unmapped in the parent and in the child. -/
def forkThenUnmap : List Event :=
  forkThenWrite ++ [.unmapPages 0 (1024 * pageSize) 1, .unmapPages 1 (1024 * pageSize) 1]

/-- Its frame is free then, though the run is not careful. -/
theorem counted_forkThenUnmap :
    1 ∈ listAllocator.free (run listAllocator ⟨freshFrames, []⟩ forkThenUnmap).fr.pool ∧
      (run listAllocator ⟨freshFrames, []⟩ forkThenUnmap).Counted listAllocator := by
  refine ⟨by decide +kernel, counted_run _ freshFrames_free _ ?_⟩
  have hpage : ∀ q, 1024 * pageSize / pageSize ≤ q → q < 1024 * pageSize / pageSize + 1 →
      q = 1024 := by
    norm_num [pageSize]
    omega
  refine ⟨trivial, trivial, ⟨fun q _ hq => ?_, fun q e _ hq => ?_⟩, trivial, fun q hle hlt => ?_,
    fun q hle hlt => ?_, trivial⟩
  · cases hq
  · cases hq
  · cases hpage q hle hlt
    decide +kernel
  · cases hpage q hle hlt
    decide +kernel

end Machine

end CypheraKernel.Mm
