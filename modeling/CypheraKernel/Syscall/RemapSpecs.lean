import CypheraKernel.Syscall.CallSpecs
import CypheraKernel.Syscall.Remap

/-!
# What the parts of `mremap` do

One lemma for each part of the call, in the order in which it uses them.

* `accessOk_spec`: an access leaves every content as it was; it succeeds exactly on the pages that
  are `Reachable`;
* `copyPages_spec`: the copy loop, by induction on the number of pages (`Copied`);
* `munmap_spec`: what `munmap` removes (`Unmapped`), and nothing else;
* `plan_sound`: what has been checked when the call has made up its mind (`Checked`, `Movable`);
* `clearTarget_spec`, `entered_insert`, `dropSource_spec`, `mapFrames_spec`: the steps of a move.
-/

namespace CypheraKernel.Remap

open Mm Rust Syscall MmapState List Nat Memory

variable {q : Means} {mem mem' : Memory}

/-! ### Readings -/

theorem reading_congr {a b : ℕ} (hc : mem'.content (a / pageSize) = mem.content (b / pageSize))
    (hobj : mem'.object = mem.object) (ha : a < userVaEnd ↔ b < userVaEnd)
    (hoff : a % pageSize = b % pageSize) : mem'.reading a = mem.reading b := by
  unfold reading
  rw [hc, hobj, hoff]
  simp only [ha]

variable {p : ℕ} {lo hi n a : ℕ} {page : Page} {m : MmapState} {v : Vma} {isWrite b : Bool}
  {l : List Vma}

theorem content_congr (hpage : mem'.page p = mem.page p)
    (hlookup : mem'.map.lookup (p * pageSize) = mem.map.lookup (p * pageSize))
    (hobj : mem'.object = mem.object) : mem'.content p = mem.content p := by
  unfold content
  rw [hpage, hlookup, hobj]

/-- A range with page-aligned ends holds an address if it holds the start of its page. -/
theorem page_in_range (hlo : Aligned lo) (hhi : Aligned hi) (a : ℕ) :
    (lo ≤ a / pageSize * pageSize ∧ a / pageSize * pageSize < hi) ↔ lo ≤ a ∧ a < hi := by
  unfold Aligned pageSize at *
  omega

section

variable (p page)

@[simp] theorem map_setPage : (mem.setPage p page).map = mem.map := rfl
@[simp] theorem object_setPage : (mem.setPage p page).object = mem.object := rfl

theorem page_setPage (r : ℕ) :
    (mem.setPage p page).page r = if r = p then some page else mem.page r :=
  Function.update_apply mem.page p (some page) r

theorem content_setPage (r : ℕ) :
    (mem.setPage p page).content r = if r = p then some page.content else mem.content r := by
  unfold content
  rw [page_setPage, map_setPage, object_setPage]
  split_ifs <;> rfl

end

/-! ### One access -/

/-- An access changes at most how the page is entered in the page table. -/
structure Touched (mem : Memory) (p : ℕ) (mem' : Memory) : Prop where
  map : mem'.map = mem.map
  object : mem'.object = mem.object
  page : ∀ r, r ≠ p → mem'.page r = mem.page r
  content : mem'.content = mem.content

theorem Touched.refl (mem : Memory) (p : ℕ) : Touched mem p mem :=
  ⟨rfl, rfl, fun _ _ => rfl, rfl⟩

/-- Entering a page with the content it has anyway. -/
theorem Touched.setPage (h : mem.content p = some page.content) :
    Touched mem p (mem.setPage p page) := by
  refine ⟨rfl, rfl, fun r hr => ?_, funext fun r => ?_⟩
  · rw [page_setPage, if_neg hr]
  · grind [content_setPage]

/-- The page can be accessed, if need be after a fault: `page` is its entry in the page table and
`e` that of its first address in the memory map. -/
def Grants (q : Means) (p : ℕ) (page : Option Page) (e : Option Entry) (isWrite : Bool) : Prop :=
  match page, e with
  | some page, e => page.allows isWrite = true ∨
      (isWrite = true ∧ page.user = true ∧ page.cow = true ∧ q.supply p = .granted ∧
        e.all (·.prot.write) = true)
  | none, none => False
  | none, some e => e.prot.user = true ∧ e.prot.accessible = true ∧
      (isWrite = true → e.prot.write = true) ∧ q.supply p = .granted ∧
        match e.backing with
        | .anonymous => True
        | .file _ _ => q.loads p = true
        | .shm _ _ => False

/-- The page lies in the user half and can be accessed. -/
def Reachable (q : Means) (p : ℕ) (page : Option Page) (e : Option Entry) (isWrite : Bool) : Prop :=
  (p + 1) * pageSize ≤ userVaEnd ∧ Grants q p page e isWrite

theorem faultInPage_spec (hnone : mem.page p = none)
    (h : faultInPage q mem p isWrite = .ok (b, mem')) :
    Touched mem p mem' ∧ ((b = true ∧ mem'.allows p isWrite = true) ↔
      Grants q p none (mem.map.lookup (p * pageSize)) isWrite) := by
  have hrefl := Touched.refl mem p
  unfold faultInPage at h
  cases he : mem.map.lookup (p * pageSize) with
  | none =>
    rw [he] at h
    cases h
    exact ⟨hrefl, by simp [Grants]⟩
  | some e =>
    have hcontent : mem.content p = some (initial mem.object e) := by
      rw [content, hnone, he]
      rfl
    -- What the two cases in which the page is entered have in common.
    have hnew : Touched mem p (mem.setPage p (newPage (initial mem.object e) e.prot)) ∧
        ((mem.setPage p (newPage (initial mem.object e) e.prot)).allows p isWrite = true ↔
          (e.prot.user = true ∧ e.prot.accessible = true) ∧
            (isWrite = true → e.prot.write = true)) := by
      refine ⟨.setPage hcontent, ?_⟩
      rw [Memory.allows, page_setPage, if_pos rfl]
      cases isWrite <;> simp [Page.allows, newPage]
    rw [he] at h
    dsimp only at h
    by_cases hacc : e.prot.accessible = false
    · simp_all [Grants]
    rw [if_neg hacc] at h
    by_cases hwrite : isWrite = true ∧ e.prot.write = false
    · simp_all [Grants]
    rw [if_neg hwrite] at h
    cases hs : q.supply p with
    | refused =>
      rw [hs] at h
      cases h
      exact ⟨hrefl, by simp [Grants, hs]⟩
    | exhausted =>
      rw [hs] at h
      cases h
    | granted =>
      rw [hs] at h
      cases hb : e.backing with
      | anonymous =>
        rw [hb] at h
        cases h
        refine ⟨hnew.1, ?_⟩
        rw [hnew.2]
        simp [Grants, hs, hb, and_assoc]
      | file inode offset =>
        rw [hb] at h
        dsimp only at h
        split_ifs at h with hover hload
        · simp_all [Grants]
        · grind [Grants]
      | shm segment offset =>
        rw [hb] at h
        cases h
        exact ⟨hrefl, by simp [Grants, hb]⟩

theorem tryBreakCow_spec (hpage : mem.page p = some page)
    (hnot : page.allows true = false) (h : tryBreakCow q mem p page = .ok (b, mem')) :
    Touched mem p mem' ∧ ((b = true ∧ mem'.allows p true = true) ↔
      Grants q p (some page) (mem.map.lookup (p * pageSize)) true) := by
  have hrefl := Touched.refl mem p
  have hold : mem.allows p true = false := by
    rw [Memory.allows, hpage]
    exact hnot
  have hnw : page.user = true → page.writable = false := by
    unfold Page.allows at hnot
    simpa using hnot
  unfold tryBreakCow at h
  by_cases hprot : (mem.map.lookup (p * pageSize)).any (fun e => !e.prot.write) = true
  · rw [if_pos hprot] at h
    grind [Option.any_eq_true, Grants]
  rw [if_neg hprot] at h
  have hall : (mem.map.lookup (p * pageSize)).all (·.prot.write) = true := by
    cases he : mem.map.lookup (p * pageSize) with
    | none => rfl
    | some e =>
      rw [he] at hprot
      simpa using hprot
  cases hs : q.supply p with
  | refused =>
    rw [hs] at h
    cases h
    exact ⟨hrefl, by simp [Grants, hnot, hs]⟩
  | exhausted =>
    rw [hs] at h
    split_ifs at h with hw hc
    · grind [Grants]
    · grind [Grants]
  | granted =>
    rw [hs] at h
    dsimp only at h
    split_ifs at h with hw hc
    · grind [Grants]
    · cases h
      refine ⟨.setPage (by rw [content, hpage]), ?_⟩
      rw [Memory.allows, page_setPage, if_pos rfl]
      simp [Grants, Page.allows, hs, hc, hall]
      exact fun hu hw' => absurd (hnw hu) (by simp [hw'])
    · grind [Grants]

/-- **One access.**  It leaves every content as it was, and says whether the page can be
accessed. -/
theorem accessOk_spec (h : accessOk q mem p isWrite = .ok (b, mem')) :
    Touched mem p mem' ∧
      (b = true ↔ Reachable q p (mem.page p) (mem.map.lookup (p * pageSize)) isWrite) ∧
      (b = true → ∃ page, mem'.page p = some page) := by
  have hsome {m : Memory} (hm : m.allows p isWrite = true) : ∃ page, m.page p = some page := by
    obtain ⟨page, hpage, -⟩ := (Option.any_eq_true _ _).1 hm
    exact ⟨page, hpage⟩
  unfold accessOk at h
  split_ifs at h with hhalf hallow
  · cases h
    exact ⟨.refl mem p, by simp [Reachable, not_le.2 hhalf], by simp⟩
  · cases h
    obtain ⟨page, hpage, hp⟩ := (Option.any_eq_true _ _).1 hallow
    refine ⟨.refl mem p, ?_, fun _ => ⟨page, hpage⟩⟩
    rw [hpage]
    simp [Reachable, Grants, hp, not_lt.1 hhalf]
  obtain ⟨⟨b', m⟩, hr, h⟩ := bind_eq_ok.1 h
  cases h
  have key : Touched mem p m ∧ ((b' = true ∧ m.allows p isWrite = true) ↔
      Grants q p (mem.page p) (mem.map.lookup (p * pageSize)) isWrite) := by
    unfold tryHandle at hr
    cases hpage : mem.page p with
    | none =>
      rw [hpage] at hr
      exact faultInPage_spec hpage hr
    | some page =>
      rw [hpage] at hr
      have hnot : page.allows isWrite = false := by grind [Memory.allows]
      cases isWrite with
      | false =>
        cases hr
        exact ⟨.refl mem p, by simp [Grants, hnot]⟩
      | true => exact tryBreakCow_spec hpage hnot hr
  refine ⟨key.1, ?_, fun hb => hsome (Bool.and_eq_true_iff.1 hb).2⟩
  simp_all [Reachable]

/-! ### The copy loop -/

theorem load_eq (h : mem.page p = some page) :
    mem.content p = some page.content ∧ mem.load p = page.content.byte mem.object := by
  rw [content, load, h]
  exact ⟨rfl, rfl⟩

theorem store_eq (h : mem.page p = some page) (hown : page.content.place = none) (buf : ℕ → UInt8) :
    mem.store p buf = mem.setPage p { page with content := .own buf } := by
  rw [store, h]
  dsimp only
  cases hc : page.content with
  | own bytes => rfl
  | object o offset =>
    rw [hc] at hown
    cases hown

/-- The pages `src, …, src + n - 1` have been copied to `dst, …`, or the copy has stopped: `done`
says whether it ran through. -/
structure Copied (q : Means) (src dst n : ℕ) (mem : Memory) (done : Bool) (mem' : Memory) :
    Prop where
  map : mem'.map = mem.map
  object : mem'.object = mem.object
  page : ∀ r, r < src ∨ src + n ≤ r → r < dst ∨ dst + n ≤ r → mem'.page r = mem.page r
  content : ∀ r, r < dst ∨ dst + n ≤ r → mem'.content r = mem.content r
  done_iff : done = true ↔ ∀ i < n,
    Reachable q (src + i) (mem.page (src + i)) (mem.map.lookup ((src + i) * pageSize)) false ∧
      Reachable q (dst + i) (mem.page (dst + i)) (mem.map.lookup ((dst + i) * pageSize)) true
  bytes : done = true → ∀ i < n, ∃ c, mem.content (src + i) = some c ∧
    mem'.content (dst + i) = some (.own (c.byte mem.object))

theorem copyPage_spec {src dst : ℕ} (hne : src ≠ dst)
    (hown : ∀ c, mem.content dst = some c → c.place = none)
    (h : copyPage q src dst mem = .ok (b, mem')) : Copied q src dst 1 mem b mem' := by
  obtain ⟨⟨b₁, m₁⟩, h₁, h⟩ := bind_eq_ok.1 h
  obtain ⟨t₁, iff₁, some₁⟩ := accessOk_spec h₁
  by_cases hb₁ : b₁ = true
  · rw [if_pos hb₁] at h
    obtain ⟨⟨b₂, m₂⟩, h₂, h⟩ := bind_eq_ok.1 h
    obtain ⟨t₂, iff₂, some₂⟩ := accessOk_spec h₂
    rw [t₁.map, t₁.page dst (Ne.symm hne)] at iff₂
    have hcontent : m₂.content = mem.content := t₂.content.trans t₁.content
    have hpage : ∀ r, r ≠ src → r ≠ dst → m₂.page r = mem.page r := fun r hs hd =>
      (t₂.page r hd).trans (t₁.page r hs)
    by_cases hb₂ : b₂ = true
    · rw [if_pos hb₂] at h
      cases h
      obtain ⟨p₁, hp₁⟩ := some₁ hb₁
      obtain ⟨p₂, hp₂⟩ := some₂ hb₂
      obtain ⟨hc₁, hload⟩ := load_eq hp₁
      have hown₂ : p₂.content.place = none := hown _ (by rw [← hcontent, (load_eq hp₂).1])
      rw [hload, store_eq hp₂ hown₂]
      refine ⟨t₂.map.trans t₁.map, t₂.object.trans t₁.object, fun r hs hd => ?_, fun r hd => ?_,
        ?_, fun _ i hi => ?_⟩
      · rw [page_setPage, if_neg (by omega), hpage r (by omega) (by omega)]
      · rw [content_setPage, if_neg (by omega), hcontent]
      · simp [iff₁.1 hb₁, iff₂.1 hb₂]
      · simp_all [t₁.content, content_setPage, t₁.object]
    · rw [if_neg hb₂] at h
      cases h
      refine ⟨t₂.map.trans t₁.map, t₂.object.trans t₁.object,
        fun r hs hd => hpage r (by omega) (by omega), fun r _ => by rw [hcontent], ?_, by simp⟩
      rw [iff₂] at hb₂
      simp [hb₂]
  · rw [if_neg hb₁] at h
    cases h
    refine ⟨t₁.map, t₁.object, fun r hs _ => t₁.page r (by omega), fun r _ => by rw [t₁.content], ?_,
      by simp⟩
    rw [iff₁] at hb₁
    simp [hb₁]

/-- **The copy loop.**  By induction on the number of pages: the pages not yet copied are as they
were at the start, since source and destination do not meet. -/
theorem copyPages_spec : ∀ {src dst : ℕ} {mem : Memory} {b : Bool},
    src + n ≤ dst ∨ dst + n ≤ src →
    (∀ i < n, ∀ c, mem.content (dst + i) = some c → c.place = none) →
    copyPages q src dst n mem = .ok (b, mem') → Copied q src dst n mem b mem' := by
  induction n with
  | zero =>
    intro src dst mem b _ _ h
    cases h
    exact ⟨rfl, rfl, fun _ _ _ => rfl, fun _ _ => rfl, by simp, by simp⟩
  | succ n ih =>
    intro src dst mem b hdisj hown h
    rw [copyPages] at h
    obtain ⟨⟨b₁, m⟩, h₁, h⟩ := bind_eq_ok.1 h
    have c₁ := copyPage_spec (by omega) (hown 0 (succ_pos n)) h₁
    by_cases hb : b₁ = true
    · rw [if_pos hb] at h
      have c₂ := ih (by omega)
        (fun i hi c hc => hown (i + 1) (by omega) c (by
          rw [← c₁.content (dst + (i + 1)) (by omega), ← hc]
          congr 1
          omega)) h
      have hsame (r : ℕ) (hs : r < src ∨ src + 1 ≤ r) (hd : r < dst ∨ dst + 1 ≤ r)
          (w : Bool) : Reachable q r (m.page r) (m.map.lookup (r * pageSize)) w ↔
            Reachable q r (mem.page r) (mem.map.lookup (r * pageSize)) w := by
        rw [c₁.page r hs hd, c₁.map]
      refine ⟨c₂.map.trans c₁.map, c₂.object.trans c₁.object, fun r hs hd => ?_, fun r hd => ?_, ?_,
        fun hb' i hi => ?_⟩
      · rw [c₂.page r (by omega) (by omega), c₁.page r (by omega) (by omega)]
      · rw [c₂.content r (by omega), c₁.content r (by omega)]
      · have first := c₁.done_iff.1 hb 0 one_pos
        rw [c₂.done_iff]
        constructor
        · intro hrest i hi
          cases i with
          | zero => exact first
          | succ i =>
            have := hrest i (by omega)
            rw [hsame _ (by omega) (by omega), hsame _ (by omega) (by omega)] at this
            rwa [add_assoc, add_comm 1 i, add_assoc, add_comm 1 i] at this
        · grind
      · cases i with
        | zero =>
          obtain ⟨c, hc, hd⟩ := c₁.bytes hb 0 one_pos
          exact ⟨c, hc, (c₂.content _ (by omega)).trans hd⟩
        | succ i =>
          obtain ⟨c, hc, hd⟩ := c₂.bytes hb' i (by omega)
          rw [c₁.content _ (by omega), add_assoc, add_comm 1 i] at hc
          rw [c₁.object, add_assoc, add_comm 1 i] at hd
          exact ⟨c, hc, hd⟩
    · rw [if_neg hb] at h
      cases h
      refine ⟨c₁.map, c₁.object, fun r hs hd => c₁.page r (by omega) (by omega),
        fun r hd => c₁.content r (by omega), ?_, by simp⟩
      rw [c₁.done_iff] at hb
      simp only [Bool.false_eq_true, false_iff]
      refine fun hall => hb fun i hi => hall i (by omega)

/-! ### Ranges -/

theorem lookup_eq_none_of_free (h : m.Free lo hi) (h₁ : lo ≤ a)
    (h₂ : a < hi) : m.lookup a = none := by
  have hnone : m.findContaining a = none := by
    refine find?_eq_none.2 fun v hv => ?_
    rw [decide_eq_true_eq]
    rcases h v hv with h | h <;> omega
  rw [MmapState.lookup, hnone]
  rfl

/-- Reserving a free range and releasing it again leaves the ranges as they were. -/
theorem vmas_release_reserve (hfree : m.Free lo hi)
    (hlt : lo < hi) : ((m.reserve lo hi).releaseReservation lo hi).vmas = m.vmas := by
  have hkeep (v : Vma) (hv : v ∈ m.vmas) :
      decide (¬ (v.start = lo ∧ v.stop = hi ∧ v.flags.reserved = true)) = true := by
    rw [decide_eq_true_eq]
    rcases hfree v hv with h | h <;> omega
  show ((m.reserve lo hi).vmas.filter _) = _
  grind [MapOk.vmas_reserve, insertAt, reservation, takeWhile_append_dropWhile,
    filter_eq_self]

theorem lookup_eq_of_vmas {m' : MmapState} (h : m'.vmas = m.vmas) : m'.lookup = m.lookup := by
  funext a
  rw [lookup_eq_lookupIn, lookup_eq_lookupIn, h]

/-- The addresses outside a range that has just been entered. -/
theorem lookup_insert_outside (h : a < v.start ∨ v.stop ≤ a) :
    (m.insert v).lookup a = m.lookup a := by
  have hv : v.at? a = none := if_neg (by omega)
  show lookupIn (insertAt v m.vmas) a = lookupIn m.vmas a
  grind [lookupIn_eq_findSome?, insertAt, takeWhile_append_dropWhile]

/-- An address lies in one range at most. -/
theorem eq_of_contains (hs : VmaSorted l) {u : Vma} (hv : v ∈ l) (hu : u ∈ l)
    (hva : v.start ≤ a ∧ a < v.stop) (hua : u.start ≤ a ∧ a < u.stop) : u = v := by
  by_contra hne
  have hsym : l.Pairwise fun v w => v.stop ≤ w.start ∨ w.stop ≤ v.start := hs.pairwise.imp .inl
  have : Std.Symm fun v w : Vma => v.stop ≤ w.start ∨ w.stop ≤ v.start := ⟨fun _ _ h => h.symm⟩
  rcases hsym.forall hu hv hne with h | h <;> omega

theorem lookup_of_mem (hm : MapOk m) (hv : v ∈ m.vmas)
    (ha : v.start ≤ a) (hav : a < v.stop) : m.lookup a = some (v.entryAt a) := by
  cases hfind : m.findContaining a with
  | none =>
    have := find?_eq_none.1 hfind v hv
    simp only [decide_eq_true_eq] at this
    omega
  | some u =>
    have hu := find?_some hfind
    rw [decide_eq_true_eq] at hu
    obtain rfl := eq_of_contains hm.sorted hv (mem_of_find?_eq_some hfind) ⟨ha, hav⟩ hu
    rw [MmapState.lookup, hfind]
    rfl

theorem lookupIn_modifyAt {newEnd : ℕ} (hv : l.find? (fun w => w.start = v.start) = some v)
    (ha : v.start ≤ a) (hav : a < v.stop) (hle : v.stop ≤ newEnd) :
    lookupIn (modifyAt v.start (fun w => { w with stop := newEnd }) l) a = lookupIn l a := by
  induction l with
  | nil => rfl
  | cons w l ih =>
    rw [lookupIn_eq_findSome?, lookupIn_eq_findSome?] at *
    rw [find?_cons] at hv
    rw [modifyAt]
    by_cases hw : w.start = v.start
    · rw [decide_eq_true hw] at hv
      cases hv
      have h₁ : v.at? a = some (v.entryAt a) := if_pos ⟨ha, hav⟩
      have h₂ : ({ v with stop := newEnd } : Vma).at? a = some (v.entryAt a) :=
        if_pos ⟨ha, by show a < newEnd; omega⟩
      rw [if_pos rfl, findSome?_cons, findSome?_cons, h₁, h₂]
    · simp_all [findSome?_cons]

/-- A range that grows keeps the entries of its addresses. -/
theorem lookup_extended {newEnd : ℕ} (hm : MapOk m) (hv : v ∈ m.vmas)
    (h : (m.extendVmaEnd v.start newEnd).1 = true) (ha : v.start ≤ a) (hav : a < v.stop) :
    (m.extendVmaEnd v.start newEnd).2.lookup a = m.lookup a := by
  unfold extendVmaEnd at *
  cases hfind : m.vmas.find? (fun w => w.start = v.start) with
  | none => rfl
  | some u =>
    have hu := mem_of_find?_eq_some hfind
    have hstart : u.start = v.start := by simpa using find?_some hfind
    have hpos := hm.sorted.nonempty u hu
    obtain rfl : u = v :=
      eq_of_contains (a := v.start) hm.sorted hv hu ⟨le_rfl, by omega⟩ ⟨by omega, by omega⟩
    rw [hfind] at h
    dsimp only at h ⊢
    split_ifs at h ⊢ with hbound hover
    have hvmas (s : MmapState) : ((s.bumpLastEnd newEnd).bumpGeneration).vmas = s.vmas := by
      unfold bumpLastEnd
      split_ifs <;> rfl
    rw [lookup_eq_lookupIn, hvmas, lookup_eq_lookupIn]
    exact lookupIn_modifyAt hfind ha hav (by omega)

/-- `[lo, hi)` has been unmapped. -/
structure Unmapped (mem : Memory) (lo hi : ℕ) (mem' : Memory) : Prop where
  map : MapOk mem'.map
  free : mem'.map.Free lo hi
  lookup : ∀ a, mem'.map.lookup a = if lo ≤ a ∧ a < hi then none else mem.map.lookup a
  page : ∀ p, mem'.page p =
    if lo ≤ p * pageSize ∧ p * pageSize < hi then none else mem.page p
  object : mem'.object = mem.object

theorem unmap_spec {ret : Ret} (hm : MapOk mem.map) (hlo : Aligned lo)
    (hhi : Aligned hi) (hlt : lo < hi) (hk : hi ≤ kernelVaStart)
    (h : unmap mem lo hi = .ok (ret, mem')) : Unmapped mem lo hi mem' ∧ hi ≤ userVaEnd := by
  unfold unmap at h
  split_ifs at h with hbound hhole
  cases hr' : mem.map.unmapRangeReserve lo hi with
  | error e =>
    rw [hr'] at h
    cases h
  | ok r' =>
    rw [hr'] at h
    dsimp only at h
    split_ifs at h
    cases h
    obtain ⟨r, hr, hrr⟩ := bind_eq_ok.1 hr'
    cases hrr
    obtain ⟨hok, hfree, -⟩ := hm.unmapRange hlo hhi hlt hr
    have hvmas := vmas_release_reserve hfree hlt
    obtain ⟨r₀, hr₀, hlookup, -⟩ := unmapSpec hm.sorted hlt (rebasable_of_unmapRange hlt hr)
    cases hr.symm.trans hr₀
    refine ⟨⟨?_, fun v hv => hfree v (hvmas ▸ hv), fun a => ?_, fun p => rfl, rfl⟩, ?_⟩
    · exact (hok.reserve ⟨hlt, ⟨hlo, hhi, hk⟩, trivial, hfree⟩).releaseReservation lo hi
    · rw [← hlookup]
      exact congrFun (lookup_eq_of_vmas hvmas) a
    · unfold HasHole at hhole
      omega

theorem munmap_spec {addr length : ℕ} {ret : Ret} (hm : MapOk mem.map)
    (hq : q.world.vforkBorrower = false) (haddr : Aligned addr) (hlen : Aligned length)
    (hpos : 0 < length) (hk : addr + length ≤ kernelVaStart)
    (h : munmap q mem addr length = .ok (ret, mem')) :
    Unmapped mem addr (addr + length) mem' ∧ addr + length ≤ userVaEnd := by
  unfold munmap at h
  rw [if_neg (by simp [hq]), if_neg (by unfold Aligned at haddr; omega),
    alignUpPage_of_aligned hlen (by omega)] at h
  exact unmap_spec hm haddr (haddr.add hlen) (by omega) hk h

theorem Unmapped.content (h : Unmapped mem lo hi mem') (p : ℕ) :
    mem'.content p = if lo ≤ p * pageSize ∧ p * pageSize < hi then none else mem.content p := by
  unfold Memory.content
  rw [h.page, h.lookup, h.object]
  split_ifs <;> rfl

theorem Unmapped.reading (h : Unmapped mem lo hi mem') (hlo : Aligned lo)
    (hhi : Aligned hi) (a : ℕ) :
    mem'.reading a = if lo ≤ a ∧ a < hi then none else mem.reading a := by
  grind [reading, h.content, h.object, page_in_range]

/-! ### What the call has decided -/

/-- The arguments have been checked. -/
structure Valid (q : Means) (c : Call) : Prop where
  borrower : q.world.vforkBorrower = false
  oldAddr : Aligned c.oldAddr
  newSize : c.newSize ≠ 0
  oldPos : 0 < c.oldAligned
  oldEnd : c.oldAddr + c.oldAligned ≤ userVaEnd
  newEnd : c.oldAddr + c.newAligned ≤ userVaEnd

/-- The range `v` has been found. -/
structure Checked (q : Means) (m : MmapState) (c : Call) (v : Vma) : Prop extends Valid q c where
  mem : v ∈ m.vmas
  start : v.start ≤ c.oldAddr
  stop : c.oldAddr + c.oldAligned ≤ v.stop

/-- What has been checked for a move. -/
structure Movable (q : Means) (m : MmapState) (c : Call) (v : Vma) (dest : ℕ)
    (backing : VmaBacking) : Prop where
  offset : backing.Shiftable 0
  backing_eq : backing = v.backing.advance (c.oldAddr - v.start)
  aligned : Aligned dest
  room : dest + c.newAligned ≤ kernelVaStart
  apart : dest + c.newAligned ≤ c.oldAddr ∨ c.oldAddr + c.oldAligned ≤ dest
  free : c.fixed = false → m.Free dest (dest + c.newAligned)
  half : c.fixed = true → dest + c.newAligned ≤ userVaEnd
  holds : c.fixed = true → segmentHolds q.world backing c.newAligned = true

/-- What each decision rests on. -/
def Plan.Sound (q : Means) (m : MmapState) (c : Call) (v : Vma) : Plan → Prop
  | keep => True
  | shrink => c.newAligned < c.oldAligned
  | grow m' => v.start = c.oldAddr ∧ v.stop = c.oldAddr + c.oldAligned ∧
      (m.extendVmaEnd c.oldAddr (c.oldAddr + c.newAligned)) = (true, m')
  | move dest u backing => u = v ∧ Movable q m c v dest backing

namespace Call

variable {c : Call}

theorem aligned_old (c : Call) : Aligned c.oldAligned := aligned_alignUpPage _

theorem aligned_new (c : Call) : Aligned c.newAligned := aligned_alignUpPage _

/-- An aligned size that fits into the user half covers the size. -/
theorem le_alignUpPage (h : alignUpPage n ≤ userVaEnd) : n ≤ alignUpPage n := by
  unfold alignUpPage saturatingAddU64 usizeBound pageSize userVaEnd at *
  omega

end Call

section Plan

variable {m : MmapState} {c : Call} {v : Vma} {backing : VmaBacking} {p : Plan}

/-- A check that has been passed. -/
theorem refuse_eq_ok {cond : Prop} [Decidable cond] {e : Errno}
    {x : Except Stop (Except Errno Plan)} :
    (if cond then .ok (.error e) else x) = .ok (.ok p) ↔ ¬ cond ∧ x = .ok (.ok p) := by
  by_cases h : cond <;> simp [h]

section

variable (hb : backing = v.backing.advance (c.oldAddr - v.start)) (hoff : backing.Shiftable 0)

include hb hoff

theorem planFixed_sound (hfix : c.fixed = true)
    (h : planFixed q c v backing = .ok p) : p.Sound q m c v := by
  unfold planFixed at h
  split_ifs at h with hflags hhalf hover hseg
  cases h
  have hle := userVaEnd_le_kernelVaStart
  refine ⟨rfl, hoff, hb, ?_, by omega, by omega, fun hf => ?_, fun _ => by omega,
    fun _ => by simpa using hseg⟩
  · unfold Aligned
    omega
  · rw [hfix] at hf
    cases hf

theorem planFree_sound (hm : MapOk m) (hc : Checked q m c v) (hfix : c.fixed = false)
    (h : planFree m c v backing = .ok (.ok p)) : p.Sound q m c v := by
  unfold planFree at h
  by_cases heq : c.newAligned = c.oldAligned
  · rw [if_pos heq] at h
    cases h
    trivial
  rw [if_neg heq] at h
  by_cases hlt : c.newAligned < c.oldAligned
  · rw [if_pos hlt] at h
    cases h
    exact hlt
  rw [if_neg hlt] at h
  by_cases hgrow : extendable c.oldAddr c.oldAligned v = true ∧
      (m.extendVmaEnd c.oldAddr (c.oldAddr + c.newAligned)).1 = true
  · rw [if_pos hgrow] at h
    cases h
    obtain ⟨hext, hgrown⟩ := hgrow
    simp only [extendable, Bool.and_eq_true, decide_eq_true_eq] at hext
    exact ⟨hext.1.1, hext.1.2, Prod.ext hgrown rfl⟩
  rw [if_neg hgrow] at h
  obtain ⟨-, h⟩ := refuse_eq_ok.1 h
  cases hgap : m.findGap c.newAligned with
  | none =>
    rw [hgap] at h
    cases h
  | some a =>
    rw [hgap] at h
    dsimp only at h
    split_ifs at h
    cases h
    obtain ⟨hal, hroom, hfree⟩ := hm.findGap hgap
    refine ⟨rfl, hoff, hb, hal, hroom, ?_, fun _ => hfree, fun hf => ?_, fun hf => ?_⟩
    · have := hc.start
      have := hc.stop
      rcases hfree v hc.mem with h | h <;> omega
    · rw [hfix] at hf
      cases hf
    · rw [hfix] at hf
      cases hf

end

theorem plan_sound (hm : MapOk m) (h : plan q m c = .ok (.ok p)) :
    ∃ v, Checked q m c v ∧ p.Sound q m c v := by
  obtain ⟨hq, h⟩ := refuse_eq_ok.1 h
  obtain ⟨hargs, h⟩ := refuse_eq_ok.1 h
  obtain ⟨hpos, h⟩ := refuse_eq_ok.1 h
  obtain ⟨hbounds, h⟩ := refuse_eq_ok.1 h
  cases hfind : m.findContaining c.oldAddr with
  | none =>
    rw [hfind] at h
    cases h
  | some v =>
    rw [hfind] at h
    obtain ⟨hstop, h⟩ := refuse_eq_ok.1 h
    have hcont := find?_some hfind
    rw [decide_eq_true_eq] at hcont
    have hc : Checked q m c v := by
      refine ⟨⟨by simpa using hq, ?_, by omega, by omega, by omega, by omega⟩,
        mem_of_find?_eq_some hfind, hcont.1, by omega⟩
      unfold Aligned
      omega
    cases hshift : v.backing.shift (c.oldAddr - v.start) with
    | error e =>
      rw [hshift] at h
      cases h
    | ok backing =>
      rw [hshift] at h
      have hs := VmaBacking.shiftable_of_shift hshift
      rw [VmaBacking.shift_eq hs] at hshift
      cases hshift
      refine ⟨v, hc, ?_⟩
      split_ifs at h with hfix
      · exact planFixed_sound rfl (shiftable_advance hs) hfix (Except.ok.inj h)
      · exact planFree_sound rfl (shiftable_advance hs) hm hc (by simpa using hfix) h

theorem Valid.newPos (hc : Valid q c) : 0 < c.newAligned := alignUpPage_pos hc.newSize

theorem Checked.lookup (hm : MapOk m) (hc : Checked q m c v) {i : ℕ} (hi : i < c.oldAligned) :
    m.lookup (c.oldAddr + i) = some (v.entryAt (c.oldAddr + i)) := by
  grind [hc.start, hc.stop, lookup_of_mem, hc.mem]

/-- The sizes are covered by the aligned sizes. -/
theorem Valid.sizes (hc : Valid q c) : c.oldSize ≤ c.oldAligned ∧ c.newSize ≤ c.newAligned := by
  have h₁ := hc.oldEnd
  have h₂ := hc.newEnd
  exact ⟨Call.le_alignUpPage (by show c.oldAligned ≤ _; omega),
    Call.le_alignUpPage (by show c.newAligned ≤ _; omega)⟩

end Plan

/-! ### The new range -/

section Move

variable {c : Call} {v : Vma} {backing : VmaBacking} {dest : ℕ} {ret : Ret}

/-- The page `p` belongs to the new place. -/
def InTarget (c : Call) (dest p : ℕ) : Prop :=
  dest ≤ p * pageSize ∧ p * pageSize < dest + c.newAligned

/-- The new place is empty of ranges, and of pages too if the address was fixed. -/
structure Cleared (c : Call) (dest : ℕ) (mem mem' : Memory) : Prop where
  map : MapOk mem'.map
  free : mem'.map.Free dest (dest + c.newAligned)
  lookup : ∀ a, mem'.map.lookup a =
    if dest ≤ a ∧ a < dest + c.newAligned then none else mem.map.lookup a
  page : ∀ p, InTarget c dest p → mem'.page p = if c.fixed = true then none else mem.page p
  page_outside : ∀ p, ¬ InTarget c dest p → mem'.page p = mem.page p
  object : mem'.object = mem.object

theorem clearTarget_spec (hm : MapOk mem.map) (hc : Checked q mem.map c v)
    (hv : Movable q mem.map c v dest backing) (h : clearTarget q c dest mem = .ok mem') :
    Cleared c dest mem mem' := by
  unfold clearTarget at h
  split_ifs at h with hfix
  · obtain ⟨⟨ret, m⟩, h', h⟩ := bind_eq_ok.1 h
    cases h
    obtain ⟨hu, -⟩ := munmap_spec hm hc.borrower hv.aligned c.aligned_new hc.newPos hv.room h'
    refine ⟨hu.map, hu.free, hu.lookup, fun p hp => ?_, fun p hp => ?_, hu.object⟩
    · rw [if_pos hfix]
      exact (hu.page p).trans (if_pos hp)
    · exact (hu.page p).trans (if_neg hp)
  · cases h
    have hfree := hv.free (by simpa using hfix)
    refine ⟨hm, hfree, fun a => ?_, fun p _ => by rw [if_neg hfix], fun _ _ => rfl, rfl⟩
    grind [lookup_eq_none_of_free]

/-- The range `u` has been entered at the new place. -/
structure Entered (u : Vma) (mem mem' : Memory) : Prop where
  map : MapOk mem'.map
  lookup : ∀ a, mem'.map.lookup a =
    if u.start ≤ a ∧ a < u.stop then some (u.entryAt a) else mem.map.lookup a
  page : mem'.page = mem.page
  object : mem'.object = mem.object

/-- The new range in the place of its reservation. -/
theorem entered_insert {u : Vma} (hm : MapOk mem.map) (hlt : u.start < u.stop) (hu : u.Placed)
    (hoff : u.backing.Shiftable 0) (hfree : mem.map.Free u.start u.stop) :
    Entered u mem (mem.setMap
      (((mem.map.reserve u.start u.stop).releaseReservation u.start u.stop).insert u)) := by
  have hres := (hm.reserve ⟨hlt, ⟨hu.start, hu.stop, hu.le⟩, trivial, hfree⟩).releaseReservation
    u.start u.stop
  have hvmas := vmas_release_reserve hfree hlt
  have hfree' := MapOk.free_releaseReservation hfree
  refine ⟨hres.insert ⟨hlt, hu, hoff, hfree'⟩, fun a => ?_, rfl, rfl⟩
  split_ifs with ha
  · exact MapOk.lookup_insert hfree' ha.1 ha.2
  · rw [← lookup_eq_of_vmas hvmas]
    exact lookup_insert_outside (by omega)

/-- The end of a move touches nothing but the source. -/
theorem dropSource_spec (hm : MapOk mem.map) (hc : Valid q c)
    (h : dropSource q c dest v mem = .ok (ret, mem')) : ret = .ok dest ∧
      ∀ a, a < c.oldAddr ∨ c.oldAddr + c.oldAligned ≤ a →
        mem'.map.lookup a = mem.map.lookup a ∧ mem'.reading a = mem.reading a := by
  unfold dropSource at h
  split_ifs at h
  · obtain ⟨⟨r, m⟩, h', h⟩ := bind_eq_ok.1 h
    cases h
    have hle := userVaEnd_le_kernelVaStart
    obtain ⟨hu, -⟩ := munmap_spec hm hc.borrower hc.oldAddr c.aligned_old hc.oldPos
      (hc.oldEnd.trans hle) h'
    refine ⟨rfl, fun a ha => ⟨?_, ?_⟩⟩
    · exact (hu.lookup a).trans (if_neg (by omega))
    · rw [hu.reading hc.oldAddr (hc.oldAddr.add c.aligned_old), if_neg (by omega)]
  · grind

/-! ### Segments -/

/-- What the loop of `map_shared_segment` has done when it has mapped `k` of `n` pages. -/
structure FramesMapped (q : Means) (perms : Perms) (segment p frame n : ℕ) (mem : Memory) (k : ℕ)
    (mem' : Memory) : Prop where
  le : k ≤ n
  map : mem'.map = mem.map
  object : mem'.object = mem.object
  inside : ∀ i < k, mem.page (p + i) = none ∧ q.tables (p + i) = true ∧
    ¬ HasHole ((p + i) * pageSize) ((p + i + 1) * pageSize) ∧ mem'.page (p + i) =
      some (newPage (.object (.segment segment) ((frame + i) * pageSize)) perms)
  outside : ∀ r, r < p ∨ p + k ≤ r → mem'.page r = mem.page r
  failed : k < n → (mem.page (p + k)).isSome = true ∨ q.tables (p + k) = false

theorem mapFrames_spec {perms : Perms} {segment : ℕ} : ∀ {p frame k : ℕ} {mem : Memory},
    mapFrames q perms segment p frame n mem = .ok (k, mem') →
    FramesMapped q perms segment p frame n mem k mem' := by
  induction n with
  | zero =>
    intro p frame k mem h
    cases h
    exact ⟨le_rfl, rfl, rfl, by simp, fun _ _ => rfl, fun h => absurd h (lt_irrefl 0)⟩
  | succ n ih =>
    intro p frame k mem h
    rw [mapFrames] at h
    split_ifs at h with hhole hfail
    · cases h
      exact ⟨zero_le _, rfl, rfl, by simp, fun _ _ => rfl, fun _ => by simpa using hfail⟩
    obtain ⟨⟨k', m⟩, hrest, h⟩ := bind_eq_ok.1 h
    cases h
    have hr := ih hrest
    rw [not_or] at hfail
    refine ⟨succ_le_succ hr.le, hr.map, hr.object, fun i hi => ?_, fun r hr' => ?_, fun hk => ?_⟩
    · cases i with
      | zero =>
        refine ⟨by simpa using hfail.1, by simpa using hfail.2, hhole, ?_⟩
        rw [hr.outside _ (by omega), page_setPage, if_pos (add_zero p)]
        rfl
      | succ i =>
        obtain ⟨h₁, h₂, h₃, h₄⟩ := hr.inside i (by omega)
        rw [page_setPage, if_neg (by omega)] at h₁
        have e₁ : p + 1 + i = p + (i + 1) := by omega
        have e₂ : frame + 1 + i = frame + (i + 1) := by omega
        rw [e₁] at h₁ h₂ h₃ h₄
        rw [e₂] at h₄
        exact ⟨h₁, h₂, h₃, h₄⟩
    · rw [hr.outside r (by omega), page_setPage, if_neg (by omega)]
    · have hf := hr.failed (by omega)
      rw [page_setPage, if_neg (by omega)] at hf
      rwa [show p + (k' + 1) = p + 1 + k' by omega]

end Move

end CypheraKernel.Remap
