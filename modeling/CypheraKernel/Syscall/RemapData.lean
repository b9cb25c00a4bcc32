import CypheraKernel.Syscall.RemapSpecs

/-!
# When `mremap` keeps the data

* `Plan.Safe`: the condition on the state before the call, by the kind of the range.  Growing and
  shrinking are always safe.  A private range is copied page by page, a segment is entered again,
  a shared file is neither;
* `mremap_keeps_iff`: a call keeps the data exactly under that condition.
-/

namespace CypheraKernel.Remap

open Mm Rust Syscall Option Memory

variable {q : Means} {mem mem' : Memory} {c : Call} {v : Vma} {backing : VmaBacking} {dest p : ℕ}
  {ret : Ret}

/-- The memory of a process between two calls: its ranges are in order, anonymous ranges are
private (a shared one is a segment), and a resident page shows the place that its range says, or
bytes of its own if it has no range. -/
structure Coherent (mem : Memory) : Prop where
  map : MapOk mem.map
  anonymous : ∀ v ∈ mem.map.vmas, v.backing = .anonymous → v.flags.shared = false
  place : ∀ p page, mem.page p = some page →
    page.content.place = (mem.map.lookup (p * pageSize)).bind home

/-- The call keeps the data: after success the bytes of the old range, as far as the new one
reaches, are read at the result, with the same protection and backing; after an error every mapping
and every byte is as before. -/
def Kept (mem : Memory) (c : Call) (ret : Ret) (mem' : Memory) : Prop :=
  match ret with
  | .ok a => ∀ i < min c.oldSize c.newSize,
      (mem'.map.lookup (a + i)).map (fun e => (e.prot, e.backing)) =
        (mem.map.lookup (c.oldAddr + i)).map (fun e => (e.prot, e.backing)) ∧
      mem'.reading (a + i) = mem.reading (c.oldAddr + i)
  | .error _ => ∀ a, mem'.map.lookup a = mem.map.lookup a ∧ mem'.reading a = mem.reading a

/-- Nothing is mapped in `[lo, hi)`. -/
def Blank (mem : Memory) (lo hi : ℕ) : Prop :=
  ∀ a, lo ≤ a → a < hi → mem.map.lookup a = none ∧ mem.reading a = none

/-- The `i`-th page can be read at the old place and written at the new one. -/
def Copyable (q : Means) (mem : Memory) (c : Call) (dest : ℕ) (v : Vma) (backing : VmaBacking)
    (i : ℕ) : Prop :=
  let src := c.oldAddr / pageSize + i
  let dst := dest / pageSize + i
  Reachable q src (mem.page src) (mem.map.lookup (src * pageSize)) false ∧
    Reachable q dst (if c.fixed = true then none else mem.page dst)
      (some ⟨v.prot, v.flags, backing.advance (i * pageSize)⟩) true

/-- The condition under which a decision is safe.  A move must succeed or have nothing to lose at
its new place; and a shared file, which is not copied, must not move under resident pages. -/
def Plan.Safe (q : Means) (mem : Memory) (c : Call) : Plan → Prop
  | move dest v backing =>
    match backing, v.flags.shared with
    | .shm _ _, _ => c.fixed = true →
        (∀ i < c.newAligned / pageSize, q.tables (dest / pageSize + i) = true) ∨
          Blank mem dest (dest + c.newAligned)
    | .file _ _, true => c.fixed = false → ∀ i < min c.oldSize c.newSize,
        dest + i < userVaEnd ∧ mem.page ((dest + i) / pageSize) = none
    | _, _ => (∀ i < min c.oldAligned c.newAligned / pageSize, Copyable q mem c dest v backing i) ∨
        Blank mem dest (dest + c.newAligned)
  | _ => True

/-! ### Contents of coherent memory -/

theorem place_initial (objects : Objects) (e : Entry) : (initial objects e).place = home e := by
  unfold initial
  cases hh : home e with
  | some h => rfl
  | none =>
    cases e.backing <;> rfl

theorem Coherent.place_content (hco : Coherent mem) {x : Content}
    (hx : mem.content p = some x) : x.place = (mem.map.lookup (p * pageSize)).bind home := by
  unfold content at hx
  grind [hco.place, map_eq_some_iff, place_initial]

variable {offset : ℕ} {e : Errno} {m : MmapState} (writable : Bool)

/-- The content of a page of a shared mapping is known, resident or not. -/
theorem Coherent.content_shared (hco : Coherent mem) {e : Entry} {o : Object}
    (he : mem.map.lookup (p * pageSize) = some e) (hh : home e = some (o, offset)) :
    mem.content p = some (.object o offset) := by
  have hsome : ∃ x, mem.content p = some x := by
    unfold content
    cases mem.page p with
    | some page => exact ⟨_, rfl⟩
    | none => exact ⟨_, by rw [he]; rfl⟩
  obtain ⟨x, hx⟩ := hsome
  have hplace := hco.place_content hx
  rw [he, bind_some, hh] at hplace
  rw [hx]
  cases x with
  | own bytes => cases hplace
  | object o' offset' =>
    cases hplace
    rfl

theorem reading_add {base i : ℕ} (hbase : Aligned base) (h : base + i < userVaEnd) :
    mem.reading (base + i) = (mem.content (base / pageSize + i / pageSize)).map
      fun x => (x.place, x.byte mem.object (i % pageSize)) := by
  have hmod : (base + i) % pageSize = i % pageSize := by
    unfold Aligned pageSize at *
    omega
  rw [reading, if_pos h, hbase.add_div, hmod]

/-- An error after which the new place is empty and everything else is as before. -/
theorem kept_error_iff_blank {lo hi : ℕ}
    (hl : ∀ a, mem'.map.lookup a = if lo ≤ a ∧ a < hi then none else mem.map.lookup a)
    (hr : ∀ a, mem'.reading a = if lo ≤ a ∧ a < hi then none else mem.reading a) :
    Kept mem c (.error e) mem' ↔ Blank mem lo hi := by
  constructor
  · intro h a h₁ h₂
    obtain ⟨hl', hr'⟩ := h a
    simp_all
  intro h a
  rw [hl, hr]
  split_ifs with ha
  · obtain ⟨hl', hr'⟩ := h a ha.1 ha.2
    exact ⟨hl'.symm, hr'.symm⟩
  · exact ⟨rfl, rfl⟩

/-! ### Keeping, shrinking and growing -/

theorem kept_of_same {a : ℕ} (h : ∀ i < min c.oldSize c.newSize,
    mem'.map.lookup (a + i) = mem.map.lookup (c.oldAddr + i) ∧
      mem'.reading (a + i) = mem.reading (c.oldAddr + i)) : Kept mem c (.ok a) mem' := by
  intro i hi
  obtain ⟨hl, hr⟩ := h i hi
  exact ⟨by rw [hl], hr⟩

theorem kept_shrink (hco : Coherent mem) (hc : Checked q mem.map c v)
    (hlt : c.newAligned < c.oldAligned) (h : Plan.shrink.run q c mem = .ok (ret, mem')) :
    Kept mem c ret mem' := by
  obtain ⟨⟨r, m⟩, h', h⟩ := bind_eq_ok.1 h
  cases h
  have halign : Aligned (c.oldAligned - c.newAligned) := by
    grind [c.aligned_old, c.aligned_new, Aligned, pageSize]
  have hle := userVaEnd_le_kernelVaStart
  have hend := hc.oldEnd
  obtain ⟨hu, -⟩ := munmap_spec hco.map hc.borrower (hc.oldAddr.add c.aligned_new) halign
    (by omega) (by omega) h'
  have hsize := hc.sizes
  refine kept_of_same fun i hi => ⟨?_, ?_⟩
  · exact (hu.lookup _).trans (if_neg (by omega))
  · rw [hu.reading (hc.oldAddr.add c.aligned_new)
      ((hc.oldAddr.add c.aligned_new).add halign), if_neg (by omega)]

theorem kept_grow (hco : Coherent mem) (hc : Checked q mem.map c v)
    (hs : Plan.Sound q mem.map c v (.grow m)) : Kept mem c (.ok c.oldAddr) (mem.setMap m) := by
  obtain ⟨hstart, hstop, hgrow⟩ := hs
  have hsize := hc.sizes
  have hlookup (i : ℕ) (hi : i < c.oldAligned) :
      m.lookup (c.oldAddr + i) = mem.map.lookup (c.oldAddr + i) := by
    rw [← hstart] at hgrow ⊢
    have hgrown : (mem.map.extendVmaEnd v.start (v.start + c.newAligned)).1 = true := by rw [hgrow]
    have := lookup_extended (a := v.start + i) hco.map hc.mem hgrown (by omega) (by omega)
    rwa [hgrow] at this
  refine kept_of_same fun i hi => ⟨hlookup i (by omega), ?_⟩
  refine reading_congr (content_congr rfl ?_ rfl) rfl Iff.rfl rfl
  rw [hc.oldAddr.add_div, Nat.add_mul, hc.oldAddr.div_mul]
  refine hlookup _ ?_
  have := Nat.div_mul_le_self i pageSize
  omega

/-! ### Moving -/

/-- The range at the new place. -/
def target (c : Call) (dest : ℕ) (v : Vma) (flags : VmaFlags) (backing : VmaBacking) : Vma :=
  ⟨dest, dest + c.newAligned, v.prot, flags, backing⟩

theorem target_entryAt (flags : VmaFlags) (k : ℕ) :
    (target c dest v flags backing).entryAt (dest + k) = ⟨v.prot, flags, backing.advance k⟩ := by
  show Entry.mk v.prot flags (backing.advance (dest + k - dest)) = _
  rw [Nat.add_sub_cancel_left]

section Move

variable (hco : Coherent mem) (hc : Checked q mem.map c v)
  (hv : Movable q mem.map c v dest backing)
include hv

/-- The pages of the source lie outside the new place, and the other way round. -/
theorem page_apart {i : ℕ} (hi : i < c.oldAligned / pageSize) :
    ¬ InTarget c dest (c.oldAddr / pageSize + i) := by
  grind [hv.apart, hv.aligned, c.aligned_new, InTarget, Aligned, pageSize]

theorem page_target {i : ℕ} (hi : i < c.newAligned / pageSize) :
    InTarget c dest (dest / pageSize + i) := by grind [hv.aligned, InTarget, Aligned, pageSize]

include hc

theorem backing_advance (k : ℕ) :
    backing.advance k = v.backing.advance (c.oldAddr + k - v.start) := by
  have := hc.start
  rw [hv.backing_eq, VmaBacking.advance_advance]
  congr 1
  omega

variable {mem₂ : Memory}

theorem kept_dropSource (hm : MapOk mem₂.map) (h : dropSource q c dest v mem₂ = .ok (ret, mem')) :
    Kept mem c ret mem' ↔ Kept mem c (.ok dest) mem₂ := by
  obtain ⟨rfl, hsame⟩ := dropSource_spec hm hc.toValid h
  have hsize := hc.sizes
  refine forall₂_congr fun i hi => ?_
  grind [hv.apart]

include hco

variable {mem₁ : Memory} {flags : VmaFlags}

theorem lookup_moved (he : Entered (target c dest v flags backing) mem₁ mem₂) {i : ℕ}
    (hi : i < c.oldAligned) (hi' : i < c.newAligned) :
    (mem₂.map.lookup (dest + i)).map (fun e => (e.prot, e.backing)) =
      (mem.map.lookup (c.oldAddr + i)).map (fun e => (e.prot, e.backing)) := by
  have hin : (target c dest v flags backing).start ≤ dest + i ∧
      dest + i < (target c dest v flags backing).stop :=
    ⟨Nat.le_add_right _ _, Nat.add_lt_add_left hi' dest⟩
  rw [he.lookup, if_pos hin, target_entryAt, hc.lookup hco.map hi, backing_advance hc hv]
  rfl

/-- The place that the `i`-th page shows is the same at both ends. -/
theorem home_source {i : ℕ} (hi : i < c.oldAligned / pageSize) :
    ∃ e, mem.map.lookup ((c.oldAddr / pageSize + i) * pageSize) = some e ∧
      home e = home ⟨v.prot, v.flags, backing.advance (i * pageSize)⟩ := by
  have hstart : (c.oldAddr / pageSize + i) * pageSize = c.oldAddr + i * pageSize := by
    rw [Nat.add_mul, hc.oldAddr.div_mul]
  have hlt : i * pageSize < c.oldAligned := by grind [pageSize]
  refine ⟨_, by rw [hstart, hc.lookup hco.map hlt], ?_⟩
  rw [backing_advance hc hv]
  rfl

theorem reading_source_shared {i : ℕ} {o : Object} (hi : i < c.oldAligned)
    (hh : home ⟨v.prot, v.flags, backing.advance (i / pageSize * pageSize)⟩ = some (o, offset)) :
    mem.reading (c.oldAddr + i) = some (some (o, offset), mem.object o (offset + i % pageSize)) := by
  have hend := hc.oldEnd
  obtain ⟨e, he, hhome⟩ := home_source hco hc hv (c.aligned_old.div_lt hi)
  rw [reading_add hc.oldAddr (by omega), hco.content_shared he (hhome.trans hh)]
  rfl

omit hco hc in
theorem lookup_target {i : ℕ} (he : Entered (target c dest v flags backing) mem₁ mem₂)
    (hi : i < c.newAligned / pageSize) :
    mem₂.map.lookup ((dest / pageSize + i) * pageSize) =
      some ⟨v.prot, flags, backing.advance (i * pageSize)⟩ := by
  have hstart : (dest / pageSize + i) * pageSize = dest + i * pageSize := by
    rw [Nat.add_mul, hv.aligned.div_mul]
  rw [← target_entryAt (c := c) (v := v), ← hstart]
  exact (he.lookup _).trans (if_pos (page_target hv hi))

section

variable (hcl : Cleared c dest mem mem₁)
include hcl

omit hco hc in
/-- A page of the new range that is not resident. -/
theorem content_target {i : ℕ} (he : Entered (target c dest v flags backing) mem₁ mem₂)
    (hi : i < c.newAligned / pageSize) (hnone : mem₂.page (dest / pageSize + i) = none) :
    mem₂.content (dest / pageSize + i) =
      some (initial mem.object ⟨v.prot, flags, backing.advance (i * pageSize)⟩) := by
  rw [content, hnone, lookup_target hv he hi, he.object, hcl.object]
  rfl

/-- **A shared file.**  Nothing is copied: the pages of the file are found again at the new place,
unless other pages are resident there. -/
theorem kept_sharedFile (he : Entered (target c dest v v.flags backing) mem₁ mem₂)
    (hsh : ∀ k, ∃ o offset, home ⟨v.prot, v.flags, backing.advance k⟩ = some (o, offset)) :
    Kept mem c (.ok dest) mem₂ ↔ (c.fixed = false → ∀ i < min c.oldSize c.newSize,
      dest + i < userVaEnd ∧ mem.page ((dest + i) / pageSize) = none) := by
  have hsize := hc.sizes
  have hdiv := hv.aligned.add_div
  have hpage (i : ℕ) (hi : i < c.newAligned) := c.aligned_new.div_lt hi
  constructor
  · intro hk hfix i hi
    obtain ⟨o, offset, hh⟩ := hsh (i / pageSize * pageSize)
    have hr := (hk i hi).2
    rw [reading_source_shared hco hc hv (by omega) hh] at hr
    have hhalf : dest + i < userVaEnd := by
      by_contra hnot
      rw [reading, if_neg hnot] at hr
      cases hr
    refine ⟨hhalf, ?_⟩
    -- A resident page at the new place has no range, so its bytes are its own.
    by_contra hres
    obtain ⟨page, hp⟩ := ne_none_iff_exists'.1 hres
    have hin := page_target hv (hpage i (by omega))
    have hcontent : mem₂.content (dest / pageSize + i / pageSize) = some page.content := by
      rw [content, he.page, hcl.page _ hin, if_neg (by simp [hfix]), ← hdiv, hp]
    have hplace := hco.place _ page hp
    rw [hdiv, lookup_eq_none_of_free (hv.free hfix) hin.1 hin.2] at hplace
    grind [reading_add, hv.aligned]
  · intro hsafe i hi
    refine ⟨lookup_moved hco hc hv he (by omega) (by omega), ?_⟩
    obtain ⟨o, offset, hh⟩ := hsh (i / pageSize * pageSize)
    have hin := page_target hv (hpage i (by omega))
    have hgood : dest + i < userVaEnd ∧ mem₂.page (dest / pageSize + i / pageSize) = none := by
      rw [he.page, hcl.page _ hin]
      by_cases hfix : c.fixed = true
      · have := hv.half hfix
        exact ⟨by omega, if_pos hfix⟩
      · simp_all
    rw [reading_source_shared hco hc hv (by omega) hh, reading_add hv.aligned hgood.1,
      content_target hv hcl he (hpage i (by omega)) hgood.2, he.object, hcl.object]
    simp [initial, hh, Content.place, Content.byte]

omit hco hc hv in
/-- Outside the new place every page has the content it had before the call. -/
theorem content_outside (he : Entered (target c dest v flags backing) mem₁ mem₂)
    (hp : ¬ InTarget c dest p) : mem₂.content p = mem.content p := by
  refine content_congr (by rw [he.page, hcl.page_outside p hp]) ?_ (he.object.trans hcl.object)
  exact ((he.lookup _).trans (if_neg hp)).trans ((hcl.lookup _).trans (if_neg hp))

omit hco hc in
/-- The copy of a private range: the loop works on the memory as it was before the call, except that
the new place is empty if its address was fixed. -/
theorem copyable_iff (he : Entered (target c dest v v.flags backing) mem₁ mem₂) {i : ℕ}
    (hi : i < min c.oldAligned c.newAligned / pageSize) :
    (Reachable q (c.oldAddr / pageSize + i) (mem₂.page (c.oldAddr / pageSize + i))
        (mem₂.map.lookup ((c.oldAddr / pageSize + i) * pageSize)) false ∧
      Reachable q (dest / pageSize + i) (mem₂.page (dest / pageSize + i))
        (mem₂.map.lookup ((dest / pageSize + i) * pageSize)) true) ↔
      Copyable q mem c dest v backing i := by
  have hold : i < c.oldAligned / pageSize := hi.trans_le (Nat.div_le_div_right (min_le_left _ _))
  have hnew : i < c.newAligned / pageSize := hi.trans_le (Nat.div_le_div_right (min_le_right _ _))
  have hout := page_apart hv hold
  have hlookup : mem₂.map.lookup ((c.oldAddr / pageSize + i) * pageSize) =
      mem.map.lookup ((c.oldAddr / pageSize + i) * pageSize) :=
    ((he.lookup _).trans (if_neg hout)).trans ((hcl.lookup _).trans (if_neg hout))
  rw [lookup_target hv he hnew, hlookup, he.page, hcl.page_outside _ hout,
    hcl.page _ (page_target hv hnew)]
  rfl

variable {mem₃ : Memory} {segment : ℕ}

omit hco in
theorem entered_target (flags : VmaFlags) :
    Entered (target c dest v flags backing) mem₁ (mem₁.setMap
      (((mem₁.map.reserve dest (dest + c.newAligned)).releaseReservation dest
        (dest + c.newAligned)).insert (target c dest v flags backing))) :=
  entered_insert (u := target c dest v flags backing) hcl.map
    (Nat.lt_add_of_pos_right hc.newPos) ⟨hv.aligned, hv.aligned.add c.aligned_new, hv.room⟩
    hv.offset hcl.free

section

variable (he : Entered (target c dest v v.flags backing) mem₁ mem₂)
  (hpr : ∀ k, home ⟨v.prot, v.flags, backing.advance k⟩ = none)
include he hpr

omit hc in
theorem copied_private {done : Bool}
    (h : copyPages q (c.oldAddr / pageSize) (dest / pageSize)
      (min c.oldAligned c.newAligned / pageSize) mem₂ = .ok (done, mem₃)) :
    Copied q (c.oldAddr / pageSize) (dest / pageSize) (min c.oldAligned c.newAligned / pageSize)
      mem₂ done mem₃ := by
  refine copyPages_spec ?_ (fun i hi x hx => ?_) h
  · grind [hv.apart, pageSize]
  have hnew : i < c.newAligned / pageSize :=
    hi.trans_le (Nat.div_le_div_right (min_le_right _ _))
  have hin := page_target hv hnew
  cases hp : mem₂.page (dest / pageSize + i) with
  | none =>
    rw [content_target hv hcl he hnew hp] at hx
    cases hx
    rw [place_initial, hpr]
  | some page =>
    rw [content, hp] at hx
    cases hx
    rw [he.page, hcl.page _ hin] at hp
    split_ifs at hp with hfix
    rw [hco.place _ page hp,
      lookup_eq_none_of_free (hv.free (by simpa using hfix)) hin.1 hin.2]
    rfl

/-- **A private range.**  When every page has been copied, the data is at the new place. -/
theorem kept_private
    (hcopy : Copied q (c.oldAddr / pageSize) (dest / pageSize)
      (min c.oldAligned c.newAligned / pageSize) mem₂ true mem₃) :
    Kept mem c (.ok dest) mem₃ := by
  intro i hi
  have hsize := hc.sizes
  refine ⟨by rw [hcopy.map]; exact lookup_moved hco hc hv he (by omega) (by omega), ?_⟩
  have hpage : i / pageSize < min c.oldAligned c.newAligned / pageSize := by
    grind [c.aligned_old, c.aligned_new, Aligned, pageSize]
  have hold : i / pageSize < c.oldAligned / pageSize :=
    hpage.trans_le (Nat.div_le_div_right (min_le_left _ _))
  have hout := page_apart hv hold
  obtain ⟨x, hx, hdst⟩ := hcopy.bytes rfl _ hpage
  have hsrc : mem.content (c.oldAddr / pageSize + i / pageSize) = some x := by
    rw [← hx, content_outside hcl he hout]
  obtain ⟨e, hentry, hhome⟩ := home_source hco hc hv hold
  have hplace : x.place = none := by
    rw [hco.place_content hsrc, hentry, bind_some, hhome.trans (hpr _)]
  have hhalf : dest + i < userVaEnd := by
    have hreach := (hcopy.done_iff.1 rfl _ hpage).2.1
    have := hv.aligned
    unfold Aligned pageSize at *
    omega
  have hend := hc.oldEnd
  rw [reading_add hc.oldAddr (by omega), hsrc, reading_add hv.aligned hhalf, hdst]
  show some (none, x.byte mem₂.object (i % pageSize)) = some (x.place, x.byte mem.object (i % pageSize))
  rw [hplace, he.object, hcl.object]

/-- What is left when a private range could not be copied. -/
theorem kept_copyOver (h : copyOver q c dest v mem₂ = .ok (ret, mem')) :
    Kept mem c ret mem' ↔
      (∀ i < min c.oldAligned c.newAligned / pageSize, Copyable q mem c dest v backing i) ∨
        Blank mem dest (dest + c.newAligned) := by
  obtain ⟨⟨done, mem₃⟩, hrun, h⟩ := bind_eq_ok.1 h
  have hcopy := copied_private hco hv hcl he hpr hrun
  have hiff : done = true ↔
      ∀ i < min c.oldAligned c.newAligned / pageSize, Copyable q mem c dest v backing i :=
    hcopy.done_iff.trans (forall₂_congr fun i hi => copyable_iff hv hcl he hi)
  rw [← hiff]
  have hm : MapOk mem₃.map := by
    rw [hcopy.map]
    exact he.map
  cases done with
  | true =>
    rw [kept_dropSource hc hv hm h]
    simp [kept_private hco hc hv hcl he hpr hcopy]
  | false =>
    obtain ⟨⟨r, m⟩, hun, h⟩ := bind_eq_ok.1 h
    cases h
    obtain ⟨hu, -⟩ := munmap_spec hm hc.borrower hv.aligned c.aligned_new hc.newPos hv.room hun
    have hblank : Kept mem c (.error .fault) m ↔ Blank mem dest (dest + c.newAligned) := by
      refine kept_error_iff_blank (fun a => ?_) fun a => ?_
      · rw [hu.lookup, hcopy.map, he.lookup, hcl.lookup]
        show (if _ then _ else if dest ≤ a ∧ a < dest + c.newAligned then _ else _) = _
        split_ifs <;> rfl
      rw [hu.reading hv.aligned (hv.aligned.add c.aligned_new)]
      split_ifs with ha
      · rfl
      have hp : ¬ InTarget c dest (a / pageSize) := fun hp =>
        ha ((page_in_range hv.aligned (hv.aligned.add c.aligned_new) a).1 hp)
      refine reading_congr ?_ (hcopy.object.trans (he.object.trans hcl.object)) Iff.rfl rfl
      rw [hcopy.content _ ?_, content_outside hcl he hp]
      -- A page that has been copied belongs to the new place.
      by_contra hin
      have hd := page_target hv (i := a / pageSize - dest / pageSize) (by
        have := min_le_right c.oldAligned c.newAligned
        have := Nat.div_le_div_right (c := pageSize) this
        omega)
      rw [show dest / pageSize + (a / pageSize - dest / pageSize) = a / pageSize by omega] at hd
      exact hp hd
    simp [hblank]

end

omit hco hc in
/-- A move that fails before anything is entered at the new place. -/
theorem kept_refused (hlookup : mem'.map.lookup = mem₁.map.lookup)
    (hpage : mem'.page = mem₁.page) (hobj : mem'.object = mem₁.object) :
    Kept mem c (.error e) mem' ↔ (c.fixed = true → Blank mem dest (dest + c.newAligned)) := by
  have hcongr (a : ℕ) (hp : mem'.page (a / pageSize) = mem.page (a / pageSize))
      (hl : mem'.map.lookup (a / pageSize * pageSize) = mem.map.lookup (a / pageSize * pageSize)) :
      mem'.reading a = mem.reading a :=
    reading_congr (content_congr hp hl (hobj.trans hcl.object)) (hobj.trans hcl.object) Iff.rfl rfl
  by_cases hfix : c.fixed = true
  · simp only [hfix, forall_const]
    refine kept_error_iff_blank (fun a => by rw [hlookup, hcl.lookup]) fun a => ?_
    have hin := page_in_range hv.aligned (hv.aligned.add c.aligned_new) a
    split_ifs with ha
    · have hp : InTarget c dest (a / pageSize) := hin.2 ha
      simp_all [content, hcl.page, hcl.lookup, reading]
    · have hp : ¬ InTarget c dest (a / pageSize) := fun hp => ha (hin.1 hp)
      refine hcongr a (by rw [hpage, hcl.page_outside _ hp]) ?_
      rw [hlookup]
      exact (hcl.lookup _).trans (if_neg hp)
  · have hfree := hv.free (by simpa using hfix)
    have hall (a : ℕ) : mem'.map.lookup a = mem.map.lookup a := by
      rw [hlookup, hcl.lookup]
      grind [lookup_eq_none_of_free]
    refine iff_of_true (fun a => ⟨hall a, hcongr a ?_ (hall _)⟩) fun h => absurd h hfix
    rw [hpage]
    by_cases hp : InTarget c dest (a / pageSize)
    · rw [hcl.page _ hp, if_neg hfix]
    · exact hcl.page_outside _ hp

/-- A segment all of whose pages have been entered at the new place. -/
theorem kept_segmentMapped
    (hb : backing = .shm segment offset) (he : Entered (target c dest v flags backing) mem₁ mem₂)
    (hf : FramesMapped q v.prot segment (dest / pageSize) (offset / pageSize)
      (c.newAligned / pageSize) (mem₁.setMap m) (c.newAligned / pageSize) mem₃) :
    Kept mem c (.ok dest) (mem₃.setMap mem₂.map) := by
  intro i hi
  have hsize := hc.sizes
  refine ⟨lookup_moved hco hc hv he (by omega) (by omega), ?_⟩
  have hpage := c.aligned_new.div_lt (i := i) (by omega)
  obtain ⟨-, -, hhole, hp⟩ := hf.inside _ hpage
  have hhalf : dest + i < userVaEnd := by grind [hv.aligned, hv.room, HasHole, Aligned, pageSize]
  have hcontent : (mem₃.setMap mem₂.map).content (dest / pageSize + i / pageSize) =
      some (.object (.segment segment) ((offset / pageSize + i / pageSize) * pageSize)) := by
    rw [content, show (mem₃.setMap mem₂.map).page _ = _ from hp]
    rfl
  grind [home, VmaBacking.advance, Nat.add_mul_div_right, reading_source_shared, reading_add,
    hv.aligned, Content.place, Content.byte, Memory.setMap, hf.object, hcl.object]

omit hco hc in
/-- A segment that could not be entered: its pages are taken back. -/
theorem kept_segmentFailed {m₁ : MmapState} {k : ℕ}
    (hlookup : m.lookup = mem₁.map.lookup)
    (hf : FramesMapped q v.prot segment (dest / pageSize) (offset / pageSize)
      (c.newAligned / pageSize) (mem₁.setMap m₁) k mem₃)
    (hk : k < c.newAligned / pageSize) :
    Kept mem c (.error e) ((mem₃.dropPages dest (dest + k * pageSize)).setMap m) ↔
      (c.fixed = true →
        (∀ i < c.newAligned / pageSize, q.tables (dest / pageSize + i) = true) ∨
          Blank mem dest (dest + c.newAligned)) := by
  have hpage : (mem₃.dropPages dest (dest + k * pageSize)).page = mem₁.page := by
    funext p
    show (if dest ≤ p * pageSize ∧ p * pageSize < dest + k * pageSize then none else mem₃.page p) = _
    have hdest := hv.aligned
    split_ifs with hp
    · have hi : p - dest / pageSize < k := by
        unfold Aligned pageSize at *
        omega
      have := (hf.inside _ hi).1
      rw [show dest / pageSize + (p - dest / pageSize) = p by
        unfold Aligned pageSize at *
        omega] at this
      exact this.symm
    · refine hf.outside p ?_
      unfold Aligned pageSize at *
      omega
  have hrefused : Kept mem c (.error e) ((mem₃.dropPages dest (dest + k * pageSize)).setMap m) ↔
      (c.fixed = true → Blank mem dest (dest + c.newAligned)) :=
    kept_refused hv hcl hlookup hpage hf.object
  refine hrefused.trans (forall_congr' fun hfix => ?_)
  -- With a fixed address no page is left in the way, so it was memory that ran out.
  have hin := page_target hv hk
  have htables : q.tables (dest / pageSize + k) = false := by
    rcases hf.failed hk with h | h
    · rw [show (mem₁.setMap m₁).page = mem₁.page from rfl, hcl.page _ hin, if_pos hfix] at h
      cases h
    · exact h
  constructor
  · exact .inr
  · grind

/-- **A segment.**  Its pages are entered at the new place; if that fails, they are taken back. -/
theorem kept_segment
    (hb : backing = .shm segment offset)
    (h : moveVma q c dest v (.shm segment offset)
      (mem₁.setMap (mem₁.map.reserve dest (dest + c.newAligned))) = .ok (ret, mem')) :
    Kept mem c ret mem' ↔ (c.fixed = true →
      (∀ i < c.newAligned / pageSize, q.tables (dest / pageSize + i) = true) ∨
        Blank mem dest (dest + c.newAligned)) := by
  have hlookup : ((mem₁.map.reserve dest (dest + c.newAligned)).releaseReservation dest
      (dest + c.newAligned)).lookup = mem₁.map.lookup :=
    lookup_eq_of_vmas (vmas_release_reserve hcl.free (Nat.lt_add_of_pos_right hc.newPos))
  obtain ⟨⟨r, m⟩, hmap, h⟩ := bind_eq_ok.1 h
  unfold mapSharedSegment at hmap
  by_cases hroom : offset / pageSize + c.newAligned / pageSize >
      (q.world.segmentFrames segment).length
  · rw [if_pos hroom] at hmap
    cases hmap
    cases h
    have hrefused : Kept mem c (.error .inval) (mem₁.setMap ((mem₁.map.reserve dest
        (dest + c.newAligned)).releaseReservation dest (dest + c.newAligned))) ↔
        (c.fixed = true → Blank mem dest (dest + c.newAligned)) :=
      kept_refused hv hcl hlookup rfl rfl
    refine hrefused.trans (forall_congr' fun hfix => ?_)
    -- With a fixed address the room in the segment has been checked before.
    have := hv.holds hfix
    rw [hb] at this
    simp only [segmentHolds, decide_eq_true_eq] at this
    omega
  rw [if_neg hroom] at hmap
  obtain ⟨⟨k, m'⟩, hframes, hmap⟩ := bind_eq_ok.1 hmap
  have hf := mapFrames_spec hframes
  dsimp only at hmap
  by_cases hk : k < c.newAligned / pageSize
  · rw [if_pos hk] at hmap
    cases hmap
    cases h
    have hmap : (m'.dropPages dest (dest + k * pageSize)).map =
        mem₁.map.reserve dest (dest + c.newAligned) := hf.map
    rw [hmap]
    exact kept_segmentFailed hv hcl hlookup hf hk
  · rw [if_neg hk] at hmap
    cases hmap
    obtain rfl : k = c.newAligned / pageSize := by
      have := hf.le
      omega
    have he := entered_target hc hv hcl ⟨true, false, false, false, false⟩
    have hkept := kept_segmentMapped hco hc hv hcl hb he hf
    have htables (i : ℕ) (hi : i < c.newAligned / pageSize) :
        q.tables (dest / pageSize + i) = true := (hf.inside i hi).2.1
    subst hb
    have hdrop : dropSource q c dest v (m'.setMap ((m'.map.releaseReservation dest
        (dest + c.newAligned)).insert (target c dest v ⟨true, false, false, false, false⟩
          (.shm segment offset)))) = .ok (ret, mem') := h
    rw [show m'.map = mem₁.map.reserve dest (dest + c.newAligned) from hf.map] at hdrop
    have hdropped := fun hm => kept_dropSource hc hv hm hdrop
    exact (hdropped he.map).trans (iff_of_true hkept fun _ => .inl htables)

end

theorem move_kept_iff (h : (Plan.move dest v backing).run q c mem = .ok (ret, mem')) :
    Kept mem c ret mem' ↔ (Plan.move dest v backing).Safe q mem c := by
  obtain ⟨mem₁, hclear, h⟩ := bind_eq_ok.1 h
  have hcl := clearTarget_spec hco.map hc hv hclear
  have he := entered_target hc hv hcl v.flags
  cases hb : backing with
  | shm segment offset =>
    rw [hb] at h
    exact kept_segment hco hc hv hcl hb h
  | anonymous =>
    rw [hb] at h
    have hanon : v.backing = .anonymous := by
      have := hv.backing_eq
      rw [hb] at this
      cases hvb : v.backing <;> rw [hvb] at this <;> first | rfl | cases this
    have hpriv := hco.anonymous v hc.mem hanon
    have hrun : copyOver q c dest v (enterRange c dest v .anonymous
        (mem₁.setMap (mem₁.map.reserve dest (dest + c.newAligned)))) = .ok (ret, mem') := by
      simpa [moveVma, hpriv] using h
    subst hb
    exact kept_copyOver hco hc hv hcl he (fun k => rfl) hrun
  | file inode offset =>
    subst hb
    cases hsh : v.flags.shared with
    | true =>
      have hrun : dropSource q c dest v (enterRange c dest v (.file inode offset)
          (mem₁.setMap (mem₁.map.reserve dest (dest + c.newAligned)))) = .ok (ret, mem') := by
        simpa [moveVma, hsh] using h
      simp only [Plan.Safe, hsh]
      rw [kept_dropSource hc hv he.map hrun]
      refine kept_sharedFile hco hc hv hcl he fun k =>
        ⟨.file inode, (offset + k) / pageSize * pageSize, ?_⟩
      simp [home, VmaBacking.advance, hsh]
    | false =>
      have hrun : copyOver q c dest v (enterRange c dest v (.file inode offset)
          (mem₁.setMap (mem₁.map.reserve dest (dest + c.newAligned)))) = .ok (ret, mem') := by
        simpa [moveVma, hsh] using h
      simp only [Plan.Safe, hsh]
      exact kept_copyOver hco hc hv hcl he (fun k => by simp [home, VmaBacking.advance, hsh]) hrun

end Move

/-! ### The call -/

/-- **`mremap` keeps the data, or it does not.**  For every coherent memory and every call that
returns: the data is kept exactly if what the call decides to do is safe.  The calls that are not
lose what was mapped at a fixed new address, because it is unmapped before the move is known to
succeed, or move a range under pages that already were at the new place. -/
theorem mremap_keeps_iff (hco : Coherent mem) (h : mremap q mem c = .ok (ret, mem')) :
    Kept mem c ret mem' ↔ ∀ p, plan q mem.map c = .ok (.ok p) → p.Safe q mem c := by
  unfold mremap at h
  cases hp : plan q mem.map c with
  | error stop =>
    rw [hp] at h
    cases h
  | ok r =>
    cases r with
    | error e =>
      rw [hp] at h
      cases h
      exact iff_of_true (fun a => ⟨rfl, rfl⟩) (by simp)
    | ok p =>
      rw [hp] at h
      obtain ⟨v, hc, hs⟩ := plan_sound hco.map hp
      have hone : (∀ p', (.ok (.ok p) : Except Stop (Except Errno Plan)) = .ok (.ok p') →
          p'.Safe q mem c) ↔ p.Safe q mem c := by simp
      rw [hone]
      cases p with
      | keep =>
        cases h
        exact iff_of_true (kept_of_same fun i _ => ⟨rfl, rfl⟩) trivial
      | shrink => exact iff_of_true (kept_shrink hco hc hs h) trivial
      | grow m =>
        cases h
        exact iff_of_true (kept_grow hco hc hs) trivial
      | move dest u backing =>
        obtain ⟨rfl, hv⟩ := hs
        exact move_kept_iff hco hc hv h

/-- A kernel with memory to spare. -/
def ampleMeans : Means where
  world :=
    { vforkBorrower := false, largePage := fun _ => false, tryCharge := fun _ => true,
      pinOrLoad := fun _ _ => none, readAt := fun _ _ => none, file := fun _ => none,
      writeSealed := fun _ => false, writeSealedLater := fun _ => false, isDrm := fun _ => false,
      drmSegment := fun _ _ => none, anonSegment := fun _ => none, segmentFrames := fun _ => [] }
  supply := fun _ => .granted
  loads := fun _ => true
  tables := fun _ => true

/-- Two private pages: at `0x10000` one that may be written only if `writable`, and one at
`0x20000`. -/
def twoPages (writable : Bool) : Memory where
  map :=
    { vmas := [⟨0x10000, 0x11000, ⟨true, writable, false, true⟩,
          ⟨false, true, false, false, false⟩, .anonymous⟩,
        ⟨0x20000, 0x21000, .userRw, ⟨false, true, false, false, false⟩, .anonymous⟩]
      lastEnd := 0x21000, arenaLo := 0x8000000000, arenaHi := 0x8100000000, generation := 0
      mlockallFlags := 0 }
  page := fun p =>
    if p = 0x10 then some (newPage (.own fun _ => 7) ⟨true, writable, false, true⟩)
    else if p = 0x20 then some (newPage (.own fun _ => 9) .userRw)
    else none
  object := fun _ _ => 0

/-- `mremap(0x10000, 4096, 4096, MREMAP_MAYMOVE | MREMAP_FIXED, 0x20000)`. -/
def ontoOther : Call := ⟨0x10000, 0x1000, 0x1000, 3, 0x20000⟩

theorem coherent_twoPages : Coherent (twoPages writable) := by
  have hplaced : ∀ v ∈ (twoPages writable).map.vmas,
      Aligned v.start ∧ Aligned v.stop ∧ v.stop ≤ kernelVaStart := by
    revert writable
    decide +kernel
  refine ⟨⟨⟨?_, ?_, ?_⟩, fun v hv => ?_, ?_, ?_, ?_⟩, ?_, fun p page hp => ?_⟩
  case refine_4 =>
    obtain ⟨h₁, h₂, h₃⟩ := hplaced v hv
    exact ⟨h₁, h₂, h₃⟩
  case refine_9 =>
    simp only [twoPages] at hp
    split_ifs at hp with h₁ h₂
    · cases hp
      subst h₁
      rfl
    · cases hp
      subst h₂
      rfl
  all_goals
    revert writable
    decide +kernel

/-- What the call returns, and whether anything is left at the new address. -/
theorem run_ontoOther : ∃ mem',
    mremap ampleMeans (twoPages writable) ontoOther =
        .ok (if writable then .ok 0x20000 else .error .fault, mem') ∧
      (mem'.map.lookup 0x20000).isSome = writable := by
  have hrun : ((mremap ampleMeans (twoPages writable) ontoOther).toOption.map fun r =>
      (r.1, (r.2.map.lookup 0x20000).isSome)) =
      some (if writable then .ok 0x20000 else .error .fault, writable) := by
    revert writable
    decide +kernel
  cases hcall : mremap ampleMeans (twoPages writable) ontoOther with
  | error stop =>
    rw [hcall] at hrun
    cases hrun
  | ok r =>
    rw [hcall] at hrun
    obtain ⟨hret, hleft⟩ := Prod.ext_iff.1 (some.inj hrun)
    exact ⟨r.2, congrArg _ (Prod.ext hret rfl), hleft⟩

/-- A writable page moves onto another page, and its data arrives. -/
theorem mremap_keeps_iff_ontoOther : ∃ mem',
    mremap ampleMeans (twoPages true) ontoOther = .ok (.ok 0x20000, mem') ∧
      Kept (twoPages true) ontoOther (.ok 0x20000) mem' := by
  obtain ⟨mem', hrun, -⟩ := run_ontoOther true
  refine ⟨mem', hrun, (mremap_keeps_iff (coherent_twoPages true) hrun).2 fun p hp => ?_⟩
  have hplan : plan ampleMeans (twoPages true).map ontoOther = .ok (.ok (.move 0x20000
      ⟨0x10000, 0x11000, .userRw, ⟨false, true, false, false, false⟩, .anonymous⟩ .anonymous)) := by
    decide +kernel
  cases hplan.symm.trans hp
  refine .inl fun i hi => ?_
  obtain rfl : i = 0 := Nat.lt_one_iff.1 hi
  exact ⟨⟨by decide, .inl rfl⟩, ⟨by decide, rfl, rfl, fun _ => rfl, rfl, trivial⟩⟩

/-- A page that may only be read cannot be copied, since its copy is as little writable: the call
fails, and the page that was mapped at the new address is gone. -/
theorem failed_move_unmaps : Coherent (twoPages false) ∧ ∃ mem',
    mremap ampleMeans (twoPages false) ontoOther = .ok (.error .fault, mem') ∧
      ¬ Kept (twoPages false) ontoOther (.error .fault) mem' := by
  obtain ⟨mem', hrun, hleft⟩ := run_ontoOther false
  refine ⟨coherent_twoPages false, mem', hrun, fun hk => ?_⟩
  have hbefore : ((twoPages false).map.lookup 0x20000).isSome = true := by decide +kernel
  rw [(hk 0x20000).1, hbefore] at hleft
  cases hleft

end CypheraKernel.Remap
