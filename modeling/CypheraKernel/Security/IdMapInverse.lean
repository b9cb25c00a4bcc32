import CypheraKernel.Lib.FirstMatch
import CypheraKernel.Security.IdMap

/-!
# Id maps in both directions

`toKernel` and `fromKernel` translate the ids of a user namespace through the maps of all namespaces
up to the host.  They should be inverse to each other.  A map is accepted by `writeAt` without a
check that its extents are disjoint, and the translations take the first extent that fits.

`UserNamespace.invertible_iff`: the maps of a chain are invertible exactly if overlapping extents
agree (`UserNamespace.OverlapsAgree`).
-/

namespace CypheraKernel.Creds

open Rust FirstMatch List

namespace IdMapping

/-- The id is in the range of the extent inside the namespace. -/
def HasInside (m : IdMapping) (id : UInt32) : Prop :=
  m.insideStart ≤ id ∧ id - m.insideStart < m.length
  deriving Decidable

/-- The id is in the range of the extent in the parent namespace. -/
def HasOutside (m : IdMapping) (id : UInt32) : Prop :=
  m.outsideStart ≤ id ∧ id - m.outsideStart < m.length
  deriving Decidable

/-- Both ranges end below `2 ^ 32`, as `parseLine` checks. -/
def Bounded (m : IdMapping) : Prop :=
  m.insideStart.toNat + m.length.toNat < 2 ^ 32 ∧ m.outsideStart.toNat + m.length.toNat < 2 ^ 32

/-- The image of an id of the extent in the parent namespace. -/
def outward (m : IdMapping) (id : UInt32) : UInt32 := m.outsideStart + (id - m.insideStart)

end IdMapping

/-- One step of `id_map_down`, and with the sides exchanged of `id_map_up`. -/
def shiftBetween (start target length id : UInt32) : Option UInt32 := do
  let off ← checkedSub id start
  if off < length then checkedAdd target off else none

theorem shiftBetween_eq_some {start target length id id' : UInt32} :
    shiftBetween start target length id = some id' ↔
      ∃ off, off < length ∧ id.toNat = start.toNat + off.toNat ∧
        id'.toNat = target.toNat + off.toNat := by
  constructor
  · intro h
    obtain ⟨off, hoff, h⟩ := Option.bind_eq_some_iff.1 h
    grind [checkedSub, checkedAdd, UInt32.le_iff_toNat_le, UInt32.toNat_sub_of_le, UInt32.toNat_add]
  rintro ⟨off, hlt, hid, hid'⟩
  have hle : start ≤ id := UInt32.le_iff_toNat_le.2 (by omega)
  have hsub := UInt32.toNat_sub_of_le _ _ hle
  have hoff : id - start = off := UInt32.toNat_inj.1 (by omega)
  have hadd : target.toNat + off.toNat < 2 ^ 32 := hid' ▸ id'.toNat_lt
  have hval : target + off = id' := UInt32.toNat_inj.1 (by
    rw [UInt32.toNat_add, Nat.mod_eq_of_lt hadd, hid'])
  simpa [shiftBetween, checkedSub, checkedAdd, hle, hoff, hlt, hval] using hadd

/-- Without a wrap on the target side, the step is defined on the whole range. -/
theorem shiftBetween_eq {start target length : UInt32}
    (h : target.toNat + length.toNat < 2 ^ 32) (id : UInt32) :
    shiftBetween start target length id =
      if start ≤ id ∧ id - start < length then some (target + (id - start)) else none := by
  by_cases hle : start ≤ id
  · by_cases hlt : id - start < length
    · have hadd : target.toNat + (id - start).toNat < 2 ^ 32 := by
        have := UInt32.lt_iff_toNat_lt.1 hlt
        omega
      simp_all [shiftBetween, checkedSub, checkedAdd]
    · simp [shiftBetween, checkedSub, hle, hlt]
  · simp [shiftBetween, checkedSub, hle]

theorem shiftBetween_isSome {start target length : UInt32}
    (h : target.toNat + length.toNat < 2 ^ 32) (id : UInt32) :
    (shiftBetween start target length id).isSome ↔ start ≤ id ∧ id - start < length := by
  rw [shiftBetween_eq h]
  split_ifs with hid <;> simp [hid]

namespace IdMapping

/-- An extent as a partial bijection between the ids of the namespace and those of its parent. -/
def shift (m : IdMapping) : UInt32 ≃. UInt32 where
  toFun := shiftBetween m.insideStart m.outsideStart m.length
  invFun := shiftBetween m.outsideStart m.insideStart m.length
  inv id id' := by simp [shiftBetween_eq_some, and_comm]

variable {m : IdMapping}

theorem shift_eq (h : m.Bounded) (id : UInt32) :
    m.shift id = if m.HasInside id then some (m.outward id) else none :=
  shiftBetween_eq h.2 id

end IdMapping

open IdMapping (shift shift_eq)

variable (map : List IdMapping) (id : UInt32)

theorem idMapDown_eq : idMapDown map id = down (map.map shift) id := by
  unfold idMapDown down
  rw [findSome?_map]
  rfl

theorem idMapUp_eq : idMapUp map id = up (map.map shift) id := by
  unfold idMapUp up
  rw [findSome?_map]
  rfl

/-! ### Accepted maps -/

theorem parseLine_bounded {line : List Char} {m : IdMapping} (h : parseLine line = .ok m) :
    m.Bounded := by
  unfold parseLine at h
  dsimp only at h
  split at h
  · split_ifs at h
    split at h
    · rename_i hi ho
      cases h
      unfold checkedAdd at hi ho
      split_ifs at hi ho with h1 h2
      exact ⟨h1, h2⟩
    · cases h
  · cases h

theorem parseLines_bounded {lines : List (List Char)} {parsed : List IdMapping}
    (h : parseLines lines = .ok parsed) : ∀ m ∈ parsed, m.Bounded := by
  induction lines generalizing parsed with
  | nil =>
    cases h
    simp
  | cons line rest ih =>
    unfold parseLines at h
    dsimp only at h
    split_ifs at h with hempty
    · exact ih h
    obtain ⟨m, hm, h⟩ := bind_eq_ok.1 h
    obtain ⟨ms, hms, h⟩ := bind_eq_ok.1 h
    cases h
    intro m' hm'
    rcases mem_cons.1 hm' with rfl | hm'
    · exact parseLine_bounded hm
    · exact ih hms m' hm'

/-- The extents of an accepted map end below `2 ^ 32` on both sides. -/
theorem writeAt_bounded {kind : IdMapKind} {target : Option UserNamespace} {writer : Credentials}
    {buf : List UInt8} {after : UserNamespace} {n : ℕ}
    (h : writeAt kind target writer buf = .ok (after, n)) : ∀ m ∈ after.map kind, m.Bounded := by
  unfold writeAt at h
  split at h
  · cases h
  rename_i ns
  split_ifs at h with hlevel hmap
  obtain ⟨parsed, hparsed, h⟩ := bind_eq_ok.1 h
  split_ifs at h
  have hns : after = ns.setMap kind parsed := congrArg Prod.fst (Except.ok.inj h).symm
  subst hns
  unfold parseMap at hparsed
  split at hparsed
  · cases hparsed
  obtain ⟨ms, hms, hparsed⟩ := bind_eq_ok.1 hparsed
  split_ifs at hparsed
  cases hparsed
  cases ns with
  | host p => exact absurd rfl hlevel
  | child p parent u um gm sg =>
    rw [UserNamespace.map_setMap]
    exact parseLines_bounded hms

namespace UserNamespace

/-- The namespace and its ancestors. -/
def chain : UserNamespace → List UserNamespace
  | host p => [host p]
  | child p parent u um gm sg => child p parent u um gm sg :: parent.chain

/-- Every map of the chain was accepted by a write. -/
def Accepted (kind : IdMapKind) : UserNamespace → Prop
  | host _ => True
  | child p parent u um gm sg => parent.Accepted kind ∧
      ∃ before writer buf after n, writeAt kind before writer buf = .ok (after, n) ∧
        after.map kind = (child p parent u um gm sg).map kind

/-- The id leads to a kernel id: the first extent that has it leads to such an id of the parent. -/
def known (kind : IdMapKind) : UserNamespace → UInt32 → Bool
  | host _, _ => true
  | child p parent u um gm sg, id =>
    match ((child p parent u um gm sg).map kind).find? fun m => m.HasInside id with
    | none => false
    | some m => parent.known kind (m.outward id)

/-- The translations are inverse to each other. -/
structure Inverse (kind : IdMapKind) (ns : UserNamespace) : Prop where
  to_from : ∀ id k, ns.toKernel kind id = some k → ns.fromKernel kind k = some id
  from_to : ∀ id k, ns.fromKernel kind k = some id → ns.toKernel kind id = some k

variable {ns : UserNamespace}

/-- Different ids of an invertible namespace denote different kernel ids. -/
theorem Inverse.injective {kind : IdMapKind} (h : ns.Inverse kind) {id id' k : UInt32}
    (hid : ns.toKernel kind id = some k) (hid' : ns.toKernel kind id' = some k) : id = id' :=
  Option.some.inj ((h.to_from id k hid).symm.trans (h.to_from id' k hid'))

/-- Where an extent of the map meets earlier ones, it does so on both sides. -/
def OverlapsAgree (kind : IdMapKind) : UserNamespace → Prop
  | host _ => True
  | child p parent u um gm sg =>
    ∀ pre m post, (child p parent u um gm sg).map kind = pre ++ m :: post →
      ∀ id, m.HasInside id → parent.known kind (m.outward id) = true →
        ((∃ m' ∈ pre, m'.HasInside id) ↔ ∃ m' ∈ pre, m'.HasOutside (m.outward id))

/-! ### When the translations are inverse to each other -/

variable {kind : IdMapKind}

/-- Without a wrap, `id_map_down` translates by the first extent that has the id. -/
theorem idMapDown_eq_find {map : List IdMapping} (h : ∀ m ∈ map, m.Bounded) (id : UInt32) :
    idMapDown map id = (map.find? fun m => m.HasInside id).map fun m => m.outward id := by
  induction map with
  | nil => rfl
  | cons m map ih =>
    have hm := shift_eq (h m mem_cons_self) id
    have hih := ih fun m' hm' => h m' (mem_cons_of_mem _ hm')
    rw [idMapDown_eq, down] at hih ⊢
    rw [map_cons, findSome?_cons, hm, find?_cons]
    by_cases hid : m.HasInside id
    · simp [hid]
    · simpa [hid] using hih

variable {parent : UserNamespace} {um gm : List IdMapping} {u : UInt32} {sg : Bool} {p : ℕ}

theorem Accepted.bounded (h : (child p parent u um gm sg).Accepted kind) :
    ∀ m ∈ (child p parent u um gm sg).map kind, m.Bounded := by
  obtain ⟨-, before, writer, buf, after, n, hw, hmap⟩ := h
  rw [← hmap]
  exact writeAt_bounded hw

/-- The ids that lead to a kernel id are those that `toKernel` translates. -/
theorem known_iff (h : ns.Accepted kind) (id : UInt32) :
    ns.known kind id = true ↔ ∃ k, ns.toKernel kind id = some k := by
  induction ns generalizing id with
  | host p => exact ⟨fun _ => ⟨id, rfl⟩, fun _ => rfl⟩
  | child p parent u um gm sg ih =>
    rw [toKernel, idMapDown_eq_find h.bounded, known]
    cases hfind : ((child p parent u um gm sg).map kind).find? fun m => m.HasInside id with
    | none => simp
    | some m => simpa using ih h.1 (m.outward id)

/-- The condition on a map, in terms of its extents as partial bijections. -/
theorem overlapsAgree_iff (hb : ∀ m ∈ (child p parent u um gm sg).map kind, m.Bounded) :
    (child p parent u um gm sg).OverlapsAgree kind ↔
      Agree (((child p parent u um gm sg).map kind).map shift)
        fun id => parent.known kind id = true := by
  have hearlier {pre : List IdMapping} (hpre : ∀ m ∈ pre, m.Bounded) (id id' : UInt32) :
      ((∃ g ∈ pre.map shift, (g id).isSome) ↔
          ∃ g ∈ pre.map shift, (g.symm id').isSome) ↔
        ((∃ m ∈ pre, m.HasInside id) ↔ ∃ m ∈ pre, m.HasOutside id') := by
    simp only [mem_map, exists_exists_and_eq_and]
    refine iff_congr (exists_congr fun m => ?_) (exists_congr fun m => ?_)
    · exact and_congr_right fun hm => shiftBetween_isSome (hpre m hm).2 id
    · exact and_congr_right fun hm => shiftBetween_isSome (hpre m hm).1 id'
  constructor
  · intro h pre f post heq id id' hf hknown
    obtain ⟨pre, rest, hmap, rfl, hrest⟩ := map_eq_append_iff.1 heq
    obtain ⟨m, post, rfl, rfl, rfl⟩ := map_eq_cons_iff.1 hrest
    rw [hmap] at hb
    rw [shift_eq (hb m (by simp))] at hf
    split_ifs at hf with hin
    cases hf
    exact (hearlier (fun m' hm' => hb m' (by simp [hm'])) _ _).2 (h pre m post hmap id hin hknown)
  · intro h pre m post hmap id hin hknown
    have hshift := shift_eq (hb m (by simp [hmap])) id
    rw [if_pos hin] at hshift
    have := h (pre.map shift) m.shift (post.map shift) (by simp [hmap]) id
      (m.outward id) hshift hknown
    exact (hearlier (fun m' hm' => hb m' (by simp [hmap, hm'])) _ _).1 this

/-- Below an invertible parent, the chain is invertible when the map is, over the ids that lead on.
-/
theorem inverse_child_iff (hparent : parent.Inverse kind) (ha : parent.Accepted kind) :
    (child p parent u um gm sg).Inverse kind ↔
      InverseOn (((child p parent u um gm sg).map kind).map shift)
        fun id => parent.known kind id = true := by
  have hto (id k : UInt32) : (child p parent u um gm sg).toKernel kind id = some k ↔
      ∃ y, down (((child p parent u um gm sg).map kind).map shift) id = some y ∧
        parent.toKernel kind y = some k := by
    rw [toKernel, idMapDown_eq]
    exact Option.bind_eq_some_iff
  have hfrom (id k : UInt32) : (child p parent u um gm sg).fromKernel kind k = some id ↔
      ∃ y, parent.fromKernel kind k = some y ∧
        up (((child p parent u um gm sg).map kind).map shift) y = some id := by
    rw [fromKernel]
    simp only [idMapUp_eq]
    exact Option.bind_eq_some_iff
  constructor
  · intro h x y hy
    obtain ⟨k, hk⟩ := (known_iff ha y).1 hy
    have hk' := hparent.to_from y k hk
    constructor
    · intro hd
      obtain ⟨y', hy', hup⟩ := (hfrom x k).1 (h.to_from x k ((hto x k).2 ⟨y, hd, hk⟩))
      rwa [Option.some.inj (hk'.symm.trans hy')]
    · intro hu
      obtain ⟨y', hdown, hy'⟩ := (hto x k).1 (h.from_to x k ((hfrom x k).2 ⟨y, hk', hu⟩))
      rwa [hparent.injective hk hy']
  · intro h
    constructor
    · intro id k hid
      obtain ⟨y, hd, hk⟩ := (hto id k).1 hid
      exact (hfrom id k).2 ⟨y, hparent.to_from y k hk,
        (h id y ((known_iff ha y).2 ⟨k, hk⟩)).1 hd⟩
    · intro id k hid
      obtain ⟨y, hk, hu⟩ := (hfrom id k).1 hid
      have hk := hparent.from_to y k hk
      exact (hto id k).2 ⟨y, (h id y ((known_iff ha y).2 ⟨k, hk⟩)).2 hu, hk⟩

/-- **Invertible chains.**  In every namespace of a chain of accepted maps the two translations are
inverse to each other exactly when no map has an overlap of extents on one side only. -/
theorem invertible_iff {ns : UserNamespace} (h : ns.Accepted kind) :
    (∀ ns' ∈ ns.chain, ns'.Inverse kind) ↔ ∀ ns' ∈ ns.chain, ns'.OverlapsAgree kind := by
  induction ns with
  | host p =>
    simp only [chain, mem_singleton, forall_eq]
    exact ⟨fun _ => trivial, fun _ => ⟨fun id k hid => hid.symm, fun id k hid => hid.symm⟩⟩
  | child p parent u um gm sg ih =>
    simp only [chain, forall_mem_cons, ← ih h.1]
    refine and_congr_left fun hparents => ?_
    have hparent : parent.Inverse kind := hparents parent (by cases parent <;> simp [chain])
    rw [inverse_child_iff hparent h.1, overlapsAgree_iff h.bounded, inverse_iff]

/-- A single extent is invertible. -/
theorem invertible_outerNs :
    outerNs.Accepted .uid ∧ ∀ ns ∈ outerNs.chain, ns.Inverse .uid := by
  have hw : writeAt .uid (some freshNs) Credentials.root "0 1000 2000\n".toUTF8.toList =
      .ok (outerNs, 12) := by decide +kernel
  have ha : outerNs.Accepted .uid := ⟨trivial, _, _, _, _, _, hw, rfl⟩
  refine ⟨ha, (invertible_iff ha).2 ?_⟩
  have hmap : outerNs.map .uid = [⟨0, 1000, 2000⟩] := rfl
  have hagree : outerNs.OverlapsAgree .uid := by
    intro pre m post heq id _ _
    have hlen : 1 = pre.length + (post.length + 1) := by
      simpa using congrArg length (hmap.symm.trans heq)
    grind
  intro ns hns
  rcases mem_cons.1 hns with rfl | hns
  · exact hagree
  · obtain rfl := mem_singleton.1 hns
    trivial

/-- The namespace after the host's root has mapped the ids `0` and `1` to the same kernel id. -/
def overlapNs : UserNamespace := .child 1 (.host 0) 1500 [⟨0, 1000, 1⟩, ⟨1, 1000, 1⟩] [] true

/-- The overlapping map is accepted, and its two ids are one kernel id. -/
theorem overlap_accepted :
    writeAt .uid (some freshNs) Credentials.root "0 1000 1\n1 1000 1\n".toUTF8.toList =
        .ok (overlapNs, 18) ∧
      overlapNs.toKernel .uid 0 = some 1000 ∧ overlapNs.toKernel .uid 1 = some 1000 ∧
      overlapNs.fromKernel .uid 1000 = some 0 := by
  decide +kernel

end UserNamespace

end CypheraKernel.Creds
