import CypheraKernel.Errno
import CypheraKernel.Lib.Text
import CypheraKernel.Security.Credentials

/-!
# Writing the id maps of a user namespace

`IdMapFile` and `SetgroupsFile` of `kernel/src/fs/procfs.rs`: the files `uid_map`, `gid_map` and
`setgroups` of a process, which act on the user namespace of that process.

A map can be written once.  A writer without the capability over the parent namespace may only
write the single line that maps one id to its own; `writeAt_unprivileged` says what such a map is,
and `writeAt_maps_self_iff` to which kernel ids it leads.
-/

namespace CypheraKernel.Creds

open Rust Text

/-- One line of a map: three numbers, the length positive and both ends representable. -/
def parseLine (line : List Char) : Except Errno IdMapping :=
  let fields := splitWhitespace line
  match fields[0]?.bind parseU32, fields[1]?.bind parseU32, fields[2]?.bind parseU32 with
  | some i, some o, some l =>
    if l > 0 ∧ fields[3]? = none then
      match checkedAdd i l, checkedAdd o l with
      | some _, some _ => .ok ⟨i, o, l⟩
      | _, _ => .error .inval
    else .error .inval
  | _, _, _ => .error .inval

/-- The lines of a map; blank ones are skipped. -/
def parseLines : List (List Char) → Except Errno (List IdMapping)
  | [] => .ok []
  | line :: rest =>
    let line := trim line
    if line.isEmpty then parseLines rest
    else do
      let m ← parseLine line
      let ms ← parseLines rest
      return m :: ms

/-- The text of a map, which has at least one entry. -/
def parseMap (buf : List UInt8) : Except Errno (List IdMapping) :=
  match fromUtf8 buf with
  | none => .error .inval
  | some text => do
    let parsed ← parseLines (lines text)
    if parsed.isEmpty then .error .inval else return parsed

def IdMapKind.cap : IdMapKind → UInt32
  | uid => capSetuid
  | gid => capSetgid

/-- The effective id of the kind: the id an unprivileged writer may map. -/
def Credentials.writerId (c : Credentials) : IdMapKind → UInt32
  | .uid => c.uid.e
  | .gid => c.gid.e

namespace UserNamespace

def setMap (kind : IdMapKind) (m : List IdMapping) : UserNamespace → UserNamespace
  | host p => host p
  | child p parent u um gm sg =>
    match kind with
    | .uid => child p parent u m gm sg
    | .gid => child p parent u um m sg

def setgroupsAllowed : UserNamespace → Bool
  | host _ => true
  | child _ _ _ _ _ sg => sg

end UserNamespace

variable (kind : IdMapKind)

/-- The restrictions on a writer without the capability over the parent namespace. -/
def unprivilegedOk (ns : UserNamespace) (writerId : UInt32) (parsed : List IdMapping) : Prop :=
  (∃ m, parsed = [m] ∧ m.length = 1 ∧ m.outsideStart = writerId) ∧
    ¬ (kind = .gid ∧ ns.setgroupsAllowed = true)

instance (kind : IdMapKind) (ns : UserNamespace) (writerId : UInt32) (parsed : List IdMapping) :
    Decidable (unprivilegedOk kind ns writerId parsed) :=
  have : Decidable (∃ m, parsed = [m] ∧ m.length = 1 ∧ m.outsideStart = writerId) :=
    match parsed with
    | [] => isFalse (by simp)
    | [m] => decidable_of_iff (m.length = 1 ∧ m.outsideStart = writerId) (by simp)
    | _ :: _ :: _ => isFalse (by simp)
  inferInstanceAs (Decidable (_ ∧ _))

/-- `IdMapFile::write_at` on a process in namespace `target`: the namespace with its new map and the
number of bytes written. -/
def writeAt (target : Option UserNamespace) (writer : Credentials)
    (buf : List UInt8) : Except Errno (UserNamespace × ℕ) :=
  match target with
  | none => .error .acces
  | some ns =>
    if ns.level = 0 then .error .acces
    else if (ns.map kind).isEmpty = false then .error .acces
    else do
      let parsed ← parseMap buf
      if writer.capableIn kind.cap ns.parent = false ∧
          ¬ unprivilegedOk kind ns (writer.writerId kind) parsed then .error .acces
      else return (ns.setMap kind parsed, buf.length)

/-! ### What an accepted write means -/

@[simp] theorem UserNamespace.map_setMap (m : List IdMapping) (p : ℕ)
    (parent : UserNamespace) (u : UInt32) (um gm : List IdMapping) (sg : Bool) :
    ((child p parent u um gm sg).setMap kind m).map kind = m := by
  cases kind <;> rfl

/-- The translation through a new map goes on in the unchanged parent. -/
theorem UserNamespace.toKernel_setMap (m : List IdMapping) {ns : UserNamespace}
    {parent : UserNamespace} (h : ns.parent = some parent) (id : UInt32) :
    (ns.setMap kind m).toKernel kind id = (idMapDown m id).bind (parent.toKernel kind) := by
  cases ns with
  | host p => cases h
  | child p parent' u um gm sg =>
    cases h
    cases kind <;> rfl

/-- **An accepted write of an unprivileged writer** installs a map of one id to the writer's. -/
theorem writeAt_unprivileged {kind : IdMapKind} {ns ns' : UserNamespace} {writer : Credentials}
    {buf : List UInt8} {n : ℕ} (hw : writeAt kind (some ns) writer buf = .ok (ns', n))
    (hpriv : writer.capableIn kind.cap ns.parent = false) :
    ∃ parent i, ns.parent = some parent ∧ ns' = ns.setMap kind [⟨i, writer.writerId kind, 1⟩] := by
  unfold writeAt at hw
  simp only [hpriv, true_and] at hw
  split_ifs at hw with hlevel hmap
  obtain ⟨parsed, -, hw⟩ := bind_eq_ok.1 hw
  split_ifs at hw with hok
  obtain ⟨⟨m, rfl, hlen, hout⟩, -⟩ := hok
  have hns : ns' = ns.setMap kind [m] := congrArg Prod.fst (Except.ok.inj hw).symm
  obtain ⟨i, o, l⟩ := m
  obtain rfl : l = 1 := hlen
  obtain rfl : o = writer.writerId kind := hout
  cases ns with
  | host p => exact absurd rfl hlevel
  | child p parent u um gm sg => exact ⟨parent, i, rfl, hns⟩

/-- A map of one id translates that id only. -/
theorem idMapDown_single (i o id : UInt32) :
    idMapDown [⟨i, o, 1⟩] id = if id = i then some o else none := by
  by_cases hid : id = i
  · subst hid
    simpa [idMapDown, checkedSub, checkedAdd] using o.toNat_lt
  · rw [if_neg hid]
    by_cases hle : i ≤ id
    · grind [idMapDown, checkedSub]
    · simp [idMapDown, checkedSub, hle]

/-- **To which kernel ids an unprivileged writer's map leads.**  They are the writer's own exactly
when the parent namespace does not translate the writer's kernel id, read as an id of that
namespace, to another kernel id. -/
theorem writeAt_maps_self_iff {kind : IdMapKind} {ns ns' : UserNamespace} {writer : Credentials}
    {buf : List UInt8} {n : ℕ} (hw : writeAt kind (some ns) writer buf = .ok (ns', n))
    (hpriv : writer.capableIn kind.cap ns.parent = false) :
    (∀ id k, ns'.toKernel kind id = some k → k = writer.writerId kind) ↔
      ∀ parent, ns.parent = some parent →
        ∀ k, parent.toKernel kind (writer.writerId kind) = some k → k = writer.writerId kind := by
  obtain ⟨parent, i, hparent, rfl⟩ := writeAt_unprivileged hw hpriv
  have htrans (id k : UInt32) : (ns.setMap kind [⟨i, writer.writerId kind, 1⟩]).toKernel kind id =
      some k ↔ id = i ∧ parent.toKernel kind (writer.writerId kind) = some k := by
    rw [UserNamespace.toKernel_setMap kind _ hparent, idMapDown_single]
    split_ifs with h <;> simp [h]
  aesop

/-- A fresh namespace below the host, and the process of kernel uid `1500` that created it and holds
every capability in it. -/
def freshNs : UserNamespace := .child 1 (.host 0) 1500 [] [] true

def freshCreds : Credentials :=
  { Credentials.root with uid := ⟨1500, 1500, 1500, 1500⟩, userNs := some freshNs }

theorem writeAt_fresh_maps_self :
    writeAt .uid (some freshNs) freshCreds "0 1500 1\n".toUTF8.toList =
        .ok (.child 1 (.host 0) 1500 [⟨0, 1500, 1⟩] [] true, 9) ∧
      ∀ id k, (UserNamespace.child 1 (.host 0) 1500 [⟨0, 1500, 1⟩] [] true).toKernel .uid id =
        some k → k = 1500 := by
  have hw : writeAt .uid (some freshNs) freshCreds "0 1500 1\n".toUTF8.toList =
      .ok (.child 1 (.host 0) 1500 [⟨0, 1500, 1⟩] [] true, 9) := by
    decide +kernel
  refine ⟨hw, (writeAt_maps_self_iff hw (by decide)).2 ?_⟩
  rintro parent hparent k hk
  cases hparent
  exact (Option.some.inj hk).symm

/-- The namespace after the host's root has mapped its ids `0 … 1999` to the kernel ids from `1000`
on. -/
def outerNs : UserNamespace := .child 1 (.host 0) 1500 [⟨0, 1000, 2000⟩] [] true

/-- A fresh namespace below it, and the process of kernel uid `1500` that created it. -/
def innerNs : UserNamespace := .child 2 outerNs 1500 [] [] true

def innerCreds : Credentials := { freshCreds with userNs := some innerNs }

/-- The inner process, of kernel uid `1500`, maps its uid `0` to the kernel uid `2500`. -/
theorem writeAt_inner_maps_other :
    writeAt .uid (some freshNs) Credentials.root "0 1000 2000\n".toUTF8.toList =
        .ok (outerNs, 12) ∧
      innerCreds.capableIn capSetuid innerNs.parent = false ∧
      writeAt .uid (some innerNs) innerCreds "0 1500 1\n".toUTF8.toList =
        .ok (.child 2 outerNs 1500 [⟨0, 1500, 1⟩] [] true, 9) ∧
      (UserNamespace.child 2 outerNs 1500 [⟨0, 1500, 1⟩] [] true).toKernel .uid 0 = some 2500 ∧
      innerCreds.writerId .uid = 1500 := by
  decide +kernel

end CypheraKernel.Creds
