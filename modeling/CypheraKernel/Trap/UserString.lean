import CypheraKernel.Signal.FrameStack

/-!
# Strings of a user process

`copy_cstr_from_user` of `frame/src/user/mod.rs`: the bytes up to the first that is zero are copied
in parts that end with a page.

`copyCstrFromUser`, and `copyCstrFromUser_exact`: **exactly the strings that can be read are
copied**, and nothing behind the last page of the string is read.
-/

namespace CypheraKernel.Trap

open Bytes List Signal

/-- What `page_flags` says of a page: whether it is present, for the user, and writable. -/
abbrev PageFlags := Option (Bool × Bool × Bool)

def AccessKind.allowed (kind : AccessKind) : PageFlags → Bool
  | some (true, true, w) => kind = .read || w
  | _ => false

/-- The pages of a process, the handler of page faults, and the pages once it has handled a fault. -/
structure PageTables where
  flags : ℕ → PageFlags
  hook : Option (ℕ → UInt64 → Bool)
  handled : ℕ → PageFlags

/-- The check of one page in `access_ok`. -/
def PageTables.pageOk (t : PageTables) (kind : AccessKind) (page : ℕ) : Bool :=
  let present : UInt64 := if (t.flags page).any (·.1) then 1 else 0
  let err := present ||| (if kind = .write then 2 else 0) ||| 4
  kind.allowed (t.flags page) ||
    t.hook.any (fun h => h (page * 4096) err) && kind.allowed (t.handled page)

def PageTables.memory (t : PageTables) (bytes : Memory) : UserMemory :=
  ⟨bytes, t.pageOk .read, t.pageOk .write⟩

namespace UserMemory

/-- `copy_cstr_from_user` when it has filled the beginning of its buffer of `len` bytes: the length
of the string, if there is one, and what has been written to the buffer. -/
def copyCstrFrom (mem : UserMemory) (userAddr : UInt64) (len : ℕ) (copied : List UInt8) :
    Option ℕ × List UInt8 :=
  if copied.length < len then
    let cur := userAddr + .ofNat copied.length
    let chunk := min (4096 - cur.toNat % 4096) (len - copied.length)
    match mem.copyFromUser cur chunk with
    | none => (none, copied)
    | some buf =>
      let data := read buf 0 chunk
      match data.findIdx? (· = 0) with
      | some i => (some (copied.length + i), copied ++ data)
      | none => copyCstrFrom mem userAddr len (copied ++ data)
  else (none, copied)
termination_by len - copied.length
decreasing_by
  rw [length_append, length_read]
  omega

def copyCstrFromUser (mem : UserMemory) (userAddr : UInt64) (len : ℕ) : Option ℕ × List UInt8 :=
  mem.copyCstrFrom userAddr len []

/-- The first zero byte from `a` on is the `n`th, in a buffer of `len` bytes, and the string lies in
readable pages of the user half. -/
structure CString (mem : UserMemory) (a len n : ℕ) : Prop where
  first : (read mem.bytes a len).findIdx? (· = 0) = some n
  low : a + n < userEnd
  readable : ∀ i ≤ n, mem.readable ((a + i) / 4096) = true

/-- A string has been found just where there is one; then it is in the buffer, and nothing behind
its last page has been read. -/
def Exact (mem : UserMemory) (a len : ℕ) (r : Option ℕ × List UInt8) : Prop :=
  ∀ n, (r.1 = some n ↔ mem.CString a len n) ∧ (r.1 = some n →
    read mem.bytes a (n + 1) <+: r.2 ∧ a + r.2.length ≤ ((a + n) / 4096 + 1) * 4096)

/-- The first `k` bytes are readable and not zero. -/
structure Scanned (mem : UserMemory) (a len k : ℕ) : Prop where
  fits : k ≤ len
  nonzero : (read mem.bytes a k).findIdx? (· = 0) = none
  readable : ∀ i < k, mem.readable ((a + i) / 4096) = true

variable {mem : UserMemory} {userAddr : UInt64} {a len k j : ℕ}

/-- A copy that stays in one page. -/
theorem copyFromUser_eq {addr : UInt64} (hk : 0 < k) (hpage : addr.toNat % 4096 + k ≤ 4096) :
    mem.copyFromUser addr k =
      if addr.toNat < userEnd ∧ mem.readable (addr.toNat / 4096) = true then
        some (write zeros 0 (read mem.bytes addr.toNat k))
      else none := by
  unfold copyFromUser
  congr 1
  rw [accessOk_iff hk, eq_iff_iff]
  unfold userEnd
  constructor
  · rintro ⟨hle, hpages⟩
    exact ⟨by omega, hpages _ le_rfl (Nat.div_le_div_right (by omega))⟩
  · rintro ⟨hlt, hread⟩
    refine ⟨by omega, fun page h h' => ?_⟩
    obtain rfl : page = addr.toNat / 4096 := by omega
    exact hread

namespace Scanned

variable (h : mem.Scanned a len k)

include h

/-- The string ends behind the bytes that are not zero. -/
theorem findIdx?_eq (m : ℕ) : (read mem.bytes a (k + m)).findIdx? (· = 0) =
    ((read mem.bytes (a + k) m).findIdx? (· = 0)).map (· + k) := by
  rw [read_add, findIdx?_append, h.nonzero, Option.none_or, length_read]

variable (hpage : (a + k) % 4096 + j ≤ 4096) (hj : k + j ≤ len)
  (hread : mem.readable ((a + k) / 4096) = true)

include hpage hread in
theorem readable_add {i : ℕ} (hi : i < k + j) : mem.readable ((a + i) / 4096) = true := by
  rcases lt_or_ge i k with hlt | hge
  · exact h.readable i hlt
  · rwa [show (a + i) / 4096 = (a + k) / 4096 by omega]

include hpage hj hread

/-- A part without a zero byte. -/
theorem add (hnone : (read mem.bytes (a + k) j).findIdx? (· = 0) = none) :
    mem.Scanned a len (k + j) where
  fits := hj
  nonzero := by rw [h.findIdx?_eq, hnone, Option.map_none]
  readable _ := h.readable_add hpage hread

/-- The part with the end of the string. -/
theorem exact (hlow : a + k < userEnd) {i : ℕ}
    (hi : (read mem.bytes (a + k) j).findIdx? (· = 0) = some i) :
    mem.Exact a len (some (k + i), read mem.bytes a (k + j)) := by
  obtain ⟨hlt, -⟩ := findIdx?_eq_some_iff_getElem.1 hi
  rw [length_read] at hlt
  have hstring : mem.CString a len (k + i) := by
    refine ⟨?_, ?_, fun _ _ => h.readable_add hpage hread (by omega)⟩
    · obtain ⟨l, rfl⟩ := Nat.exists_eq_add_of_le hj
      rw [add_assoc, h.findIdx?_eq, read_add, findIdx?_append, hi]
      simp [add_comm]
    · unfold userEnd at hlow ⊢
      omega
  refine fun n => ⟨⟨?_, fun hs => hstring.first.symm.trans hs.first⟩, ?_⟩
  · rintro ⟨⟩
    exact hstring
  · rintro ⟨⟩
    obtain ⟨l, hl⟩ := Nat.exists_eq_add_of_le (show k + i + 1 ≤ k + j by omega)
    refine ⟨?_, ?_⟩
    · rw [hl, read_add (j := k + i + 1)]
      exact prefix_append _ _
    · simp only [length_read]
      omega

end Scanned

/-- The call from the middle on, by induction on what is left of the buffer. -/
theorem copyCstrFrom_exact {k : ℕ} (hcur : (userAddr + .ofNat k).toNat = userAddr.toNat + k)
    (h : mem.Scanned userAddr.toNat len k) : mem.Exact userAddr.toNat len
      (mem.copyCstrFrom userAddr len (read mem.bytes userAddr.toNat k)) := by
  generalize ha : userAddr.toNat = a at hcur h ⊢
  have hfits := h.fits
  rw [copyCstrFrom, length_read]
  split_ifs with hlt
  · dsimp only
    rw [copyFromUser_eq (by omega) (by omega), hcur]
    generalize hchunk : min (4096 - (a + k) % 4096) (len - k) = chunk
    split_ifs with hok
    · have hdata := read_write_self zeros 0 (read mem.bytes (a + k) chunk)
      rw [length_read] at hdata
      dsimp only
      rw [hdata, ← read_add]
      cases hi : (read mem.bytes (a + k) chunk).findIdx? (· = 0) with
      | some i => exact h.exact (by omega) (by omega) hok.2 hok.1 hi
      | none =>
        have hnext := h.add (by omega) (by omega) hok.2 hi
        subst ha
        refine copyCstrFrom_exact ?_ hnext
        have hlow := hok.1
        unfold userEnd at hlow
        rw [UInt64.toNat_add, UInt64.toNat_ofNat']
        omega
    · refine fun n => ⟨⟨nofun, fun hs => absurd ?_ hok⟩, nofun⟩
      obtain ⟨l, rfl⟩ := Nat.exists_eq_add_of_le hfits
      have hfirst := hs.first
      rw [h.findIdx?_eq, Option.map_eq_some_iff] at hfirst
      obtain ⟨i, -, rfl⟩ := hfirst
      have hlow := hs.low
      exact ⟨by omega, hs.readable _ (by omega)⟩
  · obtain rfl : len = k := by omega
    refine fun n => ⟨⟨nofun, fun hs => ?_⟩, nofun⟩
    cases h.nonzero.symm.trans hs.first
termination_by len - k

end UserMemory

/-- **Strings are copied exactly.** -/
theorem copyCstrFromUser_exact (t : PageTables) (bytes : Memory) (userAddr : UInt64) (len : ℕ) :
    (t.memory bytes).Exact userAddr.toNat len ((t.memory bytes).copyCstrFromUser userAddr len) :=
  UserMemory.copyCstrFrom_exact (k := 0) (by simp) ⟨Nat.zero_le _, rfl, nofun⟩

end CypheraKernel.Trap
