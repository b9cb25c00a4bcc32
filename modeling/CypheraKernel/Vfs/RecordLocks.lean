import CypheraKernel.Core.Kernel

/-!
# POSIX record locks

`kernel/src/vfs/locks/posix.rs`: the record locks of each inode, an unordered list of byte ranges
with their owners.

`record_locks_correct`: **byte by byte an owner has what its last successful call on the byte has
set**, writers exclude all other owners, and a request that fails has met a conflict.

The queues of waiting processes are left out.
-/

namespace CypheraKernel.Locks

open List

open Sched (Pid)
open Core (FileLock)

/-! ### The calls -/

def fWrlck : ℕ := 1

def fUnlck : ℕ := 2

/-- The locks of each inode. -/
abbrev Table := ℕ → List FileLock

def empty : Table := fun _ => []

variable (t : Table) (inode : ℕ)

def setInode (locks : List FileLock) : Table :=
  Function.update t inode locks

def overlaps (l : FileLock) (start stop : ℕ) : Bool := l.start < stop && start < l.stop

def conflicts (l other : FileLock) : Bool :=
  if l.owner = other.owner then false
  else if !overlaps l other.start other.stop then false
  else l.kind = fWrlck || other.kind = fWrlck

/-- A lock that `split_owner_range` does not touch. -/
def untouched (start stop : ℕ) (owner : Pid) (l : FileLock) : Bool :=
  l.owner ≠ owner || !overlaps l start stop

/-- What is left of a lock that `split_owner_range` takes out: the parts before and after. -/
def pieces (start stop : ℕ) (owner : Pid) (l : FileLock) : List FileLock :=
  if untouched start stop owner l then []
  else
    (if l.start < start then [⟨l.kind, l.start, start, owner⟩] else []) ++
      if l.stop > stop then [⟨l.kind, stop, l.stop, owner⟩] else []

def splitOwnerRange (locks : List FileLock) (start stop : ℕ) (owner : Pid) : List FileLock :=
  locks.filter (untouched start stop owner) ++ locks.flatMap (pieces start stop owner)

def unlockRange (start stop : ℕ) (owner : Pid) : Table :=
  setInode t inode (splitOwnerRange (t inode) start stop owner)

/-- `try_set_lock`.  A request that fails returns the lock that it has met. -/
def trySetLock (kind start stop : ℕ) (owner : Pid) : Except FileLock Unit × Table :=
  if kind = fUnlck then (.ok (), unlockRange t inode start stop owner)
  else
    let probe : FileLock := ⟨kind, start, stop, owner⟩
    match (t inode).find? (conflicts · probe) with
    | some l => (.error l, t)
    | none => (.ok (), setInode t inode (splitOwnerRange (t inode) start stop owner ++ [probe]))

def dropOwnerInode (owner : Pid) (inode : ℕ) : Table :=
  setInode t inode ((t inode).filter fun l => l.owner ≠ owner)

def dropOwner (owner : Pid) : Table :=
  fun inode => (t inode).filter fun l => l.owner ≠ owner

/-- The calls on record locks. -/
inductive Op
  | trySetLock (inode kind start stop : ℕ) (owner : Pid)
  | unlockRange (inode start stop : ℕ) (owner : Pid)
  | dropOwnerInode (owner : Pid) (inode : ℕ)
  | dropOwner (owner : Pid)
  deriving DecidableEq

def Op.exec : Op → Except FileLock Unit × Table
  | .trySetLock inode kind start stop owner => Locks.trySetLock t inode kind start stop owner
  | .unlockRange inode start stop owner => (.ok (), Locks.unlockRange t inode start stop owner)
  | .dropOwnerInode owner inode => (.ok (), Locks.dropOwnerInode t owner inode)
  | .dropOwner owner => (.ok (), Locks.dropOwner t owner)

def run (ops : List Op) : Table := ops.foldl (fun t op => (op.exec t).2) t

/-- The calls of a run that succeed. -/
def succeeded (t : Table) : List Op → List Op
  | [] => []
  | op :: ops =>
    match op.exec t with
    | (.ok _, t') => op :: succeeded t' ops
    | (.error _, t') => succeeded t' ops

/-- The range of the call is not empty. -/
def Op.Proper : Op → Prop
  | .trySetLock _ _ start stop _ | .unlockRange _ start stop _ => start < stop
  | _ => True

instance (op : Op) : Decidable op.Proper := by
  unfold Op.Proper
  split <;> infer_instance

/-! ### Byte by byte -/

/-- The lock is one of the owner and on the byte. -/
def covers (owner : Pid) (byte : ℕ) (l : FileLock) : Bool :=
  l.owner = owner && (l.start ≤ byte && byte < l.stop)

/-- The kinds of all locks of the owner on the byte. -/
def kindsAt (locks : List FileLock) (owner : Pid) (byte : ℕ) : List ℕ :=
  (locks.filter (covers owner byte)).map FileLock.kind

/-- What a successful call sets for the owner on the byte, if it is a call of the owner that covers
the byte. -/
def Op.sets (owner : Pid) (byte : ℕ) : Op → Option (Option ℕ)
  | .trySetLock i kind start stop o =>
    if i = inode ∧ o = owner ∧ start ≤ byte ∧ byte < stop then
      some (if kind = fUnlck then none else some kind)
    else none
  | .unlockRange i start stop o =>
    if i = inode ∧ o = owner ∧ start ≤ byte ∧ byte < stop then some none else none
  | .dropOwnerInode o i => if i = inode ∧ o = owner then some none else none
  | .dropOwner o => if o = owner then some none else none

/-- What the last of the calls that covers the byte has set. -/
def lastSet (owner : Pid) (byte : ℕ) (ops : List Op) : Option ℕ :=
  (ops.filterMap (Op.sets inode owner byte)).getLast?.join

variable {t} {locks : List FileLock} {start stop byte inode kind : ℕ} {owner o : Pid}
  {l l' : FileLock} {x : Option ℕ}

theorem kindsAt_append (a b : List FileLock) (owner : Pid) (byte : ℕ) :
    kindsAt (a ++ b) owner byte = kindsAt a owner byte ++ kindsAt b owner byte := by
  simp [kindsAt]

theorem mem_kindsAt {k : ℕ} :
    k ∈ kindsAt locks owner byte ↔ ∃ l ∈ locks, covers owner byte l = true ∧ l.kind = k := by
  simp [kindsAt, and_assoc]

theorem covers_iff :
    covers owner byte l = true ↔ l.owner = owner ∧ l.start ≤ byte ∧ byte < l.stop := by
  simp [covers]

/-- A split touches the locks of the owner that reach into the range. -/
theorem untouched_iff :
    untouched start stop owner l = true ↔ l.owner = owner → l.stop ≤ start ∨ stop ≤ l.start := by
  simp only [untouched, overlaps, Bool.or_eq_true, Bool.not_eq_true', Bool.and_eq_false_iff,
    decide_eq_true_eq, decide_eq_false_iff_not, not_lt, ne_eq]
  tauto

theorem kindsAt_cons (l : FileLock) (locks : List FileLock) (owner : Pid) (byte : ℕ) :
    kindsAt (l :: locks) owner byte =
      (if covers owner byte l then [l.kind] else []) ++ kindsAt locks owner byte := by
  unfold kindsAt
  by_cases h : covers owner byte l = true <;> simp [h]

theorem kindsAt_nil (owner : Pid) (byte : ℕ) : kindsAt [] owner byte = [] := rfl

/-- The parts of a lock have its kind on the bytes that they cover. -/
theorem kindsAt_pieces (hlt : start < stop) (ht : untouched start stop owner l = false) :
    kindsAt (pieces start stop owner l) o byte =
      if covers o byte l = true ∧ ¬(start ≤ byte ∧ byte < stop) then [l.kind] else [] := by
  have htouched : l.owner = owner ∧ start < l.stop ∧ l.start < stop := by
    by_contra hnot
    have huntouched : untouched start stop owner l = true :=
      untouched_iff.2 fun howner => by by_contra hover; exact hnot ⟨howner, by omega, by omega⟩
    rw [ht] at huntouched
    cases huntouched
  obtain ⟨rfl, hstop, hstart⟩ := htouched
  rw [pieces, if_neg (by simp [ht]), kindsAt_append]
  have hpiece (lo hi : ℕ) : kindsAt (if lo < hi then [⟨l.kind, lo, hi, l.owner⟩] else []) o byte =
      if l.owner = o ∧ lo ≤ byte ∧ byte < hi then [l.kind] else [] := by
    split_ifs with h₁ h₂ h₂
    · rw [kindsAt_cons, kindsAt_nil, if_pos (covers_iff.2 h₂)]
      rfl
    · rw [kindsAt_cons, kindsAt_nil, if_neg fun hc => h₂ (covers_iff.1 hc)]
      rfl
    · omega
    · rfl
  rw [hpiece, hpiece]
  -- A byte is before the range, or in it or after it.
  rcases lt_or_ge byte start with hb | hb
  · have hafter : ¬(l.owner = o ∧ stop ≤ byte ∧ byte < l.stop) := by omega
    have hiff : (l.owner = o ∧ l.start ≤ byte ∧ byte < start) ↔
        covers o byte l = true ∧ ¬(start ≤ byte ∧ byte < stop) := by
      rw [covers_iff, and_assoc]
      refine and_congr_right fun _ => ?_
      omega
    rw [if_neg hafter, append_nil, if_congr hiff rfl rfl]
  · have hbefore : ¬(l.owner = o ∧ l.start ≤ byte ∧ byte < start) := by omega
    have hiff : (l.owner = o ∧ stop ≤ byte ∧ byte < l.stop) ↔
        covers o byte l = true ∧ ¬(start ≤ byte ∧ byte < stop) := by
      rw [covers_iff, and_assoc]
      refine and_congr_right fun _ => ?_
      omega
    rw [if_neg hbefore, nil_append, if_congr hiff rfl rfl]

/-- **What a split leaves**: nothing of the owner in the range, and everything else. -/
theorem kindsAt_splitOwnerRange (hlt : start < stop) (locks : List FileLock) (o : Pid) (byte : ℕ) :
    (kindsAt (splitOwnerRange locks start stop owner) o byte).Perm
      (if o = owner ∧ start ≤ byte ∧ byte < stop then [] else kindsAt locks o byte) := by
  induction locks with
  | nil => simp [splitOwnerRange, kindsAt]
  | cons l locks ih =>
    rw [splitOwnerRange, kindsAt_append] at ih ⊢
    rw [flatMap_cons, kindsAt_append, kindsAt_cons]
    cases ht : untouched start stop owner l with
    | true =>
      have hpieces : pieces start stop owner l = [] := if_pos ht
      rw [filter_cons_of_pos ht, hpieces, kindsAt_cons, kindsAt_nil, nil_append,
        append_assoc]
      refine (ih.append_left _).trans ?_
      split_ifs with hcovers hin hin
      · -- An untouched lock of the owner does not reach into the range.
        obtain ⟨howner, hbyte⟩ := covers_iff.1 hcovers
        have hout := untouched_iff.1 ht (howner.trans hin.1)
        omega
      · exact .refl _
      · exact .refl _
      · exact .refl _
    | false =>
      rw [filter_cons_of_neg (by simp [ht]), kindsAt_pieces hlt ht]
      refine (perm_append_comm_assoc ..).trans ((ih.append_left _).trans ?_)
      have howner : covers o byte l = true → (o = owner ∧ start ≤ byte ∧ byte < stop ↔
          start ≤ byte ∧ byte < stop) := by
        intro hcovers
        have hl : l.owner = owner := by
          by_contra hne
          rw [untouched_iff.2 fun h => absurd h hne] at ht
          cases ht
        have ho : o = owner := (covers_iff.1 hcovers).1.symm.trans hl
        exact and_iff_right ho
      by_cases hcovers : covers o byte l = true
      · by_cases hin : start ≤ byte ∧ byte < stop
        · grind
        · grind
      · simp [hcovers]

/-! ### Sequences of calls -/

/-- Every owner has on every byte what `s` says, no two owners have a byte that one of them has for
writing, and no lock is empty. -/
structure Agrees (locks : List FileLock) (s : Pid → ℕ → Option ℕ) : Prop where
  nonempty : ∀ l ∈ locks, l.start < l.stop
  kinds : ∀ owner byte, kindsAt locks owner byte = (s owner byte).toList
  exclusive : ∀ o o' byte k k', o ≠ o' → s o byte = some k → s o' byte = some k' → k ≠ fWrlck

theorem perm_toList {xs : List ℕ} (h : xs.Perm x.toList) : xs = x.toList := by
  cases x with
  | none => exact perm_nil.1 h
  | some k => exact perm_singleton.1 h

variable {s s' : Pid → ℕ → Option ℕ} {i : ℕ}

/-- What an owner has once a range of it is set to `x`. -/
def setRange (s : Pid → ℕ → Option ℕ) (start stop : ℕ) (owner : Pid) (x : Option ℕ) :
    Pid → ℕ → Option ℕ :=
  fun o byte => if o = owner ∧ start ≤ byte ∧ byte < stop then x else s o byte

theorem nonempty_pieces (h : l ∈ pieces start stop owner l') : l.start < l.stop := by grind [pieces]

theorem nonempty_split (h : ∀ l ∈ locks, l.start < l.stop) (start stop : ℕ) (owner : Pid) :
    ∀ l ∈ splitOwnerRange locks start stop owner, l.start < l.stop := by
  intro l hl
  rcases mem_append.1 hl with hl | hl
  · exact h l (mem_of_mem_filter hl)
  · grind [nonempty_pieces]

section

variable (h : Agrees locks s)

include h

theorem Agrees.split (hlt : start < stop) :
    Agrees (splitOwnerRange locks start stop owner) (setRange s start stop owner none) where
  nonempty := nonempty_split h.nonempty _ _ _
  kinds o byte := by grind [perm_toList, kindsAt_splitOwnerRange, setRange, h.kinds]
  exclusive o o' byte k k' hne hk hk' := by grind [setRange, h.exclusive]

/-- No lock conflicts with the probe. -/
theorem no_conflict (hfind : locks.find? (conflicts · ⟨kind, start, stop, owner⟩) = none)
    {k : ℕ} (hne : o ≠ owner) (hin : start ≤ byte ∧ byte < stop)
    (hk : s o byte = some k) : k ≠ fWrlck ∧ kind ≠ fWrlck := by
  have hmem : k ∈ kindsAt locks o byte := by rw [h.kinds, hk]; exact mem_singleton_self k
  obtain ⟨l, hl, hcovers, rfl⟩ := mem_kindsAt.1 hmem
  obtain ⟨rfl, hbyte⟩ := covers_iff.1 hcovers
  have hno := find?_eq_none.1 hfind l hl
  have hover : overlaps l start stop = true := by
    simp only [overlaps, Bool.and_eq_true, decide_eq_true_eq]
    omega
  simpa [conflicts, hne, hover] using hno

theorem Agrees.set (hlt : start < stop)
    (hfind : locks.find? (conflicts · ⟨kind, start, stop, owner⟩) = none) :
    Agrees (splitOwnerRange locks start stop owner ++ [⟨kind, start, stop, owner⟩])
      (setRange s start stop owner (some kind)) where
  nonempty l hl := by
    rcases mem_append.1 hl with hl | hl
    · exact (h.split hlt).nonempty l hl
    · rw [mem_singleton.1 hl]
      exact hlt
  kinds o byte := by
    rw [kindsAt_append, (h.split hlt).kinds, kindsAt_cons, kindsAt_nil, append_nil]
    by_cases hin : o = owner ∧ start ≤ byte ∧ byte < stop
    · simp_all [covers_iff, setRange]
    · grind [covers_iff, setRange]
  exclusive o o' byte k k' hne hk hk' := by
    unfold setRange at hk hk'
    split_ifs at hk hk' with hin hin' hin'
    · exact absurd (hin.1.trans hin'.1.symm) hne
    · cases hk
      have ho' : o' ≠ owner := fun ho' => hne (hin.1.trans ho'.symm)
      exact (no_conflict h hfind ho' hin.2 hk').2
    · have ho : o ≠ owner := fun ho => hne (ho.trans hin'.1.symm)
      exact (no_conflict h hfind ho hin'.2 hk).1
    · exact h.exclusive o o' byte k k' hne hk hk'

theorem Agrees.drop (owner : Pid) :
    Agrees (locks.filter fun l => l.owner ≠ owner) fun o byte => if o = owner then none else s o byte
    where
  nonempty l hl := h.nonempty l (mem_of_mem_filter hl)
  kinds o byte := by
    rw [kindsAt, filter_filter]
    split_ifs with ho
    · simp_all [covers_iff]
    · rw [← h.kinds, kindsAt]
      congr 1
      refine filter_congr fun l _ => ?_
      simp_all [covers_iff]
  exclusive o o' byte k k' hne hk hk' := by grind [h.exclusive]

end

/-- What a successful call leaves of what the owners have. -/
def Op.update (inode : ℕ) (s : Pid → ℕ → Option ℕ) (op : Op) : Pid → ℕ → Option ℕ :=
  fun owner byte => (op.sets inode owner byte).getD (s owner byte)

/-- The lock conflicts with the request on some byte. -/
def Op.Meets (t : Table) (l : FileLock) : Op → Prop
  | .trySetLock inode kind start stop owner =>
    l ∈ t inode ∧ l.owner ≠ owner ∧ (l.kind = fWrlck ∨ kind = fWrlck) ∧
      ∃ byte, (start ≤ byte ∧ byte < stop) ∧ l.start ≤ byte ∧ byte < l.stop
  | _ => False

theorem meets_of_find (hlt : start < stop)
    (hfind : (t inode).find? (conflicts · ⟨kind, start, stop, owner⟩) = some l)
    (hl : l.start < l.stop) : (Op.trySetLock inode kind start stop owner).Meets t l := by
  have hmem := mem_of_find?_eq_some hfind
  have hconflict := find?_some hfind
  unfold conflicts at hconflict
  split_ifs at hconflict with howner hover
  simp only [overlaps, Bool.not_eq_true', Bool.not_eq_false, Bool.and_eq_true,
    decide_eq_true_eq] at hover
  refine ⟨hmem, howner, by simpa using hconflict, max l.start start, ?_, ?_⟩ <;> omega

theorem setInode_self (locks : List FileLock) : setInode t inode locks inode = locks :=
  Function.update_self ..

theorem setInode_of_ne (h : inode ≠ i) (locks : List FileLock) :
    setInode t i locks inode = t inode := Function.update_of_ne h ..

theorem Agrees.congr (h : Agrees locks s) (hs : ∀ o b, s' o b = s o b) : Agrees locks s' := by
  obtain rfl : s' = s := funext fun o => funext fun b => hs o b
  exact h

/-- A call that sets a range of the inode, or of another one. -/
theorem update_of_sets {op : Op}
    (hsets : ∀ o b, op.sets inode o b =
      if i = inode ∧ owner = o ∧ start ≤ b ∧ b < stop then some x else none) :
    op.update inode s = if i = inode then setRange s start stop owner x else s := by
  funext o b
  rw [Op.update, hsets]
  by_cases hi : i = inode
  · by_cases hin : owner = o ∧ start ≤ b ∧ b < stop
    · simp [hi, setRange, hin]
    · grind [setRange]
  · simp [hi]

theorem Agrees.setInode (h : Agrees (t inode) s) (hi : i = inode → Agrees locks s') :
    Agrees (setInode t i locks inode) (if i = inode then s' else s) := by
  split_ifs with hii
  · subst hii
    rw [setInode_self]
    exact hi rfl
  · rw [setInode_of_ne (Ne.symm hii)]
    exact h

/-- A call that succeeds does what it says, and one that fails changes nothing and has met a
conflict. -/
theorem Op.exec_spec {op : Op} (hop : op.Proper) (h : ∀ i, ∃ s, Agrees (t i) s) :
    (∃ t', op.exec t = (.ok (), t') ∧
        ∀ inode s, Agrees (t inode) s → Agrees (t' inode) (op.update inode s)) ∨
      ∃ l, op.exec t = (.error l, t) ∧ op.Meets t l := by
  cases op with
  | trySetLock i kind start stop owner =>
    rw [Op.exec, Locks.trySetLock]
    split_ifs with hkind
    · refine .inl ⟨_, rfl, fun inode s hs => ?_⟩
      rw [update_of_sets (fun o b => by simp only [Op.sets, hkind, if_true]; rfl), Locks.unlockRange]
      exact hs.setInode fun hi => hi ▸ hs.split hop
    dsimp only
    split
    · rename_i l hfind
      obtain ⟨s, hs⟩ := h i
      have hl := hs.nonempty l (mem_of_find?_eq_some hfind)
      exact .inr ⟨l, rfl, meets_of_find hop hfind hl⟩
    · rename_i hfind
      refine .inl ⟨_, rfl, fun inode s hs => ?_⟩
      rw [update_of_sets (fun o b => by simp only [Op.sets, hkind, if_false]; rfl)]
      exact hs.setInode fun hi => hi ▸ hs.set hop (hi ▸ hfind)
  | unlockRange i start stop owner =>
    refine .inl ⟨_, rfl, fun inode s hs => ?_⟩
    rw [update_of_sets (fun o b => rfl), Locks.unlockRange]
    exact hs.setInode fun hi => hi ▸ hs.split hop
  | dropOwnerInode owner i =>
    refine .inl ⟨_, rfl, fun inode s hs => ?_⟩
    have hupdate : (Op.dropOwnerInode owner i).update inode s =
        if i = inode then fun o b => if o = owner then none else s o b else s := by
      funext o b
      by_cases hi : i = inode <;> by_cases ho : owner = o <;>
        simp [Op.update, Op.sets, hi, ho, eq_comm]
    rw [hupdate, Locks.dropOwnerInode]
    exact hs.setInode fun hi => hi ▸ hs.drop owner
  | dropOwner owner =>
    refine .inl ⟨_, rfl, fun inode s hs => (hs.drop owner).congr fun o b => ?_⟩
    by_cases ho : owner = o <;> simp [Op.update, Op.sets, ho, eq_comm]

/-- What the calls have set, one after the other. -/
theorem foldl_update (ops : List Op) (s : Pid → ℕ → Option ℕ) (owner : Pid) (byte : ℕ) :
    ops.foldl (Op.update inode) s owner byte =
      (ops.filterMap (Op.sets inode owner byte)).getLast?.getD (s owner byte) := by
  induction ops generalizing s with
  | nil => rfl
  | cons op ops ih =>
    rw [foldl_cons, ih, Op.update]
    cases hop : op.sets inode owner byte with
    | none => rw [filterMap_cons_none hop, Option.getD_none]
    | some x => rw [filterMap_cons_some hop, getLast?_cons, Option.getD_some, Option.getD_some]

/-- A run of proper calls sets what those of its calls set that succeed. -/
theorem agrees_run {ops : List Op} (hops : ∀ op ∈ ops, op.Proper)
    {s : ℕ → Pid → ℕ → Option ℕ} (h : ∀ inode, Agrees (t inode) (s inode)) (inode : ℕ) :
    Agrees (run t ops inode) ((succeeded t ops).foldl (Op.update inode) (s inode)) := by
  induction ops generalizing t s with
  | nil => exact h inode
  | cons op ops ih =>
    have hrest := fun op' hop' => hops op' (.tail _ hop')
    rw [run, foldl_cons]
    rcases Op.exec_spec (hops op (.head _)) fun i => ⟨s i, h i⟩ with
      ⟨t', hexec, hagrees⟩ | ⟨l, hexec, -⟩
    · rw [succeeded, hexec, foldl_cons]
      exact ih hrest fun i => hagrees i (s i) (h i)
    · rw [succeeded, hexec]
      exact ih hrest h

/-- **Record locks are right byte by byte.**  After every sequence of calls with nonempty ranges each
owner has at most one lock on each byte, of the kind that its last successful call on the byte has
set; no two owners have a byte that one of them has for writing; and a further call either succeeds
or changes nothing and returns a lock that conflicts with it. -/
theorem record_locks_correct {ops : List Op} (hops : ∀ op ∈ ops, op.Proper) :
    (∀ inode owner byte, kindsAt (run empty ops inode) owner byte =
      (lastSet inode owner byte (succeeded empty ops)).toList) ∧
    (∀ inode, ∀ l ∈ run empty ops inode, ∀ l' ∈ run empty ops inode, ∀ byte,
      covers l.owner byte l = true → covers l'.owner byte l' = true → l.owner ≠ l'.owner →
        l.kind ≠ fWrlck ∧ l'.kind ≠ fWrlck) ∧
    ∀ op : Op, op.Proper → ∀ l, (op.exec (run empty ops)).1 = .error l →
      (op.exec (run empty ops)).2 = run empty ops ∧ op.Meets (run empty ops) l := by
  have hempty : ∀ inode, Agrees (empty inode) fun _ _ => none := fun inode =>
    ⟨by simp [empty], fun _ _ => rfl, by simp⟩
  have hrun := agrees_run hops hempty
  have hkinds : ∀ inode owner byte, kindsAt (run empty ops inode) owner byte =
      (lastSet inode owner byte (succeeded empty ops)).toList := by
    intro inode owner byte
    rw [(hrun inode).kinds, foldl_update, lastSet]
    cases ((succeeded empty ops).filterMap (Op.sets inode owner byte)).getLast? <;> rfl
  refine ⟨hkinds, fun inode l hl l' hl' byte hcovers hcovers' hne => ?_, fun op hop l herror => ?_⟩
  · have hk := hrun inode
    have hset : ∀ x ∈ run empty ops inode, covers x.owner byte x = true →
        (succeeded empty ops).foldl (Op.update inode) (fun _ _ => none) x.owner byte =
          some x.kind := by
      intro x hx hxcovers
      have hmem : x.kind ∈ kindsAt (run empty ops inode) x.owner byte :=
        mem_kindsAt.2 ⟨x, hx, hxcovers, rfl⟩
      rw [hk.kinds] at hmem
      exact Option.mem_toList.1 hmem
    grind [hk.exclusive]
  · rcases Op.exec_spec hop fun i => ⟨_, hrun i⟩ with ⟨t', hexec, -⟩ | ⟨l', hexec, hmeets⟩
    · rw [hexec] at herror
      cases herror
    · grind

/-- Two readers share a range, one of them wants to write and fails; then the other unlocks the middle
of it, and the first gets it for writing. -/
def readersAndWriter : List Op :=
  [.trySetLock 7 0 0 100 1, .trySetLock 7 0 50 150 2, .trySetLock 7 1 60 70 1,
    .unlockRange 7 60 70 2, .trySetLock 7 1 60 70 1]

theorem record_locks_correct_readersAndWriter :
    (∀ owner byte, kindsAt (run empty readersAndWriter 7) owner byte =
      (lastSet 7 owner byte (succeeded empty readersAndWriter)).toList) ∧
    run empty readersAndWriter 7 =
      [⟨0, 50, 60, 2⟩, ⟨0, 70, 150, 2⟩, ⟨0, 0, 60, 1⟩, ⟨0, 70, 100, 1⟩, ⟨1, 60, 70, 1⟩] ∧
    succeeded empty readersAndWriter =
      [.trySetLock 7 0 0 100 1, .trySetLock 7 0 50 150 2, .unlockRange 7 60 70 2,
        .trySetLock 7 1 60 70 1] :=
  ⟨fun owner byte => (record_locks_correct (by decide)).1 7 owner byte, by decide, by decide⟩

end CypheraKernel.Locks
