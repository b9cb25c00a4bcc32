import CypheraKernel.Lib.Runs
import CypheraKernel.Sched.State

/-!
# Whole-file locks

`kernel/src/vfs/locks/bsd.rs`: `flock` locks, held by open file descriptions (OFDs).

`flock_ownership`: what holds after every sequence of calls.
-/

namespace CypheraKernel.Flock

open Function

open Sched (Pid)

def lockSh : UInt32 := 1
def lockEx : UInt32 := 2
def lockUn : UInt32 := 8
def lockNb : UInt32 := 4

/-- `FlockState`. -/
inductive LockState
  | unlocked
  | shared (holders : Finset ℕ)
  | exclusive (holder : ℕ)
  deriving DecidableEq

/-- `InodeEntry`. -/
structure InodeEntry where
  state : LockState
  waiters : List Pid
  deriving DecidableEq

/-- The tables `TABLE` and `OWNED_BY_OFD`.  An inode without an entry is one that is unlocked and
has no waiters. -/
structure Tables where
  table : ℕ → InodeEntry
  owned : ℕ → Option ℕ

def empty : Tables := ⟨fun _ => ⟨.unlocked, []⟩, fun _ => none⟩

namespace Tables

def setState (t : Tables) (inode : ℕ) (state : LockState) : Tables :=
  { t with table := update t.table inode { t.table inode with state := state } }

def setOwned (t : Tables) (ofd : ℕ) (inode : Option ℕ) : Tables :=
  { t with owned := update t.owned ofd inode }

/-- The waiting processes of an inode. -/
def waiters (t : Tables) (inode : ℕ) : List Pid := (t.table inode).waiters

def setWaiters (t : Tables) (inode : ℕ) (waiters : List Pid) : Tables :=
  { t with table := update t.table inode { t.table inode with waiters := waiters } }

end Tables

/-- How a lock call ends. -/
inductive Outcome
  | acquired
  | conflict
  | released
  deriving DecidableEq, Repr

/-- What a call returns: its outcome, the processes taken out of the queue, and the tables. -/
abbrev Result := Outcome × List Pid × Tables

variable (t : Tables) (inode : ℕ)

/-- A call that takes all waiting processes out of the queue. -/
def drained (outcome : Outcome) : Result :=
  (outcome, t.waiters inode, t.setWaiters inode [])

def acquireShared (ofd : ℕ) : Result :=
  match (t.table inode).state with
  | .unlocked => (.acquired, [], (t.setState inode (.shared {ofd})).setOwned ofd (some inode))
  | .shared set => (.acquired, [], (t.setState inode (.shared (insert ofd set))).setOwned ofd
      (some inode))
  | .exclusive holder =>
    if holder = ofd then drained (t.setState inode (.shared {ofd})) inode .acquired
    else (.conflict, [], t)

/-- `Shared(set)`, or `Unlocked` if nobody is left. -/
def sharedOrUnlocked (set : Finset ℕ) : LockState := if set = ∅ then .unlocked else .shared set

/-- A blocking request for a conversion gives the shared lock up first. -/
def acquireExclusive (ofd : ℕ) (blocking : Bool) : Result :=
  match (t.table inode).state with
  | .unlocked => (.acquired, [], (t.setState inode (.exclusive ofd)).setOwned ofd (some inode))
  | .shared set =>
    if set.card = 1 ∧ ofd ∈ set then (.acquired, [], t.setState inode (.exclusive ofd))
    else if blocking ∧ ofd ∈ set then
      drained ((t.setState inode (sharedOrUnlocked (set.erase ofd))).setOwned ofd none) inode
        .conflict
    else (.conflict, [], t)
  | .exclusive holder => if holder = ofd then (.acquired, [], t) else (.conflict, [], t)

/-- `release_in_entry`: the processes to wake and the tables. -/
def releaseInEntry (ofd : ℕ) : List Pid × Tables :=
  match (t.table inode).state with
  | .unlocked => ([], t)
  | .shared set =>
    let t' := t.setState inode (sharedOrUnlocked (set.erase ofd))
    if ofd ∈ set then (t.waiters inode, t'.setWaiters inode []) else ([], t')
  | .exclusive holder =>
    if holder = ofd then
      (t.waiters inode, (t.setState inode .unlocked).setWaiters inode [])
    else ([], t)

def tryOp (ofd : ℕ) (op : UInt32) : Result :=
  let kind := op &&& ~~~lockNb
  let blocking := op &&& lockNb = 0
  if kind = lockUn then
    let r := releaseInEntry t inode ofd
    (.released, r.1, r.2.setOwned ofd none)
  else if kind = lockSh then acquireShared t inode ofd
  else if kind = lockEx then acquireExclusive t inode ofd blocking
  else (.conflict, [], t)

def dropOfd (ofd : ℕ) : List Pid × Tables :=
  match t.owned ofd with
  | none => ([], t)
  | some inode => releaseInEntry (t.setOwned ofd none) inode ofd

/-! ### Holders -/

inductive Kind
  | shared
  | exclusive
  deriving DecidableEq, Repr

/-- What an OFD holds in a state. -/
def LockState.kind (ofd : ℕ) : LockState → Option Kind
  | unlocked => none
  | shared set => if ofd ∈ set then some .shared else none
  | exclusive holder => if holder = ofd then some .exclusive else none

def kind (t : Tables) (inode ofd : ℕ) : Option Kind := (t.table inode).state.kind ofd

attribute [local simp] LockState.kind

section Fields

variable (t : Tables) (inode ofd : ℕ)

theorem owned_setOwned (i : Option ℕ) (o : ℕ) :
    (t.setOwned ofd i).owned o = if o = ofd then i else t.owned o :=
  update_apply t.owned ofd i o

theorem kind_setState (s : LockState) (i o : ℕ) :
    kind (t.setState inode s) i o = if i = inode then s.kind o else kind t i o := by
  unfold kind Tables.setState
  by_cases h : i = inode
  · subst h
    simp
  · simp [h]

@[simp] theorem kind_setWaiters (w : List Pid) : kind (t.setWaiters inode w) = kind t := by
  funext i o
  unfold kind Tables.setWaiters
  by_cases h : i = inode
  · subst h
    simp
  · simp [h]

end Fields

theorem kind_sharedOrUnlocked (set : Finset ℕ) (o : ℕ) :
    (sharedOrUnlocked set).kind o = if o ∈ set then some .shared else none := by
  unfold sharedOrUnlocked
  by_cases h : set = ∅
  · subst h
    rfl
  · rw [if_neg h]
    rfl

theorem kind_exclusive (holder o : ℕ) :
    (LockState.exclusive holder).kind o = if o = holder then some .exclusive else none := by
  simp only [LockState.kind, eq_comm]

/-- A holder that has the lock for itself has no other holder beside it. -/
theorem eq_of_exclusive {t : Tables} {inode a b : ℕ} (ha : kind t inode a = some .exclusive)
    (hb : (kind t inode b).isSome) : b = a := by
  unfold kind at ha hb
  cases hs : (t.table inode).state with
  | unlocked =>
    rw [hs] at ha
    cases ha
  | shared set =>
    rw [hs, LockState.kind] at ha
    split_ifs at ha
    cases ha
  | exclusive holder =>
    rw [hs, LockState.kind] at ha hb
    by_cases hholder : holder = b
    · grind
    · rw [if_neg hholder] at hb
      cases hb

/-! ### What the calls change -/

/-- The tables agree: an OFD is recorded for an inode exactly when it holds a lock there, and it
holds locks on its own inode only. -/
structure Agrees (inodeOf : ℕ → ℕ) (t : Tables) : Prop where
  owned : ∀ ofd inode, t.owned ofd = some inode ↔ (kind t inode ofd).isSome
  own : ∀ ofd inode, (kind t inode ofd).isSome → inode = inodeOf ofd

/-- The OFD now holds `k` on the inode, and nothing else has changed. -/
structure Effect (t t' : Tables) (inode ofd : ℕ) (k : Option Kind) : Prop where
  kind : ∀ i o, kind t' i o = if i = inode ∧ o = ofd then k else kind t i o
  owned : ∀ o, t'.owned o = if o = ofd then (if k.isSome then some inode else none) else t.owned o

variable {inodeOf : ℕ → ℕ} {t t' : Tables} {inode ofd : ℕ} {k : Option Kind}

section

variable (h : Agrees inodeOf t) (hown : inode = inodeOf ofd)
include h hown

theorem Agrees.effect (he : Effect t t' inode ofd k) : Agrees inodeOf t' := by
  -- Before the call the OFD held nothing on other inodes.
  have hother (i : ℕ) (hi : i ≠ inode) : kind t i ofd = none := by
    by_contra hne
    exact hi ((h.own ofd i (Option.isSome_iff_ne_none.2 hne)).trans hown.symm)
  refine ⟨fun o i => ?_, fun o i hi => ?_⟩
  · rw [he.owned, he.kind]
    by_cases ho : o = ofd
    · subst ho
      by_cases hi : i = inode
      · subst hi
        cases k <;> simp
      · have hi' : ¬ (i = inode ∧ o = o) := fun hio => hi hio.1
        rw [if_pos rfl, if_neg hi', hother i hi]
        cases k <;> simp [Ne.symm hi]
    · simp_all [h.owned]
  · grind [he.kind, h.own]

/-- What is recorded for the OFD, when its inode is this one. -/
theorem Agrees.owned_eq : t.owned ofd = if (kind t inode ofd).isSome then some inode else none := by
  split_ifs with hk
  · exact (h.owned ofd inode).2 hk
  cases ho : t.owned ofd with
  | none => rfl
  | some i =>
    have hi := (h.owned ofd i).1 ho
    obtain rfl := (h.own ofd i hi).trans hown.symm
    exact absurd hi hk

/-- A call that changes nothing. -/
theorem Agrees.unchanged : Effect t t inode ofd (kind t inode ofd) := by
  refine ⟨fun i o => ?_, fun o => ?_⟩
  · grind
  · simp_all [h.owned_eq]

omit h hown in
/-- An inode in another state, in which only the OFD holds something else. -/
theorem kind_setState_of {s : LockState}
    (hs : ∀ o, s.kind o = if o = ofd then k else kind t inode o) (i o : ℕ) :
    kind (t.setState inode s) i o = if i = inode ∧ o = ofd then k else kind t i o := by
  rw [kind_setState]
  by_cases hi : i = inode
  · subst hi
    rw [if_pos rfl, hs]
    simp
  · rw [if_neg hi, if_neg fun hio => hi hio.1]

omit h hown in
theorem effect_of_state {s : LockState} (hs : ∀ o, s.kind o = if o = ofd then k else kind t inode o)
    (hkind : kind t' = kind (t.setState inode s))
    (howned : ∀ o, t'.owned o =
      if o = ofd then (if k.isSome then some inode else none) else t.owned o) :
    Effect t t' inode ofd k :=
  ⟨fun i o => hkind ▸ kind_setState_of hs i o, howned⟩

omit h hown in
theorem kind_erase {set : Finset ℕ} (hs : (t.table inode).state = .shared set) (ofd o : ℕ) :
    (sharedOrUnlocked (set.erase ofd)).kind o = if o = ofd then none else kind t inode o := by
  rw [kind, hs, kind_sharedOrUnlocked]
  by_cases ho : o = ofd <;> simp [ho]

/-- The OFD keeps what is recorded for it, because it held a lock and still does. -/
theorem Agrees.owned_keep (hold : (kind t inode ofd).isSome) (hk : k.isSome) (o : ℕ) :
    t.owned o = if o = ofd then (if k.isSome then some inode else none) else t.owned o := by
  simp_all [h.owned_eq]

theorem acquireShared_effect :
    ((acquireShared t inode ofd).1 = .acquired ∧
      Effect t (acquireShared t inode ofd).2.2 inode ofd (some .shared)) ∨
    ((acquireShared t inode ofd).1 = .conflict ∧ (acquireShared t inode ofd).2.2 = t) := by
  unfold acquireShared
  cases hs : (t.table inode).state with
  | unlocked =>
    refine .inl ⟨rfl, effect_of_state (s := .shared {ofd}) (fun o => ?_) rfl fun o => ?_⟩
    · rw [kind, hs]
      simp
    · rw [owned_setOwned]
      rfl
  | shared set =>
    refine .inl ⟨rfl, effect_of_state (s := .shared (insert ofd set)) (fun o => ?_) rfl
      fun o => ?_⟩
    · rw [kind, hs]
      by_cases ho : o = ofd <;> simp [ho]
    · rw [owned_setOwned]
      rfl
  | exclusive holder =>
    dsimp only
    split_ifs with hholder
    · have hkind : kind t inode ofd = some .exclusive := by
        rw [kind, hs]
        simp [hholder]
      refine .inl ⟨rfl, effect_of_state (s := .shared {ofd}) (fun o => ?_) (kind_setWaiters _ _ _)
        (h.owned_keep hown (by rw [hkind]; rfl) rfl)⟩
      rw [kind, hs, kind_exclusive, hholder]
      by_cases ho : o = ofd <;> simp [ho]
    · exact .inr ⟨rfl, rfl⟩

theorem acquireExclusive_effect (blocking : Bool) :
    ((acquireExclusive t inode ofd blocking).1 = .acquired ∧
      Effect t (acquireExclusive t inode ofd blocking).2.2 inode ofd (some .exclusive)) ∨
    ((acquireExclusive t inode ofd blocking).1 = .conflict ∧ blocking = true ∧
      Effect t (acquireExclusive t inode ofd blocking).2.2 inode ofd none) ∨
    ((acquireExclusive t inode ofd blocking).1 = .conflict ∧
      (acquireExclusive t inode ofd blocking).2.2 = t) := by
  unfold acquireExclusive
  cases hs : (t.table inode).state with
  | unlocked =>
    refine .inl ⟨rfl, effect_of_state (s := .exclusive ofd) (fun o => ?_) rfl fun o => ?_⟩
    · rw [kind, hs, kind_exclusive]
      rfl
    · rw [owned_setOwned]
      rfl
  | shared set =>
    dsimp only
    by_cases hone : set.card = 1 ∧ ofd ∈ set
    · -- The only holder of the shared lock turns it into an exclusive one.
      rw [if_pos hone]
      obtain ⟨x, hx⟩ := Finset.card_eq_one.1 hone.1
      have hofd : ofd = x := by simpa [hx] using hone.2
      refine .inl ⟨rfl, effect_of_state (s := .exclusive ofd) (fun o => ?_) rfl
        (h.owned_keep hown ?_ rfl)⟩
      · rw [kind, hs, hx, ← hofd, kind_exclusive]
        by_cases ho : o = ofd <;> simp [ho]
      · rw [kind, hs]
        simp [hone.2]
    rw [if_neg hone]
    by_cases hgive : blocking = true ∧ ofd ∈ set
    · rw [if_pos hgive]
      exact .inr (.inl ⟨rfl, hgive.1, effect_of_state (kind_erase hs ofd) (kind_setWaiters _ _ _)
        (owned_setOwned _ _ _)⟩)
    · simp_all [if_neg]
  | exclusive holder =>
    dsimp only
    split_ifs with hholder
    · have hkind : kind t inode ofd = some .exclusive := by
        rw [kind, hs]
        simp [hholder]
      have he := h.unchanged hown
      rw [hkind] at he
      exact .inl ⟨rfl, he⟩
    · exact .inr (.inr ⟨rfl, rfl⟩)

omit h hown in
/-- After a release the OFD holds nothing on the inode; the other table is not touched. -/
theorem kind_releaseInEntry (t : Tables) (inode ofd i o : ℕ) :
    kind (releaseInEntry t inode ofd).2 i o = if i = inode ∧ o = ofd then none else kind t i o := by
  have hsame (hnone : kind t inode ofd = none) :
      kind t i o = if i = inode ∧ o = ofd then none else kind t i o := by
    split_ifs with hio
    · rw [hio.1, hio.2, hnone]
    · rfl
  unfold releaseInEntry
  cases hs : (t.table inode).state with
  | unlocked => exact hsame (by rw [kind, hs]; rfl)
  | shared set =>
    have hset := kind_setState_of (kind_erase hs ofd) i o
    dsimp only
    by_cases hmem : ofd ∈ set
    · rwa [if_pos hmem, kind_setWaiters]
    · rwa [if_neg hmem]
  | exclusive holder =>
    dsimp only
    by_cases hholder : holder = ofd
    · rw [if_pos hholder, kind_setWaiters]
      refine kind_setState_of (fun o => ?_) i o
      rw [kind, hs, kind_exclusive, hholder]
      by_cases ho : o = ofd <;> simp [ho]
    · simp_all [kind]

omit h hown in
theorem owned_releaseInEntry (t : Tables) (inode ofd : ℕ) :
    (releaseInEntry t inode ofd).2.owned = t.owned := by
  unfold releaseInEntry
  cases (t.table inode).state with
  | unlocked => rfl
  | shared | exclusive =>
    dsimp only
    split_ifs <;> rfl

/-- **One call.**  It changes at most what its OFD holds on its inode; what it grants, the OFD then
holds; and a non-blocking request that fails changes nothing. -/
theorem tryOp_effect (op : UInt32) :
    ∃ k, Effect t (tryOp t inode ofd op).2.2 inode ofd k ∧
      ((tryOp t inode ofd op).1 = .acquired →
        (op &&& ~~~lockNb = lockSh ∧ k = some .shared) ∨
          (op &&& ~~~lockNb = lockEx ∧ k = some .exclusive)) ∧
      (op &&& lockNb ≠ 0 → (tryOp t inode ofd op).1 = .conflict → k = kind t inode ofd) := by
  unfold tryOp
  by_cases hun : op &&& ~~~lockNb = lockUn
  · rw [if_pos hun]
    refine ⟨none, ⟨fun i o => ?_, fun o => ?_⟩, by simp, by simp⟩
    · exact kind_releaseInEntry t inode ofd i o
    · rw [owned_setOwned, owned_releaseInEntry]
      rfl
  rw [if_neg hun]
  by_cases hsh : op &&& ~~~lockNb = lockSh
  · rw [if_pos hsh]
    rcases acquireShared_effect h hown with ⟨hout, he⟩ | ⟨hout, heq⟩
    · exact ⟨_, he, fun _ => .inl ⟨hsh, rfl⟩, by simp [hout]⟩
    · rw [heq]
      exact ⟨_, h.unchanged hown, by simp [hout], fun _ _ => rfl⟩
  rw [if_neg hsh]
  by_cases hex : op &&& ~~~lockNb = lockEx
  · rw [if_pos hex]
    rcases acquireExclusive_effect h hown (decide (op &&& lockNb = 0)) with
      ⟨hout, he⟩ | ⟨hout, hblock, he⟩ | ⟨hout, heq⟩
    · exact ⟨_, he, fun _ => .inr ⟨hex, rfl⟩, by simp [hout]⟩
    · exact ⟨_, he, by simp [hout], fun hnb => absurd (of_decide_eq_true hblock) hnb⟩
    · rw [heq]
      exact ⟨_, h.unchanged hown, by simp [hout], fun _ _ => rfl⟩
  · rw [if_neg hex]
    exact ⟨_, h.unchanged hown, by simp, fun _ _ => rfl⟩

end

theorem Agrees.dropOfd (h : Agrees inodeOf t) (ofd : ℕ) : Agrees inodeOf (dropOfd t ofd).2 := by
  unfold Flock.dropOfd
  cases ho : t.owned ofd with
  | none => exact h
  | some inode =>
    have hown := h.own ofd inode ((h.owned ofd inode).1 ho)
    refine h.effect (k := none) hown ⟨fun i o => ?_, fun o => ?_⟩
    · exact kind_releaseInEntry _ inode ofd i o
    · rw [owned_releaseInEntry, owned_setOwned]
      rfl

/-! ### Sequences of calls -/

/-- The calls: a request by an OFD on an inode, and the end of an OFD. -/
inductive Call
  | tryOp (inode ofd : ℕ) (op : UInt32)
  | dropOfd (ofd : ℕ)
  deriving DecidableEq

def Call.exec (t : Tables) : Call → Tables
  | tryOp inode ofd op => (Flock.tryOp t inode ofd op).2.2
  | dropOfd ofd => (Flock.dropOfd t ofd).2

def run (t : Tables) (calls : List Call) : Tables := calls.foldl Call.exec t

/-- The OFD is used with its own inode. -/
def Call.Own (inodeOf : ℕ → ℕ) : Call → Prop
  | tryOp inode ofd _ => inode = inodeOf ofd
  | dropOfd _ => True

instance (inodeOf : ℕ → ℕ) (c : Call) : Decidable (c.Own inodeOf) := by
  unfold Call.Own
  split <;> infer_instance

theorem agrees_empty (inodeOf : ℕ → ℕ) : Agrees inodeOf empty :=
  ⟨fun _ _ => by simp [empty, kind],
    fun _ _ => by simp [empty, kind]⟩

theorem Agrees.run (h : Agrees inodeOf t) {calls : List Call}
    (hown : ∀ c ∈ calls, c.Own inodeOf) : Agrees inodeOf (Flock.run t calls) := by
  induction calls generalizing t with
  | nil => exact h
  | cons c calls ih =>
    obtain ⟨hc, hcalls⟩ := List.forall_mem_cons.1 hown
    refine ih ?_ hcalls
    cases c with
    | tryOp inode ofd op =>
      obtain ⟨k, he, -⟩ := tryOp_effect h hc op
      exact h.effect hc he
    | dropOfd ofd => exact h.dropOfd ofd

/-- **Ownership.**  After every sequence of calls in which each OFD is used with its own inode: an
exclusive holder is the only holder; an OFD is recorded for the inodes on which it holds a lock and
for no others; a request that is granted makes its OFD a holder of the requested kind; and a
non-blocking request that fails leaves all holders, and the records, as they were. -/
theorem flock_ownership (inodeOf : ℕ → ℕ) {calls : List Call} (hown : ∀ c ∈ calls, c.Own inodeOf) :
    (∀ inode a b, kind (run empty calls) inode a = some .exclusive →
      (kind (run empty calls) inode b).isSome → b = a) ∧
    (∀ ofd inode, (run empty calls).owned ofd = some inode ↔
      (kind (run empty calls) inode ofd).isSome) ∧
    ∀ ofd op, ∀ r, tryOp (run empty calls) (inodeOf ofd) ofd op = r →
      (r.1 = .acquired →
        (op &&& ~~~lockNb = lockSh ∧ kind r.2.2 (inodeOf ofd) ofd = some .shared) ∨
          (op &&& ~~~lockNb = lockEx ∧ kind r.2.2 (inodeOf ofd) ofd = some .exclusive)) ∧
      (op &&& lockNb ≠ 0 → r.1 = .conflict →
        kind r.2.2 = kind (run empty calls) ∧ r.2.2.owned = (run empty calls).owned) := by
  have h := (agrees_empty inodeOf).run hown
  refine ⟨fun _ _ _ => eq_of_exclusive, h.owned, fun ofd op r hr => ?_⟩
  obtain ⟨k, he, hgranted, hfailed⟩ := tryOp_effect h (rfl : inodeOf ofd = inodeOf ofd) op
  grind [he.kind, he.owned, h.owned_eq]

/-- Two descriptions of one inode share the lock, the first gives its share up for a conversion that
has to wait, and the second ends. -/
def conversion : List Call :=
  [.tryOp 1 10 lockSh, .tryOp 1 11 lockSh, .tryOp 1 10 lockEx, .dropOfd 11]

theorem flock_ownership_conversion :
    (∀ c ∈ conversion, c.Own fun _ => 1) ∧ ((run empty conversion).owned 11 = some 1 ↔
      (kind (run empty conversion) 1 11).isSome) :=
  have hown : ∀ c ∈ conversion, c.Own fun _ => 1 := by decide
  ⟨hown, (flock_ownership (fun _ => 1) hown).2.1 11 1⟩

end CypheraKernel.Flock
