import CypheraKernel.Signal.Send

/-!
# Whom a signal reaches

For each of the functions of `CypheraKernel.Signal.Send` the threads in which it enqueues a signal.

`killReach`, `threadSent`, `groupSent`, `pgrpSent`: for `SIGKILL`, for a thread, for a process and
for a process group, with the theorems that the sets are exact.
-/

namespace CypheraKernel.Signal.Table

open Sched List Function Set SortedMap SignalContext Sends

/-! ### One step after the other -/

variable {m : Pid}

section

variable {f : Table → Pid → Table} {R S T : Table → Pid → Set Pid}

variable {l : List Pid}

theorem union_of_cons {t : Table} (h : ∀ m' ∈ l, T (f t m) m' = T t m') :
    T t m ∪ { q | ∃ m' ∈ l, q ∈ T (f t m) m' } = { q | ∃ m' ∈ m :: l, q ∈ T t m' } := by
  ext q
  constructor
  · grind
  · grind

/-- Steps of which none changes what the later ones do. -/
theorem sends_foldl (hstep : ∀ t m, Sends (R t m) (S t m) t (f t m))
    (hl : l.Pairwise fun m m' => ∀ t, R (f t m) m' = R t m' ∧ S (f t m) m' = S t m') (t : Table) :
    Sends { q | ∃ m ∈ l, q ∈ R t m } { q | ∃ m ∈ l, q ∈ S t m } t (l.foldl f t) := by
  induction l generalizing t with
  | nil =>
    have hempty (T : Table → Pid → Set Pid) : ∅ = { q | ∃ m ∈ ([] : List Pid), q ∈ T t m } := by
      ext q
      simp
    rw [← hempty, ← hempty]
    exact refl t
  | cons m l ih =>
    obtain ⟨hm, hl⟩ := pairwise_cons.1 hl
    rw [foldl_cons, ← union_of_cons fun m' hm' => (hm m' hm' t).1,
      ← union_of_cons fun m' hm' => (hm m' hm' t).2]
    exact (hstep t m).trans (ih hl (f t m))

end

section

variable {α : Type}

/-- Whom the steps `f` reach one after the other, `R` being what one step reaches. -/
def inTurn (f : Table → α → Table) (R : Table → α → Set Pid) : Table → List α → Set Pid
  | _, [] => ∅
  | t, a :: l => R t a ∪ inTurn f R (f t a) l

theorem recipients_foldl {f : Table → α → Table} {R : Table → α → Set Pid} {l : List α}
    (hstep : ∀ t, ∀ a ∈ l, (f t a).recipients = t.recipients ∪ R t a) (t : Table) :
    (l.foldl f t).recipients = t.recipients ∪ inTurn f R t l := by
  induction l generalizing t with
  | nil => exact (union_empty _).symm
  | cons a l ih =>
    rw [foldl_cons, ih fun t b hb => hstep t b (mem_cons_of_mem a hb), hstep t a mem_cons_self,
      union_assoc]
    rfl

end

/-- The threads that the signal with the number reaches, if there is one. -/
def bySigno (signal : UInt32) (reach : Signo → Set Pid) : Set Pid :=
  match signo? signal with
  | none => ∅
  | some s => reach s

/-! ### Enqueueing -/

section

variable {t : Table} {pid q : Pid} {p : Proc} {s : Signo} {info : PendingSigInfo}

/-- The thread, if it is there. -/
def here (t : Table) (pid : Pid) : Set Pid := { q | q = pid ∧ (t.proc? pid).isSome = true }

theorem sends_enqueued (c : SignalContext) :
    Sends {pid} ∅ t ((t.setSignals pid c).record (.enqueued pid s)) :=
  ((t.sends_setSignals pid c).trans (sends_record_enqueued _ pid s)).cast (empty_union _)
    (empty_union _)

theorem here_of_isSome (h : (t.proc? pid).isSome = true) : {pid} = t.here pid := by
  ext q
  exact ⟨fun hq => ⟨hq, h⟩, And.left⟩

theorem here_of_not_isSome (h : ¬ (t.proc? pid).isSome = true) : ∅ = t.here pid := by
  ext q
  exact ⟨False.elim, fun hq => h hq.2⟩

section

variable (t pid s info)

theorem sends_enqueue : Sends (t.here pid) ∅ t (t.enqueue pid s info) := by
  unfold enqueue
  split_ifs with h
  · exact (sends_enqueued _).cast (here_of_isSome h) rfl
  · exact (refl t).cast (here_of_not_isSome h) rfl

theorem sends_enqueueWithAnnihilation :
    Sends (t.here pid) ∅ t (t.enqueueWithAnnihilation pid s info) := by
  unfold enqueueWithAnnihilation
  split_ifs with h
  · exact (sends_enqueued _).cast (here_of_isSome h) rfl
  · exact (refl t).cast (here_of_not_isSome h) rfl

end

variable {t' : Table} {R S : Set Pid} {signal : UInt32} {tgid : Pid} {l : List Pid}
  {members : List Pid}

theorem Changes.here (h : Changes R S t t') (m : Pid) : t'.here m = t.here m := by
  unfold Table.here
  rw [h.proc?]

/-! ### Telling the parent -/

/-- Those who are told about a process. -/
def told (t : Table) (child : Pid) : Set Pid :=
  { q | ∃ p, t.proc? child = some p ∧ q ∈ notified p ∧ (t.proc? q).isSome = true }

theorem told_congr (h : t'.processes = t.processes) : t'.told m = t.told m := by
  unfold told proc?
  rw [h]

theorem Changes.told (h : Changes R S t t') (m : Pid) : t'.told m = t.told m :=
  told_congr h.processes

theorem told_of_proc? (h : t.proc? pid = some p) :
    t.told pid = { q | q ∈ notified p ∧ (t.proc? q).isSome = true } := by
  ext q
  constructor
  · rintro ⟨p', hp', hq⟩
    cases h.symm.trans hp'
    exact hq
  · exact fun hq => ⟨p, h, hq⟩

theorem sends_notifyParentStatusChange (t : Table) (child : Pid) (code status : UInt32) :
    Sends (t.told child) ∅ t (t.notifyParentStatusChange child code status) := by
  unfold notifyParentStatusChange
  split
  · next h =>
    refine (refl t).cast ?_ rfl
    ext q
    refine ⟨False.elim, ?_⟩
    rintro ⟨p, hp, -⟩
    exact absurd (h.symm.trans hp) nofun
  next p h =>
  have hfold := sends_foldl (R := here) (S := fun _ _ => ∅)
    (fun t m => t.sends_enqueue m sigchld (.forChild (localPid p child) status code))
    (pairwise_of_forall fun m m' t => ⟨(t.sends_enqueue m _ _).here m', rfl⟩) t
    (l := notified p)
  refine hfold.cast ?_ ?_
  · rw [told_of_proc? h]
    ext q
    constructor
    · rintro ⟨m, hm, rfl, hq⟩
      exact ⟨hm, hq⟩
    · rintro ⟨hm, hq⟩
      exact ⟨q, hm, rfl, hq⟩
  · ext q
    simp

/-! ### To a thread -/

section

variable (t : Table) (target : Pid)

theorem sends_requestContinue : Sends ∅ {target} t (t.requestContinue target).2 := by
  unfold requestContinue
  split_ifs
  · exact ((t.sends_setSignals target _).trans (sends_setState _ target .runnable)).cast
      (union_empty _) (empty_union _)
  · exact (refl t).mono (empty_subset _)

theorem sends_afterContinue (p : Proc) :
    Sends { q | t.state target = .stopped ∧ q ∈ t.told p.tgid } {target} t
      (t.afterContinue target p) := by
  unfold afterContinue
  split_ifs with h
  · have hcontinue := t.sends_requestContinue target
    have hlatch := hcontinue.trans (sends_updateSignals _ p.tgid
      fun c => c.clearGroupStop.setContinuedLatch)
    refine (hlatch.trans (sends_notifyParentStatusChange _ p.tgid cldContinued 18)).cast ?_ ?_
    · rw [hlatch.told]
      ext q
      simp [h]
    · simp
  · refine ((refl t).mono (empty_subset _)).cast ?_ rfl
    ext q
    simp [h]

theorem sends_wakeParked (s : Signo) : Sends ∅ {target} t (t.wakeParked target s) := by
  unfold wakeParked
  split_ifs
  · exact t.sends_setState target .runnable
  · exact (refl t).mono (empty_subset _)

end

/-- The limit on the pending real-time signals of the user leaves no room for another one. -/
def NoRoom (t : Table) (p : Proc) (s : Signo) : Prop :=
  isRtSignal s = true ∧ t.uidRtPending p.creds.uid.r ≥ p.rtSigpendingLimit
  deriving Decidable

/-- Whom a signal other than `SIGKILL` to a thread reaches: the thread, unless there is no room, and
those who are told when it goes on. -/
def threadReach (t : Table) (target : Pid) (s : Signo) : Set Pid :=
  { q | ∃ p, t.proc? target = some p ∧ ¬ t.NoRoom p s ∧
    (q = target ∨ s = sigcont ∧ t.state target = .stopped ∧ q ∈ t.told p.tgid) }

theorem mem_threadReach (h : t.proc? pid = some p) :
    q ∈ t.threadReach pid s ↔
      ¬ t.NoRoom p s ∧ (q = pid ∨ s = sigcont ∧ t.state pid = .stopped ∧ q ∈ t.told p.tgid) := by
  constructor
  · rintro ⟨p', hp', hq⟩
    cases h.symm.trans hp'
    exact hq
  · exact fun hq => ⟨p, h, hq⟩

variable {kill : Table → Pid → Proc → PendingSigInfo → Table}

/-- **To a thread**, other than `SIGKILL`. -/
theorem sends_sendWith (t : Table) (target : Pid) (hs : signo? signal = some s)
    (hkill : s ≠ sigkill) (info : PendingSigInfo) :
    Sends (t.threadReach target s) {target} t (t.sendWith kill target signal info).2 := by
  unfold sendWith
  rw [hs]
  dsimp only
  split
  · next h =>
    refine ((refl t).mono (empty_subset _)).cast ?_ rfl
    ext q
    refine ⟨False.elim, ?_⟩
    rintro ⟨p, hp, -⟩
    cases h.symm.trans hp
  next p h =>
  rw [if_neg hkill]
  split_ifs with hroom hcont
  · refine ((refl t).mono (empty_subset _)).cast ?_ rfl
    ext q
    rw [mem_threadReach h]
    exact ⟨False.elim, fun hq => hq.1 hroom⟩
  · have henqueue := t.sends_enqueueWithAnnihilation target s info
    refine (henqueue.trans (sends_afterContinue _ target p)).cast ?_ (empty_union _)
    ext q
    rw [mem_threadReach h, henqueue.told, henqueue.state target (by simp),
      ← here_of_isSome (by rw [h]; rfl)]
    constructor
    · rintro (hq | ⟨hstop, hq⟩)
      · exact ⟨hroom, .inl hq⟩
      · exact ⟨hroom, .inr ⟨hcont, hstop, hq⟩⟩
    · grind
  · have henqueue := t.sends_enqueueWithAnnihilation target s info
    refine (henqueue.trans (sends_wakeParked _ target s)).cast ?_ (empty_union _)
    ext q
    rw [mem_threadReach h, ← here_of_isSome (by rw [h]; rfl), union_empty]
    exact ⟨fun hq => ⟨hroom, .inl hq⟩, fun hq => hq.2.resolve_right fun hc => hcont hc.1⟩

/-! ### To a process -/

theorem mem_liveGroupMembers : pid ∈ t.liveGroupMembers tgid ↔
    ∃ p, t.proc? pid = some p ∧ p.tgid = tgid ∧ stateIsTerminal (t.state pid) = false := by
  unfold liveGroupMembers
  rw [mem_map]
  constructor
  · rintro ⟨⟨m, p⟩, he, rfl⟩
    obtain ⟨he, hp⟩ := mem_filter.1 he
    exact ⟨p, get?_of_mem_entries he, of_decide_eq_true hp⟩
  · rintro ⟨p, hp, hlive⟩
    have hentry : (pid, p) ∈ t.processes.entries := mem_entries_of_get? hp
    exact ⟨(pid, p), mem_filter.2 ⟨hentry, decide_eq_true hlive⟩, rfl⟩

theorem isSome_of_mem_liveGroupMembers (h : pid ∈ t.liveGroupMembers tgid) :
    (t.proc? pid).isSome = true := by
  obtain ⟨p, hp, -⟩ := mem_liveGroupMembers.1 h
  rw [hp]
  rfl

theorem sends_enqueueAll (hl : ∀ m ∈ l, (t.proc? m).isSome = true) :
    Sends { q | q ∈ l } ∅ t (l.foldl (fun t m => t.enqueueWithAnnihilation m s info) t) := by
  have hfold := sends_foldl (R := here) (S := fun _ _ => ∅)
    (fun t m => t.sends_enqueueWithAnnihilation m s info) (l := l)
    (pairwise_of_forall fun m m' t =>
      ⟨(t.sends_enqueueWithAnnihilation m s info).here m', rfl⟩) t
  refine hfold.cast ?_ ?_
  · ext q
    constructor
    · rintro ⟨m, hm, rfl, -⟩
      exact hm
    · exact fun hq => ⟨q, hq, rfl, hl q hq⟩
  · ext q
    simp

theorem mem_of_mem_going (h : pid ∈ t.going members) : pid ∈ members :=
  mem_of_mem_filter h

/-- Whom a stop signal to a process reaches: the threads that have not stopped; when all have, those
who are told. -/
theorem sends_initiateGroupStop (tgid : Pid) (hmembers : ∀ m ∈ members, (t.proc? m).isSome = true) :
    Sends { q | q ∈ t.going members ∨ t.going members = [] ∧ q ∈ t.told tgid } ∅ t
      (t.initiateGroupStop tgid s info members) := by
  unfold initiateGroupStop
  dsimp only
  have hall : Sends { q | q ∈ t.going members } ∅ t
      ((t.going members).foldl (fun t m => t.enqueueWithAnnihilation m s info) t) :=
    sends_enqueueAll fun m hm => hmembers m (mem_of_mem_going hm)
  have harm := hall.trans (sends_updateSignals _ tgid
    fun c => c.clearGroupStop.armGroupStop (t.going members).length)
  set t₁ := updateSignals ((t.going members).foldl
    (fun t m => t.enqueueWithAnnihilation m s info) t) tgid
    (fun c => c.clearGroupStop.armGroupStop (t.going members).length) with ht₁
  split_ifs with hgoing hlast
  · have harrive := harm.trans (sends_updateSignals t₁ tgid fun c => c.groupStopArrive.2)
    refine (harrive.trans (sends_notifyParentStatusChange _ tgid cldStopped 19)).cast ?_ (by simp)
    rw [harrive.told]
    ext q
    simp [hgoing]
  · -- no leader is left that could be told about
    refine (harm.trans (sends_updateSignals t₁ tgid fun c => c.groupStopArrive.2)).cast ?_ (by simp)
    have hnone : t.proc? tgid = none := by
      rw [← harm.proc? tgid]
      by_contra hsome
      refine hlast ?_
      have hsome' : (t₁.proc? tgid).isSome = true := Option.isSome_iff_ne_none.2 hsome
      rw [hsome', Bool.true_and]
      have hpresent : ((foldl (fun t m => t.enqueueWithAnnihilation m s info) t
          (t.going members)).proc? tgid).isSome = true := by
        rw [hall.proc?, ← harm.proc?, hsome']
      rw [ht₁, updateSignals, if_pos hpresent, hgoing]
      simp [setSignals, armGroupStop, clearGroupStop,
        groupStopArrive]
    ext q
    constructor
    · simp [hgoing]
    · rintro (hq | ⟨-, p, hp, -⟩)
      · simp [hgoing] at hq
      · cases hnone.symm.trans hp
  · simp_all

theorem sends_continueSignals (info : PendingSigInfo)
    (hmembers : ∀ m ∈ members, (t.proc? m).isSome = true) :
    Sends { q | q ∈ t.going members } ∅ t (t.continueSignals info members) := by
  have hstep (t : Table) (m : Pid) : Sends { q | q ∈ t.here m ∧ t.state m ≠ .stopped } ∅ t
      (let t := t.updateSignals m discardStopSignals
        if t.state m ≠ .stopped then t.enqueueWithAnnihilation m sigcont info else t) := by
    have hdiscard := t.sends_updateSignals m discardStopSignals
    have hstate := hdiscard.state m (notMem_empty m)
    dsimp only
    rw [hstate]
    split_ifs with hstop
    · refine (hdiscard.trans (sends_enqueueWithAnnihilation _ m sigcont info)).cast ?_ (by simp)
      rw [hdiscard.here]
      ext q
      simp [hstop]
    · grind
  have hfold := sends_foldl (S := fun _ _ => ∅) hstep (l := members)
    (pairwise_of_forall fun m m' t => ⟨by
      rw [(hstep t m).here, (hstep t m).state m' (notMem_empty m')], rfl⟩) t
  refine hfold.cast ?_ (by ext q; simp)
  ext q
  constructor
  · rintro ⟨m, hm, ⟨rfl, -⟩, hstop⟩
    exact mem_filter.2 ⟨hm, decide_eq_true hstop⟩
  · intro hq
    obtain ⟨hq, hstop⟩ := mem_filter.1 hq
    exact ⟨q, hq, ⟨rfl, hmembers q hq⟩, of_decide_eq_true hstop⟩

/-- Whom `SIGCONT` to a process reaches: the threads that have not stopped, and if one has, those
who are told. -/
theorem sends_continueGroup (tgid : Pid) (hmembers : ∀ m ∈ members, (t.proc? m).isSome = true) :
    Sends { q | q ∈ t.going members ∨ (∃ m ∈ members, t.state m = .stopped) ∧ q ∈ t.told tgid }
      { q | q ∈ members } t (t.continueGroup tgid info members) := by
  unfold continueGroup
  dsimp only
  have hclear := t.sends_updateSignals tgid clearGroupStop
  have hgoing : going (t.updateSignals tgid clearGroupStop) members =
      t.going members :=
    filter_congr fun m _ => by rw [hclear.state m (notMem_empty m)]
  have hpresent (m : Pid) (hm : m ∈ members) :
      ((t.updateSignals tgid clearGroupStop).proc? m).isSome = true := by
    rw [hclear.proc?, hmembers m hm]
  have hresume (u : Table) : Sends ∅ { q | q ∈ members } u
      (members.foldl (fun t m => (t.requestContinue m).2) u) := by
    have hfold := sends_foldl (R := fun _ _ => ∅) (S := fun _ m => {m}) sends_requestContinue
      (l := members) (pairwise_of_forall fun _ _ _ => ⟨rfl, rfl⟩) u
    refine hfold.cast (by ext q; simp) ?_
    ext q
    simp
  have hall := (hclear.trans (sends_continueSignals info hpresent)).trans (hresume _)
  rw [hgoing] at hall
  split_ifs with hany
  · have hlatch := hall.trans (sends_updateSignals _ tgid setContinuedLatch)
    refine (hlatch.trans (sends_notifyParentStatusChange _ tgid cldContinued 18)).cast ?_ (by simp)
    rw [hlatch.told]
    ext q
    simp_all
  · refine hall.cast ?_ (by simp)
    ext q
    simp_all

/-- Whom a signal other than `SIGKILL` to a process reaches. -/
def groupReach (t : Table) (tgid : Pid) (s : Signo) : Set Pid :=
  let members := t.liveGroupMembers tgid
  if has stopSignalMask s then
    { q | q ∈ t.going members ∨ members ≠ [] ∧ t.going members = [] ∧ q ∈ t.told tgid }
  else if s = sigcont then
    { q | q ∈ t.going members ∨ (∃ m ∈ members, t.state m = .stopped) ∧ q ∈ t.told tgid }
  else { q | ∃ m, t.pickGroupTarget members s = some m ∧ q ∈ t.threadReach m s }

theorem mem_of_pickGroupTarget (h : t.pickGroupTarget members s = some pid) : pid ∈ members := by
  rcases Option.or_eq_some_iff.1 h with h | ⟨-, h⟩
  · exact mem_of_find?_eq_some h
  · exact mem_of_head? h

theorem exists_pickGroupTarget (t : Table) (first : Pid) (rest : List Pid) (s : Signo) :
    ∃ m, t.pickGroupTarget (first :: rest) s = some m := by simp [pickGroupTarget]

/-- The threads of a process. -/
def threads (t : Table) (tgid : Pid) : Set Pid := { q | ∃ p, t.proc? q = some p ∧ p.tgid = tgid }

theorem groupWith_of_nil (h : t.liveGroupMembers tgid = []) (signal : UInt32)
    (info : PendingSigInfo) : (t.groupWith kill tgid signal info).2 = t := by
  unfold groupWith
  rw [h]
  split <;> rfl

section

variable (hs : signo? signal = some s) (hkill : s ≠ sigkill) (info : PendingSigInfo)

include hs hkill

/-- A process with live threads: it is sent the signal, and the threads get it. -/
theorem sends_groupWith_of_cons {first : Pid} {rest : List Pid}
    (hmembers : t.liveGroupMembers tgid = first :: rest) :
    Sends (t.groupReach tgid s) (t.threads tgid) (t.record (.groupSignal tgid s))
      (t.groupWith kill tgid signal info).2 := by
  have hmem (m : Pid) (hm : m ∈ first :: rest) : m ∈ t.liveGroupMembers tgid := hmembers ▸ hm
  have hpresent (m : Pid) (hm : m ∈ first :: rest) :
      ((t.record (.groupSignal tgid s)).proc? m).isSome = true :=
    isSome_of_mem_liveGroupMembers (hmem m hm)
  have hthreads : { q | q ∈ first :: rest } ⊆ t.threads tgid := by
    intro m hm
    obtain ⟨p, hp, htgid, -⟩ := mem_liveGroupMembers.1 (hmem m hm)
    exact ⟨p, hp, htgid⟩
  unfold groupWith groupReach
  rw [hs, hmembers]
  dsimp only
  rw [if_neg hkill]
  split_ifs with hstop hcont
  · refine ((sends_initiateGroupStop tgid hpresent).mono (empty_subset _)).cast ?_ rfl
    ext q
    exact or_congr_right ⟨fun h => ⟨cons_ne_nil _ _, h⟩, And.right⟩
  · exact (sends_continueGroup tgid hpresent).mono hthreads
  obtain ⟨m, hm⟩ := exists_pickGroupTarget t first rest s
  have hpick : (t.record (.groupSignal tgid s)).pickGroupTarget (first :: rest) s = some m := hm
  rw [hpick, hm]
  refine ((sends_sendWith _ m hs hkill info).mono ?_).cast ?_ rfl
  · rintro q rfl
    exact hthreads (mem_of_pickGroupTarget hm)
  ext q
  constructor
  · exact fun hq => ⟨m, rfl, hq⟩
  · rintro ⟨m', hm', hq⟩
    cases hm'
    exact hq

/-- **To a process**, other than `SIGKILL`. -/
theorem changes_groupWith (t : Table) (tgid : Pid) :
    Changes (t.groupReach tgid s) (t.threads tgid) t (t.groupWith kill tgid signal info).2 := by
  cases hmembers : t.liveGroupMembers tgid with
  | nil =>
    have hnone : t.groupReach tgid s = ∅ := by grind [groupReach, going, pickGroupTarget]
    rw [groupWith_of_nil hmembers, hnone]
    exact (Changes.refl t).mono (empty_subset _)
  | cons first rest =>
    have hsends : Sends _ _ _ (t.groupWith kill tgid signal info).2 :=
      sends_groupWith_of_cons hs hkill info hmembers
    refine ⟨hsends.processes, hsends.state, ?_⟩
    have hrecord : (t.record (.groupSignal tgid s)).recipients = t.recipients := by
      ext q
      simp [Table.recipients, record]
    rw [hsends.recipients, hrecord]

theorem groups_groupWith (t : Table) (tgid : Pid) (g : Pid) (u : Signo) :
    Event.groupSignal g u ∈ (t.groupWith kill tgid signal info).2.events ↔
      Event.groupSignal g u ∈ t.events ∨ g = tgid ∧ u = s ∧ t.liveGroupMembers tgid ≠ [] := by
  cases hmembers : t.liveGroupMembers tgid with
  | nil =>
    rw [groupWith_of_nil hmembers]
    simp
  | cons first rest =>
    rw [(sends_groupWith_of_cons hs hkill info hmembers).groups]
    simp [record]

end

theorem notMem_threads {g : Pid} (h : t.proc? pid = some p) (hne : p.tgid ≠ g) :
    pid ∉ t.threads g := by
  rintro ⟨p', hp', htgid⟩
  grind

/-! ### `SIGKILL` -/

/-- Whom the closing of the descriptors of a process reaches. -/
def closeReach (t : Table) (pid : Pid) : Set Pid :=
  inTurn hup (fun t r => bySigno r.2 (t.groupReach r.1)) t ((t.hungUp pid).flatMap hangupSignals)

/-- Whom `SIGKILL` to a thread reaches: the thread, or, if it ends at once, those whom the closing of
its descriptors reaches and those who are told. -/
def killReach (t : Table) (target : Pid) : Set Pid :=
  match t.proc? target, t.state target with
  | none, _ => ∅
  | some _, .running | some _, .runnable | some _, .parked | some _, .traced => {target}
  | some p, .stopped | some p, .cgroupThrottled | some p, .dlThrottled =>
    (t.setState target p.killedState).closeReach target ∪ t.told target
  | some _, .zombie _ | some _, .killedByFault _ _ _ | some _, .killedBySignal _ => ∅

/-- Whom a signal to a thread reaches. -/
def threadSent (signal : UInt32) (t : Table) (target : Pid) : Set Pid :=
  bySigno signal fun s => if s = sigkill then t.killReach target else t.threadReach target s

/-- Whom a signal to a process reaches; `SIGKILL` goes to one thread after the other. -/
def groupSent (signal : UInt32) (info : PendingSigInfo) (t : Table) (tgid : Pid) : Set Pid :=
  bySigno signal fun s =>
    if s = sigkill then
      inTurn (fun t m => (t.sendSignalWithInfo m signal info).2) (threadSent signal)
        (t.record (.groupSignal tgid s)) (t.liveGroupMembers tgid)
    else t.groupReach tgid s

/-- Whom a signal to a process group reaches, one process after the other. -/
def pgrpSent (signal : UInt32) (t : Table) (cur pgid : Pid) : Set Pid :=
  inTurn (fun t g => (t.sendGroupSignal g signal (.forKill (.ofNat cur))).2)
    (groupSent signal (.forKill (.ofNat cur))) t (t.pgrpLeaders pgid)

/-- What the closing of descriptors sends; no process goes away by it. -/
theorem closeAll_spec (t : Table) (pid : Pid) :
    (t.closeAll pid).recipients = t.recipients ∪ t.closeReach pid ∧
      (t.closeAll pid).processes = t.processes := by
  have hstep (u : Table) (r : Pid × UInt32) (hr : r ∈ (t.hungUp pid).flatMap hangupSignals) :
      Changes (bySigno r.2 (u.groupReach r.1)) (u.threads r.1) u (u.hup r) := by
    obtain ⟨pg, -, hr⟩ := mem_flatMap.1 hr
    rcases mem_pair.1 hr with rfl | rfl
    · exact changes_groupWith (s := 1) rfl (by decide) _ u pg
    · exact changes_groupWith (s := 18) rfl (by decide) _ u pg
  refine ⟨recipients_foldl (fun u r hr => (hstep u r hr).recipients) t, ?_⟩
  exact foldlRecOn (motive := fun u => u.processes = t.processes) _ hup rfl
    fun u hu r hr => (hstep u r hr).processes.trans hu

theorem recipients_sendKill (hp : t.proc? pid = some p) (info : PendingSigInfo) :
    (t.sendKill pid p info).recipients = t.recipients ∪ t.killReach pid := by
  have hmark := (t.sends_enqueue pid sigkill info).recipients
  rw [← here_of_isSome (by rw [hp]; rfl)] at hmark
  have hend (st : ProcessState) (code status : UInt32) :
      (((t.setState pid st).closeAll pid).notifyParentStatusChange pid code status).recipients =
        t.recipients ∪ ((t.setState pid st).closeReach pid ∪ t.told pid) := by
    obtain ⟨hclose, hprocs⟩ := (t.setState pid st).closeAll_spec pid
    rw [(sends_notifyParentStatusChange _ pid code status).recipients, hclose, told_congr hprocs,
      union_assoc]
    rfl
  unfold sendKill killReach
  rw [hp]
  cases t.state pid with
  | running | runnable | parked | traced => exact hmark
  | stopped | cgroupThrottled | dlThrottled => exact hend _ _ _
  | zombie _ | killedByFault _ _ _ | killedBySignal _ => exact (union_empty _).symm

/-! ### The sets are exact -/

section

variable (t : Table) (signal : UInt32) (info : PendingSigInfo)

/-- **To a thread.** -/
theorem recipients_sendSignalWithInfo (target : Pid) :
    (t.sendSignalWithInfo target signal info).2.recipients =
      t.recipients ∪ t.threadSent signal target := by
  unfold sendSignalWithInfo threadSent bySigno
  cases hs : signo? signal with
  | none => rw [sendWith, hs, union_empty]
  | some s =>
    dsimp only
    split_ifs with hkill
    · subst hkill
      rw [sendWith, hs]
      cases hp : t.proc? target with
      | none => rw [killReach, hp, union_empty]
      | some p => exact recipients_sendKill hp info
    · exact (t.sends_sendWith target hs hkill info).recipients

/-- **To a process.** -/
theorem recipients_sendGroupSignal (tgid : Pid) :
    (t.sendGroupSignal tgid signal info).2.recipients =
      t.recipients ∪ t.groupSent signal info tgid := by
  unfold sendGroupSignal groupSent bySigno
  cases hs : signo? signal with
  | none => rw [groupWith, hs, union_empty]
  | some s =>
    dsimp only
    split_ifs with hkill
    · subst hkill
      rw [groupWith, hs]
      cases hmembers : t.liveGroupMembers tgid with
      | nil => exact (union_empty _).symm
      | cons first rest =>
        have hrecord : (t.record (.groupSignal tgid sigkill)).recipients = t.recipients := by
          ext q
          simp [recipients, record]
        rw [← hrecord]
        exact recipients_foldl (fun t m _ => t.recipients_sendSignalWithInfo signal info m) _
    · exact (changes_groupWith hs hkill info t tgid).recipients

/-- **To a process group.** -/
theorem recipients_signalPgrp (cur pgid : Pid) :
    (t.signalPgrp cur pgid signal).recipients = t.recipients ∪ t.pgrpSent signal cur pgid :=
  recipients_foldl (fun t g _ => t.recipients_sendGroupSignal signal _ g) t

end

end

end CypheraKernel.Signal.Table
