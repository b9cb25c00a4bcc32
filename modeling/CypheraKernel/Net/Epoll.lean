import CypheraKernel.Errno

/-!
# `epoll_wait`

`EpollInstance::probe` and `EpollInstance::wait` of `kernel/src/net/epoll.rs`.  The entries and the
files change while a call waits, so a call is given what it sees: in every pass of its loop the
entries at both probes and at the snapshot, each with its file at the moment it is looked up.

* `wait_waits`: **a call that is attended to the end waits for an event or for its deadline, and
  reports only files that were ready**;
* `empty_set_returns`: on an empty set it does not wait.
-/

namespace CypheraKernel.Epoll

open List

def epollErr : UInt32 := 0x008
def epollHup : UInt32 := 0x010

/-- A descriptor that an epoll watches. -/
structure EpollEntry where
  fd : ℤ
  events : UInt32
  userData : UInt64

/-- What `poll` says of a file, and the number of its wait queues. -/
structure File where
  poll : UInt32
  waitQueues : ℕ

/-- Entries, each with the file of its descriptor. -/
abbrev View := List (EpollEntry × Option File)

/-- `signal` and `clock` are read after the process was parked; the clock is also that of a return
from the pass. -/
structure Pass where
  (first snapshot second : View)
  signal : Bool
  clock : ℕ

/-- The events of an entry that are asked for, with those that always are. -/
def interesting (e : EpollEntry) : UInt32 := e.events ||| epollErr ||| epollHup

def report : EpollEntry × Option File → Option (UInt32 × UInt64)
  | (e, none) => some (epollErr, e.userData)
  | (e, some file) =>
    let delivered := file.poll &&& interesting e
    if delivered ≠ 0 then some (delivered, e.userData) else none

def probe (view : View) (max : ℕ) : List (UInt32 × UInt64) := (view.filterMap report).take max

/-- The number of queues in which the process is entered. -/
def queueCount (view : View) : ℕ := ((view.filterMap Prod.snd).map File.waitQueues).sum

def deadline (start : ℕ) (timeoutMs : ℤ) : Option ℕ :=
  if timeoutMs > 0 then
    some (min (start + min (timeoutMs.toNat * 1000000) (2 ^ 64 - 1)) (2 ^ 64 - 1))
  else none

variable (start : ℕ) (timeoutMs : ℤ) (max : ℕ)

/-- The result with the clock at the return; `none` if the call has not returned. -/
def wait : List Pass → Option (Except Errno (List (UInt32 × UInt64)) × ℕ)
  | [] => none
  | p :: passes =>
    let ready := probe p.first max
    if ready ≠ [] ∨ timeoutMs = 0 then some (.ok ready, p.clock)
    else if queueCount p.snapshot = 0 then some (.ok [], p.clock)
    else
      let ready := probe p.second max
      if ready ≠ [] then some (.ok ready, p.clock)
      else if p.signal then some (.error .intr, p.clock)
      else if (deadline start timeoutMs).any (· ≤ p.clock) then some (.ok [], p.clock)
      else wait passes

/-- Every descriptor that is looked at is open, and if the process goes on to wait, it gets into
some queue. -/
def Pass.Attended (p : Pass) : Prop :=
  (∀ e ∈ p.first, e.2.isSome) ∧ (probe p.first max = [] → timeoutMs ≠ 0 →
    queueCount p.snapshot ≠ 0 ∧ ∀ e ∈ p.second, e.2.isSome)
  deriving Decidable

/-- The file of an entry was ready for what is reported. -/
def Pass.Ready (p : Pass) (r : UInt32 × UInt64) : Prop :=
  ∃ e file, (e, some file) ∈ p.first ++ p.second ∧ e.userData = r.2 ∧
    file.poll &&& interesting e = r.1 ∧ r.1 ≠ 0

variable {start timeoutMs max}

theorem ready_of_mem_probe {p : Pass} {view : View} (hview : view ⊆ p.first ++ p.second)
    (hopen : ∀ e ∈ view, e.2.isSome) {r : UInt32 × UInt64} (hr : r ∈ probe view max) :
    p.Ready r := by
  obtain ⟨⟨e, file⟩, hmem, hreport⟩ := mem_filterMap.1 (mem_of_mem_take hr)
  obtain ⟨file, rfl⟩ := Option.isSome_iff_exists.1 (hopen _ hmem)
  dsimp only [report] at hreport
  split_ifs at hreport with hne
  cases hreport
  exact ⟨e, file, hview hmem, rfl, rfl, hne⟩

/-- **Waiting.**  No events are returned only when the call does not wait or when its deadline has
come; an event that is returned was there in some pass. -/
theorem wait_waits {passes : List Pass} (hpasses : ∀ p ∈ passes, p.Attended timeoutMs max)
    {out : List (UInt32 × UInt64)} {t : ℕ}
    (h : wait start timeoutMs max passes = some (.ok out, t)) :
    (out = [] → timeoutMs = 0 ∨ ∃ d ∈ deadline start timeoutMs, d ≤ t) ∧
      ∀ r ∈ out, ∃ p ∈ passes, p.Ready r := by
  induction passes with
  | nil => cases h
  | cons p passes ih =>
    obtain ⟨hopen, hqueued⟩ := hpasses p mem_cons_self
    have hready {view : View} (hview : view ⊆ p.first ++ p.second)
        (hopen : ∀ e ∈ view, e.2.isSome) : ∀ r ∈ probe view max, ∃ q ∈ p :: passes, q.Ready r :=
      fun r hr => ⟨p, mem_cons_self, ready_of_mem_probe hview hopen hr⟩
    have hwaits (hfirst : ¬ (probe p.first max ≠ [] ∨ timeoutMs = 0)) :=
      hqueued (not_not.1 fun h => hfirst (.inl h)) fun h => hfirst (.inr h)
    unfold wait at h
    dsimp only at h
    split_ifs at h with hfirst hcount hsecond hsignal hdeadline
    · cases h
      exact ⟨fun hnil => Or.inl (hfirst.resolve_left (not_not_intro hnil)),
        hready (subset_append_left ..) hopen⟩
    · exact absurd hcount (hwaits hfirst).1
    · cases h
      exact ⟨fun hnil => absurd hnil hsecond, hready (subset_append_right ..) (hwaits hfirst).2⟩
    · cases h
    · cases h
      obtain ⟨d, hd, hle⟩ := (Option.any_eq_true ..).1 hdeadline
      refine ⟨fun _ => Or.inr ⟨d, hd, of_decide_eq_true hle⟩, fun r hr => ?_⟩
      cases hr
    · obtain ⟨hnil, hevents⟩ := ih (fun q hq => hpasses q (mem_cons_of_mem p hq)) h
      refine ⟨hnil, fun r hr => ?_⟩
      obtain ⟨q, hq, hr⟩ := hevents r hr
      exact ⟨q, mem_cons_of_mem p hq, hr⟩

/-- A file that becomes readable while the call waits. -/
def wokenUp : List Pass :=
  let e : EpollEntry := ⟨3, 1, 7⟩
  [⟨[(e, some ⟨4, 1⟩)], [(e, some ⟨4, 1⟩)], [(e, some ⟨4, 1⟩)], false, 10⟩,
    ⟨[(e, some ⟨5, 1⟩)], [], [], false, 20⟩]

theorem wait_waits_wokenUp : ∃ p ∈ wokenUp, p.Ready (1, 7) :=
  (@wait_waits 0 (-1) 8 wokenUp (by decide) [(1, 7)] 20 (by decide)).2 _ mem_cons_self

/-- A call without a deadline on an empty set returns at once, with nothing; a descriptor that was
closed is reported. -/
theorem empty_set_returns :
    wait 0 (-1) 8 [⟨[], [], [], false, 10⟩] = some (.ok [], 10) ∧
      wait 0 (-1) 8 [⟨[(⟨3, 1, 7⟩, none)], [], [], false, 10⟩] = some (.ok [(8, 7)], 10) := by
  decide

end CypheraKernel.Epoll
