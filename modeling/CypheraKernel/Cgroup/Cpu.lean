import CypheraKernel.Errno
import CypheraKernel.Lib.Rust
import CypheraKernel.Lib.Text

/-!
# The CPU controller of a control group

`CpuController` of `kernel/src/cgroup.rs`: in each period of `cpu.max` the processes of a group may
run for the quota.  When the quota is used up the group is throttled until it is replenished.

A control group is named by the path to it, the last component first; the components, which are
strings in the kernel, are numbered.  The ancestors of a group are the tails of its path.
-/

namespace CypheraKernel.Cgroup

open Rust Text

/-- The path of a group, the last component first; `[]` is the root. -/
abbrev Path := List ℕ

/-- `ancestor_chain`: the group, its parent, and so on to the root. -/
def ancestorChain (g : Path) : List Path := g.tails

/-- The limit is `none` or a quota and a period in microseconds. -/
structure CpuController where
  max : Option (ℕ × ℕ)
  (weight periodStartNs periodRuntimeNs : ℕ)
  throttled : Bool
  deriving DecidableEq, Repr

namespace CpuController

instance : Inhabited CpuController := ⟨none, 100, 0, 0, false⟩

variable (c : CpuController)

/-- Charge `delta` nanoseconds; the answer is whether this has used up the quota. -/
def chargeCpuRuntime (delta now : ℕ) : Bool × CpuController :=
  match c.max with
  | none => (false, c)
  | some (quotaUs, periodUs) =>
    let periodNs := saturatingMulU64 periodUs 1000
    let quotaNs := saturatingMulU64 quotaUs 1000
    if periodNs = 0 then (false, c)
    else
      let c := if now - c.periodStartNs ≥ periodNs then
          { c with periodStartNs := now, periodRuntimeNs := 0 }
        else c
      let c := { c with periodRuntimeNs := saturatingAddU64 c.periodRuntimeNs delta }
      if c.periodRuntimeNs ≥ quotaNs ∧ !c.throttled then (true, { c with throttled := true })
      else (false, c)

def periodElapsed (now : ℕ) : Bool :=
  match c.max with
  | none => false
  | some (_, periodUs) =>
    let periodNs := saturatingMulU64 periodUs 1000
    if periodNs = 0 then false else now - c.periodStartNs ≥ periodNs

def replenish (now : ℕ) : CpuController :=
  { c with periodStartNs := now, periodRuntimeNs := 0, throttled := false }

/-- A write to `cpu.max`: a quota or `max`, and a period. -/
def writeMax (text : List Char) : Except Errno CpuController :=
  let parts := splitAsciiWhitespace text
  match parts[0]? with
  | none => .error .inval
  | some quota =>
    match parseU64 (parts[1]?.getD "100000".toList) with
    | none => .error .inval
    | some period =>
      if quota = "max".toList then .ok { c with max := none }
      else
        match parseU64 quota with
        | none => .error .inval
        | some quota => .ok { c with max := some (quota, period) }

/-- A write to `cpu.weight`. -/
def writeWeight (text : List Char) : Except Errno CpuController :=
  match parseU64 text with
  | none => .error .inval
  | some w => if 1 ≤ w ∧ w ≤ 10000 then .ok { c with weight := w } else .error .inval

end CpuController

end CypheraKernel.Cgroup
