import Mathlib.Tactic

/-!
# Error numbers

`kernel/src/errno.rs`: the errors of the modelled calls, and the value a system call returns for
each.
-/

namespace CypheraKernel

inductive Errno
  | perm
  | noent
  | srch
  | intr
  | io
  | toobig
  | noexec
  | badf
  | child
  | again
  | nomem
  | acces
  | fault
  | exist
  | notdir
  | isdir
  | inval
  | mfile
  | nospc
  | rofs
  | deadlk
  | nosys
  | loop
  | timedout
  deriving DecidableEq, Repr

def Errno.code : Errno → ℕ
  | perm => 1
  | noent => 2
  | srch => 3
  | intr => 4
  | io => 5
  | toobig => 7
  | noexec => 8
  | badf => 9
  | child => 10
  | again => 11
  | nomem => 12
  | acces => 13
  | fault => 14
  | exist => 17
  | notdir => 20
  | isdir => 21
  | inval => 22
  | mfile => 24
  | nospc => 28
  | rofs => 30
  | deadlk => 35
  | nosys => 38
  | loop => 40
  | timedout => 110

/-- `as_neg_i64`. -/
def Errno.asNegI64 (e : Errno) : ℤ := -e.code

def eperm : ℤ := Errno.perm.asNegI64
def ebadf : ℤ := Errno.badf.asNegI64
def einval : ℤ := Errno.inval.asNegI64

end CypheraKernel
