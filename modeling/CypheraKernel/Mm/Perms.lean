import Mathlib.Tactic

/-!
# Permissions and leaf page-table entries

The types of `frame/src/mm/vm.rs` that the page tables and the memory map share.

* `Perms`: what a mapping allows;
* `Pte`: a present leaf entry, its frame number and its flag bits.  `COW` is the software bit 9.
  The cache-control bits are left out, since no modelled function sets them.

Addresses are numbers of bytes; `pageSize` is the size of a page and of a frame.
-/

namespace CypheraKernel.Mm

def pageSize : ℕ := 4096

/-- The end of the user half of the address space. -/
def userVaEnd : ℕ := 2 ^ 47

/-- The start of the kernel half.  The canonical addresses are those below `userVaEnd` and those
from here on. -/
def kernelVaStart : ℕ := 2 ^ 64 - 2 ^ 47

/-- The flag set `Perms`. -/
structure Perms where
  (read write execute user : Bool)
  deriving DecidableEq, Repr

def Perms.userRw : Perms := ⟨true, true, false, true⟩

/-- `intersects(READ | WRITE | EXECUTE)`. -/
def Perms.accessible (perms : Perms) : Bool := perms.read || perms.write || perms.execute

/-- A present leaf entry. -/
structure Pte where
  frame : ℕ
  (writable user noExecute cow accessed dirty : Bool)
  deriving DecidableEq, Repr

/-- `to_pte_flags`, as the entry of a given frame. -/
def Perms.toPte (perms : Perms) (frame : ℕ) : Pte where
  frame := frame
  writable := perms.write
  user := perms.user && (perms.read || perms.write || perms.execute)
  noExecute := !perms.execute
  cow := false
  accessed := false
  dirty := false

end CypheraKernel.Mm
