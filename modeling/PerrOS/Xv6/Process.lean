import Mathlib.Algebra.GroupWithZero.Nat
import Mathlib.Data.Fintype.Basic

/-!
# Process slots

What the xv6 trees share about the process table: its size and the states a
slot goes through.
-/

namespace PerrOS.Xv6

/-- Maximum number of processes (`param.h`). -/
def NPROC : Nat := 64

instance : NeZero NPROC := ⟨by decide⟩

/-- An index into `ptable.proc`; a `struct proc *` is such an index or null. -/
abbrev Slot := Fin NPROC

/-- `enum procstate`. -/
inductive ProcState
  | unused
  | embryo
  | sleeping
  | runnable
  | running
  | zombie
deriving DecidableEq, Repr

/-- The order in which the table loops visit the slots. -/
def slots : List Slot := List.finRange NPROC

@[simp] theorem mem_slots (p : Slot) : p ∈ slots := List.mem_finRange p

end PerrOS.Xv6
