import PerrOS.Lib.Bytes
import PerrOS.Vm.Paging

/-!
# System call arguments

`fetchint`, `argint` and `argptr` of `syscall.c`, which the xv6 trees share:
what the kernel reads from the user's stack, and what it takes for a pointer
into the user's memory.
-/

namespace PerrOS.Xv6

open Lib (Memory)
open Vm (Word USERTOP)

/-- The process that makes a system call: its size, its saved stack pointer
and its memory. `allocuvm`, where every size comes from, gives none above
`USERTOP`. -/
structure Caller where
  sz : Word
  esp : Word
  mem : Memory
  sz_le : sz ≤ USERTOP

variable (c : Caller)

/-- The `int` at `addr`, or -1. -/
def fetchint (addr : Word) : Option Word :=
  if c.sz ≤ addr ∨ c.sz < addr + 4 then none else some (BitVec.ofNat 32 (c.mem.read addr.toNat 4))

/-- The `n`th argument. -/
def argint (n : Word) : Option Word := fetchint c (c.esp + 4 + 4 * n)

/-- The `n`th argument as a pointer to `size` bytes. -/
def argptr (n size : Word) : Option Word :=
  (argint c n).bind fun i => if c.sz ≤ i ∨ c.sz < i + size then none else some i

variable {c} {n size p : Word}

/-- A pointer that is taken points to `size` bytes of the caller's memory. -/
theorem argptr_eq_some (hsize : size.toNat < 2 ^ 31) :
    argptr c n size = some p ↔
      argint c n = some p ∧ p < c.sz ∧ p.toNat + size.toNat ≤ c.sz.toNat := by
  have hsz := c.sz_le
  rw [BitVec.le_def] at hsz
  have htop : USERTOP.toNat = 0xA0000 := rfl
  simp only [argptr, Option.bind_eq_some_iff]
  constructor
  · rintro ⟨i, hi, h⟩
    split at h
    · cases h
    · next hn =>
      obtain rfl := Option.some.inj h
      simp only [BitVec.le_def, BitVec.lt_def, BitVec.toNat_add] at hn ⊢
      exact ⟨hi, by omega, by omega⟩
  · rintro ⟨hi, hlt, hle⟩
    refine ⟨p, hi, if_neg ?_⟩
    simp only [BitVec.le_def, BitVec.lt_def, BitVec.toNat_add] at hlt ⊢
    omega

end PerrOS.Xv6
