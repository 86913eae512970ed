import PerrOS.Lib.Stores
import PerrOS.Ptable.Calls
import PerrOS.Xv6.Syscall

/-!
# The stack of a new thread

What `sys_clone` checks before a thread gets a stack. The test of `proc_clone`
that a page lies below `proc->sz` is a subtraction, which wraps for a stack
above it. The check of `argptr` turns those stacks down.
-/

namespace PerrOS.Ptable

open Lib (Store)
open Vm (Word)
open Xv6 (Caller argint argptr)

/-- `sizeof(void *)`. -/
def voidSize : Word := 4

/-- What `proc_clone` gives a new thread: the registers of its trap frame that
are not the caller's, and the words on its stack. -/
structure Start where
  eip : Word
  eax : Word
  esp : Word
  stores : List Store

/-- A store of a `uint`. -/
def setUint (a v : Word) : Store := ⟨a.toNat, 4, v.toNat⟩

/-- The stack pointer as `proc_clone` moves it down. -/
def pushed (fnc arg stack : Word) : Start :=
  let stackPtr := stack + PGSIZE
  let argAt := stackPtr - 4
  let returnAt := argAt - 4
  { eip := fnc, eax := 0, esp := returnAt
    stores := [setUint argAt arg, setUint returnAt 0xffffffff] }

/-- `proc_clone` where `allocproc` finds a slot. -/
def procClone (sz fnc arg stack : Word) : Option Start :=
  if badStack sz stack then none else some (pushed fnc arg stack)

def sysClone (c : Caller) : Option Start :=
  (argptr c 0 voidSize).bind fun entryPoint =>
  (argptr c 1 voidSize).bind fun entryPointArgs =>
  (argptr c 2 voidSize).bind fun stack =>
  procClone c.sz entryPoint entryPointArgs stack

/-- `[stack, stack + PGSIZE)` is a page of a process of size `sz`, and not the
null page. -/
structure WholePage (sz stack : Word) : Prop where
  nonzero : stack ≠ 0
  aligned : PGSIZE.toNat ∣ stack.toNat
  inside : stack.toNat + PGSIZE.toNat ≤ sz.toNat

variable {c : Caller} {t : Start} {sz fnc arg stack : Word}

/-- Below the size of the process the subtraction does not wrap. -/
theorem badStack_eq_false (h : stack ≤ sz) : badStack sz stack = false ↔ WholePage sz stack := by
  rw [BitVec.le_def] at h
  have hpg : PGSIZE.toNat = 4096 := rfl
  have hsub : (sz - stack).toNat = sz.toNat - stack.toNat := BitVec.toNat_sub_of_le h
  have hmod : stack % PGSIZE = 0 ↔ PGSIZE.toNat ∣ stack.toNat := by
    rw [← BitVec.toNat_inj, BitVec.toNat_umod, Nat.dvd_iff_mod_eq_zero]
    rfl
  have hle : ¬sz - stack < PGSIZE ↔ stack.toNat + PGSIZE.toNat ≤ sz.toNat := by
    rw [BitVec.lt_def, hsub]
    omega
  constructor
  · intro hbad
    simp only [badStack, Bool.or_eq_false_iff, decide_eq_false_iff_not, not_not] at hbad
    exact ⟨hbad.1.1, hmod.mp hbad.1.2, hle.mp hbad.2⟩
  · intro hpage
    simp only [badStack, Bool.or_eq_false_iff, decide_eq_false_iff_not, not_not]
    exact ⟨⟨hpage.nonzero, hmod.mpr hpage.aligned⟩, hle.mpr hpage.inside⟩

theorem argptr_wholePage (h : argint c 2 = some stack) (hpage : WholePage c.sz stack) :
    argptr c 2 voidSize = some stack := by
  have hinside := hpage.inside
  have hpg : PGSIZE.toNat = 4096 := rfl
  have hvoid : voidSize.toNat = 4 := rfl
  exact (Xv6.argptr_eq_some (by decide)).mpr ⟨h, BitVec.lt_def.mpr (by omega), by omega⟩

theorem sysClone_eq_some (h : sysClone c = some t) : ∃ fnc arg stack,
    argint c 0 = some fnc ∧ argint c 1 = some arg ∧ argint c 2 = some stack ∧
      WholePage c.sz stack ∧ t = pushed fnc arg stack := by
  simp only [sysClone, Option.bind_eq_some_iff] at h
  obtain ⟨fnc, hfnc, arg, harg, stack, hstack, h⟩ := h
  obtain ⟨hfnc, -, -⟩ := (Xv6.argptr_eq_some (by decide)).mp hfnc
  obtain ⟨harg, -, -⟩ := (Xv6.argptr_eq_some (by decide)).mp harg
  obtain ⟨hstack, hlt, -⟩ := (Xv6.argptr_eq_some (by decide)).mp hstack
  unfold procClone at h
  split at h
  · cases h
  · next hbad =>
    have hpage := (badStack_eq_false (BitVec.le_of_lt hlt)).mp (by simpa using hbad)
    exact ⟨fnc, arg, stack, hfnc, harg, hstack, hpage, (Option.some.inj h).symm⟩

/-- The argument goes to the last word of the page, and the return address
below it, where the thread starts. -/
theorem pushed_spec (h : WholePage sz stack) (fnc arg : Word) :
    (pushed fnc arg stack).stores =
      [⟨stack.toNat + 4092, 4, arg.toNat⟩, ⟨stack.toNat + 4088, 4, 0xffffffff⟩] ∧
      (pushed fnc arg stack).esp.toNat = stack.toNat + 4088 := by
  have hsz := sz.isLt
  have hinside := h.inside
  have hpg : PGSIZE.toNat = 4096 := rfl
  have hword : (4 : Word).toNat = 4 := rfl
  have hargAt : (stack + PGSIZE - 4).toNat = stack.toNat + 4092 := by
    rw [BitVec.toNat_sub, BitVec.toNat_add]
    omega
  have hreturnAt : (stack + PGSIZE - 4 - 4).toNat = stack.toNat + 4088 := by
    rw [BitVec.toNat_sub, hargAt]
    omega
  refine ⟨?_, hreturnAt⟩
  simp only [pushed, setUint, hargAt, hreturnAt]
  rfl

/-- What `sys_clone` takes for a stack, and where it writes. -/
structure CloneSafe (c : Caller) : Prop where
  page : ∀ t, sysClone c = some t → ∃ arg stack, argint c 1 = some arg ∧
    argint c 2 = some stack ∧ WholePage c.sz stack ∧
    t.stores = [⟨stack.toNat + 4092, 4, arg.toNat⟩, ⟨stack.toNat + 4088, 4, 0xffffffff⟩] ∧
    Store.Within t.stores (stack.toNat + 4088) (stack.toNat + 4096) ∧
    t.esp.toNat = stack.toNat + 4088
  every : ∀ stack, argint c 2 = some stack → WholePage c.sz stack →
    argptr c 2 voidSize = some stack ∧ badStack c.sz stack = false

end PerrOS.Ptable
