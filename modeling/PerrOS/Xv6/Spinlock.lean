import Mathlib.Data.Nat.Init

/-!
# Spinlocks

`spinlock.c` on one CPU. A call of `acquire` is taken up where no other CPU
holds the lock; a call that panics, or spins for a lock that stays taken, does
not return.
-/

namespace PerrOS.Xv6

/-- What `spinlock.c` uses of a `struct cpu` and of its flags register;
`interruptible` is `FL_IF`. -/
structure Cpu where
  id : Nat
  ncli : Nat
  intena : Bool
  interruptible : Bool
deriving DecidableEq

structure Spinlock where
  locked : Bool
  /-- The CPU that holds the lock. -/
  cpu : Option Nat
deriving DecidableEq

def pushcli (cpu : Cpu) : Cpu :=
  { cpu with
    interruptible := false
    ncli := cpu.ncli + 1
    intena := if cpu.ncli = 0 then cpu.interruptible else cpu.intena }

/-- Panics where interrupts are on, or without a `pushcli` to undo. -/
def popcli (cpu : Cpu) : Option Cpu :=
  match cpu.interruptible, cpu.ncli with
  | false, ncli + 1 => some { cpu with ncli, interruptible := ncli = 0 && cpu.intena }
  | _, _ => none

def holding (lock : Spinlock) (cpu : Cpu) : Bool := lock.locked && lock.cpu = some cpu.id

def acquire (lock : Spinlock) (cpu : Cpu) : Option (Spinlock × Cpu) :=
  let cpu := pushcli cpu
  if holding lock cpu then none
  else if lock.locked then none
  else some (⟨true, some cpu.id⟩, cpu)

def release (lock : Spinlock) (cpu : Cpu) : Option (Spinlock × Cpu) :=
  if holding lock cpu then (popcli cpu).map fun cpu => (⟨false, none⟩, cpu) else none

variable {lock : Spinlock} {cpu : Cpu}

theorem acquire_locked {r : Spinlock × Cpu} (h : acquire lock cpu = some r) :
    r.1.locked = true := by
  simp only [acquire] at h
  split at h
  · cases h
  · split at h
    · cases h
    · rw [← Option.some.inj h]

theorem release_unlocked {r : Spinlock × Cpu} (h : release lock cpu = some r) :
    r.1.locked = false := by
  unfold release at h
  split at h
  · obtain ⟨cpu', -, rfl⟩ := Option.map_eq_some_iff.mp h
    rfl
  · cases h

/-- A free lock is taken. -/
theorem acquire_free (h : lock.locked = false) :
    acquire lock cpu = some (⟨true, some cpu.id⟩, pushcli cpu) := by
  simp [acquire, holding, h, pushcli]

theorem holding_pushcli : holding ⟨true, some cpu.id⟩ (pushcli cpu) = true := by
  simp [holding, pushcli]

/-- `popcli` undoes one `pushcli`. -/
theorem popcli_pushcli (cpu : Cpu) : ∃ cpu', popcli (pushcli cpu) = some cpu' ∧ cpu'.ncli = cpu.ncli :=
  ⟨_, rfl, rfl⟩

/-- `release` undoes `acquire`. -/
theorem release_acquired (cpu : Cpu) : ∃ cpu',
    release ⟨true, some cpu.id⟩ (pushcli cpu) = some (⟨false, none⟩, cpu') ∧
      cpu'.ncli = cpu.ncli := by
  obtain ⟨cpu', hpop, hncli⟩ := popcli_pushcli cpu
  exact ⟨cpu', by rw [release, holding_pushcli, if_pos rfl, hpop]; rfl, hncli⟩

end PerrOS.Xv6
