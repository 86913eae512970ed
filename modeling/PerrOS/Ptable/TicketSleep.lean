import PerrOS.Lib.Stores
import PerrOS.Ptable.Table
import PerrOS.Xv6.Spinlock
import PerrOS.Xv6.Syscall

/-!
# ticket_sleep

`sys_ticket_sleep` up to the switch in `sched`. Both arguments are the user's:
the pid selects the entry that is put to sleep, and the pointer is checked for
four bytes of a `lock_t` that has eight.
-/

namespace PerrOS.Ptable

open Function (update)
open Lib (Store)
open Vm (Word)
open Xv6

/-- A running process that calls `sys_ticket_sleep`, with its user memory.
`mapped` are the addresses that do not fault in the kernel. -/
structure Sleeper where
  table : Slot → Proc
  proc : Slot
  user : Caller
  mapped : Nat → Bool
  lock : Spinlock
  cpu : Cpu
  running : (table proc).state = .running
  size : user.sz = (table proc).sz
  reaches : ∀ x, x < user.sz.toNat → mapped x = true
  unlocked : lock.locked = false
  ncli : cpu.ncli = 0

/-- What the call has done when it returns `rc`, or when it has switched to
the scheduler. -/
structure Slept where
  table : Slot → Proc
  stores : List Store
  lock : Spinlock
  cpu : Cpu
  rc : Option Int

variable (c : Sleeper)

/-- `FetchAndAdd(varPtr, incr)`, which faults where the word is not mapped. -/
def fetchAndAdd (varPtr incr : Word) : Option Store :=
  if ∀ i < 4, c.mapped (varPtr.toNat + i) = true then
    some ⟨varPtr.toNat, 4, (BitVec.ofNat 32 (c.user.mem.read varPtr.toNat 4) + incr).toNat⟩
  else none

/-- `FetchAndAdd(&lock->turn, 1)`: `turn` is the second field. -/
def lockRelease (lock : Word) : Option Store := fetchAndAdd c (lock + 4) 1

/-- `sched`, up to `swtch`: its four panics. -/
def sched (lock : Spinlock) (cpu : Cpu) (proc : Proc) : Option Unit :=
  if holding lock cpu = false then none
  else if cpu.ncli ≠ 1 then none
  else if proc.state = .running then none
  else if cpu.interruptible then none
  else some ()

/-- The first entry with the pid. -/
def findPid (table : Slot → Proc) (pid : Pid) : Option Slot :=
  slots.find? fun k => (table k).pid = pid

def ticketSleep (pid : Pid) (lock : Word) : Option Slept :=
  (acquire c.lock c.cpu).bind fun (lk, cpu) =>
  match findPid c.table pid with
  | some k =>
    (lockRelease c lock).bind fun st =>
    let table := update c.table k { c.table k with state := .sleeping }
    (sched lk cpu (table c.proc)).map fun _ => ⟨table, [st], lk, cpu, none⟩
  | none => (release lk cpu).map fun (lk, cpu) => ⟨c.table, [], lk, cpu, some 0⟩

/-- The rest of the call once the scheduler has switched back: `sched` sets
`cpu->intena`, and the lock is released. -/
def wokenUp (intena : Bool) (lock : Spinlock) (cpu : Cpu) : Option (Spinlock × Cpu) :=
  release lock { cpu with intena }

/-- What `sys_ticket_sleep` takes for its arguments. -/
def sleepArgs : Option (Pid × Word) :=
  (argint c.user 0).bind fun pid => (argptr c.user 1 4).map fun lock => (pid, lock)

def sysTicketSleep : Option Slept :=
  match sleepArgs c with
  | some (pid, lock) => ticketSleep c pid lock
  | none => some ⟨c.table, [], c.lock, c.cpu, some (-1)⟩

/-- The call has changed nothing where it returns -1, and else at most the
state of the caller and bytes of its memory. -/
structure Confined (c : Sleeper) (r : Slept) : Prop where
  failed : r.rc = some (-1) → r.table = c.table ∧ r.stores = []
  others : ∀ k, k ≠ c.proc → r.table k = c.table k
  own : ∃ state, r.table c.proc = { c.table c.proc with state }
  inside : ∀ x, Store.Writes r.stores x → x < c.user.sz.toNat
  /-- The scheduler switches back on a CPU that holds the lock. -/
  resumes : r.rc = none → ∀ intena lock cpu, holding lock cpu = true → cpu.ncli = 1 →
    cpu.interruptible = false → (wokenUp intena lock cpu).isSome

/-- `sys_ticket_sleep` does not panic and affects its caller only. -/
def AffectsCaller (c : Sleeper) : Prop := ∃ r, sysTicketSleep c = some r ∧ Confined c r

variable {c} {pid : Pid} {lock : Word} {k : Slot} {st : Store} {r : Slept}

theorem findPid_eq_none : findPid c.table pid = none ↔ ∀ k, (c.table k).pid ≠ pid := by
  simp [findPid]

theorem wokenUp_isSome {intena : Bool} {lk : Spinlock} {cpu : Cpu} (hlock : holding lk cpu = true)
    (hncli : cpu.ncli = 1) (hif : cpu.interruptible = false) : (wokenUp intena lk cpu).isSome := by
  have hlock' : holding lk { cpu with intena } = true := hlock
  rw [wokenUp, release, if_pos hlock']
  simp [popcli, hncli, hif]

theorem fetchAndAdd_eq_some {a incr : Word} (h : fetchAndAdd c a incr = some st) :
    st.addr = a.toNat ∧ st.width = 4 := by
  obtain ⟨-, h⟩ := Option.ite_none_right_eq_some.mp h
  obtain rfl := Option.some.inj h
  exact ⟨rfl, rfl⟩

/-- The address of `turn`, in a lock whose first word is checked. -/
theorem toNat_turn (hlock : lock.toNat + 4 ≤ c.user.sz.toNat) :
    (lock + 4).toNat = lock.toNat + 4 := by
  have : (4 : Word).toNat = 4 := rfl
  have : c.user.sz.toNat ≤ 0xA0000 := c.user.sz_le
  rw [BitVec.toNat_add]
  omega

theorem lockRelease_eq_some (hlock : lock.toNat + 4 ≤ c.user.sz.toNat)
    (h : lockRelease c lock = some st) : st.addr = lock.toNat + 4 ∧ st.width = 4 := by
  obtain ⟨haddr, hwidth⟩ := fetchAndAdd_eq_some h
  exact ⟨haddr.trans (toNat_turn hlock), hwidth⟩

theorem lockRelease_isSome (hlock : lock.toNat + 8 ≤ c.user.sz.toNat) :
    (lockRelease c lock).isSome := by
  have hcheck : lock.toNat + 4 ≤ c.user.sz.toNat := by omega
  have hadd := toNat_turn hcheck
  unfold lockRelease fetchAndAdd
  rw [if_pos fun i hi => c.reaches _ (by omega)]
  rfl

/-- In `sched` the caller is still `RUNNING`, unless the entry found is its
own. -/
theorem ticketSleep_found (hk : findPid c.table pid = some k) : ticketSleep c pid lock =
    (lockRelease c lock).bind fun st =>
      if k = c.proc then
        some ⟨update c.table k { c.table k with state := .sleeping }, [st],
          ⟨true, some c.cpu.id⟩, pushcli c.cpu, none⟩
      else none := by
  have hlock : holding ⟨true, some c.cpu.id⟩ (pushcli c.cpu) = true := holding_pushcli
  have hncli : (pushcli c.cpu).ncli = 1 := by simp [pushcli, c.ncli]
  have hif : (pushcli c.cpu).interruptible = false := rfl
  unfold ticketSleep
  rw [acquire_free c.unlocked, Option.bind_some, hk]
  dsimp only
  congr 1
  funext st
  by_cases hown : k = c.proc
  · subst hown
    simp [sched, hlock, hncli, hif]
  · simp [sched, hlock, hncli, Function.update_of_ne (Ne.symm hown), c.running, hown]

theorem ticketSleep_missing (hk : findPid c.table pid = none) (lock : Word) :
    ∃ cpu, ticketSleep c pid lock = some ⟨c.table, [], ⟨false, none⟩, cpu, some 0⟩ := by
  obtain ⟨cpu, hrel, -⟩ := release_acquired c.cpu
  exact ⟨cpu, by simp [ticketSleep, acquire_free c.unlocked, hk, hrel]⟩

theorem sysTicketSleep_args (h : sleepArgs c = some (pid, lock)) :
    sysTicketSleep c = ticketSleep c pid lock := by
  rw [sysTicketSleep, h]

theorem sleepArgs_eq_some : sleepArgs c = some (pid, lock) ↔
    argint c.user 0 = some pid ∧ argptr c.user 1 4 = some lock := by
  simp [sleepArgs, Option.bind_eq_some_iff]

/-- The table and the memory as they were. -/
theorem confined_same {lk : Spinlock} {cpu : Cpu} {rc : Int} :
    Confined c ⟨c.table, [], lk, cpu, some rc⟩ where
  failed _ := ⟨rfl, rfl⟩
  others _ _ := rfl
  own := ⟨_, rfl⟩
  inside x hx := by
    obtain ⟨st, hst, -⟩ := hx
    cases hst
  resumes h := by cases h

/-- `sys_ticket_sleep` affects its caller only exactly if no process has the
pid, or the first that has it is the caller and the lock lies in its memory. -/
theorem ticketSleep_affects_caller_iff (c : Sleeper) : AffectsCaller c ↔
    ∀ pid lock, argint c.user 0 = some pid → argptr c.user 1 4 = some lock →
      (∀ k, (c.table k).pid ≠ pid) ∨
        findPid c.table pid = some c.proc ∧ lock.toNat + 8 ≤ c.user.sz.toNat := by
  constructor
  · rintro ⟨r, hr, hconf⟩ pid lock hpid hlock
    have hcheck : lock.toNat + 4 ≤ c.user.sz.toNat :=
      ((argptr_eq_some (by decide)).mp hlock).2.2
    rw [sysTicketSleep_args (sleepArgs_eq_some.mpr ⟨hpid, hlock⟩)] at hr
    cases hk : findPid c.table pid with
    | none => exact .inl (findPid_eq_none.mp hk)
    | some k =>
      rw [ticketSleep_found hk] at hr
      obtain ⟨st, hst, hr⟩ := Option.bind_eq_some_iff.mp hr
      obtain ⟨hown, hr⟩ := Option.ite_none_right_eq_some.mp hr
      subst hown
      obtain rfl := Option.some.inj hr
      obtain ⟨haddr, hwidth⟩ := lockRelease_eq_some hcheck hst
      have hlast := hconf.inside (lock.toNat + 7) ⟨st, List.mem_singleton_self st, by omega, by omega⟩
      exact .inr ⟨rfl, hlast⟩
  · intro h
    cases hargs : sleepArgs c with
    | none => exact ⟨_, by rw [sysTicketSleep, hargs], confined_same⟩
    | some args =>
      obtain ⟨pid, lock⟩ := args
      obtain ⟨hpid, hlock⟩ := sleepArgs_eq_some.mp hargs
      rw [AffectsCaller, sysTicketSleep_args hargs]
      rcases h pid lock hpid hlock with hnone | ⟨hown, hinside⟩
      · obtain ⟨cpu, hsleep⟩ := ticketSleep_missing (findPid_eq_none.mpr hnone) lock
        exact ⟨_, hsleep, confined_same⟩
      · obtain ⟨st, hst⟩ := Option.isSome_iff_exists.mp (lockRelease_isSome hinside)
        obtain ⟨haddr, hwidth⟩ := lockRelease_eq_some (by omega) hst
        refine ⟨_, by rw [ticketSleep_found hown, hst, Option.bind_some, if_pos rfl], ?_⟩
        constructor
        · nofun
        · exact fun k hk => Function.update_of_ne hk ..
        · exact ⟨.sleeping, Function.update_self ..⟩
        · rintro x ⟨st', hst', hlo, hhi⟩
          obtain rfl := List.mem_singleton.mp hst'
          omega
        · exact fun _ _ _ _ => wokenUp_isSome

/-- The process 1 runs in slot 0 and calls with the pid of the process 2, which
sleeps in slot 1. -/
def sleepOther : Sleeper where
  table k :=
    if k = 0 then ⟨4096, 2, 1, .running, 1, none, .null, false, false⟩
    else if k = 1 then ⟨4096, 4, 3, .sleeping, 2, some 0, .other 0, false, false⟩
    else ⟨0, 0, 0, .unused, 0, none, .null, false, false⟩
  proc := 0
  user := ⟨4096, 0, (Lib.Memory.write (fun _ => 0) 4 4 2).write 8 4 0x100, by decide⟩
  mapped _ := true
  lock := ⟨false, none⟩
  cpu := ⟨0, 0, false, true⟩
  running := rfl
  size := rfl
  reaches _ _ := rfl
  unlocked := rfl
  ncli := rfl

theorem ticketSleep_panics : ¬∀ c, AffectsCaller c := by
  intro h
  obtain ⟨r, hr, -⟩ := h sleepOther
  have hnone : (sysTicketSleep sleepOther).isSome = false := by decide +kernel
  rw [hr] at hnone
  cases hnone

end PerrOS.Ptable
