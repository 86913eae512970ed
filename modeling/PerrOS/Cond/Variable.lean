import PerrOS.Ticket.Lock
import PerrOS.Xv6.Process

/-!
# Condition variables

`cv_wait` and `cv_signal` of `cvarlib.c`, down to `ticket_sleep`,
`proc_wakeup`, `yield` and `scheduler`, as the atomic steps of any number of
threads on any number of CPUs. A waiter queues its pid in user space,
releases the ticket lock inside the kernel while it holds `ptable.lock`, and
only then becomes `SLEEPING`; a signaller holds the ticket lock when it takes
`ptable.lock` to scan the table.

Every access to `state` is under `ptable.lock`, so the scan of `proc_wakeup`
is one step, and so are the assignment to `state` and the switch of `yield`.
-/

namespace PerrOS.Cond

open Function (update)
open Lib (System)
open Xv6 (ProcState)

def CVAR_QUEUE_SIZE : Nat := 64

/-- `cond_t`. -/
structure Cvar where
  head : Nat
  tail : Nat
  init : Bool
  queue : Nat → Int

def cvInit (cvar : Cvar) : Cvar := { cvar with head := 0, tail := 0, init := true }

/-- `if(!cvar->init) cv_init(cvar)`. -/
def Cvar.ready (cvar : Cvar) : Cvar := if !cvar.init then cvInit cvar else cvar

/-- The test of `cv_wait`, which misses a queue that is full up to slot 63. -/
def Cvar.full (cvar : Cvar) : Bool :=
  CVAR_QUEUE_SIZE ≤ cvar.tail || cvar.tail + 1 == cvar.head

/-- How many pids are queued. -/
def Cvar.count (cvar : Cvar) : Nat :=
  (cvar.tail + CVAR_QUEUE_SIZE - cvar.head) % CVAR_QUEUE_SIZE

-- ---------------------------------------------------------------------------
-- Program points
-- ---------------------------------------------------------------------------

/-- The points at which a timer interrupt can take the CPU: user code, and the
calls of `ticket_sleep` and `proc_wakeup` until they hold `ptable.lock`. -/
inductive Code (C : Type)
  | user
  | waitTest (c : C)
  | waitStore (c : C)
  | waitAdvance (c : C)
  | waitSleep (c : C)
  | waitTake (c : C)
  | waitSpin (c : C)
  | signalTest (c : C)
  | signalLoad (c : C)
  | signalClear (c : C) (currPid : Int)
  | signalAdvance (c : C) (currPid : Int)
  | signalWake (c : C) (currPid : Int)
deriving DecidableEq

/-- The points of `ticket_sleep` and `proc_wakeup` under `ptable.lock`;
`asleep` is inside `sched`, with the lock left to the scheduler. -/
inductive Kernel (C : Type)
  | sleepUnlock (c : C)
  | sleepMark (c : C)
  | sleepSwitch (c : C)
  | asleep (c : C)
  | sleepDone (c : C)
  | wakeScan (c : C) (pid : Int)
  | wakeDone (c : C)
deriving DecidableEq

/-- `yielding p state` holds `ptable.lock` and is about to set `state` and
call `sched`, `away p` is switched out there, and `resuming p` is switched in
again and about to release `ptable.lock`. -/
inductive Pc (C : Type)
  | run (p : Code C)
  | yielding (p : Code C) (state : ProcState)
  | away (p : Code C)
  | resuming (p : Code C)
  | kernel (p : Kernel C)
deriving DecidableEq

structure State (Thread Cpu L C : Type) where
  locks : L → Ticket.State Thread
  conds : C → Cvar
  pc : Thread → Pc C
  /-- `p->state`. -/
  pstate : Thread → ProcState
  /-- `cpu->proc`; a CPU without a process is in `scheduler`. -/
  proc : Cpu → Option Thread
  /-- The CPU that holds `ptable.lock`. -/
  ptable : Option Cpu

/-- The pids of the threads, and the ticket lock each `cond_t` is used with. -/
structure Setup (Thread L C : Type) where
  pid : Thread → Int
  pid_inj : Function.Injective pid
  pid_range : ∀ t, 0 < pid t ∧ pid t < 2 ^ 31
  lockOf : C → L

/-- There are no more threads than pids, so fewer than tickets. -/
theorem Setup.few_threads {Thread L C : Type} (cfg : Setup Thread L C) :
    ∃ _ : Fintype Thread, Fintype.card Thread < 2 ^ 32 := by
  have hlt (t : Thread) : (cfg.pid t).toNat < 2 ^ 31 := by
    have := cfg.pid_range t
    omega
  have hinj : Function.Injective fun t => (⟨(cfg.pid t).toNat, hlt t⟩ : Fin (2 ^ 31)) := by
    intro t u h
    have ht := cfg.pid_range t
    have hu := cfg.pid_range u
    have h : (cfg.pid t).toNat = (cfg.pid u).toNat := congrArg Fin.val h
    exact cfg.pid_inj (by omega)
  let _ := Fintype.ofInjective _ hinj
  refine ⟨inferInstance, ?_⟩
  calc Fintype.card Thread ≤ Fintype.card (Fin (2 ^ 31)) := Fintype.card_le_of_injective _ hinj
    _ < 2 ^ 32 := by rw [Fintype.card_fin]; decide

-- ---------------------------------------------------------------------------
-- Steps
-- ---------------------------------------------------------------------------

inductive WaitStep
  | call
  | test
  | store
  | enqueue
  | acquire
  | unlock
  | mark
  | switch
  | leave
  | take
  | spin
  | ret

inductive SignalStep
  | call
  | test
  | load
  | clear (currPid : Int)
  | dequeue (currPid : Int)
  | acquire (currPid : Int)
  | scan (pid : Int)
  | leave

inductive Label (Thread Cpu L C : Type)
  | schedAcquire (k : Cpu)
  | dispatch (k : Cpu) (t : Thread)
  | schedRelease (k : Cpu)
  | yieldAcquire (k : Cpu) (t : Thread) (p : Code C) (state : ProcState)
  | yieldSwitch (k : Cpu) (t : Thread) (p : Code C) (state : ProcState)
  | yieldRelease (k : Cpu) (t : Thread) (p : Code C)
  | wakeOther (t : Thread) (p : Code C)
  | lock (k : Cpu) (l : L) (t : Thread) (a : Ticket.Act Thread)
  | wait (k : Cpu) (t : Thread) (c : C) (a : WaitStep)
  | signal (k : Cpu) (t : Thread) (c : C) (a : SignalStep)

variable {Thread Cpu L C : Type}
variable [DecidableEq Thread] [DecidableEq Cpu] [DecidableEq L] [DecidableEq C]

namespace State

def goto (s : State Thread Cpu L C) (t : Thread) (p : Pc C) : State Thread Cpu L C :=
  { s with pc := update s.pc t p }

def setCond (s : State Thread Cpu L C) (c : C) (cvar : Cvar) : State Thread Cpu L C :=
  { s with conds := update s.conds c cvar }

def setLock (s : State Thread Cpu L C) (l : L) (lk : Ticket.State Thread) :
    State Thread Cpu L C :=
  { s with locks := update s.locks l lk }

def setState (s : State Thread Cpu L C) (t : Thread) (state : ProcState) :
    State Thread Cpu L C :=
  { s with pstate := update s.pstate t state }

def setProc (s : State Thread Cpu L C) (k : Cpu) (t : Option Thread) : State Thread Cpu L C :=
  { s with proc := update s.proc k t }

def setPtable (s : State Thread Cpu L C) (k : Option Cpu) : State Thread Cpu L C :=
  { s with ptable := k }

/-- Thread `t`, at `p` on CPU `k`, takes the state to `s'`. -/
def step (s : State Thread Cpu L C) (k : Cpu) (t : Thread) (p : Pc C)
    (s' : State Thread Cpu L C) : Option (State Thread Cpu L C) :=
  if s.proc k = some t ∧ s.pc t = p then some s' else none

omit [DecidableEq Cpu] [DecidableEq L] in
theorem step_eq_some {s s' u : State Thread Cpu L C} {k : Cpu} {t : Thread} {p : Pc C} :
    s.step k t p s' = some u ↔ (s.proc k = some t ∧ s.pc t = p) ∧ u = s' := by
  simp [step, eq_comm]

end State

section
variable (cfg : Setup Thread L C) (s : State Thread Cpu L C) (k : Cpu) (t : Thread) (c : C)

/-- `cv_wait(c, cfg.lockOf c)`, called with the lock held; `unlock` to `leave`
are `ticket_sleep`, which finds the caller's own entry under its pid. -/
def waitStep : WaitStep → Option (State Thread Cpu L C)
  | .call =>
    if (s.locks (cfg.lockOf c)).pc t = .critical then
      s.step k t (.run .user) (s.goto t (.run (.waitTest c)))
    else none
  | .test =>
    let cvar := (s.conds c).ready
    s.step k t (.run (.waitTest c))
      ((s.setCond c cvar).goto t (.run (if cvar.full then .user else .waitStore c)))
  | .store =>
    let cvar := s.conds c
    s.step k t (.run (.waitStore c))
      ((s.setCond c { cvar with queue := update cvar.queue cvar.tail (cfg.pid t) }).goto t
        (.run (.waitAdvance c)))
  | .enqueue =>
    let cvar := s.conds c
    s.step k t (.run (.waitAdvance c))
      ((s.setCond c { cvar with tail := (cvar.tail + 1) % CVAR_QUEUE_SIZE }).goto t
        (.run (.waitSleep c)))
  | .acquire =>
    if s.ptable = none then
      s.step k t (.run (.waitSleep c)) ((s.setPtable (some k)).goto t (.kernel (.sleepUnlock c)))
    else none
  | .unlock =>
    s.step k t (.kernel (.sleepUnlock c))
      ((s.setLock (cfg.lockOf c) (Ticket.release (s.locks (cfg.lockOf c)) t)).goto t
        (.kernel (.sleepMark c)))
  | .mark =>
    s.step k t (.kernel (.sleepMark c)) ((s.setState t .sleeping).goto t (.kernel (.sleepSwitch c)))
  | .switch =>
    s.step k t (.kernel (.sleepSwitch c)) ((s.setProc k none).goto t (.kernel (.asleep c)))
  | .leave =>
    s.step k t (.kernel (.sleepDone c)) ((s.setPtable none).goto t (.run (.waitTake c)))
  | .take =>
    s.step k t (.run (.waitTake c))
      ((s.setLock (cfg.lockOf c) (Ticket.take (s.locks (cfg.lockOf c)) t)).goto t
        (.run (.waitSpin c)))
  | .spin =>
    (Ticket.next (s.locks (cfg.lockOf c)) (.spin t)).bind fun _ =>
      s.step k t (.run (.waitSpin c)) s
  | .ret =>
    (Ticket.next (s.locks (cfg.lockOf c)) (.enter t)).bind fun lk =>
      s.step k t (.run (.waitSpin c)) ((s.setLock (cfg.lockOf c) lk).goto t (.run .user))

/-- `cv_signal(c)`, called with the lock held; `acquire` to `leave` are
`proc_wakeup`. -/
def signalStep : SignalStep → Option (State Thread Cpu L C)
  | .call =>
    if (s.locks (cfg.lockOf c)).pc t = .critical then
      s.step k t (.run .user) (s.goto t (.run (.signalTest c)))
    else none
  | .test =>
    let cvar := (s.conds c).ready
    s.step k t (.run (.signalTest c))
      ((s.setCond c cvar).goto t (.run (if cvar.head = cvar.tail then .user else .signalLoad c)))
  | .load =>
    let cvar := s.conds c
    s.step k t (.run (.signalLoad c)) (s.goto t (.run (.signalClear c (cvar.queue cvar.head))))
  | .clear currPid =>
    let cvar := s.conds c
    s.step k t (.run (.signalClear c currPid))
      ((s.setCond c { cvar with queue := update cvar.queue cvar.head (-1) }).goto t
        (.run (.signalAdvance c currPid)))
  | .dequeue currPid =>
    let cvar := s.conds c
    s.step k t (.run (.signalAdvance c currPid))
      ((s.setCond c { cvar with head := (cvar.head + 1) % CVAR_QUEUE_SIZE }).goto t
        (.run (.signalWake c currPid)))
  | .acquire currPid =>
    if s.ptable = none then
      s.step k t (.run (.signalWake c currPid))
        ((s.setPtable (some k)).goto t (.kernel (.wakeScan c currPid)))
    else none
  | .scan pid =>
    let pstate u := if s.pstate u = .sleeping ∧ cfg.pid u = pid then .runnable else s.pstate u
    s.step k t (.kernel (.wakeScan c pid)) ({ s with pstate }.goto t (.kernel (.wakeDone c)))
  | .leave =>
    s.step k t (.kernel (.wakeDone c)) ((s.setPtable none).goto t (.run .user))

end

/-- Where the scheduler's `swtch` continues a thread that is not running. -/
def Pc.resume : Pc C → Option (Pc C)
  | .away p => some (.resuming p)
  | .kernel (.asleep c) => some (.kernel (.sleepDone c))
  | _ => none

/-- What a thread may leave the CPU for at `p`: the timer takes it anywhere,
and user code may block or exit in a system call of its own. -/
def Code.leavesAs (p : Code C) (state : ProcState) : Bool :=
  state = .runnable || (p = .user && (state = .sleeping || state = .zombie))

def next (cfg : Setup Thread L C) (s : State Thread Cpu L C) :
    Label Thread Cpu L C → Option (State Thread Cpu L C)
  | .schedAcquire k =>
    if s.proc k = none ∧ s.ptable = none then some (s.setPtable (some k)) else none
  | .dispatch k t =>
    if s.proc k = none ∧ s.ptable = some k ∧ s.pstate t = .runnable then
      (s.pc t).resume.map fun p => ((s.setProc k (some t)).setState t .running).goto t p
    else none
  | .schedRelease k =>
    if s.proc k = none ∧ s.ptable = some k then some (s.setPtable none) else none
  | .yieldAcquire k t p state =>
    if s.ptable = none ∧ p.leavesAs state then
      s.step k t (.run p) ((s.setPtable (some k)).goto t (.yielding p state))
    else none
  | .yieldSwitch k t p state =>
    s.step k t (.yielding p state) (((s.setState t state).setProc k none).goto t (.away p))
  | .yieldRelease k t p =>
    s.step k t (.resuming p) ((s.setPtable none).goto t (.run p))
  -- a wake-up of a thread that sleeps elsewhere, or the end of its creation
  | .wakeOther t p =>
    if s.ptable = none ∧ s.pc t = .away p ∧ (s.pstate t = .sleeping ∨ s.pstate t = .embryo) then
      some (s.setState t .runnable)
    else none
  -- `lock_acquire` and `lock_release` called by user code
  | .lock k l t a =>
    if a.thread = t then
      (Ticket.next (s.locks l) a).bind fun lk => s.step k t (.run .user) (s.setLock l lk)
    else none
  | .wait k t c a => waitStep cfg s k t c a
  | .signal k t c a => signalStep cfg s k t c a

/-- Every lock and condition variable is unused, and every thread is off the
CPUs, in user code. -/
structure Initial (s : State Thread Cpu L C) : Prop where
  locks : ∀ l, s.locks l = .initial
  conds : ∀ c, (s.conds c).init = true → (s.conds c).head = 0 ∧ (s.conds c).tail = 0
  pc : ∀ t, s.pc t = .away .user
  proc : ∀ k, s.proc k = none
  ptable : s.ptable = none

def system (cfg : Setup Thread L C) : System (State Thread Cpu L C) (Label Thread Cpu L C) :=
  .ofNext Initial (next cfg)

/-- `cv_wait` is called while fewer than `CVAR_QUEUE_SIZE - 1` pids are
queued. -/
def hasRoom (s : State Thread Cpu L C) : Label Thread Cpu L C → Prop
  | .wait _ _ c .test => (s.conds c).ready.count < CVAR_QUEUE_SIZE - 1
  | _ => True

instance (s : State Thread Cpu L C) (l : Label Thread Cpu L C) : Decidable (hasRoom s l) := by
  unfold hasRoom
  split <;> infer_instance

/-- The threads in the order in which they queued on `c`. -/
def enqueued (c : C) (ls : List (Label Thread Cpu L C)) : List Thread :=
  ls.filterMap fun
    | .wait _ t d .enqueue => if d = c then some t else none
    | _ => none

/-- The pids in the order in which `cv_signal` took them out of `c`. -/
def dequeued (c : C) (ls : List (Label Thread Cpu L C)) : List Int :=
  ls.filterMap fun
    | .signal _ _ d (.dequeue currPid) => if d = c then some currPid else none
    | _ => none

end PerrOS.Cond
