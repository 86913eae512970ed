import PerrOS.Lib.System
import PerrOS.Stride.Scheduler

/-!
# The stride kernel

The operations of `proc.c` that write a process's state or its stride data,
each as one step, on any set of CPUs. A CPU is in its scheduler where its
`proc` is null; elsewhere the process that `proc` names makes the calls.
Interrupts call `wakeup` at any moment.
-/

namespace PerrOS.Stride

open Function (update)
open Lib (System)
open Xv6

def STRIDE : BitVec 32 := 15000

def INIT_TICKET_VAL : BitVec 32 := 10

/-- A `void *chan` that is not null: the address of an entry of `ptable`, or
any other. -/
inductive Chan
  | proc (p : Slot)
  | other (addr : Nat)
deriving DecidableEq, Repr

/-- The fields of `struct proc` that `scheduler` does not look at. -/
structure Task where
  pid : BitVec 32
  parent : Option Slot
  chan : Option Chan
  killed : Bool
deriving DecidableEq, Repr

structure State (Cpu : Type) extends Kernel where
  task : Slot → Task
  nextpid : BitVec 32
  initproc : Slot
  proc : Cpu → Option Slot

variable {Cpu : Type}

def State.setState (s : State Cpu) (p : Slot) (state : ProcState) : State Cpu :=
  { s with ptable := update s.ptable p { s.ptable p with state } }

def State.setStride (s : State Cpu) (p : Slot) (d : StrideData) : State Cpu :=
  { s with ptable := update s.ptable p { s.ptable p with strideData := d } }

def State.setTask (s : State Cpu) (p : Slot) (t : Task) : State Cpu :=
  { s with task := update s.task p t }

/-- The zeroed data the kernel is loaded with. -/
def bss : State Cpu where
  ptable _ := ⟨.unused, 0, 0, 0, 0⟩
  globalMinPassVal := 0
  task _ := ⟨0, none, none, false⟩
  nextpid := 1
  initproc := 0
  proc _ := none

-- ---------------------------------------------------------------------------
-- Creation
-- ---------------------------------------------------------------------------

def allocproc (s : State Cpu) : Option (Slot × State Cpu) :=
  (slots.find? fun p => (s.ptable p).state = .unused).map fun p =>
    (p, { (s.setState p .embryo).setTask p { s.task p with pid := s.nextpid } with
          nextpid := s.nextpid + 1 })

def userinit (s : State Cpu) : Option (State Cpu) :=
  (allocproc s).map fun (p, s) =>
    { (s.setState p .runnable).setStride p
        { (s.ptable p).strideData with numTickets := INIT_TICKET_VAL, n_schedule := 0 } with
      initproc := p }

/-- The assignments `fork` makes to the child after `allocproc`. -/
inductive Assign
  | parent
  | state
  | numTickets
  | strideVal
  | passVal
  | n_schedule
deriving DecidableEq, Repr

def Assign.run (me np : Slot) (s : State Cpu) : Assign → State Cpu
  | .parent => s.setTask np { s.task np with parent := some me }
  | .state => s.setState np .runnable
  | .numTickets => s.setStride np { (s.ptable np).strideData with numTickets := INIT_TICKET_VAL }
  | .strideVal =>
    s.setStride np { (s.ptable np).strideData with strideVal := STRIDE.sdiv INIT_TICKET_VAL }
  | .passVal => s.setStride np { (s.ptable np).strideData with passVal := s.globalMinPassVal }
  | .n_schedule => s.setStride np { (s.ptable np).strideData with n_schedule := 0 }

/-- The assignments in the order of the source. -/
def Assign.all : List Assign := [parent, state, numTickets, strideVal, passVal, n_schedule]

/-- `fork`, where `mem` says whether `kalloc` and `copyuvm` find the memory
for a kernel stack and a copy of the address space. -/
def fork (me : Slot) (mem : Bool) (s : State Cpu) : State Cpu :=
  match allocproc s with
  | none => s
  | some (np, s) => if mem then Assign.all.foldl (Assign.run me np) s else s.setState np .unused

-- ---------------------------------------------------------------------------
-- Leaving the CPU and becoming runnable again
-- ---------------------------------------------------------------------------

section
variable [DecidableEq Cpu]

/-- One iteration of `scheduler` on the CPU `c`. -/
def schedule (c : Cpu) (s : State Cpu) : State Cpu :=
  { s with toKernel := (scheduler s.toKernel).2, proc := update s.proc c (scheduler s.toKernel).1 }

/-- `sched`, back in the scheduler of `c`, which sets `proc = 0`. -/
def sched (c : Cpu) (s : State Cpu) : State Cpu := { s with proc := update s.proc c none }

def yield (c : Cpu) (me : Slot) (s : State Cpu) : State Cpu := sched c (s.setState me .runnable)

def sleep (c : Cpu) (me : Slot) (chan : Chan) (s : State Cpu) : State Cpu :=
  sched c ((s.setTask me { s.task me with chan := some chan }).setState me .sleeping)

end

/-- What `wakeup1` writes to a process that sleeps on the channel. -/
def Entry.wake (e : Entry) (globalMinPassVal : BitVec 32) : Entry :=
  { state := .runnable
    strideData := { e.strideData with passVal := globalMinPassVal } }

/-- The test of `wakeup1`. -/
def Asleep (s : State Cpu) (chan : Option Chan) (p : Slot) : Prop :=
  (s.ptable p).state = .sleeping ∧ (s.task p).chan = chan

instance (s : State Cpu) (chan : Option Chan) (p : Slot) : Decidable (Asleep s chan p) :=
  inferInstanceAs (Decidable (_ ∧ _))

def wakeup1 (chan : Option Chan) (s : State Cpu) : State Cpu :=
  { s with ptable := fun p =>
      if Asleep s chan p then (s.ptable p).wake s.globalMinPassVal else s.ptable p }

/-- The process `kill` finds. -/
def killTarget (s : State Cpu) (pid : BitVec 32) : Option Slot :=
  slots.find? fun p => (s.task p).pid = pid

def kill (pid : BitVec 32) (s : State Cpu) : State Cpu :=
  match killTarget s pid with
  | none => s
  | some p =>
    let s := s.setTask p { s.task p with killed := true }
    if (s.ptable p).state = .sleeping then s.setState p .runnable else s

/-- The tickets `proc_settickets` accepts. -/
def ValidTickets (tickets : BitVec 32) : Prop :=
  (10 ≤ tickets.toInt ∧ tickets.toInt ≤ 150) ∧ tickets.toInt % 10 = 0

instance (tickets : BitVec 32) : Decidable (ValidTickets tickets) :=
  inferInstanceAs (Decidable ((_ ∧ _) ∧ _))

def StrideData.settickets (d : StrideData) (tickets : BitVec 32) : StrideData :=
  { d with numTickets := tickets, strideVal := STRIDE.sdiv tickets }

def settickets (me : Slot) (tickets : BitVec 32) (s : State Cpu) : State Cpu :=
  if ValidTickets tickets then s.setStride me ((s.ptable me).strideData.settickets tickets) else s

-- ---------------------------------------------------------------------------
-- The end of a process
-- ---------------------------------------------------------------------------

/-- One turn of the loop of `exit` that passes children to init. -/
def reparent (me : Slot) (s : State Cpu) (p : Slot) : State Cpu :=
  if (s.task p).parent = some me then
    let s := s.setTask p { s.task p with parent := some s.initproc }
    if (s.ptable p).state = .zombie then wakeup1 (some (.proc s.initproc)) s else s
  else s

def reap (p : Slot) (s : State Cpu) : State Cpu :=
  (s.setState p .unused).setTask p { s.task p with pid := 0, parent := none, killed := false }

variable [DecidableEq Cpu]

/-- `exit`; for init it panics. -/
def exit (c : Cpu) (me : Slot) (s : State Cpu) : Option (State Cpu) :=
  if me = s.initproc then none
  else
    let s := wakeup1 ((s.task me).parent.map .proc) s
    let s := slots.foldl (reparent me) s
    some (sched c (s.setState me .zombie))

/-- One round of `wait`: a child is reaped, or there is no point in waiting,
or the process sleeps until a child exits. -/
def wait (c : Cpu) (me : Slot) (s : State Cpu) : State Cpu :=
  match slots.find? fun p => (s.task p).parent = some me ∧ (s.ptable p).state = .zombie with
  | some p => reap p s
  | none =>
    if (∀ p, (s.task p).parent ≠ some me) ∨ (s.task me).killed then s
    else sleep c me (.proc me) s

-- ---------------------------------------------------------------------------
-- The machine
-- ---------------------------------------------------------------------------

/-- What a process does on the CPU it runs on. -/
inductive Call
  | yield
  | sleep (chan : Chan)
  | kill (pid : BitVec 32)
  | settickets (tickets : BitVec 32)
  | fork (mem : Bool)
  | exit
  | wait
deriving DecidableEq, Repr

def Call.run (c : Cpu) (me : Slot) (s : State Cpu) : Call → Option (State Cpu)
  | .yield => some (Stride.yield c me s)
  | .sleep chan => some (Stride.sleep c me chan s)
  | .kill pid => some (Stride.kill pid s)
  | .settickets tickets => some (Stride.settickets me tickets s)
  | .fork mem => some (Stride.fork me mem s)
  | .exit => Stride.exit c me s
  | .wait => some (Stride.wait c me s)

inductive Label (Cpu : Type)
  | schedule (c : Cpu)
  | wakeup (chan : Chan)
  | call (c : Cpu) (me : Slot) (call : Call)
deriving DecidableEq, Repr

def next (s : State Cpu) : Label Cpu → Option (State Cpu)
  | .schedule c => if s.proc c = none then some (schedule c s) else none
  | .wakeup chan => some (wakeup1 (some chan) s)
  | .call c me call => if s.proc c = some me then call.run c me s else none

/-- The kernel from `userinit` on. -/
def kernel (Cpu : Type) [DecidableEq Cpu] : System (State Cpu) (Label Cpu) :=
  .ofNext (fun s => userinit bss = some s) next

end PerrOS.Stride
