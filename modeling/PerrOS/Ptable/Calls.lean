import PerrOS.Lib.System
import PerrOS.Ptable.Table

/-!
# The kernel with threads

The system calls of `proc.c` and `exec` as atomic steps on any number of CPUs.
A critical section of `ptable.lock` is one step. What `fork` and `proc_clone`
write to the new entry they write without the lock, so each assignment is a
step of its own, and so is each read of `p->pid` in `exit` while the lock is
dropped.
-/

namespace PerrOS.Ptable

open Function (update)
open Lib (System)
open Xv6 (ProcState Slot slots)

def PGSIZE : BitVec 32 := 4096

/-- The end of the user address space (`types.h`). -/
def USERTOP : BitVec 32 := 0xA0000

variable (s : State) (p : Slot)

-- ---------------------------------------------------------------------------
-- Creation
-- ---------------------------------------------------------------------------

/-- `fork` and `proc_clone` up to the return of `allocproc`'s lock; `start`
is where they go on with the slot found. -/
def create (start : Slot → Pc) : State :=
  match allocproc s with
  | some (np, s) => s.setPc p (start np)
  | none => s

/-- `kalloc` for the stack of the new entry, which goes on at `then_`. -/
def allocStack (kind : Kind) (np : Slot) (pg : Page) (then_ : Pc) : Option State :=
  if s.free pg then
    if pg = 0 then
      some ((s.set np { s.proc np with kstack := 0, state := .unused }).setPc p .user)
    else
      some ((((s.take pg).set np { s.proc np with kstack := pg }).emit
        (.created kind (s.proc np).pid pg)).setPc p then_)
  else none

/-- `np->state = RUNNABLE`, and the call returns. -/
def publish (np : Slot) : State :=
  ((s.setState np .runnable).setPc np .user).setPc p .user

def forkStep (np : Slot) (pg : Page) : ForkStage → Option State
  | .kstack => allocStack s p .fork np pg (.forking np .pgdir)
  | .pgdir =>
    if s.free pg then
      if pg = 0 then
        let e := s.proc np
        some ((((s.kfree e.kstack).set np { e with pgdir := 0, kstack := 0, state := .unused }).emit
          (.unwound e.pid e.kstack)).setPc p .user)
      else some (((s.take pg).set np { s.proc np with pgdir := pg }).setPc p (.forking np .sz))
    else none
  | .sz => some ((s.set np { s.proc np with sz := (s.proc p).sz }).setPc p (.forking np .parent))
  | .parent => some ((s.set np { s.proc np with parent := some p }).setPc p (.forking np .isThread))
  | .isThread => some ((s.set np { s.proc np with isThread := false }).setPc p (.forking np .state))
  | .state => some (publish s p np)

/-- The process that the threads of `p` have as their parent. -/
def mainOf : Option Slot := if (s.proc p).isThread then (s.proc p).parent else some p

def cloneStep (np : Slot) (pg : Page) : CloneStage → Option State
  | .kstack => allocStack s p .clone np pg (.cloning np .parent)
  | .parent => some ((s.set np { s.proc np with parent := mainOf s p }).setPc p (.cloning np .sz))
  | .sz => some ((s.set np { s.proc np with sz := (s.proc p).sz }).setPc p (.cloning np .pgdir))
  | .pgdir =>
    some ((s.set np { s.proc np with pgdir := (s.proc p).pgdir }).setPc p (.cloning np .isThread))
  | .isThread => some ((s.set np { s.proc np with isThread := true }).setPc p (.cloning np .state))
  | .state => some (publish s p np)

/-- The stack arguments that `proc_clone` turns down. -/
def badStack (sz stack : BitVec 32) : Bool :=
  stack = 0 || stack % PGSIZE ≠ 0 || sz - stack < PGSIZE

-- ---------------------------------------------------------------------------
-- Waiting and the end of a process
-- ---------------------------------------------------------------------------

/-- One turn of the loop of `wait` or `proc_join`, which either goes to sleep
or returns. -/
def turn (call : Reaper) (looksAt : Slot → Bool) (asleep done : Pc) : State :=
  match scan s p looksAt with
  | .reap k => (reap s call k).setPc p done
  | .fail => s.setPc p done
  | .sleep => (sleep s p (.proc p)).setPc p asleep

def wait : State := turn s p .wait (isChild s p) .waiting .user

def join (pid : Pid) : State := turn s p .join (isJoinable s p pid) (.joining pid) .user

/-- `proc_join` called by `exit` for slot `i`. -/
def exitJoin (i : Slot) (pid : Pid) : State :=
  turn s p .join (isJoinable s p pid) (.exitAsleep i pid) (.exitResume i)

/-- `exit` from the slots that are left of its pass. -/
def exitFrom (ks : List Slot) : State :=
  match exitPass s p ks with
  | (s, some k) => s.setPc p (.exitKill k)
  | (s, none) => ((wakeup1 s (chanOf (s.proc p).parent)).setState p .zombie).setPc p .dead

/-- `exit` back from `proc_join` for slot `i`. -/
def exitResume (i : Slot) : State :=
  exitFrom (if sibling s p i then wakeup1 s (.proc i) else s) p (slots.filter (i < ·))

-- ---------------------------------------------------------------------------
-- The address space
-- ---------------------------------------------------------------------------

/-- The size `allocuvm` returns; `mem` says whether `kalloc` finds the pages. -/
def allocuvm (oldsz newsz : BitVec 32) (mem : Bool) : BitVec 32 :=
  if USERTOP < newsz then 0
  else if newsz < oldsz then oldsz
  else if mem then newsz
  else 0

def deallocuvm (oldsz newsz : BitVec 32) : BitVec 32 :=
  if oldsz ≤ newsz then oldsz else newsz

def newSize (sz n : BitVec 32) (mem : Bool) : BitVec 32 :=
  if 0 < n.toInt then allocuvm sz (sz + n) mem
  else if n.toInt < 0 then deallocuvm sz (sz + n)
  else sz

/-- The entries whose size `growproc` sets, the caller's own apart. -/
def inGroup (k : Slot) : Bool :=
  ownThread s p k || ((s.proc p).parent = some k && (s.proc p).isThread) || sibling s p k

/-- `growproc` is about to return -1. -/
def growFails (n : BitVec 32) (mem : Bool) : Bool := n ≠ 0 && newSize (s.proc p).sz n mem = 0

/-- The table with a size written to the caller and to the entries `growproc`
takes for its group. -/
def resize (sz : BitVec 32) : State :=
  { s with proc := fun k => if k = p || inGroup s p k then { s.proc k with sz } else s.proc k }

/-- A failure returns without `release(&ptable.lock)`. -/
def growproc (n : BitVec 32) (mem : Bool) : State :=
  if growFails s p n mem then { s with wedged := true }
  else resize s p (newSize (s.proc p).sz n mem)

/-- `exec` once the new image is complete: `pg` is its page directory. -/
def commit (pg : Page) (sz : BitVec 32) : State :=
  ((s.take pg).set p { s.proc p with pgdir := pg, sz }).freevm p (s.proc p).pgdir

-- ---------------------------------------------------------------------------
-- The machine
-- ---------------------------------------------------------------------------

/-- What a process does on its CPU. The page of `step` is what `kalloc`
returns, where the step calls it; an `exec` with a null page fails. -/
inductive Act
  | yield
  | sleep (n : Nat)
  | fork
  | clone (stack : BitVec 32)
  | exit
  | kill (pid : Pid)
  | wait
  | join (pid : Pid)
  | exec (pg : Page) (sz : BitVec 32)
  | growproc (n : BitVec 32) (mem : Bool)
  | step (pg : Page)
deriving DecidableEq

inductive Label
  | dispatch (p : Slot)
  | wakeup (n : Nat)
  | run (p : Slot) (a : Act)
deriving DecidableEq

/-- A critical section of `ptable.lock`. -/
def State.locked (s t : State) : Option State := if s.wedged then none else some t

def act : Act → Pc → Option State
  | .yield, _ => s.locked (s.setState p .runnable)
  | .sleep n, .user => s.locked ((sleep s p (.other n)).setPc p .blocked)
  | .fork, .user => if (s.proc p).isThread then some s else s.locked (create s p (.forking · .kstack))
  | .clone stack, .user =>
    if badStack (s.proc p).sz stack then some s else s.locked (create s p (.cloning · .kstack))
  -- init panics
  | .exit, .user => if p = initproc then none else s.locked (exitFrom s p slots)
  | .kill pid, .user => s.locked (kill s pid)
  | .wait, .user => if (s.proc p).isThread then some s else s.locked (wait s p)
  | .join pid, .user => s.locked (join s p pid)
  | .exec pg sz, .user =>
    if pg = 0 then some s else if s.free pg then some (commit s p pg sz) else none
  | .growproc n mem, .user => s.locked (growproc s p n mem)
  | .step pg, .forking np next => forkStep s p np pg next
  | .step pg, .cloning np next => cloneStep s p np pg next
  | .step _, .exitKill i => some (s.setPc p (.exitKilling i (s.proc i).pid))
  | .step _, .exitKilling i pid => s.locked ((kill s pid).setPc p (.exitJoin i))
  | .step _, .exitJoin i => some (s.setPc p (.exitJoining i (s.proc i).pid))
  | .step _, .exitJoining i pid => s.locked (exitJoin s p i pid)
  | .step _, .exitResume i => s.locked (exitResume s p i)
  | _, _ => none

/-- A process that is switched to, where it left the CPU. -/
def resume : Pc → State
  | .blocked => (tidy s p).setPc p .user
  | .waiting => wait (tidy s p) p
  | .joining pid => join (tidy s p) p pid
  | .exitAsleep i pid => exitJoin (tidy s p) p i pid
  | _ => s

def next : Label → Option State
  | .dispatch p =>
    if (s.proc p).state = .runnable then s.locked (resume (s.setState p .running) p (s.pc p))
    else none
  | .wakeup n => s.locked (wakeup1 s (.other n))
  | .run p a => if (s.proc p).state = .running then act s p a (s.pc p) else none

/-- The table as the kernel is loaded. -/
def bss : Slot → Proc := fun _ => ⟨0, 0, 0, .unused, 0, none, .null, false, false⟩

/-- The state `userinit` leaves, with the two pages it was given. -/
def userinit (kstack pgdir : Page) : State where
  proc := update bss initproc ⟨PGSIZE, pgdir, kstack, .runnable, 1, none, .null, false, false⟩
  pc := update (fun _ => .dead) initproc .user
  nextpid := 2
  used pg := pg = kstack || pg = pgdir
  wedged := false
  log := []

/-- `kalloc` gave `userinit` two pages. -/
def Booted (s : State) : Prop :=
  ∃ kstack pgdir, kstack ≠ 0 ∧ pgdir ≠ 0 ∧ kstack ≠ pgdir ∧ s = userinit kstack pgdir

def kernel : System State Label := .ofNext Booted next

-- ---------------------------------------------------------------------------
-- Calls as sequences of steps
-- ---------------------------------------------------------------------------

def steps (p : Slot) (n : Nat) : List Label := List.replicate n (.run p (.step 0))

/-- A `fork` that gets both its pages. -/
def forkRun (p : Slot) (kstack pgdir : Page) : List Label :=
  [.run p .fork, .run p (.step kstack), .run p (.step pgdir)] ++ steps p 4

/-- A `proc_clone` with the stack at the given address. -/
def cloneRun (p : Slot) (stack : BitVec 32) (kstack : Page) : List Label :=
  [.run p (.clone stack), .run p (.step kstack)] ++ steps p 5

/-- `initcode` runs and calls `exec`, which gives init five pages. -/
def bootRun : List Label := [.dispatch initproc, .run initproc (.exec 3 0x5000)]

/-- A run from the state that `userinit` leaves with the pages 1 and 2. -/
theorem exists_run (ok : State → Label → Prop) [∀ s l, Decidable (ok s l)] (ls : List Label)
    (P : State → Prop) [DecidablePred P]
    (he : (System.exec (fun s l => if ok s l then next s l else none) (userinit 1 2) ls).any
      (fun t => decide (P t)) = true) : ∃ t, (kernel.restrict ok).Run ls t ∧ P t :=
  System.exists_run_from Booted next ⟨1, 2, by decide, by decide, by decide, rfl⟩ ok ls P he

end PerrOS.Ptable
