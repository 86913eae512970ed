import Mathlib.Logic.Function.Basic
import PerrOS.Xv6.Process

/-!
# The process table with threads

The entries of `ptable`, the helpers of `proc.c` that run under its lock, and
the points at which a process can be outside it. A thread is an entry with
`isThread` set: it shares the page directory of its parent.
-/

namespace PerrOS.Ptable

open Function (update)
open Xv6 (ProcState Slot slots)

/-- A page that `kalloc` hands out, for a kernel stack or a page directory; a
null pointer is 0. -/
abbrev Page := Nat

/-- `int pid`. -/
abbrev Pid := BitVec 32

/-- `void *chan`: null, a process of the table, or anything else. -/
inductive Chan
  | null
  | proc (p : Slot)
  | other (n : Nat)
deriving DecidableEq

/-- `struct proc`. -/
structure Proc where
  sz : BitVec 32
  pgdir : Page
  kstack : Page
  state : ProcState
  pid : Pid
  parent : Option Slot
  chan : Chan
  killed : Bool
  isThread : Bool
deriving DecidableEq

/-- The assignments of `fork` after `allocproc` found a slot. -/
inductive ForkStage
  | kstack
  | pgdir
  | sz
  | parent
  | isThread
  | state
deriving DecidableEq

/-- Those of `proc_clone`, in its order. -/
inductive CloneStage
  | kstack
  | parent
  | sz
  | pgdir
  | isThread
  | state
deriving DecidableEq

/-- Where a process stands while `ptable.lock` is free. It is inside `sleep`
at `blocked`, `waiting`, `joining` and `exitAsleep`. In `exit` at slot `i` of
its pass, `exitKill` and `exitJoin` are about to read the pid in the slot,
`exitKilling` and `exitJoining` about to run `kill` and `proc_join` for it,
and `exitResume` about to take the lock again. -/
inductive Pc
  | user
  | blocked
  | forking (np : Slot) (next : ForkStage)
  | cloning (np : Slot) (next : CloneStage)
  | waiting
  | joining (pid : Pid)
  | exitKill (i : Slot)
  | exitKilling (i : Slot) (pid : Pid)
  | exitJoin (i : Slot)
  | exitJoining (i : Slot) (pid : Pid)
  | exitAsleep (i : Slot) (pid : Pid)
  | exitResume (i : Slot)
  | dead
deriving DecidableEq

inductive Kind
  | fork
  | clone
deriving DecidableEq

/-- The call that reaps entries of the kind. -/
inductive Reaper
  | wait
  | join
deriving DecidableEq

def Kind.reaper : Kind → Reaper
  | .fork => .wait
  | .clone => .join

/-- What has happened to kernel stacks and page directories: a stack is
allocated for a new pid, a `fork` that fails frees it again, or a call frees
it and returns the pid; `freevm` frees the page directory of an entry. -/
inductive Event
  | created (kind : Kind) (pid : Pid) (kstack : Page)
  | unwound (pid : Pid) (kstack : Page)
  | reaped (call : Reaper) (pid : Pid) (kstack : Page)
  | freevm (owner : Slot) (pgdir : Page)
deriving DecidableEq

structure State where
  proc : Slot → Proc
  pc : Slot → Pc
  nextpid : Pid
  /-- The pages in use. -/
  used : Page → Bool
  /-- `growproc` has left `ptable.lock` held. -/
  wedged : Bool
  log : List Event

/-- Set by `userinit`, which finds the first slot free. -/
def initproc : Slot := 0

variable (s : State) (p : Slot)

namespace State

def set (e : Proc) : State := { s with proc := update s.proc p e }
def setPc (c : Pc) : State := { s with pc := update s.pc p c }
def setState (state : ProcState) : State := s.set p { s.proc p with state }
def setParent (parent : Option Slot) : State := s.set p { s.proc p with parent }
def emit (e : Event) : State := { s with log := s.log ++ [e] }
def take (pg : Page) : State := { s with used := update s.used pg true }
def kfree (pg : Page) : State := { s with used := update s.used pg false }

/-- What `kalloc` may return. -/
def free (pg : Page) : Bool := pg = 0 || !s.used pg

/-- `freevm` on the page directory of an entry. -/
def freevm (owner : Slot) (pgdir : Page) : State :=
  (s.kfree pgdir).emit (.freevm owner pgdir)

end State

/-- `wakeup1(chan)` for one entry. -/
def Proc.woken (e : Proc) (chan : Chan) : Proc :=
  { e with state := if e.state = .sleeping ∧ e.chan = chan then .runnable else e.state }

def wakeup1 (chan : Chan) : State := { s with proc := fun k => (s.proc k).woken chan }

/-- A `struct proc *` as a channel. -/
def chanOf : Option Slot → Chan
  | some p => .proc p
  | none => .null

/-- The slot `allocproc` finds, and the table it leaves. -/
def allocproc : Option (Slot × State) :=
  (slots.find? fun k => (s.proc k).state = .unused).map fun np =>
    (np, { s.set np { s.proc np with state := .embryo, pid := s.nextpid } with
           nextpid := s.nextpid + 1 })

/-- An entry after its process has been reaped. -/
def Proc.reaped (e : Proc) : Proc :=
  { e with kstack := 0, state := .unused, pid := 0, parent := none, killed := false }

/-- `wait` and `proc_join` take the zombie `k` out of the table. -/
def reap (call : Reaper) (k : Slot) : State :=
  let e := s.proc k
  let s := (s.emit (.reaped call e.pid e.kstack)).kfree e.kstack
  let s := match call with
    | .wait => s.freevm k e.pgdir
    | .join => s
  s.set k e.reaped

/-- `sleep(chan, &ptable.lock)`, up to the switch. -/
def sleep (chan : Chan) : State := s.set p { s.proc p with chan, state := .sleeping }

/-- `proc->chan = 0`, where `sleep` returns. -/
def tidy : State := s.set p { s.proc p with chan := .null }

/-- `p` is a non-thread child: `wait` looks at `k`. -/
def isChild (k : Slot) : Bool :=
  (s.proc k).parent = some p && !(s.proc k).isThread

/-- `proc_join(pid)` called by `p` looks at `k`. -/
def isJoinable (pid : Pid) (k : Slot) : Bool :=
  (s.proc k).isThread &&
    ((s.proc k).parent = some p ||
      ((s.proc k).parent = (s.proc p).parent && (s.proc p).isThread)) &&
    ((s.proc k).pid = pid || pid = -1)

/-- What a scan for zombies among the entries of interest comes to. -/
inductive Outcome
  | reap (k : Slot)
  | fail
  | sleep
deriving DecidableEq

def scan (looksAt : Slot → Bool) : Outcome :=
  match slots.find? fun k => looksAt k && (s.proc k).state = .zombie with
  | some k => .reap k
  | none => if !slots.any looksAt || (s.proc p).killed then .fail else .sleep

def kill (pid : Pid) : State :=
  match slots.find? fun k => (s.proc k).pid = pid with
  | some k =>
    s.set k { s.proc k with
      killed := true
      state := if (s.proc k).state = .sleeping then .runnable else (s.proc k).state }
  | none => s

/-- `p` is the parent of the thread in slot `k`. -/
def ownThread (k : Slot) : Bool :=
  (s.proc k).isThread && (s.proc k).parent = some p

/-- `p` and the thread in slot `k` have one parent. -/
def sibling (k : Slot) : Bool :=
  (s.proc k).isThread && (s.proc k).parent = (s.proc p).parent

/-- The pass of `exit` over slots of the table, until it has to drop the lock
for a thread of its own. -/
def exitPass (s : State) (p : Slot) : List Slot → State × Option Slot
  | [] => (s, none)
  | k :: ks =>
    if isChild s p k then
      if (s.proc k).state = .zombie then
        exitPass (wakeup1 (s.setParent k (some initproc)) (.proc initproc)) p ks
      else exitPass (s.setParent k (some initproc)) p ks
    else if ownThread s p k then (s, some k)
    else if sibling s p k then exitPass (wakeup1 s (.proc k)) p ks
    else exitPass s p ks

end PerrOS.Ptable
