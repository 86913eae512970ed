import PerrOS.Lib.System
import PerrOS.Vm.Uvm
import PerrOS.Xv6.Process

/-!
# Processes with a stack segment

`growproc` and `fork` of `proc.c` and the page-fault case of `trap`, in the
tree whose stack grows down from `USERTOP` towards the heap.
-/

namespace PerrOS.Vm

open Function (update)
open Lib (System)
open Xv6 (ProcState Slot slots)

/-- The registers of `struct trapframe` that the kernel assigns. -/
structure Trapframe where
  eax : Word
  eip : Word
  esp : Word

/-- Open files per process. -/
def NOFILE : Nat := 16

/-- `struct proc`; open files and inodes are named by their table indices. -/
structure Proc where
  sz : Word
  stackSz : Word
  pgdir : Option Pgdir
  kstack : Word
  state : ProcState
  pid : Int
  parent : Option Slot
  tf : Trapframe
  killed : Bool
  ofile : Fin NOFILE → Option Nat
  cwd : Nat
  name : String

/-- `ptable`, and the reference counts of files and inodes. -/
structure Table where
  proc : Slot → Proc
  nextpid : Int
  fileRef : Nat → Int
  inodeRef : Nat → Int

def Table.set (t : Table) (i : Slot) (p : Proc) : Table := { t with proc := update t.proc i p }

variable (img : Image)

/-- `growproc(n)`; the process is returned with the result, since a failing
call has changed its page tables too. -/
def growproc (p : Proc) (n : Word) : Kernel (Proc × Int) :=
  match p.pgdir with
  | none => panic
  | some pgdir =>
    if 0 < n.toInt then
      if p.stackSz - PGSIZE < p.sz + n then return (p, -1)
      else do
        let r ← allocuvm img pgdir p.sz (p.sz + n)
        if r.2 = 0 then return ({ p with pgdir := some r.1 }, -1)
        else return ({ p with pgdir := some r.1, sz := r.2 }, 0)
    else if n.toInt < 0 then do
      let r ← deallocuvm img pgdir p.sz (p.sz + n)
      if r.2 = 0 then return ({ p with pgdir := some r.1 }, -1)
      else return ({ p with pgdir := some r.1, sz := r.2 }, 0)
    else return (p, 0)

/-- `trap` for `T_PGFLT` at `rcr2()`, taken in user mode or in the kernel; the
call of `exit` for a killed process comes later. -/
def trapPgflt (p : Proc) (rcr2 : Word) (user : Bool) : Kernel Proc :=
  if p.stackSz - PGSIZE < rcr2 ∧ rcr2 < p.stackSz ∧ p.sz + PGSIZE < p.stackSz - PGSIZE then
    match p.pgdir with
    | none => panic
    | some pgdir => do
      let r ← allocuvm img pgdir (p.stackSz - PGSIZE) p.stackSz
      return { p with
        pgdir := some r.1
        killed := if r.2 = 0 then true else p.killed
        stackSz := p.stackSz - PGSIZE }
  else if user = false then panic -- "trap"
  else return { p with killed := true }

def allocproc (t : Table) : Kernel (Table × Option Slot) :=
  match slots.find? fun i => (t.proc i).state = .unused with
  | none => return (t, none)
  | some i => do
    let p := { t.proc i with state := .embryo, pid := t.nextpid }
    let t := { t with nextpid := t.nextpid + 1 }
    let kstack ← kalloc
    if kstack = 0 then return (t.set i { p with kstack, state := .unused }, none)
    else return (t.set i { p with kstack }, some i)

def filedup (t : Table) (f : Nat) : Kernel Table :=
  if t.fileRef f < 1 then panic -- "filedup"
  else return { t with fileRef := update t.fileRef f (t.fileRef f + 1) }

/-- `filedup` for every open file. -/
def dupFiles : Table → List (Option Nat) → Kernel Table
  | t, [] => return t
  | t, none :: fs => dupFiles t fs
  | t, some f :: fs => do
    let t ← filedup t f
    dupFiles t fs

def idup (t : Table) (ip : Nat) : Table :=
  { t with inodeRef := update t.inodeRef ip (t.inodeRef ip + 1) }

/-- `fork()` called by the process in slot `cur`. -/
def fork (t : Table) (cur : Slot) : Kernel (Table × Int) := do
  let r ← allocproc t
  match r.2 with
  | none => return (r.1, -1)
  | some i => do
    let t := r.1
    let proc := t.proc cur
    let np := t.proc i
    match proc.pgdir with
    | none => panic
    | some pgdir => do
      match ← copyuvm img pgdir proc.sz proc.stackSz with
      | none => do
        kfree img np.kstack
        return (t.set i { np with pgdir := none, kstack := 0, state := .unused }, -1)
      | some d => do
        let t ← dupFiles t ((List.finRange NOFILE).map proc.ofile)
        let np := { np with
          pgdir := some d
          sz := proc.sz
          stackSz := proc.stackSz
          parent := some cur
          tf := { proc.tf with eax := 0 }
          ofile := proc.ofile
          cwd := proc.cwd
          state := .runnable
          name := proc.name }
        return ((idup t proc.cwd).set i np, np.pid)

-- ---------------------------------------------------------------------------
-- Every sequence of these operations
-- ---------------------------------------------------------------------------

/-- An entry that holds a process. -/
def Proc.live (p : Proc) : Bool := p.state != .unused && p.state != .embryo

structure Machine where
  table : Table
  kmem : Kmem

inductive Act
  | sbrk (i : Slot) (n : Word)
  | fault (i : Slot) (rcr2 : Word) (user : Bool)
  | fork (i : Slot)

def Act.slot : Act → Slot
  | .sbrk i _ | .fault i _ _ | .fork i => i

/-- The process in slot `a.slot` takes the step, unless the kernel panics. -/
def Machine.next (m : Machine) (a : Act) : Option Machine :=
  if (m.table.proc a.slot).live then
    match a with
    | .sbrk i n =>
      ((growproc img (m.table.proc i) n).run m.kmem).map fun r => ⟨m.table.set i r.1.1, r.2⟩
    | .fault i rcr2 user =>
      ((trapPgflt img (m.table.proc i) rcr2 user).run m.kmem).map fun r =>
        ⟨m.table.set i r.1, r.2⟩
    | .fork i => ((fork img m.table i).run m.kmem).map fun r => ⟨r.1.1, r.2⟩
  else none

end PerrOS.Vm
