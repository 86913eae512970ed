import Mathlib.Algebra.GroupWithZero.Nat
import Mathlib.Data.List.FinRange
import PerrOS.Lib.Interleave

/-!
# Open files

`file.c` and the system calls on descriptors, as programs of atomic actions:
each critical section of `ftable.lock`, and each access to what only one
process uses. The table of a process is its own, so `fdalloc` reads it at once,
and a child gets its table when it becomes runnable.

Left out: the contents of files and pipes, and the references to inodes.
-/

namespace PerrOS.Files

open Function (update)

def NOFILE : Nat := 16

def NFILE : Nat := 100

abbrev Fd := Fin NOFILE

abbrev Fid := Fin NFILE

instance : NeZero NOFILE := ⟨Nat.succ_ne_zero 15⟩

instance : NeZero NFILE := ⟨Nat.succ_ne_zero 99⟩

/-- The page of a pipe. -/
abbrev Addr := BitVec 32

/-- `FD_NONE`, `FD_PIPE` and `FD_INODE`. -/
inductive FType
  | none
  | pipe (p : Addr)
  | inode (ip : Nat)
deriving DecidableEq

structure File where
  ref : Nat
  type : FType
  readable : Bool
  writable : Bool
deriving DecidableEq

structure Ends where
  readopen : Bool
  writeopen : Bool
deriving DecidableEq

structure Shared (Proc : Type) where
  file : Fid → File
  ofile : Proc → Fd → Option Fid
  /-- The pages that are pipes. -/
  pipe : Addr → Option Ends
  running : Proc → Bool
  panicked : Option String

inductive Act (Proc : Type)
  | ofile
  | setOfile (fd : Fd) (f : Option Fid)
  | filealloc
  | fields (f : Fid)
  | setFields (f : Fid) (type : FType) (readable writable : Bool)
  | filedup (f : Fid)
  /-- `fileclose` up to the release of `ftable.lock`: the copy of the file, where it was the last
  reference. -/
  | fileclose (f : Fid)
  | kalloc
  | pipeclose (p : Addr) (writable : Bool)
  /-- One critical section of `piperead` or `pipewrite`. -/
  | pipeio (p : Addr) (writable : Bool)
  | iput (ip : Nat)
  /-- A child becomes runnable. -/
  | spawn (np : Proc) (ofile : Fd → Option Fid)
  | exit
  | panic (msg : String)

abbrev Res {Proc : Type} : Act Proc → Type
  | .ofile => Fd → Option Fid
  | .filealloc => Option Fid
  | .fields _ => File
  | .fileclose _ => Option File
  | .kalloc => Option Addr
  | _ => Unit

abbrev Prog (Proc : Type) (α : Type) := Lib.Prog (Act Proc) Res α

abbrev perform {Proc : Type} (a : Act Proc) : Prog Proc (Res a) := Lib.Prog.perform a

-- ---------------------------------------------------------------------------
-- The actions
-- ---------------------------------------------------------------------------

variable {Proc : Type}

namespace Shared

variable (s : Shared Proc)

def setFile (f : Fid) (x : File) : Shared Proc := { s with file := update s.file f x }

def panic (msg : String) : Shared Proc := { s with panicked := some msg }

end Shared

/-- The first file that is not in use. -/
def filealloc (s : Shared Proc) : Option Fid :=
  (List.finRange NFILE).find? fun f => (s.file f).ref = 0

def filedup (s : Shared Proc) (f : Fid) : Shared Proc :=
  if (s.file f).ref < 1 then s.panic "filedup"
  else s.setFile f { s.file f with ref := (s.file f).ref + 1 }

def fileclose (s : Shared Proc) (f : Fid) : Option File × Shared Proc :=
  if (s.file f).ref < 1 then (none, s.panic "fileclose")
  else if (s.file f).ref - 1 > 0 then
    (none, s.setFile f { s.file f with ref := (s.file f).ref - 1 })
  else (some (s.file f), s.setFile f { s.file f with ref := 0, type := .none })

/-- The flags of the pipe, whose page is freed where both ends are closed. -/
def Ends.close (e : Ends) (writable : Bool) : Option Ends :=
  let e := if writable then { e with writeopen := false } else { e with readopen := false }
  if e.readopen = false ∧ e.writeopen = false then none else some e

def exec [DecidableEq Proc] (s : Shared Proc) (p : Proc) :
    (a : Act Proc) → Res a → Shared Proc → Prop
  | .ofile, r, t => r = s.ofile p ∧ t = s
  | .setOfile fd f, _, t => t = { s with ofile := update s.ofile p (update (s.ofile p) fd f) }
  | .filealloc, r, t => r = filealloc s ∧
    t = match r with
      | none => s
      | some f => s.setFile f { s.file f with ref := 1 }
  | .fields f, r, t => r = s.file f ∧ t = s
  | .setFields f type readable writable, _, t =>
    t = s.setFile f { s.file f with type, readable, writable }
  | .filedup f, _, t => t = filedup s f
  | .fileclose f, r, t => (r, t) = fileclose s f
  | .kalloc, none, t => t = s
  | .kalloc, some a, t => s.pipe a = none ∧
    t = { s with pipe := update s.pipe a (some ⟨true, true⟩) }
  | .pipeclose a writable, _, t =>
    t = { s with pipe := update s.pipe a ((s.pipe a).bind fun e => e.close writable) }
  | .pipeio .., _, t => t = s
  | .iput _, _, t => t = s
  | .spawn np ofile, _, t => s.running np = false ∧
    t = { s with running := update s.running np true, ofile := update s.ofile np ofile }
  | .exit, _, t => t = { s with running := update s.running p false }
  | .panic msg, _, t => t = s.panic msg

-- ---------------------------------------------------------------------------
-- The system calls
-- ---------------------------------------------------------------------------

def fdalloc (f : Fid) : Prog Proc (Option Fd) := do
  let ofile ← perform .ofile
  match (List.finRange NOFILE).find? fun fd => ofile fd = none with
  | some fd => do
    perform (.setOfile fd (some f))
    return some fd
  | none => return none

/-- `fileclose`. -/
def close (f : Fid) : Prog Proc Unit := do
  match ← perform (.fileclose f) with
  | none => return ()
  | some ff =>
    match ff.type with
    | .pipe p => perform (.pipeclose p ff.writable)
    | .inode ip => perform (.iput ip)
    | .none => return ()

def sysDup (fd : Fd) : Prog Proc Int := do
  let ofile ← perform .ofile
  match ofile fd with
  | none => return -1
  | some f =>
    match ← fdalloc f with
    | none => return -1
    | some fd' => do
      perform (.filedup f)
      return fd'

def sysClose (fd : Fd) : Prog Proc Int := do
  let ofile ← perform .ofile
  match ofile fd with
  | none => return -1
  | some f => do
    perform (.setOfile fd none)
    close f
    return 0

/-- `sys_open`, once the inode is there. -/
def sysOpen (ip : Nat) (readable writable : Bool) : Prog Proc Int := do
  match ← perform .filealloc with
  | none => do
    perform (.iput ip)
    return -1
  | some f =>
    match ← fdalloc f with
    | none => do
      close f
      perform (.iput ip)
      return -1
    | some fd => do
      perform (.setFields f (.inode ip) readable writable)
      return fd

def pipealloc : Prog Proc (Option (Fid × Fid)) := do
  match ← perform .filealloc with
  | none => return none
  | some f0 =>
    match ← perform .filealloc with
    | none => do
      close f0
      return none
    | some f1 =>
      match ← perform .kalloc with
      | none => do
        close f0
        close f1
        return none
      | some p => do
        perform (.setFields f0 (.pipe p) true false)
        perform (.setFields f1 (.pipe p) false true)
        return some (f0, f1)

def sysPipe : Prog Proc Int := do
  match ← pipealloc with
  | none => return -1
  | some (rf, wf) =>
    match ← fdalloc rf with
    | none => do
      close rf
      close wf
      return -1
    | some fd0 =>
      match ← fdalloc wf with
      | none => do
        perform (.setOfile fd0 none)
        close rf
        close wf
        return -1
      | some _ => return 0

/-- `fileread` with `n` critical sections, where the file is a pipe. -/
def fileread (f : Fid) (n : Nat) : Prog Proc Int := do
  let ff ← perform (.fields f)
  if ff.readable = false then return -1
  else
    match ff.type with
    | .pipe p => do
      forM (List.range n) fun _ => perform (.pipeio p false)
      return n
    | .inode _ => return n
    | .none => do
      perform (.panic "fileread")
      return -1

def filewrite (f : Fid) (n : Nat) : Prog Proc Int := do
  let ff ← perform (.fields f)
  if ff.writable = false then return -1
  else
    match ff.type with
    | .pipe p => do
      forM (List.range n) fun _ => perform (.pipeio p true)
      return n
    | .inode _ => return n
    | .none => do
      perform (.panic "filewrite")
      return -1

def sysRead (fd : Fd) (n : Nat) : Prog Proc Int := do
  let ofile ← perform .ofile
  match ofile fd with
  | none => return -1
  | some f => fileread f n

def sysWrite (fd : Fd) (n : Nat) : Prog Proc Int := do
  let ofile ← perform .ofile
  match ofile fd with
  | none => return -1
  | some f => filewrite f n

/-- The loop of `fork` and of `proc_clone` over the descriptors. -/
def copyOfile (ofile : Fd → Option Fid) : Prog Proc (Fd → Option Fid) :=
  (List.finRange NOFILE).foldlM (fun child fd =>
    match ofile fd with
    | some f => do
      perform (.filedup f)
      return update child fd (some f)
    | none => return child) fun _ => none

/-- `fork` and `proc_clone` of a child in the slot `np`. -/
def fork (np : Proc) : Prog Proc Int := do
  let ofile ← perform .ofile
  let child ← copyOfile ofile
  perform (.spawn np child)
  return 0

/-- The loop of `exit` over the descriptors, and the end of the process. -/
def exit : Prog Proc Int := do
  forM (List.finRange NOFILE) fun fd => do
    let ofile ← perform .ofile
    match ofile fd with
    | some f => do
      close f
      perform (.setOfile fd none)
    | none => return ()
  perform .exit
  return 0

inductive Call (Proc : Type)
  | dup (fd : Fd)
  | close (fd : Fd)
  | openFile (ip : Nat) (readable writable : Bool)
  | pipe
  | read (fd : Fd) (n : Nat)
  | write (fd : Fd) (n : Nat)
  | fork (np : Proc)
  | exit

def Call.body : Call Proc → Prog Proc Int
  | .dup fd => sysDup fd
  | .close fd => sysClose fd
  | .openFile ip readable writable => sysOpen ip readable writable
  | .pipe => sysPipe
  | .read fd n => sysRead fd n
  | .write fd n => sysWrite fd n
  | .fork np => Files.fork np
  | .exit => Files.exit

/-- No file is in use, and no pipe. -/
structure Initial (s : Shared Proc) : Prop where
  ref : ∀ f, (s.file f).ref = 0
  type : ∀ f, (s.file f).type = .none
  ofile : ∀ p fd, s.ofile p fd = none
  pipe : ∀ a, s.pipe a = none
  panicked : s.panicked = none

variable (Proc) in
def machine [DecidableEq Proc] : Lib.Threads (Act Proc) Res (Shared Proc) Proc (Call Proc) where
  init := Initial
  may s p := s.running p && s.panicked.isNone
  body := Call.body
  exec := exec

end PerrOS.Files
