import PerrOS.Lib.Descriptors
import PerrOS.Shell.Parser

/-!
# The executors of `mysh`

Pipes, redirections, forks: what the executors do with the shell's descriptors,
and what they and their children do. A child has its own copy of the table, and
ends in its command or with a report; the shell's `wait`s change nothing here.
-/

namespace PerrOS.Shell.Mysh

open Lib (Descriptors)

abbrev Word := List Char

/-- What is done, by the shell or a child of it. -/
inductive Event
  /-- `alertError`. -/
  | error
  /-- A child executes a command, with its descriptors. -/
  | child (table : Descriptors) (argv : List Word)
  /-- A file is opened under a number of the table. -/
  | opened (file : Nat) (name : Word) (mode : CommandType)
  | exit
  /-- `chdir`, to the home directory if no other is named. -/
  | chdir (dir : Option Word)
  /-- `tee.txt` is opened for writing. -/
  | teeFile

/-- What the system calls of one executor return: those of the same name are counted in the order
of the text, except that the second turn of a left-hand child is the last. -/
structure Outcomes where
  fflush : Bool
  dup : Bool
  opens : Bool
  pipe : Nat → Bool
  fork : Nat → Bool
  execvp : Nat → Bool

/-- The shell's descriptors, its global `oldOut`, where -1 is `none`, and what has been done. -/
structure State where
  table : Descriptors
  oldOut : Option Nat
  events : List Event

/-- The shell as it starts: `oldOut` is a global, so it is 0. -/
def State.start : State := ⟨.standard, some 0, []⟩

/-- The two operators that redirect to a file. -/
abbrev Redirects (t : CommandType) : Prop := t = .oRedir ∨ t = .aRedir

namespace State

variable (o : Outcomes) (s : State)

def log (e : Event) : State := { s with events := s.events ++ [e] }

def alertError : State := s.log .error

def close (fd : Nat) : State := { s with table := s.table.close fd }

/-- `dup`, whose result is not looked at. -/
def dup (fd : Nat) : State :=
  match s.table.dup fd with
  | none => s
  | some (_, table) => { s with table }

def dup2 (old new : Nat) : State := { s with table := s.table.dup2 old new }

/-- `oldOut = dup(1)`. -/
def saveStdout : State :=
  match if o.dup then s.table.dup 1 else none with
  | none => { s with oldOut := none }
  | some (oldOut, table) => { s with table, oldOut }

def switchStdout (newStream : Word) (write_mode : CommandType) : State :=
  if Redirects write_mode then
    if !o.fflush then s.alertError
    else
      let s := s.saveStdout o
      if !o.opens then s.alertError
      else
        let (new, table) := s.table.openFile
        let s := { s with table }.log (.opened s.table.next newStream write_mode)
        (s.dup2 new 1).close new
  else s.alertError

/-- The buffer's `fflush` and the calls on a descriptor -1 come to nothing. -/
def revertStdout : State :=
  match s.oldOut with
  | none => s
  | some oldOut => (s.dup2 oldOut 1).close oldOut

/-- `pipe(p)`, if it succeeds. -/
def pipe (n : Nat) : Option ((Nat × Nat) × State) :=
  if o.pipe n then some (s.table.pipe.1, { s with table := s.table.pipe.2 }) else none

def closePipe (p : Nat × Nat) : State := (s.close p.1).close p.2

/-- A child goes its own way; of its state only what it has done is shared. -/
def child (run : State → State) : State := { s with events := (run s).events }

/-- `execvp`: the child is another program from here on, or goes on. -/
def execvp (n : Nat) (argv : List Word) (orElse : State → State) : State :=
  if o.execvp n then s.log (.child s.table argv) else orElse s

/-- `execvp`, then the report of its failure and `exit`. -/
def exec (n : Nat) (argv : List Word) : State := s.execvp o n argv alertError

end State

open State

variable (o : Outcomes)

-- ---------------------------------------------------------------------------
-- Pipes
-- ---------------------------------------------------------------------------

def execDoublePipeRedir (argv argv2 argv3 : List Word) (file : Word) (mode : CommandType)
    (s : State) : State :=
  match s.pipe o 0 with
  | none => s.alertError
  | some (p, s) =>
    match s.pipe o 1 with
    | none => s.alertError
    | some (p2, s) =>
      if !o.fork 0 then s.alertError
      else
        let s := s.child fun c =>
          ((((c.close 1).dup p.2).closePipe p).closePipe p2).exec o 0 argv
        if !o.fork 1 then s.alertError
        else
          let s := s.child fun c =>
            ((((((c.close 0).dup p.1).close 1).dup p2.2).closePipe p).closePipe p2).exec o 1 argv2
          if !o.fork 2 then s.alertError
          else
            let s := s.child fun c =>
              (((((c.close 0).dup p2.1).switchStdout o file mode).closePipe p).closePipe p2).exec
                o 2 argv3
            (s.closePipe p).closePipe p2

def execSinglePipeRedir (argv argv2 : List Word) (file : Word) (mode : CommandType) (s : State) :
    State :=
  match s.pipe o 0 with
  | none => s.alertError
  | some (p, s) =>
    if !o.fork 0 then s.alertError
    else
      let s := s.child fun c => (((c.close 1).dup p.2).closePipe p).exec o 0 argv
      if !o.fork 1 then s.alertError
      else
        let s := s.child fun c =>
          ((((c.close 0).dup p.1).closePipe p).switchStdout o file mode).exec o 1 argv2
        s.closePipe p

/-- The right-hand side of `execSinglePipe`: the `n`th fork, and what the process that forks does
then. -/
def pipeRight (n : Nat) (p : Nat × Nat) (argv2 : List Word) (s : State) : State :=
  if !o.fork n then s.alertError
  else
    let s := s.child fun c => (((c.close 0).dup p.1).closePipe p).exec o n argv2
    s.closePipe p

/-- A left-hand child whose `execvp` fails does not exit: it goes on with the right-hand side, like
the shell. There is no left-hand side without `argv`. -/
def execSinglePipe (argv : Option (List Word)) (argv2 : List Word) (s : State) : State :=
  match s.pipe o 0 with
  | none => s.alertError
  | some (p, s) =>
    match argv with
    | none => pipeRight o 1 p argv2 s
    | some argv =>
      if !o.fork 0 then s.alertError
      else
        let s := s.child fun c =>
          (((c.close 1).dup p.2).closePipe p).execvp o 0 argv (pipeRight o 2 p argv2)
        pipeRight o 1 p argv2 s

/-- The middle and the far right of `execDoublePipe`. -/
def doublePipeRight (p p2 : Nat × Nat) (argv2 argv3 : List Word) (s : State) : State :=
  if !o.fork 1 then s.alertError
  else
    let s := s.child fun c =>
      ((((((c.close 0).dup p.1).close 1).dup p2.2).closePipe p).closePipe p2).exec o 1 argv2
    if !o.fork 2 then s.alertError
    else
      let s := s.child fun c =>
        ((((c.close 0).dup p2.1).closePipe p).closePipe p2).exec o 2 argv3
      (s.closePipe p).closePipe p2

def execDoublePipe (argv : Option (List Word)) (argv2 argv3 : List Word) (s : State) : State :=
  match s.pipe o 0 with
  | none => s.alertError
  | some (p, s) =>
    match s.pipe o 1 with
    | none => s.alertError
    | some (p2, s) =>
      match argv with
      | none => doublePipeRight o p p2 argv2 argv3 s
      | some argv =>
        if !o.fork 0 then s.alertError
        else
          let s := s.child fun c =>
            ((((c.close 1).dup p.2).closePipe p).closePipe p2).exec o 0 argv
          doublePipeRight o p p2 argv2 argv3 s

-- ---------------------------------------------------------------------------
-- Single commands
-- ---------------------------------------------------------------------------

/-- A list as the executors get it: `size` need not be the number of the nodes. -/
structure CommandList where
  size : Nat
  head : Command
  next : List Command

/-- The words of the node after the head, where a redirected command has its target. -/
def CommandList.target (list : CommandList) : List Word := (list.next.head?.map Command.argList).getD []

/-- A target without a word is an error, found in lists of two commands. -/
def checkOutputType (list : CommandList) (s : State) : Bool × State :=
  if Redirects list.head.outputType then
    if list.size = 2 ∧ list.target = [] then (true, s.alertError)
    else (false, s.switchStdout o (list.target.headD []) list.head.outputType)
  else (false, s)

def execSingleCommand (list : CommandList) (argv : List Word) (s : State) : State :=
  let (error, s) := checkOutputType o list s
  if error then s
  else if !o.fork 0 then s.alertError
  else
    let s := s.child fun c => c.exec o 0 argv
    if Redirects list.head.outputType then s.revertStdout else s

-- ---------------------------------------------------------------------------
-- Calls
-- ---------------------------------------------------------------------------

/-- A call of an executor. -/
inductive Call
  | singleCommand (list : CommandList) (argv : List Word)
  | singlePipe (argv : Option (List Word)) (argv2 : List Word)
  | doublePipe (argv : Option (List Word)) (argv2 argv3 : List Word)
  | singlePipeRedir (argv argv2 : List Word) (file : Word) (mode : CommandType)
  | doublePipeRedir (argv argv2 argv3 : List Word) (file : Word) (mode : CommandType)

def Call.run (o : Outcomes) : Call → State → State
  | singleCommand list argv => execSingleCommand o list argv
  | singlePipe argv argv2 => execSinglePipe o argv argv2
  | doublePipe argv argv2 argv3 => execDoublePipe o argv argv2 argv3
  | singlePipeRedir argv argv2 file mode => execSinglePipeRedir o argv argv2 file mode
  | doublePipeRedir argv argv2 argv3 file mode => execDoublePipeRedir o argv argv2 argv3 file mode

end PerrOS.Shell.Mysh
