import PerrOS.Lib.Counters
import PerrOS.Lib.System

/-!
# Pipes

`pipe.c` as the steps of any number of processes: each turn of the loops of
`pipewrite` and `piperead` is a step, taken while the process holds `p->lock`.
`sleep` gives the lock up and marks the process in one step, because a
`wakeup` needs `ptable.lock`, which `sleep` takes first.
-/

namespace PerrOS.Pipes

open Function (update)
open Lib (System)

abbrev Byte := BitVec 8

def PIPESIZE : Nat := 512

structure Pipe where
  data : Nat → Byte
  nread : BitVec 32
  nwrite : BitVec 32
  readopen : Bool
  writeopen : Bool

namespace Pipe

/-- `p->nwrite == p->nread + PIPESIZE`. -/
def full (pipe : Pipe) : Bool := pipe.nwrite = pipe.nread + BitVec.ofNat 32 PIPESIZE

def empty (pipe : Pipe) : Bool := pipe.nread = pipe.nwrite

/-- `p->data[p->nwrite++ % PIPESIZE] = x`. -/
def put (pipe : Pipe) (x : Byte) : Pipe :=
  { pipe with
    data := update pipe.data (pipe.nwrite.toNat % PIPESIZE) x
    nwrite := pipe.nwrite + 1 }

/-- `p->data[p->nread++ % PIPESIZE]`. -/
def front (pipe : Pipe) : Byte := pipe.data (pipe.nread.toNat % PIPESIZE)

def advance (pipe : Pipe) : Pipe := { pipe with nread := pipe.nread + 1 }

end Pipe

/-- Where a process stands: `writing` and `reading` are the loops that copy,
`waiting` is the loop of `piperead` that waits for a byte. A process `asleep`
in a loop becomes `awake` there, and then takes the lock again. -/
inductive Pc
  | user
  | writing (n : Int) (i : Nat)
  | writeAsleep (n : Int) (i : Nat)
  | writeAwake (n : Int) (i : Nat)
  | waiting (n : Int)
  | readAsleep (n : Int)
  | readAwake (n : Int)
  | reading (n : Int) (i : Nat)
deriving DecidableEq

namespace Pc

/-- `wakeup(&p->nread)`, as it changes one process. -/
def wakeReader : Pc → Pc
  | readAsleep n => readAwake n
  | pc => pc

/-- `wakeup(&p->nwrite)`. -/
def wakeWriter : Pc → Pc
  | writeAsleep n i => writeAwake n i
  | pc => pc

end Pc

structure State (Proc : Type u) where
  pipe : Pipe
  /-- The process that holds `p->lock`. -/
  lock : Option Proc
  pc : Proc → Pc
  killed : Proc → Bool
  /-- The page of the pipe has been given back. -/
  freed : Bool

/-- The steps, with what they copy and what the calls return: `written` is
`pipewrite` returning `n`, `refused` and `abandoned` return -1. -/
inductive Label (Proc : Type u)
  | write (p : Proc) (n : Int)
  | put (p : Proc) (x : Byte)
  | full (p : Proc)
  | refused (p : Proc)
  | written (p : Proc)
  | read (p : Proc) (n : Int)
  | empty (p : Proc)
  | abandoned (p : Proc)
  | ready (p : Proc)
  | take (p : Proc) (x : Byte)
  | returned (p : Proc) (i : Nat)
  | awake (p : Proc)
  | close (p : Proc) (writable : Bool)
  | kill (p : Proc)

namespace State

variable {Proc : Type u} (s : State Proc) (p : Proc)

def setPipe (pipe : Pipe) : State Proc := { s with pipe }

def wakeReaders : State Proc := { s with pc := fun q => (s.pc q).wakeReader }

def wakeWriters : State Proc := { s with pc := fun q => (s.pc q).wakeWriter }

variable [DecidableEq Proc]

def goto (pc : Pc) : State Proc := { s with pc := update s.pc p pc }

/-- The lock is taken. -/
def enter (pc : Pc) : State Proc := { s.goto p pc with lock := some p }

/-- The lock is given up. -/
def leave (pc : Pc) : State Proc := { s.goto p pc with lock := none }

end State

variable {Proc : Type u}

/-- What `pipeclose` does under the lock. -/
def pipeclose (s : State Proc) (writable : Bool) : State Proc :=
  let s :=
    if writable then (s.setPipe { s.pipe with writeopen := false }).wakeReaders
    else (s.setPipe { s.pipe with readopen := false }).wakeWriters
  { s with freed := !s.pipe.readopen && !s.pipe.writeopen }

/-- The process that takes a step. -/
def Label.proc : Label Proc → Proc
  | .write p _ | .put p _ | .full p | .refused p | .written p | .read p _ | .empty p
  | .abandoned p | .ready p | .take p _ | .returned p _ | .awake p | .close p _ | .kill p => p

variable [DecidableEq Proc]

/-- `kill`, which makes a process that sleeps runnable. -/
def kill (s : State Proc) (p : Proc) : State Proc :=
  { s.goto p (s.pc p).wakeReader.wakeWriter with killed := update s.killed p true }

/-- One step. What follows the `kfree` of the page is not modelled. -/
def next (s : State Proc) (l : Label Proc) : Option (State Proc) :=
  if s.freed then none
  else
    match l, s.pc l.proc with
    | .kill p, _ => some (kill s p)
    | .close _ writable, .user => if s.lock = none then some (pipeclose s writable) else none
    -- `pipewrite`
    | .write p n, .user => if s.lock = none then some (s.enter p (.writing n 0)) else none
    | .awake p, .writeAwake n i => if s.lock = none then some (s.enter p (.writing n i)) else none
    | .put p x, .writing n i =>
      if i < n ∧ s.pipe.full = false then
        some ((s.setPipe (s.pipe.put x)).goto p (.writing n (i + 1)))
      else none
    | .full p, .writing n i =>
      if i < n ∧ s.pipe.full = true ∧ s.pipe.readopen = true ∧ s.killed p = false then
        some (s.wakeReaders.leave p (.writeAsleep n i))
      else none
    | .refused p, .writing n i =>
      if i < n ∧ s.pipe.full = true ∧ (s.pipe.readopen = false ∨ s.killed p = true) then
        some (s.leave p .user)
      else none
    | .written p, .writing n i => if n ≤ i then some (s.wakeReaders.leave p .user) else none
    -- `piperead`
    | .read p n, .user => if s.lock = none then some (s.enter p (.waiting n)) else none
    | .awake p, .readAwake n => if s.lock = none then some (s.enter p (.waiting n)) else none
    | .empty p, .waiting n =>
      if (s.pipe.empty = true ∧ s.pipe.writeopen = true) ∧ s.killed p = false then
        some (s.leave p (.readAsleep n))
      else none
    | .abandoned p, .waiting _ =>
      if (s.pipe.empty = true ∧ s.pipe.writeopen = true) ∧ s.killed p = true then
        some (s.leave p .user)
      else none
    | .ready p, .waiting n =>
      if ¬ (s.pipe.empty = true ∧ s.pipe.writeopen = true) then some (s.goto p (.reading n 0))
      else none
    | .take p x, .reading n i =>
      if i < n ∧ s.pipe.empty = false ∧ x = s.pipe.front then
        some ((s.setPipe s.pipe.advance).goto p (.reading n (i + 1)))
      else none
    | .returned p j, .reading n i =>
      if (n ≤ i ∨ s.pipe.empty = true) ∧ j = i then some (s.wakeWriters.leave p .user) else none
    | _, _ => none

/-- What a step can do. -/
inductive Step (s : State Proc) : Label Proc → State Proc → Prop
  | kill (p : Proc) : Step s (.kill p) (kill s p)
  | close (hpc : s.pc p = .user) (hlock : s.lock = none) : Step s (.close p b) (pipeclose s b)
  | write (hpc : s.pc p = .user) (hlock : s.lock = none) :
    Step s (.write p n) (s.enter p (.writing n 0))
  | writeAwake (hpc : s.pc p = .writeAwake n i) (hlock : s.lock = none) :
    Step s (.awake p) (s.enter p (.writing n i))
  | put (x : Byte) (hpc : s.pc p = .writing n i) (hi : i < n) (hroom : s.pipe.full = false) :
    Step s (.put p x) ((s.setPipe (s.pipe.put x)).goto p (.writing n (i + 1)))
  | full (hpc : s.pc p = .writing n i) (hi : i < n) (hfull : s.pipe.full = true)
    (hopen : s.pipe.readopen = true) :
    Step s (.full p) (s.wakeReaders.leave p (.writeAsleep n i))
  | refused (hpc : s.pc p = .writing n i) (hi : i < n) (hfull : s.pipe.full = true) :
    Step s (.refused p) (s.leave p .user)
  | written (hpc : s.pc p = .writing n i) (hi : n ≤ i) :
    Step s (.written p) (s.wakeReaders.leave p .user)
  | read (hpc : s.pc p = .user) (hlock : s.lock = none) :
    Step s (.read p n) (s.enter p (.waiting n))
  | readAwake (hpc : s.pc p = .readAwake n) (hlock : s.lock = none) :
    Step s (.awake p) (s.enter p (.waiting n))
  | empty (hpc : s.pc p = .waiting n) (hempty : s.pipe.empty = true)
    (hopen : s.pipe.writeopen = true) : Step s (.empty p) (s.leave p (.readAsleep n))
  | abandoned (hpc : s.pc p = .waiting n) : Step s (.abandoned p) (s.leave p .user)
  | ready (hpc : s.pc p = .waiting n)
    (hready : ¬ (s.pipe.empty = true ∧ s.pipe.writeopen = true)) :
    Step s (.ready p) (s.goto p (.reading n 0))
  | take (hpc : s.pc p = .reading n i) (hi : i < n) (hempty : s.pipe.empty = false) :
    Step s (.take p s.pipe.front) ((s.setPipe s.pipe.advance).goto p (.reading n (i + 1)))
  | returned (hpc : s.pc p = .reading n i) (hi : n ≤ i ∨ s.pipe.empty = true) :
    Step s (.returned p i) (s.wakeWriters.leave p .user)

theorem step_of_next {s t : State Proc} {l : Label Proc} (h : next s l = some t) : Step s l t := by
  unfold next at h
  split at h
  · cases h
  split at h
  case h_1 =>
    cases h
    exact .kill _
  case h_16 => cases h
  all_goals
    obtain ⟨hguard, ht⟩ := Option.ite_none_right_eq_some.mp h
    cases ht
    rename_i hpc
  · exact .close hpc hguard
  · exact .write hpc hguard
  · exact .writeAwake hpc hguard
  · exact .put _ hpc hguard.1 hguard.2
  · exact .full hpc hguard.1 hguard.2.1 hguard.2.2.1
  · exact .refused hpc hguard.1 hguard.2.1
  · exact .written hpc hguard
  · exact .read hpc hguard
  · exact .readAwake hpc hguard
  · exact .empty hpc hguard.1.1 hguard.1.2
  · exact .abandoned hpc
  · exact .ready hpc hguard
  · obtain ⟨hi, hempty, rfl⟩ := hguard
    exact .take hpc hi hempty
  · obtain ⟨hi, rfl⟩ := hguard
    exact .returned hpc hi

/-- `pipealloc`: the page holds whatever it held before. -/
structure Initial (s : State Proc) : Prop where
  counters : s.pipe.nread = 0 ∧ s.pipe.nwrite = 0
  opened : s.pipe.readopen = true ∧ s.pipe.writeopen = true
  pc : ∀ p, s.pc p = .user
  lock : s.lock = none
  freed : s.freed = false

variable (Proc) in
def system : System (State Proc) (Label Proc) := .ofNext Initial next

/-- A pipe of two processes. -/
def opened : State (Fin 2) where
  pipe := ⟨fun _ => 0, 0, 0, true, true⟩
  pc _ := .user
  lock := none
  killed _ := false
  freed := false

theorem opened_initial : Initial opened :=
  ⟨⟨rfl, rfl⟩, ⟨rfl, rfl⟩, fun _ => rfl, rfl, rfl⟩

end PerrOS.Pipes
