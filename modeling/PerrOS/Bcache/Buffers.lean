import Mathlib.Algebra.GroupWithZero.Nat
import PerrOS.Lib.Recency
import PerrOS.Lib.System

/-!
# The buffer cache and its disk

`bio.c` and `ide.c` as the steps of any number of processes and of the disk
controller. What `bcache.lock` or `idelock` makes one critical section is one
step, but for `iderw`, which appends the buffer in one step and looks at its
flags in the next, so that the interrupt may come between the two.

The callers keep their side of the contract of `bio.c`: a process uses only the
buffers that `bread` has returned to it and that it has not released.
-/

namespace PerrOS.Bcache

open Function (update)
open Lib (System)
open Lib.Recency (toFront)

universe u v

def NBUF : Nat := 10

abbrev Id := Fin NBUF

instance : NeZero NBUF := ⟨Nat.succ_ne_zero 9⟩

abbrev Word := BitVec 32

structure Buf (Data : Type v) where
  /-- `B_BUSY`, `B_VALID` and `B_DIRTY`. -/
  busy : Bool
  valid : Bool
  dirty : Bool
  dev : Word
  sector : Word
  data : Data

variable {Proc : Type u} {Data : Type v}

namespace Buf

/-- What a caller of `bread` calls the block. -/
def block (b : Buf Data) : Word × Word := (b.dev, b.sector)

/-- `(b->flags & (B_VALID|B_DIRTY)) == B_VALID`. -/
def synced (b : Buf Data) : Bool := b.valid && !b.dirty

end Buf

-- ---------------------------------------------------------------------------
-- The controller
-- ---------------------------------------------------------------------------

/-- A drive and the number of a sector in it. -/
abbrev Address := Bool × BitVec 28

/-- What `idestart` writes to the ports 0x1f3 to 0x1f6, and the data that goes with
`IDE_CMD_WRITE`. -/
structure Request (Data : Type v) where
  low : BitVec 8
  mid : BitVec 8
  high : BitVec 8
  select : BitVec 8
  write : Option Data

def idestart (b : Buf Data) : Request Data where
  low := (b.sector &&& 0xff).truncate 8
  mid := ((b.sector >>> 8) &&& 0xff).truncate 8
  high := ((b.sector >>> 16) &&& 0xff).truncate 8
  select := (0xe0 ||| ((b.dev &&& 1) <<< 4) ||| ((b.sector >>> 24) &&& 0x0f)).truncate 8
  write := if b.dirty then some b.data else none

/-- How a controller reads its ports. -/
def Request.address (r : Request Data) : Address :=
  (r.select.getLsbD 4, r.select.truncate 4 ++ r.high ++ r.mid ++ r.low)

/-- Where `idestart` finds a block. -/
def address (k : Word × Word) : Address := (k.1.getLsbD 0, k.2.truncate 28)

inductive Ide (Data : Type v)
  | idle
  | working (r : Request Data)
  /-- The controller has raised its interrupt, and holds the sector. -/
  | finished (x : Data)

/-- The command is carried out: the disk, and what the controller holds. -/
def Request.complete (r : Request Data) (disk : Address → Data) : (Address → Data) × Data :=
  match r.write with
  | some x => (update disk r.address x, x)
  | none => (disk, disk r.address)

-- ---------------------------------------------------------------------------
-- Processes
-- ---------------------------------------------------------------------------

/-- Where a process is that works on a buffer: back from `bget`, or in `iderw`, which it calls to
write or to read. -/
inductive Stage
  | bread
  | iderw (write : Bool)
  | waiting (write : Bool)
  | asleep (write : Bool)
deriving DecidableEq

inductive Pc
  | user
  | bget (dev sector : Word)
  /-- In `sleep(b, &bcache.lock)`. -/
  | asleep (b : Id) (dev sector : Word)
  | on (b : Id) (stage : Stage)

namespace Pc

def stage : Pc → Id → Option Stage
  | .on b st, c => if b = c then some st else none
  | _, _ => none

/-- A process leaves `sleep`. -/
def wake : Pc → Pc
  | .asleep _ dev sector => .bget dev sector
  | .on b (.asleep w) => .on b (.waiting w)
  | pc => pc

/-- `wakeup(b)`, as it changes one process. -/
def wakeup (b : Id) : Pc → Pc
  | .asleep c dev sector => if c = b then .bget dev sector else .asleep c dev sector
  | .on c (.asleep w) => if c = b then .on c (.waiting w) else .on c (.asleep w)
  | pc => pc

end Pc

structure State (Proc : Type u) (Data : Type v) where
  buf : Id → Buf Data
  /-- The list of `bcache`, from `head.next` on. -/
  order : List Id
  /-- `idequeue` and what follows it through `qnext`. -/
  queue : List Id
  ide : Ide Data
  disk : Address → Data
  pc : Proc → Pc
  /-- The process has got the buffer from `bget` and not released it. -/
  holds : Proc → Id → Bool
  /-- The holder has changed the data and not called `bwrite`. -/
  unsaved : Id → Bool
  panicked : Option String

namespace State

variable [DecidableEq Proc] (s : State Proc Data) (p : Proc) (b : Id)

def goto (pc : Pc) : State Proc Data := { s with pc := update s.pc p pc }

def panic (msg : String) : State Proc Data := { s with panicked := some msg }

/-- `bget` returns the buffer. -/
def take (x : Buf Data) : State Proc Data :=
  { s with
    buf := update s.buf b x
    pc := update s.pc p (.on b .bread)
    holds := update s.holds p (update (s.holds p) b true) }

omit [DecidableEq Proc] in
/-- The holder changes the data of the buffer. -/
def store (x : Data) : State Proc Data :=
  { s with
    buf := update s.buf b { s.buf b with data := x }
    unsaved := update s.unsaved b true }

omit [DecidableEq Proc] in
/-- `b->flags |= B_DIRTY`. -/
def setDirty : State Proc Data :=
  { s with
    buf := update s.buf b { s.buf b with dirty := true }
    unsaved := update s.unsaved b false }

end State

variable [DecidableEq Proc]

def bget (s : State Proc Data) (p : Proc) (dev sector : Word) : State Proc Data :=
  match s.order.find? fun b => (s.buf b).block = (dev, sector) with
  | some b =>
    if (s.buf b).busy = false then s.take p b { s.buf b with busy := true }
    else s.goto p (.asleep b dev sector)
  | none =>
    match s.order.reverse.find? fun b => !(s.buf b).busy with
    | some b =>
      s.take p b { s.buf b with dev, sector, busy := true, valid := false, dirty := false }
    | none => s.panic "bget: no buffers"

/-- `iderw` up to `acquire(&idelock)`. -/
def iderw (havedisk1 : Bool) (s : State Proc Data) (p : Proc) (b : Id) (write : Bool) :
    State Proc Data :=
  if (s.buf b).busy = false then s.panic "iderw: buf not busy"
  else if (s.buf b).synced = true then s.panic "iderw: nothing to do"
  else if (s.buf b).dev ≠ 0 ∧ havedisk1 = false then s.panic "iderw: ide disk 1 not present"
  else s.goto p (.on b (.iderw write))

def bwrite (havedisk1 : Bool) (s : State Proc Data) (p : Proc) (b : Id) : State Proc Data :=
  if (s.buf b).busy = false then s.panic "bwrite"
  else iderw havedisk1 (s.setDirty b) p b true

def brelse (s : State Proc Data) (p : Proc) (b : Id) : State Proc Data :=
  if (s.buf b).busy = false then s.panic "brelse"
  else
    { s with
      buf := update s.buf b { s.buf b with busy := false }
      order := toFront b s.order
      pc := fun q => (s.pc q).wakeup b
      holds := update s.holds p (update (s.holds p) b false) }

/-- `iderw` appends the buffer to the queue, and starts the disk where it is the only one. -/
def submit (s : State Proc Data) (p : Proc) (b : Id) (write : Bool) : State Proc Data :=
  { s with
    pc := update s.pc p (.on b (.waiting write))
    queue := s.queue ++ [b]
    ide := if s.queue = [] then .working (idestart (s.buf b)) else s.ide }

/-- `ideintr` with the buffer `b` at the head of the queue: `x` is what the controller holds, and
`err` the result of `idewait(1)`. -/
def ideintr (s : State Proc Data) (b : Id) (rest : List Id) (x : Data) (err : Bool) :
    State Proc Data :=
  let data := if (s.buf b).dirty = false ∧ err = false then x else (s.buf b).data
  { s with
    buf := update s.buf b { s.buf b with data, valid := true, dirty := false }
    pc := fun q => (s.pc q).wakeup b
    queue := rest
    ide :=
      match rest with
      | [] => .idle
      | c :: _ => .working (idestart (s.buf c)) }

/-- `returned` is `bread` returning the block with its data, `bwritten` is `bwrite` returning. -/
inductive Label (Proc : Type u) (Data : Type v)
  | bread (p : Proc) (dev sector : Word)
  | bget (p : Proc)
  | miss (p : Proc)
  | returned (p : Proc) (k : Word × Word) (x : Data)
  | store (p : Proc) (b : Id) (x : Data)
  | bwrite (p : Proc) (k : Word × Word) (x : Data)
  | bwritten (p : Proc) (k : Word × Word)
  | submit (p : Proc)
  | sleep (p : Proc)
  | brelse (p : Proc) (b : Id)
  | complete
  | intr (err : Bool)
  | kill (p : Proc)

inductive Step (havedisk1 : Bool) (s : State Proc Data) : Label Proc Data → State Proc Data → Prop
  | bread (dev sector : Word) (hpc : s.pc p = .user) :
    Step havedisk1 s (.bread p dev sector) (s.goto p (.bget dev sector))
  | bget (hpc : s.pc p = .bget dev sector) :
    Step havedisk1 s (.bget p) (bget s p dev sector)
  /-- The buffer is not valid: `bread` calls `iderw`. -/
  | miss (hpc : s.pc p = .on b .bread) (hvalid : (s.buf b).valid = false) :
    Step havedisk1 s (.miss p) (iderw havedisk1 s p b false)
  | hit (hpc : s.pc p = .on b .bread) (hvalid : (s.buf b).valid = true) :
    Step havedisk1 s (.returned p (s.buf b).block (s.buf b).data) (s.goto p .user)
  | store (x : Data) (hpc : s.pc p = .user) (hholds : s.holds p b = true) :
    Step havedisk1 s (.store p b x) (s.store b x)
  | bwrite (hpc : s.pc p = .user) (hholds : s.holds p b = true) :
    Step havedisk1 s (.bwrite p (s.buf b).block (s.buf b).data) (bwrite havedisk1 s p b)
  | submit (hpc : s.pc p = .on b (.iderw w)) : Step havedisk1 s (.submit p) (submit s p b w)
  | sleep (hpc : s.pc p = .on b (.waiting w)) (hsynced : (s.buf b).synced = false) :
    Step havedisk1 s (.sleep p) (s.goto p (.on b (.asleep w)))
  | returned (hpc : s.pc p = .on b (.waiting false)) (hsynced : (s.buf b).synced = true) :
    Step havedisk1 s (.returned p (s.buf b).block (s.buf b).data) (s.goto p .user)
  | bwritten (hpc : s.pc p = .on b (.waiting true)) (hsynced : (s.buf b).synced = true) :
    Step havedisk1 s (.bwritten p (s.buf b).block) (s.goto p .user)
  | brelse (hpc : s.pc p = .user) (hholds : s.holds p b = true) :
    Step havedisk1 s (.brelse p b) (brelse s p b)
  /-- The controller finishes the command. -/
  | complete (hide : s.ide = .working r) :
    Step havedisk1 s .complete
      { s with disk := (r.complete s.disk).1, ide := .finished (r.complete s.disk).2 }
  | intr (err : Bool) (hide : s.ide = .finished x) (hqueue : s.queue = b :: rest) :
    Step havedisk1 s (.intr err) (ideintr s b rest x err)
  /-- An interrupt that finds no request. -/
  | spurious (err : Bool) (hqueue : s.queue = []) : Step havedisk1 s (.intr err) s
  /-- `kill` makes a process that sleeps runnable. -/
  | kill (p : Proc) : Step havedisk1 s (.kill p) (s.goto p (s.pc p).wake)

/-- After `binit`: the buffers are clear but for `dev`, which is -1. -/
structure Initial (disk : Address → Data) (s : State Proc Data) : Prop where
  busy : ∀ b, (s.buf b).busy = false
  valid : ∀ b, (s.buf b).valid = false
  dirty : ∀ b, (s.buf b).dirty = false
  dev : ∀ b, (s.buf b).dev = -1
  order : s.order = (List.finRange NBUF).reverse
  queue : s.queue = []
  ide : s.ide = .idle
  disk_eq : s.disk = disk
  pc : ∀ p, s.pc p = .user
  holds : ∀ p b, s.holds p b = false
  unsaved : ∀ b, s.unsaved b = false
  panicked : s.panicked = none

def system (havedisk1 : Bool) (disk : Address → Data) :
    System (State Proc Data) (Label Proc Data) where
  init := Initial disk
  step s l t := s.panicked = none ∧ Step havedisk1 s l t

variable (Proc) in
omit [DecidableEq Proc] in
/-- Clear buffers, and a disk that holds 7 in every sector. -/
def clear : State Proc Nat where
  buf _ := ⟨false, false, false, -1, 0, 0⟩
  order := (List.finRange NBUF).reverse
  queue := []
  ide := .idle
  disk _ := 7
  pc _ := .user
  holds _ _ := false
  unsaved _ := false
  panicked := none

omit [DecidableEq Proc] in
theorem clear_initial : Initial (fun _ => 7) (clear Proc) :=
  ⟨fun _ => rfl, fun _ => rfl, fun _ => rfl, fun _ => rfl, rfl, rfl, rfl, rfl, fun _ => rfl,
    fun _ _ => rfl, fun _ => rfl, rfl⟩

end PerrOS.Bcache
