import PerrOS.Lib.Counters
import PerrOS.Lib.System

/-!
# The input of the console

`console.c` keeps what is typed in a circular buffer: the line that is edited is
between `w` and `e`, and what readers may take between `r` and `w`. A character
that arrives is a step, and so is each turn of the loops of `consoleread`, taken
while the process holds `input.lock`.

Left out: the echo, and the list of processes that Control-P prints.
-/

namespace PerrOS.Console

open Function (update)
open Lib (System)

abbrev Byte := BitVec 8

def INPUT_BUF : Nat := 128

def newline : Byte := 10

def carriage : Byte := 13

def delete : Byte := 127

/-- Control-`x`. -/
def C (x : Char) : Byte := .ofNat 8 (x.toNat - 64)

structure Input where
  buf : Nat → Byte
  r : BitVec 32
  w : BitVec 32
  e : BitVec 32

namespace Input

/-- The loop of Control-U, with at most `k` turns to go. -/
def killLine : Nat → Input → Input
  | 0, input => input
  | k + 1, input =>
    if input.e ≠ input.w ∧ input.buf ((input.e - 1).toNat % INPUT_BUF) ≠ newline then
      killLine k { input with e := input.e - 1 }
    else input

/-- `input.buf[input.e++ % INPUT_BUF] = c`. -/
def put (input : Input) (c : Byte) : Input :=
  { input with buf := update input.buf (input.e.toNat % INPUT_BUF) c, e := input.e + 1 }

/-- A character of `consoleintr`, and whether readers are woken. -/
def key (input : Input) (c : Byte) : Input × Bool :=
  if c = C 'P' then (input, false)
  else if c = C 'U' then (killLine (input.e - input.w).toNat input, false)
  else if c = C 'H' ∨ c = delete then
    (if input.e ≠ input.w then { input with e := input.e - 1 } else input, false)
  else if c ≠ 0 ∧ input.e - input.r < BitVec.ofNat 32 INPUT_BUF then
    let c := if c = carriage then newline else c
    let input := input.put c
    if c = newline ∨ c = C 'D' ∨ input.e = input.r + BitVec.ofNat 32 INPUT_BUF then
      ({ input with w := input.e }, true)
    else (input, false)
  else (input, false)

/-- `input.buf[input.r % INPUT_BUF]`. -/
def front (input : Input) : Byte := input.buf (input.r.toNat % INPUT_BUF)

def advance (input : Input) : Input := { input with r := input.r + 1 }

end Input

/-- Where a process stands: in the loop with `n` bytes to go of `target`, or leaving it with what
it returns. -/
inductive Pc
  | user
  | reading (target n : Nat)
  | asleep (target n : Nat)
  | awake (target n : Nat)
  | leaving (count : Nat)
deriving DecidableEq

/-- `wakeup(&input.r)`, as it changes one process. -/
def Pc.wake : Pc → Pc
  | asleep target n => awake target n
  | pc => pc

structure State (Proc : Type u) where
  input : Input
  /-- The process that holds `input.lock`. -/
  lock : Option Proc
  pc : Proc → Pc
  killed : Proc → Bool

/-- The steps, with what they copy and what the calls return: `abandoned` returns -1. -/
inductive Label (Proc : Type u)
  | key (c : Byte)
  | read (p : Proc) (n : Nat)
  | take (p : Proc) (x : Byte)
  /-- Control-D is found, and it is `kept` for the next call. -/
  | eof (p : Proc) (kept : Bool)
  | empty (p : Proc)
  | awake (p : Proc)
  | abandoned (p : Proc)
  | returned (p : Proc) (count : Nat)
  | kill (p : Proc)

namespace State

variable {Proc : Type u} (s : State Proc) (p : Proc)

def wakeReaders : State Proc := { s with pc := fun q => (s.pc q).wake }

variable [DecidableEq Proc]

def goto (pc : Pc) : State Proc := { s with pc := update s.pc p pc }

/-- The lock is taken. -/
def enter (pc : Pc) : State Proc := { s.goto p pc with lock := some p }

/-- The lock is given up. -/
def leave (pc : Pc) : State Proc := { s.goto p pc with lock := none }

end State

variable {Proc : Type u}

/-- `consoleintr` for one character. -/
def consoleintr (s : State Proc) (c : Byte) : State Proc :=
  if (s.input.key c).2 then { s with input := (s.input.key c).1 }.wakeReaders
  else { s with input := (s.input.key c).1 }

variable [DecidableEq Proc]

/-- One step. -/
def next (s : State Proc) : Label Proc → Option (State Proc)
  | .key c => if s.lock = none then some (consoleintr s c) else none
  | .kill p => some { s.goto p (s.pc p).wake with killed := update s.killed p true }
  | .read p n =>
    if s.pc p = .user ∧ s.lock = none then some (s.enter p (.reading n n)) else none
  | .awake p =>
    match s.pc p with
    | .awake target n => if s.lock = none then some (s.enter p (.reading target n)) else none
    | _ => none
  | .empty p =>
    match s.pc p with
    | .reading target n =>
      if 0 < n ∧ s.input.r = s.input.w ∧ s.killed p = false then
        some (s.leave p (.asleep target n))
      else none
    | _ => none
  | .abandoned p =>
    match s.pc p with
    | .reading _ n =>
      if 0 < n ∧ s.input.r = s.input.w ∧ s.killed p = true then some (s.leave p .user) else none
    | _ => none
  | .take p x =>
    match s.pc p with
    | .reading target n =>
      if (0 < n ∧ s.input.r ≠ s.input.w) ∧ x = s.input.front ∧ x ≠ C 'D' then
        let s := { s with input := s.input.advance }
        if x = newline then some (s.goto p (.leaving (target - (n - 1))))
        else some (s.goto p (.reading target (n - 1)))
      else none
    | _ => none
  | .eof p kept =>
    match s.pc p with
    | .reading target n =>
      if (0 < n ∧ s.input.r ≠ s.input.w) ∧ s.input.front = C 'D' ∧ kept = decide (n < target) then
        let s := if kept then s else { s with input := s.input.advance }
        some (s.goto p (.leaving (target - n)))
      else none
    | _ => none
  | .returned p count =>
    match s.pc p with
    | .reading target 0 => if count = target then some (s.leave p .user) else none
    | .leaving k => if count = k then some (s.leave p .user) else none
    | _ => none

/-- `consoleinit`. -/
structure Initial (s : State Proc) : Prop where
  input : s.input.r = 0 ∧ s.input.w = 0 ∧ s.input.e = 0
  pc : ∀ p, s.pc p = .user
  lock : s.lock = none

variable (Proc) in
def system : System (State Proc) (Label Proc) := .ofNext Initial next

/-- What a step can do. -/
inductive Step (s : State Proc) : Label Proc → State Proc → Prop
  | key (c : Byte) : Step s (.key c) (consoleintr s c)
  | kill (p : Proc) :
    Step s (.kill p) { s.goto p (s.pc p).wake with killed := update s.killed p true }
  | read (hpc : s.pc p = .user) : Step s (.read p n) (s.enter p (.reading n n))
  | awake (hpc : s.pc p = .awake target n) : Step s (.awake p) (s.enter p (.reading target n))
  | empty (hpc : s.pc p = .reading target n) (hempty : s.input.r = s.input.w) :
    Step s (.empty p) (s.leave p (.asleep target n))
  | abandoned (hpc : s.pc p = .reading target n) : Step s (.abandoned p) (s.leave p .user)
  | takeLine (hpc : s.pc p = .reading target (n + 1)) (hr : s.input.r ≠ s.input.w)
    (hx : s.input.front = newline) :
    Step s (.take p newline) ({ s with input := s.input.advance }.goto p (.leaving (target - n)))
  | take (hpc : s.pc p = .reading target (n + 1)) (hr : s.input.r ≠ s.input.w)
    (hx : s.input.front ≠ newline) (hd : s.input.front ≠ C 'D') :
    Step s (.take p s.input.front)
      ({ s with input := s.input.advance }.goto p (.reading target n))
  | eofKept (hpc : s.pc p = .reading target n) (hr : s.input.r ≠ s.input.w)
    (hd : s.input.front = C 'D') (hn : n < target) :
    Step s (.eof p true) (s.goto p (.leaving (target - n)))
  | eof (hpc : s.pc p = .reading target n) (hr : s.input.r ≠ s.input.w)
    (hd : s.input.front = C 'D') (hn : ¬ n < target) :
    Step s (.eof p false) ({ s with input := s.input.advance }.goto p (.leaving (target - n)))
  | full (hpc : s.pc p = .reading target 0) : Step s (.returned p target) (s.leave p .user)
  | returned (hpc : s.pc p = .leaving count) : Step s (.returned p count) (s.leave p .user)

theorem step_of_next {s t : State Proc} {l : Label Proc} (h : next s l = some t) : Step s l t := by
  cases l with
  | key c =>
    obtain ⟨-, ht⟩ := Option.ite_none_right_eq_some.mp h
    cases ht
    exact .key c
  | kill p =>
    cases h
    exact .kill p
  | read p n =>
    obtain ⟨⟨hpc, -⟩, ht⟩ := Option.ite_none_right_eq_some.mp h
    cases ht
    exact .read hpc
  | awake p =>
    cases hpc : s.pc p with
    | awake target n =>
      simp only [next, hpc] at h
      obtain ⟨-, ht⟩ := Option.ite_none_right_eq_some.mp h
      cases ht
      exact .awake hpc
    | _ => simp [next, hpc] at h
  | empty p =>
    cases hpc : s.pc p with
    | reading target n =>
      simp only [next, hpc] at h
      obtain ⟨⟨-, hempty, -⟩, ht⟩ := Option.ite_none_right_eq_some.mp h
      cases ht
      exact .empty hpc hempty
    | _ => simp [next, hpc] at h
  | abandoned p =>
    cases hpc : s.pc p with
    | reading target n =>
      simp only [next, hpc] at h
      obtain ⟨-, ht⟩ := Option.ite_none_right_eq_some.mp h
      cases ht
      exact .abandoned hpc
    | _ => simp [next, hpc] at h
  | take p x =>
    cases hpc : s.pc p with
    | reading target n =>
      simp only [next, hpc] at h
      obtain ⟨⟨⟨hn, hr⟩, rfl, hd⟩, ht⟩ := Option.ite_none_right_eq_some.mp h
      obtain ⟨m, rfl⟩ := Nat.exists_eq_succ_of_ne_zero (Nat.ne_of_gt hn)
      split at ht
      · rename_i hx
        cases ht
        rw [hx]
        exact .takeLine hpc hr hx
      · rename_i hx
        cases ht
        exact .take hpc hr hx hd
    | _ => simp [next, hpc] at h
  | eof p kept =>
    cases hpc : s.pc p with
    | reading target n =>
      simp only [next, hpc] at h
      obtain ⟨⟨⟨-, hr⟩, hd, rfl⟩, ht⟩ := Option.ite_none_right_eq_some.mp h
      cases ht
      by_cases hn : n < target
      · simp only [hn, decide_true, if_true]
        exact .eofKept hpc hr hd hn
      · simp only [hn, decide_false, Bool.false_eq_true, if_false]
        exact .eof hpc hr hd hn
    | _ => simp [next, hpc] at h
  | returned p count =>
    cases hpc : s.pc p with
    | reading target n =>
      cases n with
      | zero =>
        simp only [next, hpc] at h
        obtain ⟨rfl, ht⟩ := Option.ite_none_right_eq_some.mp h
        cases ht
        exact .full hpc
      | succ n => simp [next, hpc] at h
    | leaving k =>
      simp only [next, hpc] at h
      obtain ⟨rfl, ht⟩ := Option.ite_none_right_eq_some.mp h
      cases ht
      exact .returned hpc
    | _ => simp [next, hpc] at h

-- ---------------------------------------------------------------------------
-- One reader
-- ---------------------------------------------------------------------------

def quiet : State (Fin 1) := ⟨⟨fun _ => 0, 0, 0, 0⟩, none, fun _ => .user, fun _ => false⟩

theorem quiet_initial : Initial quiet := ⟨⟨rfl, rfl, rfl⟩, fun _ => rfl, rfl⟩

end PerrOS.Console
