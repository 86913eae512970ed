import PerrOS.Lib.System
import PerrOS.Mem.Shares

/-!
# Mem_Alloc and Mem_Free under threads

Any number of threads call `Mem_Alloc` and `Mem_Free`. A step is one atomic
piece: a critical section of `slabLock` or of `nextFitLock`, or one turn of
the loop of `initToZero`, which runs outside both locks.
-/

namespace PerrOS.Mem

open Function (update)
open Lib (Memory Path Block System)
open Lib.Block (Tiles frees used Coalesced)

/-- Where a thread stands. -/
inductive Pc
  | idle
  | slabAlloc (size : Int)
  | nextFitAlloc (size : Int)
  | zero (itr stop ret : Nat)
  | slabFree (ptr : Nat)
  | nextFitFree (ptr : Nat)
deriving DecidableEq

/-- An allocation, and the thread whose call still works on it, if any: its
`Mem_Alloc` is zeroing it, or its `Mem_Free` has not freed it yet. -/
structure Allocation (Thread : Type) where
  ptr : Nat
  size : Int
  call : Option Thread

structure Threads (Thread : Type) where
  state : State
  pc : Thread → Pc
  owned : List (Allocation Thread)

inductive Label (Thread : Type)
  | memAlloc (t : Thread) (size : Int)
  | memFree (t : Thread) (ptr : Nat)
  | piece (t : Thread)
  | write (a : Nat) (v : BitVec 8)

/-- What `Mem_Free` decides before it takes a lock. -/
inductive Target
  | error
  | slab
  | nextFit
deriving DecidableEq

def freeTarget (s : State) (ptr : Nat) : Target :=
  if s.initializedOnce = false then .error
  else if ptr = NULL ∨ ptr < s.regionStartPtr ∨ ptr > ptrAdd s.regionStartPtr s.sizeOfRegion then
    .error
  else if (ptr : Int) % ALIGN_SIZE ≠ 0 then .error
  else if ptr < s.nextFitRegionStartPtr then
    if (int32 (s.nextFitRegionStartPtr - ptr)).tmod s.roundedSlabAllocationSize ≠ 0 then .error
    else .slab
  else .nextFit

/-- What `Mem_Alloc` does before it takes a lock. -/
def allocEntry (s : State) (size : Int) : Pc :=
  if s.initializedOnce = false then .idle
  else if size = s.slabUnitSize then .slabAlloc size
  else .nextFitAlloc size

/-- `initToZero(ret, isNextFit)`, about to test its loop condition. -/
def initToZero (s : State) (ret : Nat) (isNextFit : Bool) : Pc :=
  .zero (if isNextFit then ret + headerSize else ret) (ptrAdd ret s.roundedSlabAllocationSize) ret

def storeByte (s : State) (a : Nat) (v : BitVec 8) : Option State :=
  if s.Mapped a 1 then some { s with mem := update s.mem a v } else none

section
variable {Thread : Type}

/-- Sets the call that works on the allocation at `ptr`. -/
def setCall (ptr : Nat) (call : Option Thread) (owned : List (Allocation Thread)) :
    List (Allocation Thread) :=
  owned.map fun e => if e.ptr = ptr then { e with call := call } else e

variable [DecidableEq Thread]

/-- One atomic piece of the call that `t` has made. -/
def runPiece (m : Threads Thread) (t : Thread) : Option (Threads Thread) :=
  match m.pc t with
  | .idle => none
  | .slabAlloc size => do
    let (s, ret) ← slabPop m.state
    if ret ≠ NULL then
      some ⟨s, update m.pc t (initToZero s ret false), ⟨ret, size, some t⟩ :: m.owned⟩
    else some { m with state := s, pc := update m.pc t (.nextFitAlloc size) }
  | .nextFitAlloc size => do
    let (s, ret) ← nextFitAlloc m.state size
    if ret = NULL then some { m with state := s, pc := update m.pc t .idle }
    else if size = s.slabUnitSize then
      some ⟨s, update m.pc t (initToZero s ret true), ⟨ret, size, some t⟩ :: m.owned⟩
    else some ⟨s, update m.pc t .idle, ⟨ret, size, none⟩ :: m.owned⟩
  | .zero itr stop ret =>
    if itr < stop then do
      let s ← storeByte m.state itr 0
      some { m with state := s, pc := update m.pc t (.zero (itr + 1) stop ret) }
    else some { m with pc := update m.pc t .idle, owned := setCall ret none m.owned }
  | .slabFree ptr => do
    let s ← slabPush m.state ptr
    some ⟨s, update m.pc t .idle, m.owned.filter fun e => decide (e.ptr ≠ ptr)⟩
  | .nextFitFree ptr => do
    let (s, _) ← nextFitFree m.state ptr
    some ⟨s, update m.pc t .idle, m.owned.filter fun e => decide (e.ptr ≠ ptr)⟩

def Threads.next (m : Threads Thread) : Label Thread → Option (Threads Thread)
  | .memAlloc t size =>
    if m.pc t = .idle ∧ 0 ≤ size ∧ size < 2 ^ 31 then
      some { m with pc := update m.pc t (allocEntry m.state size) }
    else none
  | .memFree t ptr =>
    if m.pc t = .idle ∧ ∃ e ∈ m.owned, e.ptr = ptr ∧ e.call = none then
      match freeTarget m.state ptr with
      | .error => some m
      | .slab =>
        some { m with
          pc := update m.pc t (.slabFree ptr), owned := setCall ptr (some t) m.owned }
      | .nextFit =>
        some { m with
          pc := update m.pc t (.nextFitFree ptr), owned := setCall ptr (some t) m.owned }
    else none
  | .piece t => runPiece m t
  | .write a v =>
    if ∃ e ∈ m.owned, e.call = none ∧ e.ptr ≤ a ∧ (a : Int) < e.ptr + e.size then do
      let s ← storeByte m.state a v
      some { m with state := s }
    else none

/-- The states right after a successful `Mem_Init`, before any call. -/
def Threads.Init (sizeOfRegion slabSize : Int) (start : Nat) (m : Threads Thread) : Prop :=
  (∃ s₀ p, memInit s₀ sizeOfRegion slabSize (some start) = some (m.state, p) ∧ p ≠ NULL) ∧
    (∀ t, m.pc t = .idle) ∧ m.owned = []

def Threads.system (sizeOfRegion slabSize : Int) (start : Nat) :
    System (Threads Thread) (Label Thread) :=
  .ofNext (Threads.Init sizeOfRegion slabSize start) Threads.next

end

end PerrOS.Mem
