import PerrOS.Lib.Fifo
import PerrOS.Pipes.Calls

/-!
# What pipes carry

A pipe is a queue of at most `PIPESIZE` bytes: however the processes that write
and read it take turns, the bytes come out in the order in which they went in,
each once.
-/

namespace PerrOS.Pipes

open Lib (Counters Fifo.Event)

universe u

variable {Proc : Type u} {s t : State Proc} {p q : Proc} {l : Label Proc}
  {ls : List (Label Proc)} {bytes : List Byte} {n : Int} {i : Nat} {pipe : Pipe}

-- ---------------------------------------------------------------------------
-- The queue
-- ---------------------------------------------------------------------------

/-- The bytes that are written and not yet read. -/
def Pipe.queue (pipe : Pipe) : List Byte :=
  Counters.elements PIPESIZE pipe.nread pipe.nwrite pipe.data

def Pipe.Holds (pipe : Pipe) (bytes : List Byte) : Prop :=
  Counters PIPESIZE pipe.nread pipe.nwrite pipe.data bytes

namespace Pipe.Holds

theorem queue_eq (h : pipe.Holds bytes) : pipe.queue = bytes := Counters.elements_eq h

theorem empty_iff (h : pipe.Holds bytes) : pipe.empty = true ↔ bytes = [] := by
  rw [Pipe.empty, decide_eq_true_eq]
  exact Counters.eq_iff h

theorem full_iff (h : pipe.Holds bytes) : pipe.full = true ↔ bytes.length = PIPESIZE := by
  rw [Pipe.full, decide_eq_true_eq]
  exact Counters.full_iff h

theorem put (h : pipe.Holds bytes) (hroom : pipe.full = false) (x : Byte) :
    (pipe.put x).Holds (bytes ++ [x]) := by
  refine Counters.push h (Nat.lt_of_le_of_ne h.length_le fun he => ?_) x
  rw [h.full_iff.mpr he] at hroom
  cases hroom

theorem advance (h : pipe.Holds bytes) (hempty : pipe.empty = false) :
    ∃ rest, bytes = pipe.front :: rest ∧ pipe.advance.Holds rest := by
  cases bytes with
  | nil =>
    rw [h.empty_iff.mpr rfl] at hempty
    cases hempty
  | cons x rest => exact ⟨rest, by rw [Pipe.front, Counters.front h], Counters.pop h⟩

end Pipe.Holds

theorem Initial.holds (h : Initial s) : s.pipe.Holds [] := by
  rw [Pipe.Holds, h.counters.1, h.counters.2]
  exact Counters.empty (by decide) ⟨2 ^ 23, by decide⟩ (by decide) 0 s.pipe.data

@[simp] theorem pipeclose_queue (s : State Proc) (writable : Bool) :
    (pipeclose s writable).pipe.Holds bytes ↔ s.pipe.Holds bytes := by
  cases writable <;> exact Iff.rfl

variable [DecidableEq Proc]

/-- What a step does to the queue. -/
def event : Label Proc → Option (Fifo.Event Byte)
  | .put _ x => some (.push x)
  | .take _ x => some (.pop x)
  | _ => none

/-- A pipe is a queue. -/
theorem simulation : (system Proc).Simulation (Lib.Fifo.system PIPESIZE)
    (fun s bytes => s.pipe.Holds bytes) event where
  init h := ⟨[], rfl, h.holds⟩
  skip hs hl h := by
    cases step_of_next hs with
    | put | take => cases hl
    | close => exact (pipeclose_queue _ _).mpr h
    | _ => exact h
  step hs hl h := by
    cases step_of_next hs with
    | put x _ _ hroom =>
      cases hl
      exact ⟨_, rfl, h.put hroom x⟩
    | take _ _ hempty =>
      cases hl
      obtain ⟨rest, rfl, hrest⟩ := h.advance hempty
      exact ⟨rest, if_pos rfl, hrest⟩
    | _ => cases hl

/-- The bytes that the processes have written. -/
def sent (ls : List (Label Proc)) : List Byte :=
  ls.filterMap fun
    | .put _ x => some x
    | _ => none

/-- The bytes that they have read. -/
def received (ls : List (Label Proc)) : List Byte :=
  ls.filterMap fun
    | .take _ x => some x
    | _ => none

omit [DecidableEq Proc] in
theorem pushed_event (ls : List (Label Proc)) : Lib.Fifo.pushed (ls.filterMap event) = sent ls := by
  rw [Lib.Fifo.pushed, List.filterMap_filterMap]
  refine congrArg (List.filterMap · ls) (funext fun l => ?_)
  cases l <;> rfl

omit [DecidableEq Proc] in
theorem popped_event (ls : List (Label Proc)) :
    Lib.Fifo.popped (ls.filterMap event) = received ls := by
  rw [Lib.Fifo.popped, List.filterMap_filterMap]
  refine congrArg (List.filterMap · ls) (funext fun l => ?_)
  cases l <;> rfl

/-- Whoever writes and reads a pipe, what was written is what was read, and then what the pipe
holds, in this order. -/
theorem sent_eq_received (h : (system Proc).Run ls s) :
    sent ls = received ls ++ s.pipe.queue ∧ s.pipe.queue.length ≤ PIPESIZE := by
  obtain ⟨bytes, hrun, hholds⟩ := simulation.run h
  have hconserves := Lib.Fifo.run_conserves hrun
  rw [pushed_event, popped_event] at hconserves
  rw [hholds.queue_eq]
  exact ⟨hconserves, hholds.length_le⟩

theorem sent_eq_received_of_two : ∃ s, (system (Fin 2)).Run
    [.write 1 2, .put 1 7, .put 1 9, .written 1, .read 0 1, .ready 0, .take 0 7, .returned 0 1] s ∧
    s.pipe.queue = [9] := by
  have hrun : (system (Fin 2)).Run [.write 1 2, .put 1 7, .put 1 9, .written 1, .read 0 1,
      .ready 0, .take 0 7, .returned 0 1] _ := Lib.System.run_exec opened_initial rfl
  refine ⟨_, hrun, ?_⟩
  exact (List.cons.inj (sent_eq_received hrun).1).2.symm

end PerrOS.Pipes
