import PerrOS.Lib.System

/-!
# First-in first-out queues

What a queue does as its users see it: each event is a call with its result.
Elements come out in the order in which they went in, and whatever went in is
out again or still queued.
-/

namespace Lib

universe u

namespace Fifo

variable {α : Type u} [DecidableEq α]

inductive Event (α : Type u)
  /-- A call that finds the queue full. -/
  | refuse (x : α)
  | push (x : α)
  | pop (x : α)
  /-- A call that finds the queue empty. -/
  | idle
deriving DecidableEq

/-- A queue turns an element down only where it holds `bound` of them. -/
def next (bound : Nat) : List α → Event α → Option (List α)
  | q, .refuse _ => if q.length = bound then some q else none
  | q, .push x => some (q ++ [x])
  | y :: q, .pop x => if x = y then some q else none
  | [], .idle => some []
  | _, _ => none

def system (bound : Nat) : System (List α) (Event α) := .ofNext (· = []) (next bound)

/-- What went in. -/
def pushed (es : List (Event α)) : List α :=
  es.filterMap fun
    | .push x => some x
    | _ => none

/-- What came out. -/
def popped (es : List (Event α)) : List α :=
  es.filterMap fun
    | .pop x => some x
    | _ => none

variable {bound : Nat} {q q' : List α} {e : Event α} {es : List (Event α)}

theorem step_conserves (h : next bound q e = some q') : q ++ pushed [e] = popped [e] ++ q' := by
  cases e with
  | refuse x =>
    obtain ⟨-, h⟩ := Option.ite_none_right_eq_some.mp h
    simpa [pushed, popped] using h
  | push x => simpa [next, pushed, popped] using h
  | pop x =>
    cases q with
    | nil => cases h
    | cons y q =>
      obtain ⟨rfl, h⟩ := Option.ite_none_right_eq_some.mp h
      simpa [next, pushed, popped] using h
  | idle =>
    cases q with
    | nil => simpa [next, pushed, popped] using h
    | cons y q => cases h

/-- Nothing is lost and the order is kept. -/
theorem run_conserves (h : (system bound).Run es q) : pushed es = popped es ++ q := by
  induction h with
  | init h =>
    obtain rfl := h
    rfl
  | @step es q e q' _ hs ih =>
    have hstep := step_conserves hs
    calc pushed (es ++ [e]) = popped es ++ (q ++ pushed [e]) := by
          rw [pushed, List.filterMap_append, ← List.append_assoc, ← ih]
          rfl
      _ = popped (es ++ [e]) ++ q' := by
          rw [hstep, ← List.append_assoc, popped, popped, popped, List.filterMap_append]

end Fifo

end Lib
