import PerrOS.Lib.System

/-!
# Cells

A memory as its users see it: each event is a read with what it returns, or a
write. In a run every read returns what was last written.
-/

namespace Lib.Cells

universe u v

variable {K : Type u} {V : Type v} [DecidableEq K] [DecidableEq V]

inductive Event (K : Type u) (V : Type v)
  | read (k : K) (x : V)
  | write (k : K) (x : V)

def next (m : K → V) : Event K V → Option (K → V)
  | .read k x => if m k = x then some m else none
  | .write k x => some (Function.update m k x)

def system (m : K → V) : System (K → V) (Event K V) := .ofNext (· = m) next

/-- What the writes to a cell have put there, oldest first. -/
def writes (k : K) (es : List (Event K V)) : List V :=
  es.filterMap fun
    | .read .. => none
    | .write k' x => if k' = k then some x else none

/-- The last value written to a cell, or what it held before. -/
def contents (m : K → V) (es : List (Event K V)) (k : K) : V := (writes k es).getLast?.getD (m k)

variable {m m' : K → V} {es : List (Event K V)} {k : K} {x : V}

theorem run_contents (h : (system m).Run es m') : m' = contents m es := by
  induction h with
  | init h =>
    cases h
    rfl
  | @step es a e b _ hs ih =>
    subst ih
    funext k
    cases e with
    | read k' x =>
      obtain ⟨-, he⟩ := Option.ite_none_right_eq_some.mp hs
      cases he
      simp [contents, writes, List.filterMap_append]
    | write k' x =>
      cases hs
      by_cases hk : k' = k
      · subst hk
        simp [contents, writes, List.filterMap_append]
      · simp [contents, writes, List.filterMap_append, hk, Function.update_of_ne (Ne.symm hk)]

/-- A read returns what was last written. -/
theorem run_read (h : (system m).Run (es ++ [.read k x]) m') : x = contents m es k := by
  obtain ⟨a, hr, hs⟩ := h.of_concat
  rw [← run_contents hr]
  exact (Option.ite_none_right_eq_some.mp hs).1.symm

end Lib.Cells
