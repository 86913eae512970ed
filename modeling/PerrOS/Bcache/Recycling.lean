import PerrOS.Bcache.Exclusion

/-!
# Which buffer gives up its block

`brelse` moves a buffer to the front of the list and `bget` searches it from
the end, so the buffer that gives up its block is the free one that was
released longest ago.
-/

namespace PerrOS.Bcache

open Lib.Recency (age Sorted)

universe u v

variable {Proc : Type u} {Data : Type v} [DecidableEq Proc] {s t : State Proc Data} {b c : Id}
  {l : Label Proc Data} {ls : List (Label Proc Data)} {havedisk1 : Bool}
  {disk : Address → Data}

/-- The buffers that a run has released, oldest first. -/
def released (ls : List (Label Proc Data)) : List Id :=
  ls.filterMap fun
    | .brelse _ b => some b
    | _ => none

theorem sorted_step (h : Sorted (released ls) s.order) (hsound : Sound s)
    (hs : Step havedisk1 s l t) (hok : t.panicked = none) :
    Sorted (released (ls ++ [l])) t.order := by
  rw [released, List.filterMap_append, ← released]
  have hkeep : Sorted (released ls ++ []) s.order := by
    rwa [List.append_nil]
  cases hs with
  | @bget p dev sector =>
    obtain ⟨b, -, -, -, he⟩ | ⟨b, -, -, -, he⟩ | ⟨b, -, -, -, he⟩ | ⟨-, he⟩ :=
      bget_cases s p dev sector <;> (rw [he]; exact hkeep)
  | miss =>
    rw [iderw_of_ok hok]
    exact hkeep
  | bwrite =>
    rw [bwrite_of_ok hok]
    exact hkeep
  | @brelse p b hpc hholds =>
    rw [brelse_of_busy (hsound.phases.held hpc hholds).1]
    exact h.toFront hsound.listed.1 b
  | _ => exact hkeep

theorem run_sorted (h : (system havedisk1 disk).Run ls s) (hok : s.panicked = none) :
    Sorted (released ls) s.order := by
  suffices hinv : s.panicked = none → Sound s ∧ Sorted (released ls) s.order from (hinv hok).2
  refine h.invariant (P := fun ls s => s.panicked = none → Sound s ∧ Sorted (released ls) s.order)
    (fun s hs _ => ⟨hs.sound, Lib.Recency.sorted_nil _⟩) fun ls s l t hinv hs hok => ?_
  obtain ⟨hsound, hsorted⟩ := hinv hs.1
  exact ⟨hsound.step hs.2 hok, sorted_step hsorted hsound hs.2 hok⟩

end PerrOS.Bcache
