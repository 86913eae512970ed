import PerrOS.Console.Lines

/-!
# What a read of the console returns

A call of `consoleread` returns what it has copied: up to a line, and less only
at Control-D, which it keeps for the next call where it has copied something.
-/

namespace PerrOS.Console

open Function (update)

/-- A call of `consoleread`. -/
structure Call where
  asked : Nat
  copied : List Byte
  /-- Control-D has been found, and whether it was kept. -/
  eof : Option Bool

variable {Proc : Type u} [DecidableEq Proc]

/-- What a step means for the call of `p`. -/
def progress (p : Proc) : Label Proc → Call → Call
  | .read q n, c => if q = p then ⟨n, [], none⟩ else c
  | .take q x, c => if q = p then { c with copied := c.copied ++ [x] } else c
  | .eof q kept, c => if q = p then { c with eof := some kept } else c
  | _, c => c

/-- The last call of `p`. -/
def callAfter (p : Proc) (ls : List (Label Proc)) : Call :=
  ls.foldl (fun c l => progress p l c) ⟨0, [], none⟩

structure Returned (c : Call) (k : Nat) : Prop where
  count : k = c.copied.length
  le : k ≤ c.asked
  noEof : C 'D' ∉ c.copied
  /-- A newline is the last byte. -/
  line : newline ∉ c.copied.dropLast
  less : k < c.asked → c.copied.getLast? = some newline ∨ c.eof = some (decide (0 < k))

structure Copying (c : Call) (target n : Nat) : Prop where
  asked : c.asked = target
  count : c.copied.length + n = target
  noEof : C 'D' ∉ c.copied
  noLine : newline ∉ c.copied

/-- Where a process is in its call. -/
def Serving (c : Call) : Pc → Prop
  | .user => True
  | .reading target n | .asleep target n | .awake target n => Copying c target n
  | .leaving count => Returned c count

variable {s t : State Proc} {l : Label Proc} {ls : List (Label Proc)} {p : Proc} {c : Call}
  {x : Byte} {pc : Pc}

theorem Serving.wake (h : Serving c pc) : Serving c pc.wake := by
  cases pc <;> exact h

theorem Copying.dropLast (h : Copying c target n) : newline ∉ c.copied.dropLast :=
  fun hmem => h.noLine (List.dropLast_subset _ hmem)

theorem Copying.take (h : Copying c target (n + 1)) (hx : x ≠ newline) (hd : x ≠ C 'D') :
    Copying { c with copied := c.copied ++ [x] } target n where
  asked := h.asked
  count := by
    rw [List.length_append, List.length_singleton, ← h.count]
    omega
  noEof hmem := (List.mem_append.mp hmem).elim h.noEof fun he =>
    hd (List.mem_singleton.mp he).symm
  noLine hmem := (List.mem_append.mp hmem).elim h.noLine fun he =>
    hx (List.mem_singleton.mp he).symm

/-- A line ends. -/
theorem Copying.takeLine (h : Copying c target (n + 1)) :
    Returned { c with copied := c.copied ++ [newline] } (target - n) where
  count := by
    rw [List.length_append, List.length_singleton, ← h.count]
    omega
  le := h.asked ▸ Nat.sub_le ..
  noEof hmem := (List.mem_append.mp hmem).elim h.noEof fun he =>
    absurd (List.mem_singleton.mp he) (by decide)
  line := by
    rw [List.dropLast_concat]
    exact h.noLine
  less _ := .inl List.getLast?_concat

/-- Control-D is found. -/
theorem Copying.eof (h : Copying c target n) :
    Returned { c with eof := some (decide (n < target)) } (target - n) where
  count := by
    rw [← h.count, Nat.add_sub_cancel]
  le := h.asked ▸ Nat.sub_le ..
  noEof := h.noEof
  line := h.dropLast
  less _ := by
    refine .inr (congrArg some (decide_eq_decide.mpr ?_))
    omega

theorem Copying.full (h : Copying c target 0) : Returned c target where
  count := h.count.symm
  le := Nat.le_of_eq h.asked.symm
  noEof := h.noEof
  line := h.dropLast
  less hlt := absurd h.asked (Nat.ne_of_gt hlt)

theorem serving_step (h : Serving c (s.pc p)) (hs : Step s l t) :
    Serving (progress p l c) (t.pc p) := by
  -- another process takes the step
  have hother {q : Proc} (hq : q ≠ p) (pc : Pc) : Serving c (update s.pc q pc p) := by
    rw [Function.update_of_ne (Ne.symm hq)]
    exact h
  -- the process takes it, and its call is `c'`
  have hself {q : Proc} {c' : Call} {pc : Pc} (hq : q = p) (hc : Serving c' pc) :
      Serving c' (update s.pc q pc p) := by
    rw [hq, Function.update_self]
    exact hc
  cases hs with
  | key x =>
    unfold consoleintr
    split
    · exact h.wake
    · exact h
  | kill q =>
    by_cases hq : q = p
    · exact hself hq (hq ▸ h.wake)
    · exact hother hq _
  | @read q n hpc =>
    dsimp only [progress]
    split
    · rename_i hq
      exact hself hq ⟨rfl, Nat.zero_add _, List.not_mem_nil, List.not_mem_nil⟩
    · rename_i hq
      exact hother hq _
  | @awake q target n hpc =>
    by_cases hq : q = p
    · rw [← hq, hpc] at h
      exact hself hq h
    · exact hother hq _
  | @empty q target n hpc hempty =>
    by_cases hq : q = p
    · rw [← hq, hpc] at h
      exact hself hq h
    · exact hother hq _
  | @abandoned q target n hpc =>
    by_cases hq : q = p
    · exact hself hq trivial
    · exact hother hq _
  | @takeLine q target n hpc hr hx =>
    dsimp only [progress]
    split
    · rename_i hq
      rw [← hq, hpc] at h
      exact hself hq (Copying.takeLine h)
    · rename_i hq
      exact hother hq _
  | @take q target n hpc hr hx hd =>
    dsimp only [progress]
    split
    · rename_i hq
      rw [← hq, hpc] at h
      exact hself hq (Copying.take h hx hd)
    · rename_i hq
      exact hother hq _
  | @eofKept q target n hpc hr hd hn =>
    dsimp only [progress]
    split
    · rename_i hq
      rw [← hq, hpc] at h
      have := Copying.eof h
      rw [decide_eq_true hn] at this
      exact hself hq this
    · rename_i hq
      exact hother hq _
  | @eof q target n hpc hr hd hn =>
    dsimp only [progress]
    split
    · rename_i hq
      rw [← hq, hpc] at h
      have := Copying.eof h
      rw [decide_eq_false hn] at this
      exact hself hq this
    · rename_i hq
      exact hother hq _
  | @full q target hpc =>
    by_cases hq : q = p
    · exact hself hq trivial
    · exact hother hq _
  | @returned q count hpc =>
    by_cases hq : q = p
    · exact hself hq trivial
    · exact hother hq _

theorem run_serving (h : (system Proc).Run ls s) (p : Proc) :
    Serving (callAfter p ls) (s.pc p) := by
  refine h.invariant (P := fun ls s => Serving (callAfter p ls) (s.pc p)) ?_ ?_
  · intro s hs
    rw [hs.pc]
    trivial
  · intro ls s l t hserving hs
    unfold callAfter
    rw [List.foldl_append]
    exact serving_step hserving (step_of_next hs)

/-- What a read returns, in any run. -/
theorem consoleread_returns (h : (system Proc).Run (ls ++ [.returned p count]) s) :
    Returned (callAfter p ls) count := by
  obtain ⟨t, hrun, hs⟩ := h.of_concat
  have hserving := run_serving hrun p
  cases step_of_next hs with
  | full hpc =>
    rw [hpc] at hserving
    exact Copying.full hserving
  | returned hpc =>
    rw [hpc] at hserving
    exact hserving

/-- A reader of ten bytes takes the line `x`. -/
theorem line_read : ∃ s, (system (Fin 1)).Run
    ([.key 120, .key newline, .read 0 10, .take 0 120, .take 0 newline] ++ [.returned 0 2]) s ∧
    Returned (callAfter (0 : Fin 1)
      [.key 120, .key newline, .read 0 10, .take 0 120, .take 0 newline]) 2 := by
  have hrun : (system (Fin 1)).Run ([.key 120, .key newline, .read 0 10, .take 0 120,
      .take 0 newline] ++ [.returned 0 2]) _ := Lib.System.run_exec quiet_initial rfl
  exact ⟨_, hrun, consoleread_returns hrun⟩

end PerrOS.Console
