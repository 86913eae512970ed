import PerrOS.Xv6.Process

/-!
# The stride scheduler

One iteration of `scheduler` in the stride kernel: the scan for the least
pass value, whose running minimum is a signed `long` with `-1` for "none yet"
compared as unsigned, and the dispatch of the process found.
-/

namespace PerrOS.Stride

open Xv6

/-- `StrideData`; both `int` and `unsigned long` are 32 bits on the i386. -/
structure StrideData where
  strideVal : BitVec 32
  passVal : BitVec 32
  numTickets : BitVec 32
  n_schedule : BitVec 32
deriving DecidableEq, Repr

/-- The fields of `struct proc` that the scheduler reads and writes. -/
structure Entry where
  state : ProcState
  strideData : StrideData
deriving DecidableEq, Repr

abbrev Table := Slot → Entry

/-- `minPass = -1`. -/
def noPass : BitVec 32 := -1

/-- One turn of the scan: `s` and `minPass` after the entry `p`. -/
def scanStep (ptable : Table) (acc : Option Slot × BitVec 32) (p : Slot) :
    Option Slot × BitVec 32 :=
  if (ptable p).state ≠ .runnable then acc
  else if acc.2 = noPass ∨ (ptable p).strideData.passVal < acc.2 then
    (some p, (ptable p).strideData.passVal)
  else acc

def scan (ptable : Table) : Option Slot × BitVec 32 :=
  slots.foldl (scanStep ptable) (none, noPass)

/-- What the dispatch of a chosen process writes to its entry. -/
def Entry.dispatch (e : Entry) : Entry :=
  { state := .running
    strideData := { e.strideData with
      n_schedule := e.strideData.n_schedule + 1
      passVal := e.strideData.passVal + e.strideData.strideVal } }

structure Kernel where
  ptable : Table
  globalMinPassVal : BitVec 32

/-- The body of the `for(;;)` of `scheduler`, up to `swtch`: the process
switched to, if any, and the kernel data it is switched to with. -/
def scheduler (k : Kernel) : Option Slot × Kernel :=
  match scan k.ptable with
  | (some s, minPass) =>
    if minPass ≠ noPass then
      (some s, { ptable := Function.update k.ptable s (k.ptable s).dispatch
                 globalMinPassVal := minPass })
    else (none, k)
  | (none, _) => (none, k)

-- ---------------------------------------------------------------------------
-- The scan
-- ---------------------------------------------------------------------------

/-- The result of the scan over `seen`: nothing runnable, or a runnable entry
whose pass value is least. -/
def Least (ptable : Table) (seen : List Slot) (acc : Option Slot × BitVec 32) : Prop :=
  (acc = (none, noPass) ∧ ∀ p ∈ seen, (ptable p).state ≠ .runnable) ∨
    ∃ s ∈ seen, acc = (some s, (ptable s).strideData.passVal) ∧ (ptable s).state = .runnable ∧
      ∀ p ∈ seen, (ptable p).state = .runnable →
        (ptable s).strideData.passVal ≤ (ptable p).strideData.passVal

/-- The sentinel does not get in the way: no runnable entry has it as its
pass value. -/
def NoSentinel (ptable : Table) : Prop :=
  ∀ p, (ptable p).state = .runnable → (ptable p).strideData.passVal ≠ noPass

instance (ptable : Table) : Decidable (NoSentinel ptable) :=
  inferInstanceAs (Decidable (∀ p, (ptable p).state = .runnable → _ ≠ noPass))

theorem Least.scanStep (h : Least ptable seen acc) (hns : NoSentinel ptable) (p : Slot) :
    Least ptable (seen ++ [p]) (scanStep ptable acc p) := by
  unfold Stride.scanStep
  by_cases hp : (ptable p).state = .runnable
  · rw [if_neg (not_not.mpr hp)]
    obtain ⟨rfl, hnone⟩ | ⟨s, hs, rfl, hrun, hmin⟩ := h
    · rw [if_pos (.inl rfl)]
      refine .inr ⟨p, by simp, rfl, hp, fun q hq hqr => ?_⟩
      rcases List.mem_append.mp hq with hq | hq
      · exact absurd hqr (hnone q hq)
      · cases List.mem_singleton.mp hq
        exact BitVec.le_refl _
    · split
      case isTrue hlt =>
        have hlt := hlt.resolve_left (hns s hrun)
        refine .inr ⟨p, by simp, rfl, hp, fun q hq hqr => ?_⟩
        rcases List.mem_append.mp hq with hq | hq
        · exact BitVec.le_trans (BitVec.le_of_lt hlt) (hmin q hq hqr)
        · cases List.mem_singleton.mp hq
          exact BitVec.le_refl _
      case isFalse hge =>
        refine .inr ⟨s, by simp [hs], rfl, hrun, fun q hq hqr => ?_⟩
        rcases List.mem_append.mp hq with hq | hq
        · exact hmin q hq hqr
        · cases List.mem_singleton.mp hq
          exact BitVec.not_lt.mp fun hlt => hge (.inr hlt)
  · rw [if_pos hp]
    obtain ⟨rfl, hnone⟩ | ⟨s, hs, rfl, hrun, hmin⟩ := h
    · refine .inl ⟨rfl, fun q hq => ?_⟩
      rcases List.mem_append.mp hq with hq | hq
      · exact hnone q hq
      · cases List.mem_singleton.mp hq
        exact hp
    · refine .inr ⟨s, by simp [hs], rfl, hrun, fun q hq hqr => ?_⟩
      rcases List.mem_append.mp hq with hq | hq
      · exact hmin q hq hqr
      · cases List.mem_singleton.mp hq
        exact absurd hqr hp

theorem Least.foldl (h : Least ptable seen acc) (hns : NoSentinel ptable) (l : List Slot) :
    Least ptable (seen ++ l) (l.foldl (Stride.scanStep ptable) acc) := by
  induction l generalizing seen acc with
  | nil => simpa using h
  | cons p l ih => simpa using ih (h.scanStep hns p)

theorem scan_least (hns : NoSentinel ptable) : Least ptable slots (scan ptable) := by
  have h : Least ptable [] (none, noPass) := .inl ⟨rfl, by simp⟩
  simpa [scan] using h.foldl hns slots

/-- What one iteration can do: nothing is runnable and nothing changes, or a
runnable process with the least pass value is dispatched. -/
theorem scheduler_cases (hns : NoSentinel k.ptable) :
    (scheduler k = (none, k) ∧ ∀ p, (k.ptable p).state ≠ .runnable) ∨
      ∃ s, (k.ptable s).state = .runnable ∧
        (∀ p, (k.ptable p).state = .runnable →
          (k.ptable s).strideData.passVal ≤ (k.ptable p).strideData.passVal) ∧
        scheduler k = (some s, { ptable := Function.update k.ptable s (k.ptable s).dispatch
                                 globalMinPassVal := (k.ptable s).strideData.passVal }) := by
  obtain ⟨hscan, hnone⟩ | ⟨s, -, hscan, hrun, hmin⟩ := scan_least hns
  · exact .inl ⟨by simp [scheduler, hscan], fun p => hnone p (mem_slots p)⟩
  · refine .inr ⟨s, hrun, fun p => hmin p (mem_slots p), ?_⟩
    simp [scheduler, hscan, hns s hrun]

-- ---------------------------------------------------------------------------
-- The scan where the sentinel can be a pass value
-- ---------------------------------------------------------------------------

/-- `minPass` bounds the pass values seen, and is the one of `s`. -/
structure Bounds (ptable : Table) (seen : List Slot) (acc : Option Slot × BitVec 32) : Prop where
  le : ∀ p ∈ seen, (ptable p).state = .runnable → acc.2 ≤ (ptable p).strideData.passVal
  found : ∀ s, acc.1 = some s → (ptable s).state = .runnable ∧ acc.2 = (ptable s).strideData.passVal

theorem le_noPass (x : BitVec 32) : x ≤ noPass := by
  unfold noPass
  rw [BitVec.le_def]
  have := x.isLt
  simp
  omega

theorem Bounds.scanStep (h : Bounds ptable seen acc) (p : Slot) :
    Bounds ptable (seen ++ [p]) (scanStep ptable acc p) := by
  unfold Stride.scanStep
  split
  case isTrue hp =>
    refine ⟨fun q hq hqr => ?_, h.found⟩
    rcases List.mem_append.mp hq with hq | hq
    · exact h.le q hq hqr
    · cases List.mem_singleton.mp hq
      exact absurd hqr hp
  case isFalse hp =>
    have hp := not_not.mp hp
    split
    case isTrue hlt =>
      refine ⟨fun q hq hqr => ?_, ?_⟩
      · rcases List.mem_append.mp hq with hq | hq
        · have hle : (ptable p).strideData.passVal ≤ acc.2 := by
            rcases hlt with hno | hlt
            · exact hno ▸ le_noPass _
            · exact BitVec.le_of_lt hlt
          exact BitVec.le_trans hle (h.le q hq hqr)
        · cases List.mem_singleton.mp hq
          exact BitVec.le_refl _
      · rintro _ ⟨⟩
        exact ⟨hp, rfl⟩
    case isFalse hge =>
      refine ⟨fun q hq hqr => ?_, h.found⟩
      rcases List.mem_append.mp hq with hq | hq
      · exact h.le q hq hqr
      · cases List.mem_singleton.mp hq
        exact BitVec.not_lt.mp fun hlt => hge (.inr hlt)

theorem Bounds.foldl (h : Bounds ptable seen acc) (l : List Slot) :
    Bounds ptable (seen ++ l) (l.foldl (Stride.scanStep ptable) acc) := by
  induction l generalizing seen acc with
  | nil => simpa using h
  | cons p l ih => simpa using ih (h.scanStep p)

theorem scan_bounds (ptable : Table) : Bounds ptable slots (scan ptable) := by
  have h : Bounds ptable [] (none, noPass) := ⟨by simp, by simp⟩
  simpa [scan] using h.foldl slots

/-- What one iteration can do for any pass values: nothing, or a runnable
process with the least pass value is dispatched. -/
theorem scheduler_eq (k : Kernel) :
    scheduler k = (none, k) ∨
      ∃ s, (k.ptable s).state = .runnable ∧
        (∀ p, (k.ptable p).state = .runnable →
          (k.ptable s).strideData.passVal ≤ (k.ptable p).strideData.passVal) ∧
        scheduler k = (some s, { ptable := Function.update k.ptable s (k.ptable s).dispatch
                                 globalMinPassVal := (k.ptable s).strideData.passVal }) := by
  have h := scan_bounds k.ptable
  unfold scheduler
  generalize scan k.ptable = acc at h ⊢
  obtain ⟨_ | s, minPass⟩ := acc
  · exact .inl rfl
  · obtain ⟨hrun, hmin⟩ := h.found s rfl
    dsimp only at hmin ⊢
    split
    · subst hmin
      exact .inr ⟨s, hrun, fun p => h.le p (mem_slots p), rfl⟩
    · exact .inl rfl

end PerrOS.Stride
