import PerrOS.Stride.Scheduler

/-!
# The minimum of the scan

Which of several processes with the least pass value is dispatched, and when
one is dispatched at all: unless every process that could be has the pass
value that stands for "none yet".
-/

namespace PerrOS.Stride

open Xv6

variable {ptable : Table} {k : Kernel}

/-- The iteration dispatches the first of the runnable processes with the
least pass value, which becomes `globalMinPassVal`. -/
def DispatchesMinimum (k : Kernel) : Prop :=
  ∃ s, (k.ptable s).state = .runnable ∧
    (∀ p, (k.ptable p).state = .runnable →
      (k.ptable s).strideData.passVal ≤ (k.ptable p).strideData.passVal) ∧
    (∀ p < s, (k.ptable p).state = .runnable →
      (k.ptable s).strideData.passVal < (k.ptable p).strideData.passVal) ∧
    scheduler k = (some s, { ptable := Function.update k.ptable s (k.ptable s).dispatch
                             globalMinPassVal := (k.ptable s).strideData.passVal })

/-- Once a minimum stands it is that of the first process to have it; until
then `minPass` has its starting value. -/
structure Foremost (ptable : Table) (seen : List Slot) (acc : Option Slot × BitVec 32) :
    Prop where
  none : acc.1 = none → acc.2 = noPass
  first : ∀ s, acc.1 = some s → acc.2 ≠ noPass → ∀ p ∈ seen, p < s → (ptable p).state = .runnable →
    acc.2 < (ptable p).strideData.passVal

theorem lt_noPass {x : BitVec 32} (h : x ≠ noPass) : x < noPass := by
  unfold noPass at *
  bv_omega

theorem Foremost.scanStep {seen : List Slot} {acc : Option Slot × BitVec 32} {p : Slot}
    (h : Foremost ptable seen acc) (hb : Bounds ptable seen acc)
    (hp : ∀ s, acc.1 = some s → s < p) :
    Foremost ptable (seen ++ [p]) (scanStep ptable acc p) := by
  unfold Stride.scanStep
  split
  case isTrue hidle =>
    refine ⟨h.none, fun s hs hne q hq hlt hqr => ?_⟩
    rcases List.mem_append.mp hq with hq | hq
    · exact h.first s hs hne q hq hlt hqr
    · cases List.mem_singleton.mp hq
      exact absurd hqr hidle
  case isFalse =>
    split
    case isTrue hlt =>
      refine ⟨nofun, ?_⟩
      rintro _ ⟨⟩ hne q hq hqp hqr
      rcases List.mem_append.mp hq with hq | hq
      · have hle := hb.le q hq hqr
        rcases hlt with hno | hlt
        · rw [hno] at hle
          have hq' : (ptable q).strideData.passVal = noPass := BitVec.le_antisymm (le_noPass _) hle
          rw [hq']
          exact lt_noPass hne
        · exact Nat.lt_of_lt_of_le hlt hle
      · cases List.mem_singleton.mp hq
        exact absurd hqp (lt_irrefl p)
    case isFalse =>
      refine ⟨h.none, fun s hs hne q hq hlt hqr => ?_⟩
      rcases List.mem_append.mp hq with hq | hq
      · exact h.first s hs hne q hq hlt hqr
      · cases List.mem_singleton.mp hq
        exact absurd hlt (lt_asymm (hp s hs))

/-- The scan only ever holds a slot it has seen. -/
theorem scanStep_mem {seen : List Slot} {acc : Option Slot × BitVec 32} {p : Slot}
    (h : ∀ s, acc.1 = some s → s ∈ seen) (s : Slot) (hs : (scanStep ptable acc p).1 = some s) :
    s ∈ seen ++ [p] := by
  unfold scanStep at hs
  split at hs
  · exact List.mem_append_left _ (h s hs)
  · split at hs
    · obtain rfl := Option.some.inj hs
      exact List.mem_append_right _ (List.mem_singleton_self p)
    · exact List.mem_append_left _ (h s hs)

theorem Foremost.foldl {seen : List Slot} {acc : Option Slot × BitVec 32}
    (h : Foremost ptable seen acc) (hb : Bounds ptable seen acc)
    (hmem : ∀ s, acc.1 = some s → s ∈ seen) (l : List Slot)
    (hl : (seen ++ l).Pairwise (· < ·)) :
    Foremost ptable (seen ++ l) (l.foldl (Stride.scanStep ptable) acc) := by
  induction l generalizing seen acc with
  | nil => simpa using h
  | cons p l ih =>
    have hlt (s : Slot) (hs : acc.1 = some s) : s < p :=
      (List.pairwise_append.mp hl).2.2 s (hmem s hs) p List.mem_cons_self
    simpa using ih (h.scanStep hb hlt) (hb.scanStep p) (scanStep_mem hmem) (by simpa using hl)

theorem scan_foremost (ptable : Table) : Foremost ptable slots (scan ptable) := by
  have h : Foremost ptable [] (none, noPass) := ⟨fun _ => rfl, nofun⟩
  have hb : Bounds ptable [] (none, noPass) := ⟨by simp, by simp⟩
  exact h.foldl hb nofun slots (List.pairwise_lt_finRange _)

/-- The minimum is dispatched exactly if a runnable process has a pass value
below `2 ^ 32 - 1`. -/
theorem dispatches_minimum_iff :
    DispatchesMinimum k ↔
      ∃ p, (k.ptable p).state = .runnable ∧ (k.ptable p).strideData.passVal ≠ noPass := by
  have hb := scan_bounds k.ptable
  have hf := scan_foremost k.ptable
  unfold DispatchesMinimum scheduler
  generalize scan k.ptable = acc at hb hf
  obtain ⟨s, minPass⟩ := acc
  constructor
  · rintro ⟨s', hs', -, -, hsched⟩
    refine ⟨s', hs', ?_⟩
    cases s with
    | none => cases hsched
    | some s =>
      dsimp only at hsched
      split at hsched
      case isFalse => cases hsched
      case isTrue hne =>
        obtain rfl : s = s' := Option.some.inj (congrArg Prod.fst hsched)
        exact fun hno => hne ((hb.found s rfl).2.trans hno)
  · rintro ⟨p, hp, hne⟩
    have hmin : minPass ≠ noPass := by
      rintro rfl
      exact hne (BitVec.le_antisymm (le_noPass _) (hb.le p (mem_slots p) hp))
    cases s with
    | none => exact absurd (hf.none rfl) hmin
    | some s =>
      obtain ⟨hs, hpass⟩ := hb.found s rfl
      dsimp only at hpass
      refine ⟨s, hs, fun q hq => hpass ▸ hb.le q (mem_slots q) hq, fun q hq hqr => ?_, ?_⟩
      · exact hpass ▸ hf.first s rfl hmin q (mem_slots q) hq hqr
      · dsimp only
        rw [if_pos hmin, hpass]

/-- A process whose pass value is `2 ^ 32 - 1` is not dispatched. -/
theorem top_not_dispatched :
    ¬∀ k : Kernel, (∃ p, (k.ptable p).state = .runnable) → DispatchesMinimum k := by
  intro h
  let k : Kernel :=
    ⟨fun p => if p = 1 then ⟨.runnable, 0, noPass, 0, 0⟩ else ⟨.unused, 0, 0, 0, 0⟩, 0⟩
  have hrun : ∃ p, (k.ptable p).state = .runnable := ⟨1, rfl⟩
  obtain ⟨s, -, -, -, hs⟩ := h k hrun
  have : (scheduler k).1 = none := by decide
  rw [hs] at this
  cases this

end PerrOS.Stride
