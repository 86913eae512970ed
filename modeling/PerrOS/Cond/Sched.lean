import PerrOS.Cond.Variable

/-!
# Who holds `ptable.lock`

A thread that is past `acquire(&ptable.lock)` runs on the CPU that holds the
lock, and a thread in `sched` runs on none. The lock passes from a thread to
the scheduler of its CPU and from there to the thread dispatched, so the
facts are stated over three places a thread can be in.
-/

namespace PerrOS.Cond

open Function (update)
open Xv6 (ProcState)

variable {Thread Cpu C : Type}

/-- What a program point says of the CPU and of `ptable.lock`. -/
inductive Place
  | free
  | holding
  | off

def Pc.place : Pc C → Place
  | .run _ => .free
  | .yielding _ _ | .resuming _ => .holding
  | .away _ | .kernel (.asleep _) => .off
  | .kernel _ => .holding

structure Sched (proc : Cpu → Option Thread) (ptable : Option Cpu) (place : Thread → Place)
    (pstate : Thread → ProcState) : Prop where
  inj : ∀ j k t, proc j = some t → proc k = some t → j = k
  holding : ∀ t, place t = .holding → ∃ k, ptable = some k ∧ proc k = some t
  off : ∀ t, place t = .off → ∀ k, proc k ≠ some t
  runnable : ∀ t, pstate t = .runnable → place t = .off

namespace Sched

variable {proc : Cpu → Option Thread} {ptable : Option Cpu} {place : Thread → Place}
variable {pstate : Thread → ProcState} {k : Cpu} {t u : Thread}

/-- At most one thread is past `acquire(&ptable.lock)`. -/
theorem holder_unique (h : Sched proc ptable place pstate) (ht : place t = .holding)
    (hu : place u = .holding) : t = u := by
  obtain ⟨j, hj, ht⟩ := h.holding t ht
  obtain ⟨k, hk, hu⟩ := h.holding u hu
  obtain rfl : j = k := Option.some.inj (hj.symm.trans hk)
  exact Option.some.inj (ht.symm.trans hu)

/-- With a CPU in its scheduler under the lock, no thread is past the
acquire. -/
theorem not_holding (h : Sched proc ptable place pstate) (hk : proc k = none)
    (hp : ptable = none ∨ ptable = some k) : place t ≠ .holding := by
  intro ht
  obtain ⟨j, hj, ht⟩ := h.holding t ht
  rcases hp with rfl | rfl
  · simp at hj
  · obtain rfl := Option.some.inj hj
    simp [hk] at ht

theorem scheduler (h : Sched proc ptable place pstate) (hk : proc k = none)
    (hp : ptable = none ∨ ptable = some k) (l : Option Cpu) : Sched proc l place pstate :=
  ⟨h.inj, fun _ ht => absurd ht (h.not_holding hk hp), h.off, h.runnable⟩

/-- Only threads off the CPUs become `RUNNABLE`. -/
theorem setState (h : Sched proc ptable place pstate)
    (hs : ∀ u, pstate' u = .runnable → pstate u = .runnable ∨ place u = .off) :
    Sched proc ptable place pstate' :=
  ⟨h.inj, h.holding, h.off, fun u hu => (hs u hu).elim (h.runnable u) id⟩

section
variable [DecidableEq Thread]

theorem acquire (h : Sched proc none place pstate) (hk : proc k = some t) :
    Sched proc (some k) (update place t .holding) pstate := by
  have hoff : place t ≠ .off := fun ht => h.off t ht k hk
  refine ⟨h.inj, ?_, ?_, ?_⟩
  · intro u hu
    rcases eq_or_ne u t with rfl | hne
    · exact ⟨k, rfl, hk⟩
    · rw [Function.update_of_ne hne] at hu
      obtain ⟨j, hj, -⟩ := h.holding u hu
      simp at hj
  · intro u hu
    rcases eq_or_ne u t with rfl | hne
    · simp at hu
    · exact h.off u (by rwa [Function.update_of_ne hne] at hu)
  · intro u hu
    rcases eq_or_ne u t with rfl | hne
    · exact absurd (h.runnable u hu) hoff
    · rw [Function.update_of_ne hne]
      exact h.runnable u hu

theorem release (h : Sched proc ptable place pstate) (ht : place t = .holding) :
    Sched proc none (update place t .free) pstate := by
  refine ⟨h.inj, ?_, ?_, ?_⟩
  · intro u hu
    rcases eq_or_ne u t with rfl | hne
    · simp at hu
    · rw [Function.update_of_ne hne] at hu
      exact absurd (h.holder_unique hu ht) hne
  · intro u hu
    rcases eq_or_ne u t with rfl | hne
    · simp at hu
    · exact h.off u (by rwa [Function.update_of_ne hne] at hu)
  · intro u hu
    rcases eq_or_ne u t with rfl | hne
    · simp [h.runnable u hu] at ht
    · rw [Function.update_of_ne hne]
      exact h.runnable u hu

variable [DecidableEq Cpu]

theorem switch (h : Sched proc ptable place pstate) (ht : place t = .holding)
    (hk : proc k = some t) :
    Sched (update proc k none) ptable (update place t .off) pstate := by
  have hproc {j u} (hj : update proc k none j = some u) : j ≠ k ∧ proc j = some u := by
    rcases eq_or_ne j k with rfl | hne
    · simp at hj
    · exact ⟨hne, by rwa [Function.update_of_ne hne] at hj⟩
  refine ⟨fun i j u hi hj => h.inj i j u (hproc hi).2 (hproc hj).2, ?_, ?_, ?_⟩
  · intro u hu
    rcases eq_or_ne u t with rfl | hne
    · simp at hu
    · rw [Function.update_of_ne hne] at hu
      exact absurd (h.holder_unique hu ht) hne
  · intro u hu j hj
    rcases eq_or_ne u t with rfl | hne
    · exact (hproc hj).1 (h.inj j k u (hproc hj).2 hk)
    · rw [Function.update_of_ne hne] at hu
      exact h.off u hu j (hproc hj).2
  · intro u hu
    rcases eq_or_ne u t with rfl | hne
    · simp
    · rw [Function.update_of_ne hne]
      exact h.runnable u hu

theorem dispatch (h : Sched proc (some k) place pstate) (hk : proc k = none)
    (ht : place t = .off) :
    Sched (update proc k (some t)) (some k) (update place t .holding)
      (update pstate t .running) := by
  have hproc {j u} (hj : update proc k (some t) j = some u) :
      j = k ∧ u = t ∨ j ≠ k ∧ u ≠ t ∧ proc j = some u := by
    rcases eq_or_ne j k with rfl | hne
    · exact .inl ⟨rfl, by simpa [eq_comm] using hj⟩
    · rw [Function.update_of_ne hne] at hj
      exact .inr ⟨hne, fun hu => h.off t ht j (hu ▸ hj), hj⟩
  refine ⟨?_, ?_, ?_, ?_⟩
  · intro i j u hi hj
    rcases hproc hi with ⟨rfl, rfl⟩ | ⟨_, hu, hi⟩
    · rcases hproc hj with ⟨rfl, -⟩ | ⟨_, hu, -⟩
      · rfl
      · exact absurd rfl hu
    · rcases hproc hj with ⟨-, hu'⟩ | ⟨_, _, hj⟩
      · exact absurd hu' hu
      · exact h.inj i j u hi hj
  · intro u hu
    rcases eq_or_ne u t with rfl | hne
    · exact ⟨k, rfl, by simp⟩
    · rw [Function.update_of_ne hne] at hu
      exact absurd hu (h.not_holding hk (.inr rfl))
  · intro u hu j hj
    rcases eq_or_ne u t with rfl | hne
    · simp at hu
    · rw [Function.update_of_ne hne] at hu
      rcases hproc hj with ⟨-, hu'⟩ | ⟨_, _, hj⟩
      · exact hne hu'
      · exact h.off u hu j hj
  · intro u hu
    rcases eq_or_ne u t with rfl | hne
    · simp at hu
    · rw [Function.update_of_ne hne] at hu ⊢
      exact h.runnable u hu

end

end Sched

end PerrOS.Cond
