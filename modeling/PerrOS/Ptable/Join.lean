import PerrOS.Ptable.Moves

/-!
# What a join waits for

`proc_join` returns -1 where its scan finds no entry of interest. The scan
does not pass over the entry of the caller, so a thread that asks for any
thread, or for its own pid, finds itself and goes to sleep.
-/

namespace PerrOS.Ptable

open Xv6 (Slot slots mem_slots)

variable {s : State} {p k : Slot} {pid : Pid}

/-- What `proc_join` returns from one turn of its loop, unless it goes to
sleep. -/
def joinResult (s : State) (p : Slot) (pid : Pid) : Option Pid :=
  match scan s p (isJoinable s p pid) with
  | .reap k => some (s.proc k).pid
  | .fail => some (-1)
  | .sleep => none

/-- The caller is asleep inside `proc_join`. -/
def JoinSleeps (s : State) (p : Slot) (pid : Pid) : Prop :=
  ((join s p pid).proc p).state = .sleeping ∧ (join s p pid).pc p = .joining pid

/-- The thread in slot `k` is not the caller, is of its group and matches
`pid`, and has not been reaped. -/
def Awaits (s : State) (p : Slot) (pid : Pid) (k : Slot) : Prop :=
  k ≠ p ∧ isJoinable s p pid k = true ∧ (s.proc k).state ≠ .unused

instance : Decidable (Awaits s p pid k) := inferInstanceAs (Decidable (_ ∧ _))

/-- A join sleeps only for a thread other than the caller, and fails if there
is none. -/
structure JoinEnds (s : State) (p : Slot) (pid : Pid) : Prop where
  sleeps : JoinSleeps s p pid → ∃ k, Awaits s p pid k
  fails : (∀ k, ¬Awaits s p pid k) → joinResult s p pid = some (-1)

/-- The caller is a thread that asks for any thread or for itself. -/
def FindsItself (s : State) (p : Slot) (pid : Pid) : Prop :=
  (s.proc p).isThread = true ∧ ((s.proc p).pid = pid ∨ pid = -1)

theorem isJoinable_self : isJoinable s p pid p = true ↔ FindsItself s p pid := by
  simp only [isJoinable, FindsItself, Bool.and_eq_true, Bool.or_eq_true, decide_eq_true_eq,
    true_and]
  tauto

theorem joinSleeps_iff : JoinSleeps s p pid ↔ joinResult s p pid = none := by
  unfold JoinSleeps join turn joinResult
  cases hscan : scan s p (isJoinable s p pid) with
  | reap k => simp
  | fail => simp
  | sleep => simp [sleep]

/-- The entries that a turn finds are awaited, or the caller's own, or
free. -/
theorem joinResult_eq_fail (hp : (s.proc p).state = .running) (hnone : ∀ k, ¬Awaits s p pid k) :
    joinResult s p pid = some (-1) ↔
      (s.proc p).killed = true ∨ ∀ k, isJoinable s p pid k = false := by
  have hspec := scan_spec s p (isJoinable s p pid)
  unfold joinResult
  cases hscan : scan s p (isJoinable s p pid) with
  | reap k =>
    obtain ⟨hjoin, hz⟩ : isJoinable s p pid k = true ∧ (s.proc k).state = .zombie := by
      rwa [hscan] at hspec
    have hne : k ≠ p := by
      rintro rfl
      rw [hp] at hz
      cases hz
    exact absurd ⟨hne, hjoin, by rw [hz]; decide⟩ (hnone k)
  | fail =>
    rw [hscan] at hspec
    exact iff_of_true rfl hspec.2.symm
  | sleep =>
    rw [hscan] at hspec
    obtain ⟨-, ⟨k, hk⟩, hkilled⟩ := hspec
    refine iff_of_false nofun ?_
    rintro (h | h)
    · rw [hkilled] at h
      cases h
    · rw [h k] at hk
      cases hk

theorem join_ends_iff (hp : (s.proc p).state = .running) : JoinEnds s p pid ↔
    (s.proc p).killed = true ∨ (∃ k, Awaits s p pid k) ∨
      ¬FindsItself s p pid ∧
        ∀ k, (s.proc k).state = .unused → isJoinable s p pid k = false := by
  by_cases hnone : ∀ k, ¬Awaits s p pid k
  · have hfail := joinResult_eq_fail hp hnone
    constructor
    · intro h
      rcases hfail.mp (h.fails hnone) with hkilled | hfree
      · exact .inl hkilled
      · refine .inr (.inr ⟨fun hself => ?_, fun k _ => hfree k⟩)
        rw [← isJoinable_self, hfree p] at hself
        cases hself
    · intro h
      have hresult : joinResult s p pid = some (-1) := by
        rcases h with hkilled | ⟨k, hk⟩ | ⟨hself, hfree⟩
        · exact hfail.mpr (.inl hkilled)
        · exact absurd hk (hnone k)
        · refine hfail.mpr (.inr fun k => ?_)
          by_contra hk
          rw [Bool.not_eq_false] at hk
          have hne : k ≠ p := by
            rintro rfl
            exact hself (isJoinable_self.mp hk)
          refine hnone k ⟨hne, hk, fun hstate => ?_⟩
          rw [hfree k hstate] at hk
          cases hk
      refine ⟨fun hs => ?_, fun _ => hresult⟩
      rw [joinSleeps_iff, hresult] at hs
      cases hs
  · have hsome : ∃ k, Awaits s p pid k := by simpa using hnone
    exact iff_of_true ⟨fun _ => hsome, fun h => absurd h hnone⟩ (.inr (.inl hsome))

/-- Init clones a thread. -/
def threadRun : List Label := bootRun ++ cloneRun 0 0x4000 4

/-- While there is a thread, init may join any thread. -/
theorem join_ends_init : ∃ s, JoinEnds s 0 (-1) := by
  obtain ⟨s, -, hp, hz⟩ := exists_run (fun _ _ => True) threadRun
    (fun s => (s.proc 0).state = .running ∧ Awaits s 0 (-1) 1) (by decide +kernel)
  exact ⟨s, (join_ends_iff hp).mpr (.inr (.inl ⟨1, hz⟩))⟩

/-- The only thread of init asks for any thread. -/
theorem join_sleeps_for_itself : ¬∀ s p pid, kernel.Reachable s → (s.proc p).state = .running →
    JoinEnds s p pid := by
  intro h
  obtain ⟨s, hrun, hp, hresult, hnone⟩ := exists_run (fun _ _ => True)
    (threadRun ++ [.dispatch 1])
    (fun s => (s.proc 1).state = .running ∧ joinResult s 1 (-1) = none ∧ ∀ k, ¬Awaits s 1 (-1) k)
    (by decide +kernel)
  obtain ⟨k, hk⟩ := (h s 1 (-1) ⟨_, hrun.of_restrict⟩ hp).sleeps (joinSleeps_iff.mpr hresult)
  exact hnone k hk

end PerrOS.Ptable
