import PerrOS.Stride.Charge

/-!
# No process from the past

On one CPU a runnable process is never behind the global pass value, except
one that `kill` wakes: `kill` does not fast-forward the pass value as
`wakeup1` does. From the bound it follows that the global pass value never
falls and that no process gets more than one quantum ahead of a process that
waits.
-/

namespace PerrOS.Stride

open Lib (System)
open Xv6

variable {Cpu : Type} {s t : State Cpu}

/-- The step kills no sleeping process that is behind the global pass value. -/
def NoStaleKill (s : State Cpu) : Label Cpu → Prop
  | .call _ _ (.kill pid) => ∀ p, killTarget s pid = some p → (s.ptable p).state = .sleeping →
      s.globalMinPassVal ≤ passVal s p
  | _ => True

instance (s : State Cpu) : (l : Label Cpu) → Decidable (NoStaleKill s l)
  | .call _ _ (.kill _) => inferInstanceAs (Decidable (∀ _, _ → _ → _))
  | .call _ _ .yield | .call _ _ (.sleep _) | .call _ _ (.settickets _) | .call _ _ (.fork _)
  | .call _ _ .exit | .call _ _ .wait | .schedule _ | .wakeup _ => .isTrue trivial

/-- A process that runs or can be chosen. -/
def Ready (s : State Cpu) (p : Slot) : Prop :=
  (s.ptable p).state = .runnable ∨ (s.ptable p).state = .running

/-- No process is from the past. -/
def Present (s : State Cpu) : Prop := ∀ p, Ready s p → s.globalMinPassVal ≤ passVal s p

-- ---------------------------------------------------------------------------
-- The bound
-- ---------------------------------------------------------------------------

/-- The entry that a step without a dispatch leaves. -/
theorem Move.present {e : Entry} (h : Move s l p e) (hs : Present s) (hkill : NoStaleKill s l)
    (hl : ∀ c, l = .schedule c → (scheduler s.toKernel).1 = none)
    (he : e.state = .runnable ∨ e.state = .running) : s.globalMinPassVal ≤ e.strideData.passVal := by
  cases h with
  | stay => exact hs p he
  | dispatch _ hsel => simp [hl _ rfl] at hsel
  | wake => exact BitVec.le_refl _
  | rouse hp hsleep => exact hkill p hp hsleep
  | leave st hrun => exact hs p (.inr hrun)
  | tickets hrun => exact hs p (.inr hrun)
  | create => exact BitVec.le_refl _
  | reap => simp at he

variable {s t : State Unit}

theorem Present.next (hs : Present s) (hcpu : Cpus s) (h : next s l = some t) (hwrap : NoWrap s l)
    (hkill : NoStaleKill s l) : Present t ∧ s.globalMinPassVal ≤ t.globalMinPassVal := by
  obtain ⟨hg, hnone⟩ | ⟨⟨⟩, q, rfl, hidle, hsel, hrun, hmin, hg⟩ := next_global h
  · exact ⟨fun p hp => hg ▸ (next_move hcpu h p).present hs hkill hnone hp,
      hg ▸ BitVec.le_refl _⟩
  · refine ⟨fun p hp => ?_, hg ▸ hs q (.inl hrun)⟩
    have hmove := next_move hcpu h p
    unfold passVal
    unfold Ready at hp
    generalize t.ptable p = e at hmove hp ⊢
    rw [hg]
    cases hmove with
    | stay =>
      refine hmin p (hp.resolve_right fun hp => ?_)
      -- the only CPU was idle
      obtain ⟨⟨⟩, hc⟩ := hcpu.cpu p hp
      simp [hidle] at hc
    | dispatch _ hsel' =>
      obtain rfl : q = p := Option.some.inj (hsel.symm.trans hsel')
      exact le_dispatch (hwrap q hsel)
    | wake hw => exact hw.elim

-- ---------------------------------------------------------------------------
-- Runs
-- ---------------------------------------------------------------------------

/-- The steps on one CPU without wrapping and without the kills of
`NoStaleKill`. -/
def present : System (State Unit) (Label Unit) :=
  (kernel Unit).restrict fun s l => NoWrap s l ∧ NoStaleKill s l

theorem present_of_reachable (h : present.Reachable s) : Present s := by
  refine h.invariant (P := Present) (fun s h => ?_) fun s l t hr hs ⟨h, hwrap, hkill⟩ =>
    (hs.next (cpus_of_reachable hr.of_restrict) h hwrap hkill).1
  obtain ⟨-, hg, -, -⟩ := userinit_bss h
  exact fun p _ => by simp [hg, BitVec.le_def]

theorem globalMinPassVal_mono (h : present.Reachable s) (hr : (present.startingAt s).Run ls t) :
    s.globalMinPassVal ≤ t.globalMinPassVal := by
  refine (hr.invariant (P := fun _ t => present.Reachable t ∧
    s.globalMinPassVal ≤ t.globalMinPassVal) ?_ ?_).2
  · rintro _ rfl
    exact ⟨h, BitVec.le_refl _⟩
  · rintro _ u l v ⟨hu, hle⟩ hstep
    have hnext := (present_of_reachable hu).next (cpus_of_reachable hu.of_restrict) hstep.1
      hstep.2.1 hstep.2.2
    exact ⟨hu.step hstep, BitVec.le_trans hle hnext.2⟩

-- ---------------------------------------------------------------------------
-- Catching up
-- ---------------------------------------------------------------------------

/-- `q` is runnable and the step does not choose it. -/
def Waits (q : Slot) (s : State Unit) (l : Label Unit) : Prop :=
  (s.ptable q).state = .runnable ∧ ∀ c, l = .schedule c → (scheduler s.toKernel).1 ≠ some q

theorem Move.waits {e : Entry} (h : Move s l q e) (hq : Waits q s l) :
    e.strideData.passVal = passVal s q := by
  have hrun := hq.1
  cases h with
  | stay => rfl
  | dispatch _ hsel => exact absurd hsel (hq.2 _ rfl)
  | wake hw => simp [hw.sleeping] at hrun
  | rouse _ hst | leave _ hst | tickets hst | create hst | reap hst => simp [hst] at hrun

/-- A stride is at most the one of 10 tickets. -/
theorem strideVal_le (h : (kernel Unit).Reachable s) (hp : (s.ptable p).state = .runnable) :
    (s.ptable p).strideData.strideVal.toNat ≤ 1500 := by
  obtain ⟨ls, h⟩ := h
  have hs := booted_of_run h
  by_cases htuned : p = s.initproc → Tuned ls p
  · exact (hs.consistent p (by simp [hp]) htuned).bounds.2
  · obtain ⟨rfl, htuned⟩ := Classical.not_imp.mp htuned
    simp [(hs.untuned htuned).1]

theorem scheduler_least (hsel : (scheduler s.toKernel).1 = some p)
    (hq : (s.ptable q).state = .runnable) : passVal s p ≤ passVal s q := by
  obtain he | ⟨p', -, hmin, he⟩ := scheduler_eq s.toKernel
  · simp [he] at hsel
  · obtain rfl : p' = p := by simpa [he] using hsel
    exact hmin q hq

/-- While `q` waits, a step takes the pass value of `p` at most one quantum
beyond the one of `q`. -/
theorem Move.caught_up {e : Entry} (h : Move s l p e) (hs : (kernel Unit).Reachable s)
    (hpresent : Present s) (hwrap : NoWrap s l) (hq : Waits q s l) :
    e.strideData.passVal.toNat ≤ max (passVal s p).toNat ((passVal s q).toNat + 1500) := by
  have hglobal : s.globalMinPassVal.toNat ≤ (passVal s q).toNat := hpresent q (.inl hq.1)
  cases h with
  | stay | rouse | leave | tickets | reap => exact Nat.le_max_left _ _
  | dispatch hrun hsel =>
    have hle : (passVal s p).toNat ≤ (passVal s q).toNat := scheduler_least hsel hq.1
    have hquantum := strideVal_le hs hrun
    have hsum : (s.ptable p).dispatch.strideData.passVal.toNat =
        (passVal s p).toNat + (s.ptable p).strideData.strideVal.toNat := by
      rw [Entry.dispatch, BitVec.toNat_add]
      exact Nat.mod_eq_of_lt (hwrap p hsel)
    omega
  | wake => exact Nat.le_trans hglobal (by omega)
  | create => exact Nat.le_trans hglobal (by omega)

theorem caught_up (h : present.Reachable s)
    (hr : ((present.restrict (Waits q)).startingAt s).Run ls t) (p : Slot) :
    (passVal t p).toNat ≤ max (passVal s p).toNat ((passVal s q).toNat + 1500) := by
  refine (hr.invariant (P := fun _ u => present.Reachable u ∧ passVal u q = passVal s q ∧
    (passVal u p).toNat ≤ max (passVal s p).toNat ((passVal s q).toNat + 1500)) ?_ ?_).2.2
  · rintro _ rfl
    exact ⟨h, rfl, Nat.le_max_left _ _⟩
  · rintro _ u l v ⟨hu, hsame, hle⟩ ⟨hstep, hq⟩
    have hmove := next_move (cpus_of_reachable hu.of_restrict) hstep.1
    have hup := (hmove p).caught_up hu.of_restrict (present_of_reachable hu) hstep.2.1 hq
    refine ⟨hu.step hstep, ((hmove q).waits hq).trans hsame, ?_⟩
    rw [hsame] at hup
    exact Nat.le_trans hup (by omega)

/-- Without the kills of `NoStaleKill`, on one CPU: no runnable process is
behind the global pass value, the global pass value never falls, and while a
process waits no other one is charged further than a quantum beyond it. -/
theorem no_process_from_the_past (h : present.Reachable s) :
    (∀ p, (s.ptable p).state = .runnable → s.globalMinPassVal ≤ passVal s p) ∧
      (∀ ls t, (present.startingAt s).Run ls t → s.globalMinPassVal ≤ t.globalMinPassVal) ∧
      ∀ q ls t, ((present.restrict (Waits q)).startingAt s).Run ls t →
        ∀ p, (passVal t p).toNat ≤ max (passVal s p).toNat ((passVal s q).toNat + 1500) :=
  ⟨fun p hp => present_of_reachable h p (.inl hp), fun _ _ hr => globalMinPassVal_mono h hr,
    fun _ _ _ hr => caught_up h hr⟩

theorem no_process_from_the_past_child : ∃ s : State Unit, (s.ptable 1).state = .runnable ∧
    s.globalMinPassVal ≤ passVal s 1 := by
  obtain ⟨s, hs, hrun⟩ := System.exists_run (userinit bss) next
    (fun s l => NoWrap s l ∧ NoStaleKill s l) forkAndWait
    (fun s => (s.ptable 1).state = .runnable) (by decide +kernel)
  exact ⟨s, hrun, (no_process_from_the_past ⟨_, hs⟩).1 1 hrun⟩

/-- Child 1 sleeps with pass value 1500 while child 2 runs twice, up to a
global pass value of 3000; then child 2 kills it. -/
def staleKill : List (Label Unit) :=
  [.schedule (), .call () 0 (.fork true), .call () 0 (.fork true), .call () 0 .wait,
    .schedule (), .call () 1 (.sleep (.other 0)), .schedule (), .call () 2 .yield,
    .schedule (), .call () 2 .yield, .schedule (), .call () 2 (.kill 2)]

/-- A killed sleeper is scheduled from the past. -/
theorem killed_from_the_past : ¬ ∀ s : State Unit, ((kernel Unit).restrict NoWrap).Reachable s →
    ∀ p, (s.ptable p).state = .runnable → s.globalMinPassVal ≤ passVal s p := by
  intro h
  obtain ⟨s, hs, hrun, hlt⟩ := System.exists_run (userinit bss) next NoWrap staleKill
    (fun s => (s.ptable 1).state = .runnable ∧ passVal s 1 < s.globalMinPassVal)
    (by decide +kernel)
  exact BitVec.not_lt.mpr (h s ⟨_, hs⟩ 1 hrun) hlt

end PerrOS.Stride
