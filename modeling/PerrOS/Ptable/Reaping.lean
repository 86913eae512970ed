import PerrOS.Ptable.Ledger
import PerrOS.Ptable.Pages
import PerrOS.Ptable.Wakeups

/-!
# Reaping

Each pid is returned once, by the call that its kind of process is reaped
with, and nobody sleeps next to a zombie it waits for: as long as no thread
that exits is named as a parent. Such a thread drops the lock after it has
woken its siblings and before it is a zombie.
-/

namespace PerrOS.Ptable

open Lib (System)
open Xv6 (Slot)

variable {s t : State}

/-- The pids that `wait` and `proc_join` have returned. -/
def returned (log : List Event) : List Pid :=
  log.filterMap fun
    | .reaped _ pid _ => some pid
    | _ => none

theorem returned_sublist (log : List Event) : (returned log).Sublist (freed log) := by
  induction log with
  | nil => exact .slnil
  | cons e log ih =>
    cases e with
    | created | freevm => exact ih
    | unwound pid kstack => exact ih.cons pid
    | reaped call pid kstack => exact ih.cons_cons pid

structure Reaping (s : State) : Prop where
  /-- No pid is returned twice. -/
  once : (returned s.log).Nodup
  /-- A pid that is returned was given a stack before, and the stack is what
  the call frees. -/
  created : ∀ call pid kstack, .reaped call pid kstack ∈ s.log →
    ∃ kind, .created kind pid kstack ∈ s.log
  /-- Threads are returned by `proc_join`, forked processes by `wait`. -/
  call : ∀ kind pid kstack call kstack', .created kind pid kstack ∈ s.log →
    .reaped call pid kstack' ∈ s.log → call = kind.reaper ∧ kstack' = kstack
  /-- No stack is freed twice. -/
  freed : (freed s.log).Nodup
  /-- Until then it is in use, for one entry. -/
  held : ∀ k, (s.proc k).kstack ≠ 0 → s.used (s.proc k).kstack = true ∧
    ∀ j, (s.proc j).kstack = (s.proc k).kstack → j = k

/-- A pid is created as one kind. -/
theorem created_unique {log : List Event} (h : (created log).Nodup) {kind kind' : Kind} {pid : Pid}
    {kstack kstack' : Page} (hmem : .created kind pid kstack ∈ log)
    (hmem' : .created kind' pid kstack' ∈ log) : kind = kind' ∧ kstack = kstack' := by
  induction log with
  | nil => cases hmem
  | cons e log ih =>
    rcases List.mem_cons.mp hmem with rfl | hold <;> rcases List.mem_cons.mp hmem' with e' | hold'
    · cases e'
      exact ⟨rfl, rfl⟩
    · exact absurd (mem_created hold') (List.nodup_cons.mp h).1
    · subst e'
      exact absurd (mem_created hold) (List.nodup_cons.mp h).1
    · exact ih (h.sublist ((List.sublist_cons_self e log).filterMap _)) hold hold'

theorem Ledger.settled (h : Ledger s) (hpages : Pages s) : Reaping s where
  once := h.freed_once.sublist (returned_sublist s.log)
  created call pid kstack he := (h.reaped call pid kstack he).imp fun _ hk => hk.1
  call kind pid kstack call kstack' hc hr := by
    obtain ⟨kind', hc', hcall⟩ := h.reaped call pid kstack' hr
    obtain ⟨rfl, rfl⟩ := created_unique h.created_once hc hc'
    exact ⟨hcall, rfl⟩
  freed := h.freed_once
  held k hk := by
    refine ⟨hpages.exclusive.used (.stack k) _ ⟨rfl, hk⟩, fun j hj => ?_⟩
    have := hpages.exclusive.unique (.stack j) (.stack k) _ ⟨hj, hk⟩ ⟨rfl, hk⟩
    simpa using this

/-- Fewer than `2 ^ 31` pids have been handed out, and `exec` is left to
processes that are not threads. -/
def FewPids (s : State) (l : Label) : Prop := s.nextpid.toNat < 2 ^ 31 ∧ MainExec s l

instance (s : State) (l : Label) : Decidable (FewPids s l) := inferInstanceAs (Decidable (_ ∧ _))

theorem reaping (h : (kernel.restrict fun s l => FewPids s l ∧ LeafExit s l).Reachable s) :
    Reaping s ∧ NoMissedWakeup s := by
  have hinv : Ledger s ∧ Pages s ∧ Awake s := by
    refine h.invariant (P := fun s => Ledger s ∧ Pages s ∧ Awake s) (fun s hs => ?_)
      fun s l t hr hs hst => ?_
    · obtain ⟨kstack, pgdir, -, hpgdir, hne, rfl⟩ := hs
      exact ⟨userinit_ledger, userinit_pages hpgdir hne, userinit_awake⟩
    · obtain ⟨hst, ⟨hbound, hexec⟩, hleaf⟩ := hst
      have hshape := reachable_shape hr.of_restrict
      have hm := next_move hst
      exact ⟨hs.1.move hshape hbound hm, hs.2.1.move hshape hexec hm,
        hs.2.2.move hshape hleaf hm⟩
  exact ⟨hinv.1.settled hinv.2.1, hinv.2.2.wakeups⟩

/-- Init clones a thread and joins it. -/
def joinRun : List Label :=
  bootRun ++ cloneRun 0 0x4000 4 ++ [.dispatch 1, .run 1 .exit, .run 0 (.join (-1))]

theorem reaping_join : ∃ s, returned s.log = [2] ∧ Reaping s ∧ NoMissedWakeup s := by
  obtain ⟨s, hrun, hlog⟩ := exists_run (fun s l => FewPids s l ∧ LeafExit s l) joinRun
    (fun s => returned s.log = [2]) (by decide +kernel)
  exact ⟨s, hlog, reaping ⟨_, hrun⟩⟩

/-- Init clones the thread 1 and forks 2, which clones the thread 3 and is
killed. It leaves 3 behind, and init reaps it and clones a thread into its
slot, for which 1 then waits. When the new thread exits, it finds 3, whose
parent is its slot, and drops the lock for it after it has woken 1. -/
def orphanRun : List Label :=
  bootRun ++ cloneRun 0 0x4000 4 ++ forkRun 0 5 6 ++ .dispatch 2 :: cloneRun 2 0x4000 7 ++
    [.run 0 (.kill 3), .run 2 .exit] ++ steps 2 5 ++ .run 0 .wait :: cloneRun 0 0x4000 8 ++
    [.dispatch 1, .run 1 (.join 5), .dispatch 2, .run 2 .exit, .dispatch 1, .dispatch 3,
      .run 3 .exit] ++ steps 2 5

theorem reaping_misses_wakeup :
    ¬∀ s, (kernel.restrict FewPids).Reachable s → Reaping s ∧ NoMissedWakeup s := by
  intro h
  obtain ⟨s, hrun, hsleep, hpc, hz, hjoin⟩ := exists_run FewPids orphanRun
    (fun s => (s.proc 1).state = .sleeping ∧ s.pc 1 = .joining 5 ∧
      (s.proc 2).state = .zombie ∧ isJoinable s 1 5 2 = true) (by decide +kernel)
  have := (h s ⟨_, hrun⟩).2 1 (.thread 5) 2 hsleep (by rw [hpc]; rfl) hz
  rw [Wait.looksAt, hjoin] at this
  cases this

end PerrOS.Ptable
