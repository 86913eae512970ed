import PerrOS.Stride.Boot

/-!
# Pass values over the life of a process

A dispatch charges a process, and a wakeup sets its pass value to the global
one. The pass value never falls between creation and reaping as long as no
wakeup finds a process that is charged past the global pass value; `wakeup1`
does not check that.
-/

namespace PerrOS.Stride

open Lib (System)
open Xv6

variable {Cpu : Type} {s t : State Cpu}

def passVal (s : State Cpu) (p : Slot) : BitVec 32 := (s.ptable p).strideData.passVal

/-- The dispatch of a step, if it makes one, does not wrap at `2 ^ 32`. -/
def NoWrap (s : State Cpu) : Label Cpu → Prop
  | .schedule _ => ∀ p, (scheduler s.toKernel).1 = some p →
      (passVal s p).toNat + (s.ptable p).strideData.strideVal.toNat < 2 ^ 32
  | _ => True

instance (s : State Cpu) : (l : Label Cpu) → Decidable (NoWrap s l)
  | .schedule _ => inferInstanceAs (Decidable (∀ _, _ → _))
  | .wakeup _ => .isTrue trivial
  | .call _ _ _ => .isTrue trivial

/-- The wakeups of a step find no process that is charged past the global
pass value. -/
def NoRefund (s : State Cpu) (l : Label Cpu) : Prop :=
  ∀ p, Woken s l p → passVal s p ≤ s.globalMinPassVal

instance (s : State Cpu) (l : Label Cpu) : Decidable (NoRefund s l) :=
  inferInstanceAs (Decidable (∀ p, Woken s l p → passVal s p ≤ s.globalMinPassVal))

def InUse (s : State Cpu) (p : Slot) : Prop := (s.ptable p).state ≠ .unused

instance (s : State Cpu) (p : Slot) : Decidable (InUse s p) :=
  inferInstanceAs (Decidable (_ ≠ _))

theorem le_dispatch {e : Entry} (h : e.strideData.passVal.toNat + e.strideData.strideVal.toNat < 2 ^ 32) :
    e.strideData.passVal ≤ e.dispatch.strideData.passVal := by
  rw [BitVec.le_def, Entry.dispatch, BitVec.toNat_add, Nat.mod_eq_of_lt h]
  exact Nat.le_add_right _ _

/-- One step of the machine. -/
theorem Move.passVal_le {e : Entry} (h : Move s l p e) (hwrap : NoWrap s l) (hrefund : NoRefund s l)
    (hp : InUse s p) : passVal s p ≤ e.strideData.passVal := by
  cases h with
  | dispatch hc hsel => exact le_dispatch (hwrap p hsel)
  | wake hw => exact hrefund p hw
  | create hun => exact absurd hun hp
  | stay | rouse | leave | tickets | reap => exact BitVec.le_refl _

variable [DecidableEq Cpu]

/-- The steps of the kernel without wrapping and without refunds. -/
def charging (Cpu : Type) [DecidableEq Cpu] : System (State Cpu) (Label Cpu) :=
  (kernel Cpu).restrict fun s l => NoWrap s l ∧ NoRefund s l

/-- Over any part of the life of a process, its pass value does not fall. -/
theorem passVal_mono (h : (charging Cpu).Reachable s)
    (hr : (((charging Cpu).restrict fun u _ => InUse u p).startingAt s).Run ls t) :
    passVal s p ≤ passVal t p := by
  have hs := cpus_of_reachable h.of_restrict
  refine (hr.invariant (P := fun _ u => Cpus u ∧ passVal s p ≤ passVal u p) ?_ ?_).2
  · rintro _ rfl
    exact ⟨hs, BitVec.le_refl _⟩
  · rintro _ u l v ⟨hu, hle⟩ ⟨⟨hstep, hwrap, hrefund⟩, hp⟩
    have hmove := next_move hu hstep p
    exact ⟨hu.next hstep, BitVec.le_trans hle (hmove.passVal_le hwrap hrefund hp)⟩

theorem passVal_mono_child : ∃ s t : State Unit, (charging Unit).Reachable s ∧
    next s (.schedule ()) = some t ∧ passVal t 1 = 1500 ∧ passVal s 1 ≤ passVal t 1 := by
  obtain ⟨s, hs, hok, ht⟩ := System.exists_run (userinit bss) next
    (fun s l => NoWrap s l ∧ NoRefund s l) forkAndWait
    (fun s => ((NoWrap s (.schedule ()) ∧ NoRefund s (.schedule ())) ∧ InUse s 1) ∧
      (next s (.schedule ())).any fun t => passVal t 1 = 1500) (by decide +kernel)
  obtain ⟨t, ht, hpass⟩ := (Option.any_eq_true _ _).mp ht
  have hs : (charging Unit).Reachable s := ⟨_, hs⟩
  exact ⟨s, t, hs, ht, of_decide_eq_true hpass,
    passVal_mono hs (.single ⟨⟨ht, hok.1⟩, hok.2⟩)⟩

/-- A child that sleeps before its quantum ends is not charged for it: the
wakeup sets its pass value back from 1500 to 0. -/
theorem charge_refunded : ¬ ∀ (s t : State Unit) (p : Slot) (ls : List (Label Unit)),
    ((kernel Unit).restrict NoWrap).Reachable s →
    ((((kernel Unit).restrict NoWrap).restrict fun u _ => InUse u p).startingAt s).Run ls t →
    passVal s p ≤ passVal t p := by
  intro h
  obtain ⟨s, hs, huse, ht⟩ := System.exists_run (userinit bss) next NoWrap
    (forkAndWait ++ [.schedule (), .call () 1 (.sleep (.other 0))])
    (fun s => InUse s 1 ∧ (next s (.wakeup (.other 0))).any fun t => passVal t 1 < passVal s 1)
    (by decide +kernel)
  obtain ⟨t, ht, hlt⟩ := (Option.any_eq_true _ _).mp ht
  have hle := h s t 1 [.wakeup (.other 0)] ⟨_, hs⟩ (.single ⟨⟨ht, trivial⟩, huse⟩)
  exact BitVec.not_lt.mpr hle (of_decide_eq_true hlt)

end PerrOS.Stride
