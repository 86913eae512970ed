import PerrOS.Stride.Moves

/-!
# Stride data from boot on

`fork` and `proc_settickets` write the stride and the tickets together.
`userinit` writes the tickets alone, so init runs with stride 0 until it sets
its own tickets, and is not charged for a single dispatch before.
-/

namespace PerrOS.Stride

open Function (update)
open Lib (System)
open Xv6

variable {Cpu : Type} {s t : State Cpu}

/-- The stride and the tickets agree. -/
structure Consistent (d : StrideData) : Prop where
  least : 10 ≤ d.numTickets.toInt
  most : d.numTickets.toInt ≤ 150
  stride : d.strideVal = STRIDE.sdiv d.numTickets

instance (d : StrideData) : Decidable (Consistent d) :=
  decidable_of_iff (10 ≤ d.numTickets.toInt ∧ d.numTickets.toInt ≤ 150 ∧
    d.strideVal = STRIDE.sdiv d.numTickets) ⟨fun ⟨a, b, c⟩ => ⟨a, b, c⟩, fun ⟨a, b, c⟩ => ⟨a, b, c⟩⟩

theorem sdiv_bounds (h₁ : 10 ≤ n.toInt) (h₂ : n.toInt ≤ 150) :
    100 ≤ (STRIDE.sdiv n).toNat ∧ (STRIDE.sdiv n).toNat ≤ 1500 := by
  have hmsb : n.msb = false := by
    rw [BitVec.msb_eq_false_iff_two_mul_lt]
    rw [BitVec.toInt_eq_toNat_cond] at h₁
    split at h₁ <;> omega
  rw [BitVec.toInt_eq_toNat_of_msb hmsb] at h₁ h₂
  have hdiv : (STRIDE.sdiv n).toNat = 15000 / n.toNat := by
    rw [BitVec.sdiv_eq, hmsb, show STRIDE.msb = false from rfl]
    simp only [BitVec.udiv_eq, BitVec.toNat_udiv]
    rfl
  rw [hdiv]
  constructor
  · exact (Nat.le_div_iff_mul_le (by omega)).mpr (by omega)
  · exact Nat.div_le_of_le_mul (by omega)

theorem Consistent.bounds (h : Consistent d) : 100 ≤ d.strideVal.toNat ∧ d.strideVal.toNat ≤ 1500 :=
  h.stride ▸ sdiv_bounds h.least h.most

theorem Consistent.settickets (d : StrideData) (h : ValidTickets n) : Consistent (d.settickets n) :=
  ⟨h.1.1, h.1.2, rfl⟩

theorem Consistent.child : Consistent (child g) :=
  ⟨by simp [Stride.child, INIT_TICKET_VAL], by simp [Stride.child, INIT_TICKET_VAL],
    by simp [Stride.child]⟩

/-- A process off init has been created by `fork`; init has its own tickets
once a call of it set them. -/
def Tuned (ls : List (Label Cpu)) (p : Slot) : Prop :=
  ∃ c n, ValidTickets n ∧ .call c p (.settickets n) ∈ ls

/-- The stride data of the processes in use. -/
structure Booted (ls : List (Label Cpu)) (s : State Cpu) : Prop where
  cpus : Cpus s
  init : (s.ptable s.initproc).state ≠ .unused ∧ (s.ptable s.initproc).state ≠ .zombie
  consistent : ∀ p, (s.ptable p).state ≠ .unused → (p = s.initproc → Tuned ls p) →
    Consistent (s.ptable p).strideData
  untuned : ¬ Tuned ls s.initproc → (s.ptable s.initproc).strideData.strideVal = 0 ∧
    (s.ptable s.initproc).strideData.numTickets = INIT_TICKET_VAL

theorem Move.init {e : Entry} (h : Move s l s.initproc e)
    (hs : (s.ptable s.initproc).state ≠ .unused ∧ (s.ptable s.initproc).state ≠ .zombie) :
    e.state ≠ .unused ∧ e.state ≠ .zombie := by
  cases h with
  | stay | tickets => exact hs
  | dispatch | wake | rouse =>
    exact ⟨by simp [Entry.dispatch, Entry.wake], by simp [Entry.dispatch, Entry.wake]⟩
  | leave st hproc hst =>
    obtain rfl | rfl | ⟨-, hne⟩ := hst
    · simp
    · simp
    · exact absurd rfl hne
  | create hun => exact absurd hun hs.1
  | reap hz => exact absurd hz hs.2

/-- What a step can do to the stride and the tickets of a process. -/
theorem Move.strideVal {e : Entry} (h : Move s l p e) :
    (e.strideData.strideVal = (s.ptable p).strideData.strideVal ∧
        e.strideData.numTickets = (s.ptable p).strideData.numTickets ∧
        (e.state ≠ .unused → (s.ptable p).state ≠ .unused)) ∨
      (∃ c n, l = .call c p (.settickets n) ∧ ValidTickets n ∧ Consistent e.strideData) ∨
      (s.ptable p).state = .unused ∧ Consistent e.strideData := by
  cases h with
  | stay => exact .inl ⟨rfl, rfl, id⟩
  | dispatch hrun => exact .inl ⟨rfl, rfl, fun _ => by simp [hrun]⟩
  | wake hw => exact .inl ⟨rfl, rfl, fun _ => by simp [hw.sleeping]⟩
  | rouse _ hsleep => exact .inl ⟨rfl, rfl, fun _ => by simp [hsleep]⟩
  | leave st hrun => exact .inl ⟨rfl, rfl, fun _ => by simp [hrun]⟩
  | tickets _ hn => exact .inr (.inl ⟨_, _, rfl, hn, .settickets _ hn⟩)
  | create hun => exact .inr (.inr ⟨hun, .child⟩)
  | reap => exact .inl ⟨rfl, rfl, fun h => absurd rfl h⟩

theorem Tuned.append (h : Tuned ls p) (l : Label Cpu) : Tuned (ls ++ [l]) p := by
  obtain ⟨c, n, hn, hmem⟩ := h
  exact ⟨c, n, hn, List.mem_append_left _ hmem⟩

theorem tuned_append {l : Label Cpu} : Tuned (ls ++ [l]) p ↔
    Tuned ls p ∨ ∃ c n, ValidTickets n ∧ l = .call c p (.settickets n) := by
  constructor
  · rintro ⟨c, n, hn, hmem⟩
    rcases List.mem_append.mp hmem with hmem | hmem
    · exact .inl ⟨c, n, hn, hmem⟩
    · exact .inr ⟨c, n, hn, (List.mem_singleton.mp hmem).symm⟩
  · rintro (h | ⟨c, n, hn, rfl⟩)
    · exact h.append l
    · exact ⟨c, n, hn, by simp⟩

variable [DecidableEq Cpu]

theorem settickets_entry (h : next s (.call c p (.settickets n)) = some t) (hn : ValidTickets n) :
    Consistent (t.ptable p).strideData := by
  obtain ⟨-, h⟩ := Option.ite_none_right_eq_some.mp h
  cases h
  simp only [settickets, if_pos hn, State.setStride, Function.update_self]
  exact .settickets _ hn

theorem Booted.next (hs : Booted ls s) (h : next s l = some t) : Booted (ls ++ [l]) t := by
  have hmove := next_move hs.cpus h
  have hinit := next_initproc h
  refine ⟨hs.cpus.next h, hinit ▸ (hmove s.initproc).init hs.init, fun p hp htuned => ?_,
    fun htuned => ?_⟩
  · rw [hinit] at htuned
    by_cases hl : ∃ c n, ValidTickets n ∧ l = .call c p (.settickets n)
    · obtain ⟨c, n, hn, rfl⟩ := hl
      exact settickets_entry h hn
    · obtain ⟨hstride, htickets, huse⟩ | ⟨-, -, -, -, hc⟩ | ⟨-, hc⟩ := (hmove p).strideVal
      · have hc := hs.consistent p (huse hp) fun hpi =>
          (tuned_append.mp (htuned hpi)).resolve_right hl
        exact ⟨htickets ▸ hc.least, htickets ▸ hc.most, by rw [hstride, htickets, hc.stride]⟩
      · exact hc
      · exact hc
  · rw [hinit] at htuned ⊢
    obtain ⟨hstride, htickets, -⟩ | ⟨c, n, rfl, hn, -⟩ | ⟨hun, -⟩ := (hmove s.initproc).strideVal
    · rw [hstride, htickets]
      exact hs.untuned fun hls => htuned (hls.append l)
    · exact absurd ⟨c, n, hn, by simp⟩ htuned
    · exact absurd hun hs.init.1

theorem booted_of_run (h : (kernel Cpu).Run ls s) : Booted ls s := by
  refine h.invariant (fun s h => ?_) fun ls s l t hs h => hs.next h
  have hcpus := cpus_of_reachable (.init h)
  obtain ⟨hptable, -, hinit, -⟩ := userinit_bss h
  refine ⟨hcpus, by simp [hptable, hinit], fun p hp htuned => ?_, fun _ => by simp [hptable, hinit]⟩
  rw [hptable] at hp
  rcases eq_or_ne p 0 with rfl | hp0
  · obtain ⟨_, _, _, h⟩ := htuned hinit.symm
    simp at h
  · simp [hp0] at hp

-- ---------------------------------------------------------------------------
-- The selected process
-- ---------------------------------------------------------------------------

omit [DecidableEq Cpu] in
theorem scheduler_runnable (h : (scheduler s.toKernel).1 = some p) :
    (s.ptable p).state = .runnable := by
  obtain he | ⟨q, hq, -, he⟩ := scheduler_eq s.toKernel
  · simp [he] at h
  · obtain rfl : q = p := by simpa [he] using h
    exact hq

/-- A dispatch with these stride data charges the process. -/
def Charges (e : Entry) : Prop :=
  Consistent e.strideData ∧ 0 < e.strideData.strideVal.toInt ∧
    e.strideData.passVal < e.dispatch.strideData.passVal

theorem Consistent.charges_iff {e : Entry} (h : Consistent e.strideData) :
    Charges e ↔ e.strideData.passVal.toNat + e.strideData.strideVal.toNat < 2 ^ 32 := by
  obtain ⟨h₁, h₂⟩ := h.bounds
  have hpos : 0 < e.strideData.strideVal.toInt := by
    rw [BitVec.toInt_eq_toNat_of_lt (by omega)]
    omega
  have hlt : e.strideData.passVal < e.dispatch.strideData.passVal ↔
      e.strideData.passVal.toNat + e.strideData.strideVal.toNat < 2 ^ 32 := by
    rw [BitVec.lt_def, Entry.dispatch, BitVec.toNat_add]
    have := e.strideData.passVal.isLt
    omega
  unfold Charges
  rw [hlt]
  exact ⟨fun h => h.2.2, fun hw => ⟨h, hpos, hw⟩⟩

/-- init forks a child and waits for it. -/
def forkAndWait : List (Label Unit) :=
  [.schedule (), .call () 0 (.fork true), .call () 0 .wait]

end PerrOS.Stride
