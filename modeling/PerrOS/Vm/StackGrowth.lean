import PerrOS.Vm.Sbrk

/-!
# Growing the stack on a page fault

The page-fault case of `trap`, for a fault of user code on an address that is
not mapped.
-/

namespace PerrOS.Vm

open Lib (Ensures wp)

variable {img : Image} {d : Pgdir} {p p' : Proc} {rcr2 va : Word} {s : Kmem} {S : Nat → Prop}

/-- The page below the stack. -/
def Proc.Below (p : Proc) (va : Word) : Prop :=
  Range (p.stackSz.toNat - 4096) p.stackSz.toNat va.toNat

/-- A fault of a process whose stack begins on a page, at least a page above
the heap. -/
structure Faulting (img : Image) (p : Proc) (d : Pgdir) (rcr2 : Word) : Prop where
  aligned : p.stackSz.toNat % 4096 = 0
  gap : p.sz.toNat + 4096 ≤ p.stackSz.toNat
  top : p.stackSz.toNat ≤ 0xA0000
  pgdir : p.pgdir = some d
  layout : ∃ S, Layout img d S
  unmapped : ¬ d.Mapped rcr2

/-- A page between the heap and the stack as it will be is not mapped. -/
def Room (p : Proc) (d : Pgdir) : Prop :=
  ∃ a : Word, a.toNat % 4096 = 0 ∧ pageUp p.sz.toNat ≤ a.toNat ∧
    a.toNat + 4096 ≤ p.stackSz.toNat - 4096 ∧ ¬ d.Mapped a

/-- The stack has grown by the page below it. -/
structure Grown (p : Proc) (d : Pgdir) (p' : Proc) : Prop where
  stackSz : p'.stackSz = p.stackSz - PGSIZE
  killed : p'.killed = p.killed
  pgdir : ∃ d', p'.pgdir = some d' ∧ (∀ va, p.Below va → d'.Mapped va) ∧
    ∀ va, ¬ p.Below va → d'.pte va = d.pte va

/-- The process is to exit, with its stack as it was. -/
structure Killed (p : Proc) (d : Pgdir) (p' : Proc) : Prop where
  stackSz : p'.stackSz = p.stackSz
  killed : p'.killed = true
  pgdir : ∃ d', p'.pgdir = some d' ∧ ∀ va, d'.pte va = d.pte va

/-- The fault asks for the page below the stack, which can be had. -/
def Due (p : Proc) (d : Pgdir) (rcr2 : Word) (s : Kmem) : Prop :=
  p.Below rcr2 ∧ Room p d ∧ Available s 1

/-- The stack grows where that is due, and otherwise the process is killed. -/
def GrowsStack (img : Image) (p : Proc) (d : Pgdir) (rcr2 : Word) (s : Kmem) : Prop :=
  wp (trapPgflt img p rcr2 true)
    (fun p' _ => (Due p d rcr2 s → Grown p d p') ∧ (¬ Due p d rcr2 s → Killed p d p')) s

namespace Faulting

theorem toNat_below (h : Faulting img p d rcr2) :
    (p.stackSz - PGSIZE).toNat = p.stackSz.toNat - 4096 := by
  have := h.gap
  unfold PGSIZE
  bv_omega

/-- What the case tests, for a fault below the stack. -/
theorem tests_iff (h : Faulting img p d rcr2) :
    (p.stackSz - PGSIZE < rcr2 ∧ rcr2 < p.stackSz ∧ p.sz + PGSIZE < p.stackSz - PGSIZE) ↔
      p.Below rcr2 ∧ rcr2 ≠ p.stackSz - PGSIZE ∧ p.sz + PGSIZE < p.stackSz - PGSIZE := by
  have hlow := h.toNat_below
  simp only [ne_eq, ← BitVec.toNat_inj, BitVec.lt_def, hlow, Proc.Below, Range]
  omega

/-- A fault below the stack finds its page unmapped, and growing the stack
needs a page of memory. -/
theorem allocuvm (h : Faulting img p d rcr2) (hb : p.Below rcr2)
    (hf : ∀ v ∈ s.freelist, Frame img v) :
    wp (Vm.allocuvm img d (p.stackSz - PGSIZE) p.stackSz) (fun r _ =>
      (r.2 ≠ 0 ↔ Available s 1) ∧
      (r.2 = 0 → ∀ va, r.1.pte va = d.pte va) ∧
      (r.2 ≠ 0 → (∀ va, p.Below va → r.1.Mapped va) ∧
        ∀ va, ¬ p.Below va → r.1.pte va = d.pte va)) s := by
  obtain ⟨S, hl⟩ := h.layout
  have hal := h.aligned
  have hgap := h.gap
  have htop := h.top
  have hlow := h.toNat_below
  have hup : pageUp p.stackSz.toNat = p.stackSz.toNat := by
    unfold pageUp
    omega
  have hup' : pageUp (p.stackSz - PGSIZE).toNat = p.stackSz.toNat - 4096 := by
    rw [hlow]
    unfold pageUp
    omega
  have hle : p.stackSz - PGSIZE ≤ p.stackSz := by
    rw [BitVec.le_def, hlow]
    omega
  have hne : p.stackSz ≠ 0 := by
    rw [ne_eq, ← BitVec.toNat_inj]
    have : (0 : Word).toNat = 0 := rfl
    omega
  have hpage {va : Word} (hva : p.Below va) : ¬ d.Mapped va := by
    rw [Pgdir.mapped_congr (b := rcr2)]
    · exact h.unmapped
    · unfold Proc.Below Range at hb hva
      omega
  have hfresh (m : Nat) (hm : Range (pageUp (p.stackSz - PGSIZE).toNat) (pageUp p.stackSz.toNat) m) :
      ¬ S m := by
    rw [hup, hup'] at hm
    have hnat : (BitVec.ofNat 32 m).toNat = m := by
      rw [BitVec.toNat_ofNat]
      unfold Range at hm
      omega
    have hbelow : p.Below (BitVec.ofNat 32 m) := by
      rw [Proc.Below, hnat]
      exact hm
    have hlt : (BitVec.ofNat 32 m).toNat < 0xA0000 := by
      unfold Range at hm
      omega
    rw [← hnat, ← hl.mapped_iff hlt]
    exact hpage hbelow
  have hcount : (p.stackSz.toNat - (p.stackSz.toNat - 4096)) / 4096 = 1 := by omega
  have hiff := allocuvm_iff hle hne hl hf
  have hun : Unmapped d (p.stackSz.toNat - 4096) p.stackSz.toNat := fun b hb' => hpage hb'
  rw [hup, hup', hcount, and_iff_right (show p.stackSz ≤ USERTOP from htop),
    and_iff_left hun] at hiff
  obtain ⟨r, t, hrun, hr⟩ := hl.allocuvm_settled hle (by omega) hne hf hfresh
  rw [hup, hup'] at hr
  rw [wp.run hrun] at hiff ⊢
  refine ⟨hiff, ?_⟩
  obtain ⟨hz, he⟩ | ⟨hsize, hfill, hl'⟩ := hr
  · exact ⟨fun _ => he, fun hnz => absurd hz hnz⟩
  · refine ⟨fun hz => absurd (hsize.symm.trans hz) hne, fun _ => ⟨fun va hva => ?_, hfill.other⟩⟩
    have hlt : va.toNat < 0xA0000 := Nat.lt_of_lt_of_le hva.2 htop
    exact (hl'.mapped_iff hlt).mpr (.inr hva)

end Faulting

/-- The stack grows as it should unless the fault is on the first byte of the
page, the gap is the smallest that would do, or memory is short. -/
theorem grows_stack_iff (h : Faulting img p d rcr2) (hf : ∀ v ∈ s.freelist, Frame img v) :
    GrowsStack img p d rcr2 s ↔ (p.Below rcr2 →
      (Room p d ∧ Available s 1 ↔
        rcr2 ≠ p.stackSz - PGSIZE ∧ p.sz + PGSIZE < p.stackSz - PGSIZE)) := by
  have htests := h.tests_iff
  have hgap := h.gap
  unfold GrowsStack trapPgflt
  by_cases hc : p.stackSz - PGSIZE < rcr2 ∧ rcr2 < p.stackSz ∧ p.sz + PGSIZE < p.stackSz - PGSIZE
  · obtain ⟨hb, htest⟩ := htests.mp hc
    obtain ⟨r, t, hrun, havail, hfail, hgrow⟩ := h.allocuvm hb hf
    rw [if_pos hc, h.pgdir, iff_true_right htest]
    dsimp only
    rw [wp.bind, wp.run hrun, wp.pure]
    have hlower : p.stackSz - PGSIZE ≠ p.stackSz := by
      have hlow := h.toNat_below
      rw [ne_eq, ← BitVec.toNat_inj]
      omega
    constructor
    · rintro ⟨-, hkilled⟩ _
      by_contra hn
      exact hlower (hkilled fun hdue => hn hdue.2).stackSz
    · intro hdue
      have hdue := hdue hb
      have hnz := havail.mpr hdue.2
      refine ⟨fun _ => ⟨rfl, if_neg hnz, r.1, rfl, hgrow hnz⟩, fun hn => absurd ⟨hb, hdue⟩ hn⟩
  · have htest {P : Prop} (hb : p.Below rcr2) : (P ↔ rcr2 ≠ p.stackSz - PGSIZE ∧
        p.sz + PGSIZE < p.stackSz - PGSIZE) ↔ ¬ P :=
      iff_false_right fun hc' => hc (htests.mpr ⟨hb, hc'⟩)
    rw [if_neg hc, if_neg (by decide), wp.pure]
    have hkilled : Killed p d { p with killed := true } := ⟨rfl, rfl, d, h.pgdir, fun _ => rfl⟩
    have hnot : ¬ Grown p d { p with killed := true } := by
      intro hg
      have hlow := h.toNat_below
      have := congrArg BitVec.toNat hg.stackSz
      dsimp only at this
      omega
    constructor
    · rintro ⟨hgrown, -⟩ hb
      exact (htest hb).mpr fun hdue => hnot (hgrown ⟨hb, hdue⟩)
    · intro hcond
      refine ⟨fun hdue => ?_, fun _ => hkilled⟩
      exact absurd hdue.2 ((htest hdue.1).mp (hcond hdue.1))

section

variable (h : Layout smallImage d (UserPages 8192 0x9F000))
include h

theorem faulting_onePage (hb : (onePage d).Below rcr2) :
    Faulting smallImage (onePage d) d rcr2 where
  aligned := (by decide : (0x9F000 : Word).toNat % 4096 = 0)
  gap := (by decide : (8192 : Word).toNat + 4096 ≤ (0x9F000 : Word).toNat)
  top := (by decide : (0x9F000 : Word).toNat ≤ 0xA0000)
  pgdir := rfl
  layout := ⟨_, h⟩
  unmapped := by
    have hb : Range ((0x9F000 : Word).toNat - 4096) (0x9F000 : Word).toNat rcr2.toNat := hb
    have htop : (0x9F000 : Word).toNat = 0x9F000 := by decide
    rw [htop] at hb
    unfold Range at hb
    rw [h.mapped_iff (by omega), userPages_page]
    omega

theorem room_onePage : Room (onePage d) d := by
  refine ⟨0x9D000, by decide, (by decide : pageUp (8192 : Word).toNat ≤ 0x9D000),
    (by decide : 0x9D000 + 4096 ≤ (0x9F000 : Word).toNat - 4096), ?_⟩
  rw [h.mapped_iff (by decide), userPages_page]
  decide

end

theorem below_last (d : Pgdir) : (onePage d).Below 0x9EFFC :=
  (by decide : (0x9F000 : Word).toNat - 4096 ≤ 0x9EFFC ∧ 0x9EFFC < (0x9F000 : Word).toNat)

theorem below_first (d : Pgdir) : (onePage d).Below 0x9E000 :=
  (by decide : (0x9F000 : Word).toNat - 4096 ≤ 0x9E000 ∧ 0x9E000 < (0x9F000 : Word).toNat)

theorem ample_available : Available ample 1 := ⟨by simp [ample], fun _ _ => rfl⟩

theorem grows_stack_last : ∃ d, GrowsStack smallImage (onePage d) d 0x9EFFC ample := by
  obtain ⟨d, hd⟩ := exists_userPages
  refine ⟨d, (grows_stack_iff (faulting_onePage hd (below_last d)) ample_frames).mpr fun _ => ?_⟩
  exact iff_of_true ⟨room_onePage hd, ample_available⟩
    ⟨(by decide : (0x9EFFC : Word) ≠ 0x9F000 - PGSIZE),
      (by decide : (8192 : Word) + PGSIZE < 0x9F000 - PGSIZE)⟩

/-- The first byte of the page below the stack can be had, but the process is
killed for it. -/
theorem grows_stack_first : ∃ d, Faulting smallImage (onePage d) d 0x9E000 ∧
    Due (onePage d) d 0x9E000 ample ∧ ¬ GrowsStack smallImage (onePage d) d 0x9E000 ample := by
  obtain ⟨d, hd⟩ := exists_userPages
  have hdue : Due (onePage d) d 0x9E000 ample :=
    ⟨below_first d, room_onePage hd, ample_available⟩
  refine ⟨d, faulting_onePage hd (below_first d), hdue, ?_⟩
  intro hw
  unfold GrowsStack trapPgflt at hw
  rw [if_neg fun hc => absurd hc.1 (by decide : ¬ (0x9F000 : Word) - PGSIZE < 0x9E000),
    if_neg (by decide), wp.pure] at hw
  exact absurd (hw.1 hdue).stackSz (by decide : (0x9F000 : Word) ≠ 0x9F000 - PGSIZE)

end PerrOS.Vm
