import Mathlib.Algebra.Group.Int.Defs
import Mathlib.Algebra.Group.Nat.Defs
import Mathlib.Logic.Function.Basic

/-!
# Pages and page directories

The words and macros of `mmu.h` and `param.h`, and a page directory as its
tables of entries. The user's addresses end at `USERTOP`; the kernel is
mapped above.
-/

namespace PerrOS.Vm

open Function (update)

/-- `uint`, `pde_t`, `pte_t` and `char *`. -/
abbrev Word := BitVec 32

/-- End of user address space. -/
def USERTOP : Word := 0xA0000

/-- Use physical memory up to here as free pool. -/
def PHYSTOP : Word := 0x1000000

def PGSIZE : Word := 4096
def PGROUNDUP (sz : Word) : Word := (sz + PGSIZE - 1) &&& ~~~(PGSIZE - 1)
def PGROUNDDOWN (a : Word) : Word := a &&& ~~~(PGSIZE - 1)

/-- Page directory index. -/
def PDX (la : Word) : BitVec 10 := (la >>> 22).setWidth 10

/-- Page table index. -/
def PTX (la : Word) : BitVec 10 := (la >>> 12).setWidth 10

def PTE_P : Word := 0x001
def PTE_W : Word := 0x002
def PTE_U : Word := 0x004
def PTE_ADDR (pte : Word) : Word := pte &&& ~~~0xFFF

/-- `*pte & PTE_P`. -/
def present (pte : Word) : Bool := pte &&& PTE_P != 0

/-- A page table, in the page of physical memory at `frame`. -/
structure Ptab where
  frame : Word
  pte : BitVec 10 → Word

/-- A page directory and the tables it refers to; an entry of the directory is
`PADDR(pgtab) | PTE_P | PTE_W | PTE_U` or zero. -/
structure Pgdir where
  frame : Word
  pde : BitVec 10 → Option Ptab

namespace Pgdir

/-- The entry that `walkpgdir(pgdir, va, 0)` points to, if any. -/
def pte (pgdir : Pgdir) (va : Word) : Option Word :=
  (pgdir.pde (PDX va)).map fun pgtab => pgtab.pte (PTX va)

/-- `*pte = w` for the entry of `va`. -/
def setPte (pgdir : Pgdir) (va w : Word) : Pgdir :=
  match pgdir.pde (PDX va) with
  | some pgtab =>
    { pgdir with
      pde := update pgdir.pde (PDX va)
        (some { pgtab with pte := update pgtab.pte (PTX va) w }) }
  | none => pgdir

/-- A new page table for the entries of `va`, all of them zero. -/
def addPtab (pgdir : Pgdir) (va frame : Word) : Pgdir :=
  { pgdir with pde := update pgdir.pde (PDX va) (some ⟨frame, fun _ => 0⟩) }

def Mapped (pgdir : Pgdir) (va : Word) : Prop := ∃ pte, pgdir.pte va = some pte ∧ present pte

end Pgdir

-- ---------------------------------------------------------------------------
-- Arithmetic of pages
-- ---------------------------------------------------------------------------

@[simp] theorem toNat_PGSIZE : PGSIZE.toNat = 4096 := rfl
@[simp] theorem toNat_USERTOP : USERTOP.toNat = 0xA0000 := rfl
@[simp] theorem toNat_PHYSTOP : PHYSTOP.toNat = 0x1000000 := rfl

/-- The start of the page of address `n`. -/
def pageDown (n : Nat) : Nat := n / 4096 * 4096

/-- The first page that starts at `n` or above. -/
def pageUp (n : Nat) : Nat := (n + 4095) / 4096 * 4096

theorem mask_bit : ∀ i (h : i < 32), (~~~(PGSIZE - 1))[i] = decide (12 ≤ i) := by decide

theorem PGROUNDDOWN_eq (a : Word) : PGROUNDDOWN a = (a >>> 12) <<< 12 := by
  unfold PGROUNDDOWN
  ext i hi
  rw [BitVec.getElem_and, mask_bit, BitVec.getElem_shiftLeft]
  by_cases h : i < 12
  · simp [h]
  · simp [h, Nat.not_lt.mp h, BitVec.getLsbD_eq_getElem hi]

theorem toNat_PGROUNDDOWN (a : Word) : (PGROUNDDOWN a).toNat = pageDown a.toNat := by
  have := a.isLt
  rw [PGROUNDDOWN_eq, BitVec.toNat_shiftLeft, BitVec.toNat_ushiftRight, Nat.shiftLeft_eq,
    Nat.shiftRight_eq_div_pow, Nat.mod_eq_of_lt (by omega)]
  rfl

theorem toNat_PGROUNDUP {sz : Word} (h : sz.toNat + 4095 < 2 ^ 32) :
    (PGROUNDUP sz).toNat = pageUp sz.toNat := by
  have hsum : sz + PGSIZE - 1 = sz + 4095 := by
    unfold PGSIZE
    bv_omega
  calc (PGROUNDUP sz).toNat = pageDown (sz + PGSIZE - 1).toNat := toNat_PGROUNDDOWN _
    _ = pageUp sz.toNat := by
      rw [hsum, BitVec.toNat_add, Nat.mod_eq_of_lt (by simpa using h)]
      rfl

/-- Two addresses share their entries exactly if they are in one page. -/
theorem same_page {a b : Word} :
    PDX a = PDX b ∧ PTX a = PTX b ↔ a.toNat / 4096 = b.toNat / 4096 := by
  have ha := a.isLt
  have hb := b.isLt
  simp only [PDX, PTX, ← BitVec.toNat_inj, BitVec.toNat_setWidth, BitVec.toNat_ushiftRight,
    Nat.shiftRight_eq_div_pow]
  omega

-- ---------------------------------------------------------------------------
-- Reading an entry that was written
-- ---------------------------------------------------------------------------

namespace Pgdir

variable {pgdir : Pgdir} {va b w : Word} {S : Nat → Prop}

theorem pte_setPte_self (h : pgdir.pte va = some w') : (pgdir.setPte va w).pte va = some w := by
  unfold pte at h
  unfold pte setPte
  cases hp : pgdir.pde (PDX va) with
  | none => simp [hp] at h
  | some pgtab => simp

theorem pte_setPte_of_ne (h : va.toNat / 4096 ≠ b.toNat / 4096) :
    (pgdir.setPte va w).pte b = pgdir.pte b := by
  unfold pte setPte
  cases hp : pgdir.pde (PDX va) with
  | none => rfl
  | some pgtab =>
    by_cases hd : PDX b = PDX va
    · have ht : PTX b ≠ PTX va := fun ht => h (same_page.mp ⟨hd.symm, ht.symm⟩)
      simp [hd, hp, Function.update_of_ne ht]
    · simp [Function.update_of_ne hd]

theorem pte_congr (h : va.toNat / 4096 = b.toNat / 4096) : pgdir.pte va = pgdir.pte b := by
  obtain ⟨hd, ht⟩ := same_page.mpr h
  rw [pte, pte, hd, ht]

theorem mapped_congr (h : va.toNat / 4096 = b.toNat / 4096) : pgdir.Mapped va ↔ pgdir.Mapped b := by
  rw [Mapped, Mapped, pte_congr h]

/-- Only addresses that `S` names are mapped. -/
def Within (pgdir : Pgdir) (S : Nat → Prop) : Prop := ∀ va, pgdir.Mapped va → S va.toNat

theorem Within.mono (h : pgdir.Within S) (hs : ∀ n, S n → T n) : pgdir.Within T :=
  fun va hva => hs _ (h va hva)

/-- A new table maps nothing. -/
theorem Within.addPtab (h : pgdir.Within S) (frame : Word) :
    (pgdir.addPtab va frame).Within S := by
  rintro b ⟨p, hp, hpres⟩
  by_cases hd : PDX b = PDX va
  · obtain rfl : 0 = p := by simpa [pte, Pgdir.addPtab, hd] using hp
    simp [present] at hpres
  · exact h b ⟨p, by simpa [pte, Pgdir.addPtab, Function.update_of_ne hd] using hp, hpres⟩

theorem Within.setPte (h : pgdir.Within S)
    (hs : ∀ n, n / 4096 = va.toNat / 4096 → S n) : (pgdir.setPte va w).Within S := by
  rintro b ⟨p, hp, hpres⟩
  by_cases hb : va.toNat / 4096 = b.toNat / 4096
  · exact hs _ hb.symm
  · exact h b ⟨p, by rwa [pte_setPte_of_ne hb] at hp, hpres⟩

/-- Clearing an entry unmaps its page. -/
theorem Within.clear (h : pgdir.Within S) (hm : pgdir.pte va = some w) :
    (pgdir.setPte va 0).Within fun n => S n ∧ n / 4096 ≠ va.toNat / 4096 := by
  rintro b ⟨p, hp, hpres⟩
  by_cases hb : va.toNat / 4096 = b.toNat / 4096
  · rw [← pte_congr hb, pte_setPte_self hm] at hp
    obtain rfl := Option.some.inj hp
    simp [present] at hpres
  · exact ⟨h b ⟨p, by rwa [pte_setPte_of_ne hb] at hp, hpres⟩, Ne.symm hb⟩

end Pgdir

end PerrOS.Vm
