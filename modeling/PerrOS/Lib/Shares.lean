import Mathlib.Algebra.Order.BigOperators.Group.Finset
import Mathlib.Data.Fintype.BigOperators

/-!
# Shares

A reference count is the sum of the shares of those who hold references. A
share changes where one holder changes.
-/

namespace Lib

open Function (update)

universe u v

variable {P : Type u} {H : Type v} [Fintype P] [DecidableEq P]

theorem sum_update (share : H → Nat) (h : P → H) (p : P) (x : H) :
    ∑ q, share (update h p x q) + share (h p) = ∑ q, share (h q) + share x := by
  rw [← Finset.add_sum_erase _ _ (Finset.mem_univ p), Function.update_self,
    ← Finset.add_sum_erase Finset.univ (fun q => share (h q)) (Finset.mem_univ p)]
  have hrest : ∑ q ∈ Finset.univ.erase p, share (update h p x q) =
      ∑ q ∈ Finset.univ.erase p, share (h q) :=
    Finset.sum_congr rfl fun q hq => by rw [Function.update_of_ne (Finset.ne_of_mem_erase hq)]
  rw [hrest]
  omega

omit [DecidableEq P] in
theorem share_le_sum (share : H → Nat) (h : P → H) (p : P) : share (h p) ≤ ∑ q, share (h q) :=
  Finset.single_le_sum (f := fun q => share (h q)) (fun _ _ => Nat.zero_le _) (Finset.mem_univ p)

/-- Whoever holds the only share is the only holder. -/
theorem share_eq_zero (share : H → Nat) (h : P → H) {p q : P} (hne : q ≠ p)
    (hsum : ∑ q, share (h q) = share (h p)) : share (h q) = 0 := by
  rw [← Finset.add_sum_erase _ _ (Finset.mem_univ p)] at hsum
  have hrest : ∑ q ∈ Finset.univ.erase p, share (h q) = 0 := by omega
  exact Finset.sum_eq_zero_iff.mp hrest q (Finset.mem_erase.mpr ⟨hne, Finset.mem_univ q⟩)

variable {R : Type v} [DecidableEq R]

/-- How many entries of a table refer to `r`. -/
def refs (t : P → Option R) (r : R) : Nat := ∑ i, if t i = some r then 1 else 0

theorem refs_update (t : P → Option R) (i : P) (o : Option R) (r : R) :
    refs (update t i o) r + (if t i = some r then 1 else 0) =
      refs t r + if o = some r then 1 else 0 :=
  sum_update (fun o : Option R => if o = some r then 1 else 0) t i o

omit [DecidableEq P] in
@[simp] theorem refs_none (r : R) : refs (fun _ : P => none) r = 0 := by
  simp [refs]

omit [DecidableEq P] in
theorem refs_pos_iff (t : P → Option R) (r : R) : 0 < refs t r ↔ ∃ i, t i = some r := by
  rw [refs, Nat.pos_iff_ne_zero, ne_eq, Finset.sum_eq_zero_iff]
  simp

end Lib
