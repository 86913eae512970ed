import PerrOS.Lib.Bitmap
import PerrOS.Lib.Bytes

/-!
# Bits and slices of memory

Bit `k` of a memory is bit `k % 8`, counted from the least significant, of byte
`k / 8`. A slice is a list of bytes at an address.
-/

namespace Lib.Memory

open Function (update)

variable {m : Memory} {k j a n : Nat} {bs : List (BitVec 8)}

def bit (m : Memory) (k : Nat) : Bool := (m (k / 8)).getLsbD (k % 8)

def setBit (m : Memory) (k : Nat) : Memory := update m (k / 8) (m (k / 8) ||| 1#8 <<< (k % 8))

def clearBit (m : Memory) (k : Nat) : Memory :=
  update m (k / 8) (m (k / 8) &&& ~~~(1#8 <<< (k % 8)))

/-- The test of a bit with a mask. -/
theorem mask_eq_zero (m : Memory) (k : Nat) :
    m (k / 8) &&& 1#8 <<< (k % 8) = 0 ↔ m.bit k = false := by
  have hk := Nat.mod_lt k (by decide : 8 > 0)
  constructor
  · intro h
    have hb := congrArg (BitVec.getLsbD · (k % 8)) h
    simpa [bit, Bitmap.getLsbD_bit hk] using hb
  · intro h
    ext i hi
    rw [BitVec.getElem_and, ← BitVec.getLsbD_eq_getElem, ← BitVec.getLsbD_eq_getElem,
      Bitmap.getLsbD_bit hk]
    by_cases he : i = k % 8
    · subst he
      simpa [bit] using h
    · simp [he]

theorem bit_update (x : BitVec 8) (hj : j / 8 ≠ k / 8) : bit (update m (k / 8) x) j = m.bit j := by
  rw [bit, Function.update_of_ne hj, bit]

theorem bit_setBit (m : Memory) (k j : Nat) : (m.setBit k).bit j = (m.bit j || decide (j = k)) := by
  by_cases hj : j / 8 = k / 8
  · have hk := Nat.mod_lt k (by decide : 8 > 0)
    have he : j % 8 = k % 8 ↔ j = k := by omega
    rw [setBit, bit, hj, Function.update_self, BitVec.getLsbD_or, Bitmap.getLsbD_bit hk, bit, hj]
    simp only [he]
  · have he : j ≠ k := fun he => hj (by rw [he])
    rw [setBit, bit_update _ hj]
    simp [he]

theorem bit_clearBit (m : Memory) (k j : Nat) :
    (m.clearBit k).bit j = (m.bit j && !decide (j = k)) := by
  by_cases hj : j / 8 = k / 8
  · have hk := Nat.mod_lt k (by decide : 8 > 0)
    have he : j % 8 = k % 8 ↔ j = k := by omega
    rw [clearBit, bit, hj, Function.update_self, BitVec.getLsbD_and, BitVec.getLsbD_not,
      Bitmap.getLsbD_bit hk, bit, hj]
    simp [he, Nat.mod_lt j (by decide : 8 > 0)]
  · have he : j ≠ k := fun he => hj (by rw [he])
    rw [clearBit, bit_update _ hj]
    simp [he]

theorem read_zero (a n : Nat) : read (fun _ => 0) a n = 0 := by
  induction n generalizing a with
  | zero => rfl
  | succ n ih =>
    rw [read, ih]
    rfl

/-- The `n` bytes at `a`. -/
def slice (m : Memory) (a n : Nat) : List (BitVec 8) := (List.range n).map fun i => m (a + i)

/-- The bytes `bs` are copied to `a`. -/
def splice (m : Memory) (a : Nat) (bs : List (BitVec 8)) : Memory := fun i =>
  if a ≤ i ∧ i < a + bs.length then bs.getD (i - a) 0 else m i

@[simp] theorem length_slice (m : Memory) (a n : Nat) : (m.slice a n).length = n := by
  simp [slice]

end Lib.Memory
