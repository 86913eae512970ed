import Mathlib.Logic.Function.Basic
import Mathlib.Data.Nat.Basic

/-!
# Bitmaps

Block `b` is bit `b % 8`, counted from the least significant, of byte `b / 8`.
-/

namespace Lib

abbrev Bitmap := Int → BitVec 8

namespace Bitmap

open Function (update)

def busy (m : Bitmap) (b : Nat) : Bool := (m ((b / 8 : Nat) : Int)).getLsbD (b % 8)

theorem busy_congr {m m' : Bitmap} (h : m ((b / 8 : Nat) : Int) = m' ((b / 8 : Nat) : Int)) :
    m.busy b = m'.busy b := by
  unfold busy
  rw [h]

theorem getLsbD_bit (h : k < 8) : ((1#8) <<< k).getLsbD j = decide (j = k) := by
  rw [BitVec.getLsbD_shiftLeft, BitVec.getLsbD_one]
  by_cases hj : j = k
  · subst hj
    simp [h]
  · by_cases hlt : j < k
    · simp [hj, hlt]
    · have : j - k ≠ 0 := by omega
      simp [hj, this]

/-- Or-ing in the bit of `a` marks `a` and nothing else. -/
theorem busy_update_or (m : Bitmap) (a b : Nat) :
    busy (update m ((a / 8 : Nat) : Int) ((1#8) <<< (a % 8) ||| m ((a / 8 : Nat) : Int))) b =
      (m.busy b || decide (b = a)) := by
  unfold busy
  by_cases h : b / 8 = a / 8
  · have hb : b % 8 = a % 8 ↔ b = a := by omega
    rw [h, Function.update_self, BitVec.getLsbD_or, getLsbD_bit (Nat.mod_lt a (by decide)),
      Bool.or_comm]
    simp only [hb]
  · have hne : ((b / 8 : Nat) : Int) ≠ ((a / 8 : Nat) : Int) := by omega
    have hb : b ≠ a := fun he => h (by rw [he])
    rw [Function.update_of_ne hne]
    simp [hb]

/-- The block whose bit stands where that of `b` does when the bits of a byte
are counted from the other end. -/
def mirror (b : Nat) : Nat := 8 * (b / 8) + (7 - b % 8)

theorem mirror_mirror (b : Nat) : mirror (mirror b) = b := by
  unfold mirror
  omega

end Bitmap

end Lib
