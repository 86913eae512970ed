import Mathlib.Algebra.Group.Int.Defs
import Mathlib.Algebra.Group.Nat.Defs
import Mathlib.Logic.Function.Basic

/-!
# Byte-addressed memory

Little-endian words of any width over a memory of bytes: what is written is
read back, and a write changes nothing outside its own bytes.
-/

namespace Lib

abbrev Memory := Nat → BitVec 8

namespace Memory

open Function (update)

/-- The word of `n` bytes at `a`. -/
def read (m : Memory) (a : Nat) : Nat → Nat
  | 0 => 0
  | n + 1 => (m a).toNat + 256 * read m (a + 1) n

/-- Writes the low `n` bytes of `v` at `a`. -/
def write (m : Memory) (a : Nat) : Nat → Nat → Memory
  | 0, _ => m
  | n + 1, v => write (update m a (BitVec.ofNat 8 v)) (a + 1) n (v / 256)

theorem write_outside (h : b < a ∨ a + n ≤ b) : write m a n v b = m b := by
  induction n generalizing m a v with
  | zero => rfl
  | succ n ih => rw [write, ih (by omega), Function.update_of_ne (by omega)]

theorem read_congr (h : ∀ b, a ≤ b → b < a + n → m b = m' b) : read m a n = read m' a n := by
  induction n generalizing a with
  | zero => rfl
  | succ n ih =>
    rw [read, read, h a (by omega) (by omega), ih fun b hb hb' => h b (by omega) (by omega)]

theorem read_write_disjoint (h : b + k ≤ a ∨ a + n ≤ b) :
    read (write m a n v) b k = read m b k :=
  read_congr fun _ hc hc' => write_outside (by omega)

theorem read_update (h : b < a ∨ a + n ≤ b) (x : BitVec 8) :
    read (update m b x) a n = read m a n :=
  read_congr fun _ hc hc' => Function.update_of_ne (by omega) ..

theorem read_lt (m : Memory) (a n : Nat) : read m a n < 256 ^ n := by
  induction n generalizing a with
  | zero => simp [read]
  | succ n ih =>
    have h0 := (m a).isLt
    have h1 := ih (a + 1)
    rw [read, Nat.pow_succ]
    omega

theorem read_write (m : Memory) (a n v : Nat) : read (write m a n v) a n = v % 256 ^ n := by
  induction n generalizing m a v with
  | zero => simp [read, Nat.mod_one]
  | succ n ih =>
    have h0 : write m a (n + 1) v a = BitVec.ofNat 8 v := by
      rw [write, write_outside (by omega), Function.update_self]
    have hp : 256 ^ (n + 1) = 256 * 256 ^ n := by rw [Nat.pow_succ, Nat.mul_comm]
    rw [read, h0, write, ih, BitVec.toNat_ofNat, hp, Nat.mod_mul]

theorem read_write_of_lt (h : v < 256 ^ n) : read (write m a n v) a n = v := by
  rw [read_write, Nat.mod_eq_of_lt h]

end Memory

end Lib
