import Mathlib.Order.Basic
import PerrOS.Lib.System

/-!
# Serving the least charged client

Every service charges its client a fixed cost and goes to a client with the
least charge so far. From equal charges, no client ever gets ahead of another
by more than its own cost, so the charges served are proportional.
-/

namespace Lib.LeastCharge

open Function (update)

variable {Client : Type u} [DecidableEq Client] {S : Set Client} {cost : Client → Nat}

/-- Serving `d`, a least charged member of `S`. -/
inductive Step (S : Set Client) (cost : Client → Nat) :
    (Client → Nat) → Client → (Client → Nat) → Prop
  | serve (c : Client → Nat) (d : Client) :
      d ∈ S → (∀ j ∈ S, c d ≤ c j) → Step S cost c d (update c d (c d + cost d))

def system (S : Set Client) (cost : Client → Nat) (v : Nat) :
    System (Client → Nat) Client where
  init c := c = fun _ => v
  step := Step S cost

/-- The invariant: a client is at most its own cost ahead of any other. -/
theorem spread (h : (system S cost v).Run ls c) (hi : i ∈ S) (hj : j ∈ S) :
    c i ≤ c j + cost i := by
  refine h.invariant (P := fun _ c => ∀ i ∈ S, ∀ j ∈ S, c i ≤ c j + cost i) ?_ ?_ i hi j hj
  · rintro _ rfl i - j -
    exact Nat.le_add_right v (cost i)
  · intro _ c d c' ih hs i hi j hj
    cases hs with
    | serve hd hmin =>
      have hij := ih i hi j hj
      by_cases hid : i = d
      · subst hid
        by_cases hji : j = i
        · subst hji
          simp
        · simpa [hji] using hmin j hj
      · by_cases hjd : j = d
        · subst hjd
          simp only [Function.update_of_ne hid, Function.update_self]
          omega
        · simpa [hid, hjd] using hij

theorem charge_eq (h : (system S cost v).Run ls c) (i : Client) :
    c i = v + ls.count i * cost i := by
  refine h.invariant (P := fun ls c => c i = v + ls.count i * cost i) ?_ ?_
  · rintro _ rfl
    simp
  · intro ls c d c' ih hs
    cases hs with
    | serve hd hmin =>
      by_cases hid : i = d
      · subst hid
        simp [ih, Nat.add_mul, Nat.add_assoc]
      · simp [hid, Ne.symm hid, ih]

/-- The proportional share: the charges served to two clients differ by at
most one service. -/
theorem share (h : (system S cost v).Run ls c) (hi : i ∈ S) (hj : j ∈ S) :
    ls.count i * cost i ≤ ls.count j * cost j + cost i := by
  have hs := spread h hi hj
  rw [charge_eq h i, charge_eq h j] at hs
  omega

end Lib.LeastCharge
