import Mathlib.Data.Nat.Basic

/-!
# Counted loops

`for (i = 0; i < n; i++)` over a state, with the two rules its proofs use: an
invariant indexed by the counter, and a projection the body leaves alone.
-/

namespace Lib

universe u v

variable {σ : Type u}

/-- `f 0`, then `f 1`, up to `f (n - 1)`. -/
def loop : Nat → (Nat → σ → σ) → σ → σ
  | 0, _, s => s
  | n + 1, f, s => f n (loop n f s)

@[simp] theorem loop_zero (f : Nat → σ → σ) (s : σ) : loop 0 f s = s := rfl

@[simp] theorem loop_succ (n : Nat) (f : Nat → σ → σ) (s : σ) :
    loop (n + 1) f s = f n (loop n f s) := rfl

-- Loops are reasoned about by their rules, never by unrolling.
attribute [irreducible] loop

theorem loop_invariant {P : Nat → σ → Prop} {f : Nat → σ → σ} (h : P 0 s)
    (step : ∀ i t, i < n → P i t → P (i + 1) (f i t)) : P n (loop n f s) := by
  induction n with
  | zero => rw [loop_zero]; exact h
  | succ n ih =>
    rw [loop_succ]
    exact step _ _ (Nat.lt_succ_self n) (ih fun i t hi => step i t (Nat.lt_succ_of_lt hi))

/-- What no iteration changes, the loop does not change. -/
theorem loop_frame {τ : Type v} (g : σ → τ) {f : Nat → σ → σ} (h : ∀ i t, g (f i t) = g t) :
    g (loop n f s) = g s :=
  loop_invariant (P := fun _ t => g t = g s) rfl fun i t _ ht => (h i t).trans ht

end Lib
