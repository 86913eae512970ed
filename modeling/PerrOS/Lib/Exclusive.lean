import Mathlib.Logic.Function.Basic

/-!
# Exclusive holders

Resources are taken from a pool and given back to it. Each resource in use
has at most one holder, so what is given back is held by nobody else.
-/

namespace Lib

open Function (update)

universe u v

variable {H : Type u} {R : Type v} [DecidableEq R]

/-- What is held is in use, and held once. -/
structure Exclusive (used : R → Bool) (holds : H → R → Prop) : Prop where
  used : ∀ h r, holds h r → used r = true
  unique : ∀ h h' r, holds h r → holds h' r → h = h'

namespace Exclusive

variable {used : R → Bool} {holds holds' : H → R → Prop} {h : H} {r : R}

omit [DecidableEq R] in
/-- Holding less. -/
theorem mono (e : Exclusive used holds) (hsub : ∀ h r, holds' h r → holds h r) :
    Exclusive used holds' where
  used h r hr := e.used h r (hsub h r hr)
  unique h h' r hr hr' := e.unique h h' r (hsub h r hr) (hsub h' r hr')

/-- A holder takes a resource that is not in use. -/
theorem take (e : Exclusive used holds) (hfree : used r = false)
    (hsub : ∀ h' r', holds' h' r' → holds h' r' ∨ h' = h ∧ r' = r) :
    Exclusive (update used r true) holds' where
  used h' r' hr' := by
    rcases hsub h' r' hr' with hold | ⟨-, rfl⟩
    · rw [Function.update_apply]
      split
      · rfl
      · exact e.used h' r' hold
    · simp
  unique h₁ h₂ r' hr₁ hr₂ := by
    have hnot (h' : H) (hold : holds h' r) : False := by
      rw [e.used h' r hold] at hfree
      cases hfree
    rcases hsub h₁ r' hr₁ with hold₁ | ⟨rfl, rfl⟩ <;> rcases hsub h₂ r' hr₂ with hold₂ | ⟨h₂', hr'⟩
    · exact e.unique h₁ h₂ r' hold₁ hold₂
    · exact (hnot h₁ (hr' ▸ hold₁)).elim
    · exact (hnot h₂ hold₂).elim
    · exact h₂'.symm

/-- A resource is given back, and nobody holds it afterwards. -/
theorem drop (e : Exclusive used holds) (hsub : ∀ h' r', holds' h' r' → holds h' r' ∧ r' ≠ r) :
    Exclusive (update used r false) holds' where
  used h' r' hr' := by
    obtain ⟨hold, hne⟩ := hsub h' r' hr'
    rw [Function.update_of_ne hne]
    exact e.used h' r' hold
  unique h₁ h₂ r' hr₁ hr₂ := e.unique h₁ h₂ r' (hsub h₁ r' hr₁).1 (hsub h₂ r' hr₂).1

end Exclusive

end Lib
