import Mathlib.Init

/-!
# Partial correctness of programs that may fail

`m : StateT σ Option α` reads and writes a state and may fail. `Ensures m Q`
says of its result what holds whatever the state was, and has one rule for
each way to build such a program.
-/

namespace Lib

universe u

variable {σ α β : Type u}

/-- Whatever state `m` starts in, a result it returns satisfies `Q`. -/
def Ensures (m : StateT σ Option α) (Q : α → Prop) : Prop :=
  ∀ s a s', m.run s = some (a, s') → Q a

namespace Ensures

variable {m : StateT σ Option α} {P Q : α → Prop} {R : β → Prop}

theorem trivial : Ensures m fun _ => True := fun _ _ _ _ => True.intro

theorem failure : Ensures (failure : StateT σ Option α) Q := by
  intro s a s' h
  cases h

theorem pure {a : α} (h : Q a) : Ensures (pure a : StateT σ Option α) Q := by
  intro s b s' hb
  obtain ⟨rfl, rfl⟩ := Prod.mk.inj (Option.some.inj hb)
  exact h

theorem mono (h : Ensures m P) (hi : ∀ a, P a → Q a) : Ensures m Q :=
  fun s a s' hr => hi a (h s a s' hr)

theorem and (h : Ensures m P) (h' : Ensures m Q) : Ensures m fun a => P a ∧ Q a :=
  fun s a s' hr => ⟨h s a s' hr, h' s a s' hr⟩

theorem bind {f : α → StateT σ Option β} (h : Ensures m P) (hf : ∀ a, P a → Ensures (f a) R) :
    Ensures (m >>= f) R := by
  intro s b s' hb
  rw [StateT.run_bind] at hb
  obtain ⟨⟨a, t⟩, ha, hb⟩ := Option.bind_eq_some_iff.mp hb
  exact hf a (h s a t ha) t b s' hb

/-- A step whose result does not matter. -/
theorem seq {f : α → StateT σ Option β} (hf : ∀ a, Ensures (f a) R) : Ensures (m >>= f) R :=
  bind trivial fun a _ => hf a

theorem lift {o : Option α} (h : ∀ a, o = some a → Q a) :
    Ensures (liftM o : StateT σ Option α) Q := by
  intro s a s' hr
  cases o with
  | none => simp at hr
  | some b =>
    obtain ⟨rfl, -⟩ : b = a ∧ s = s' := by simpa using hr
    exact h b rfl

theorem ite {c : Prop} [Decidable c] {m' : StateT σ Option α} (ht : c → Ensures m Q)
    (hf : ¬ c → Ensures m' Q) : Ensures (if c then m else m') Q := by
  split
  · next h => exact ht h
  · next h => exact hf h

end Ensures

end Lib
