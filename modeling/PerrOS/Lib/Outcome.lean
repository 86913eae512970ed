import Mathlib.Init

/-!
# Outcomes of programs that may fail

A program over a state returns or fails with a reason, and leaves a state either
way. `Outcome m Q E s` says what holds in each case; it has one rule for each way
to build such a program.
-/

namespace Lib

universe u

variable {ε : Type u} {σ α β : Type u}

/-- From `s`, where `m` returns, `Q` holds of its result and its last state, and where it fails,
`E` of its reason and its last state. -/
def Outcome (m : ExceptT ε (StateM σ) α) (Q : α → σ → Prop) (E : ε → σ → Prop) (s : σ) : Prop :=
  match m.run.run s with
  | (.ok a, t) => Q a t
  | (.error e, t) => E e t

namespace Outcome

variable {m : ExceptT ε (StateM σ) α} {Q R : α → σ → Prop} {E F : ε → σ → Prop} {s : σ}

theorem pure {a : α} : Outcome (pure a : ExceptT ε (StateM σ) α) Q E s ↔ Q a s := Iff.rfl

theorem throw {e : ε} : Outcome (throw e : ExceptT ε (StateM σ) α) Q E s ↔ E e s := Iff.rfl

theorem get {Q : σ → σ → Prop} :
    Outcome (get : ExceptT ε (StateM σ) σ) Q E s ↔ Q s s := Iff.rfl

theorem set {t : σ} {Q : PUnit → σ → Prop} :
    Outcome (set t : ExceptT ε (StateM σ) PUnit) Q E s ↔ Q ⟨⟩ t := Iff.rfl

theorem run (h : m.run.run s = (.ok a, t)) : Outcome m Q E s ↔ Q a t := by
  rw [Outcome, h]

theorem run_error (h : m.run.run s = (.error e, t)) : Outcome m Q E s ↔ E e t := by
  rw [Outcome, h]

theorem bind {f : α → ExceptT ε (StateM σ) β} {Q : β → σ → Prop} :
    Outcome (m >>= f) Q E s ↔ Outcome m (fun a => Outcome (f a) Q E) E s := by
  have h : (m >>= f).run.run s = match m.run.run s with
      | (.ok a, t) => (f a).run.run t
      | (.error e, t) => (.error e, t) := by
    rw [ExceptT.run_bind, StateT.run_bind]
    rcases m.run.run s with ⟨a | a, t⟩ <;> rfl
  rw [Outcome, Outcome, h]
  rcases m.run.run s with ⟨a | a, t⟩ <;> exact Iff.rfl

theorem mono (h : Outcome m Q E s) (hQ : ∀ a t, Q a t → R a t) (hE : ∀ e t, E e t → F e t) :
    Outcome m R F s := by
  unfold Outcome at *
  generalize m.run.run s = r at h ⊢
  obtain ⟨e | a, t⟩ := r
  · exact hE e t h
  · exact hQ a t h

theorem imp (h : Outcome m Q E s) (hQ : ∀ a t, Q a t → R a t) : Outcome m R E s :=
  h.mono hQ fun _ _ => id

/-- What is known of `m` is carried into the rest. -/
theorem seq {f : α → ExceptT ε (StateM σ) β} {Q : β → σ → Prop} (h : Outcome m R E s)
    (hf : ∀ a t, R a t → Outcome (f a) Q E t) : Outcome (m >>= f) Q E s := bind.mpr (h.imp hf)

end Outcome

end Lib
