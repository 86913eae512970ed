import Mathlib.Data.List.Basic

/-!
# Traces of loops that may stop

A loop over a list whose body can end the program, and what its turns report:
something holds of everything reported exactly if it holds of what each turn
reports that the loop gets to.
-/

namespace Lib

universe u v w x

variable {σ : Type u} {α : Type v} {ε : Type w} {τ : Type x}

/-- What the turns report, up to the one that stops the loop. -/
def trace (f : σ → α → Except ε σ) (t : σ → α → List τ) (s : σ) : List α → List τ
  | [] => []
  | a :: l =>
    t s a ++
      match f s a with
      | .ok s' => trace f t s' l
      | .error _ => []

/-- The loop gets to its turn for `a`, in the state `s'`. -/
inductive Reaches (f : σ → α → Except ε σ) : σ → List α → σ → α → Prop
  | here : Reaches f s (a :: l) s a
  | there : f s b = .ok s₁ → Reaches f s₁ l s' a → Reaches f s (b :: l) s' a

theorem Reaches.mem {f : σ → α → Except ε σ} {s s' : σ} {a : α} {l : List α}
    (h : Reaches f s l s' a) : a ∈ l := by
  induction h with
  | here => exact List.mem_cons_self
  | there _ _ ih => exact List.mem_cons_of_mem _ ih

/-- What every turn keeps holds wherever the loop gets to. -/
theorem Reaches.invariant {f : σ → α → Except ε σ} {P : σ → Prop} {s s' : σ} {a : α} {l : List α}
    (hs : P s) (hstep : ∀ b ∈ l, ∀ s t, P s → f s b = .ok t → P t) (h : Reaches f s l s' a) :
    P s' := by
  induction h with
  | here => exact hs
  | there hok _ ih =>
    exact ih (hstep _ List.mem_cons_self _ _ hs hok) fun b hb => hstep b (List.mem_cons_of_mem _ hb)

theorem forall_trace {f : σ → α → Except ε σ} {t : σ → α → List τ} {s : σ} {l : List α}
    {P : τ → Prop} :
    (∀ y ∈ trace f t s l, P y) ↔ ∀ s' a, Reaches f s l s' a → ∀ y ∈ t s' a, P y := by
  induction l generalizing s with
  | nil => exact iff_of_true (fun _ h => absurd h List.not_mem_nil) fun _ _ h => by cases h
  | cons b l ih =>
    rw [trace, List.forall_mem_append]
    constructor
    · rintro ⟨hhere, hthere⟩ s' a hreach
      cases hreach with
      | here => exact hhere
      | there hstep hreach =>
        rw [hstep] at hthere
        exact ih.mp hthere s' a hreach
    · intro h
      refine ⟨h s b .here, ?_⟩
      split
      · next hstep => exact ih.mpr fun s' a hreach => h s' a (.there hstep hreach)
      · exact fun _ hy => absurd hy List.not_mem_nil

end Lib
