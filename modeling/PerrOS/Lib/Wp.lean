import PerrOS.Lib.Ensures

/-!
# Total correctness of programs that may fail

`wp m Q s` says that `m`, started in `s`, returns and leaves `Q`. The programs
are deterministic, so every rule is an equivalence: a condition that the rules
lead back to is exactly what the program needs. `wlp m Q s` says the same of
the programs that return only.
-/

namespace Lib

universe u

variable {σ α β : Type u}

/-- `m` does not fail from `s`, and its result and last state satisfy `Q`. -/
def wp (m : StateT σ Option α) (Q : α → σ → Prop) (s : σ) : Prop :=
  ∃ a s', m.run s = some (a, s') ∧ Q a s'

namespace wp

variable {m : StateT σ Option α} {Q R : α → σ → Prop} {s : σ}

theorem run (h : m.run s = some (a, s')) : wp m Q s ↔ Q a s' := by
  constructor
  · rintro ⟨b, t, hb, hq⟩
    obtain ⟨rfl, rfl⟩ := Prod.mk.inj (Option.some.inj (h.symm.trans hb))
    exact hq
  · exact fun hq => ⟨a, s', h, hq⟩

theorem mono (h : wp m Q s) (hi : ∀ a s', Q a s' → R a s') : wp m R s := by
  obtain ⟨a, s', hr, hq⟩ := h
  exact ⟨a, s', hr, hi a s' hq⟩

theorem pure {a : α} : wp (pure a : StateT σ Option α) Q s ↔ Q a s := run rfl

theorem failure : ¬ wp (failure : StateT σ Option α) Q s := by
  rintro ⟨_, _, h, _⟩
  cases h

theorem bind {f : α → StateT σ Option β} {Q : β → σ → Prop} :
    wp (m >>= f) Q s ↔ wp m (fun a => wp (f a) Q) s := by
  constructor
  · rintro ⟨b, t, hb, hq⟩
    rw [StateT.run_bind] at hb
    obtain ⟨⟨a, s'⟩, ha, hb⟩ := Option.bind_eq_some_iff.mp hb
    exact ⟨a, s', ha, b, t, hb, hq⟩
  · rintro ⟨a, s', ha, b, t, hb, hq⟩
    exact ⟨b, t, by rw [StateT.run_bind, ha]; exact hb, hq⟩

/-- What is known of `m` is carried into the rest. -/
theorem seq {f : α → StateT σ Option β} {Q : β → σ → Prop} (h : wp m R s)
    (hf : ∀ a s', R a s' → wp (f a) Q s') : wp (m >>= f) Q s := bind.mpr (h.mono hf)

/-- Of a program that returns from `s`, what is known of any result is known of
this one. -/
theorem of_bind {f : α → StateT σ Option β} {Q : β → σ → Prop} (h : wp (m >>= f) Q s)
    (hm : wp m R s) : ∃ a s', R a s' ∧ wp (f a) Q s' := by
  obtain ⟨a, s', ha, hr⟩ := hm
  exact ⟨a, s', hr, (run ha).mp (bind.mp h)⟩

/-- There is one result only. -/
theorem and (h : wp m Q s) (h' : wp m R s) : wp m (fun a s' => Q a s' ∧ R a s') s := by
  obtain ⟨a, s', hr, hq⟩ := h
  exact ⟨a, s', hr, hq, (run hr).mp h'⟩

/-- What holds of every result holds of this one. -/
theorem ensures {P : α → Prop} (h : wp m Q s) (he : Ensures m P) :
    wp m (fun a s' => Q a s' ∧ P a) s := by
  obtain ⟨a, s', hr, hq⟩ := h
  exact ⟨a, s', hr, hq, he s a s' hr⟩

theorem modify {f : σ → σ} {Q : PUnit → σ → Prop} :
    wp (modify f : StateT σ Option PUnit) Q s ↔ Q ⟨⟩ (f s) := run rfl

theorem lift {o : Option α} (h : o = some a) :
    wp (liftM o : StateT σ Option α) Q s ↔ Q a s := by
  subst h
  exact run rfl

theorem ite {c : Prop} [Decidable c] {m' : StateT σ Option α} :
    wp (if c then m else m') Q s ↔ if c then wp m Q s else wp m' Q s := by
  split <;> exact Iff.rfl

end wp

/-- If `m` does not fail from `s`, its result and last state satisfy `Q`. -/
def wlp (m : StateT σ Option α) (Q : α → σ → Prop) (s : σ) : Prop :=
  ∀ a s', m.run s = some (a, s') → Q a s'

namespace wlp

variable {m : StateT σ Option α} {Q R : α → σ → Prop} {s : σ}

theorem of_wp (h : wp m Q s) : wlp m Q s := fun _ _ hr => (wp.run hr).mp h

/-- Of a program that does not fail both are known. -/
theorem and_wp (h : wlp m R s) (h' : wp m Q s) : wp m (fun a s' => R a s' ∧ Q a s') s := by
  obtain ⟨a, s', hr, hq⟩ := h'
  exact ⟨a, s', hr, h a s' hr, hq⟩

theorem mono (h : wlp m Q s) (hi : ∀ a s', Q a s' → R a s') : wlp m R s :=
  fun a s' hr => hi a s' (h a s' hr)

theorem pure {a : α} (h : Q a s) : wlp (pure a : StateT σ Option α) Q s := of_wp (wp.pure.mpr h)

theorem failure : wlp (failure : StateT σ Option α) Q s := by
  intro a s' h
  cases h

theorem seq {f : α → StateT σ Option β} {Q : β → σ → Prop} (h : wlp m R s)
    (hf : ∀ a s', R a s' → wlp (f a) Q s') : wlp (m >>= f) Q s := by
  intro b t hb
  rw [StateT.run_bind] at hb
  obtain ⟨⟨a, s'⟩, ha, hb⟩ := Option.bind_eq_some_iff.mp hb
  exact hf a s' (h a s' ha) b t hb

end wlp

end Lib
