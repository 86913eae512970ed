import PerrOS.Lib.System

/-!
# Programs that take turns

A program is a tree of atomic actions. Threads run programs over a shared state
and take turns at each action. What a thread owns is a ghost value of its own:
each action has a rule that says what must be owned before it and what is owned
after it, and an invariant ties the shared state to what the threads own. Then a
thread is at every turn in a state from which the rest of its program can go on.
-/

namespace Lib

open Function (update)

universe u

/-- A program: an action gets a result, and the rest depends on it. -/
inductive Prog (Act : Type) (Res : Act → Type) (α : Type)
  | ret (x : α)
  | act (a : Act) (k : Res a → Prog Act Res α)

namespace Prog

variable {Act : Type} {Res : Act → Type} {α β : Type}

def bind : Prog Act Res α → (α → Prog Act Res β) → Prog Act Res β
  | .ret x, f => f x
  | .act a k, f => .act a fun r => (k r).bind f

instance : Monad (Prog Act Res) where
  pure := .ret
  bind := bind

def perform (a : Act) : Prog Act Res (Res a) := .act a .ret

def isRet : Prog Act Res α → Bool
  | .ret _ => true
  | .act .. => false

end Prog

/-- What an action needs, and what its thread may own afterwards. -/
structure Rules (Act : Type) (Res : Act → Type) (H : Type u) where
  pre : H → Act → Prop
  post : H → (a : Act) → Res a → H → Prop

section Wp

variable {Act : Type} {Res : Act → Type} {α β : Type} {H : Type u} {R : Rules Act Res H}
  {p : Prog Act Res α} {Q Q' : α → H → Prop} {h : H}

/-- What a thread must own for a program to run, and to end in `Q`. -/
def Prog.Wp (R : Rules Act Res H) : Prog Act Res α → (α → H → Prop) → H → Prop
  | .ret x, Q, h => Q x h
  | .act a k, Q, h => R.pre h a ∧ ∀ r h', R.post h a r h' → (k r).Wp R Q h'

theorem Prog.Wp.mono (hp : p.Wp R Q h) (hQ : ∀ x h, Q x h → Q' x h) : p.Wp R Q' h := by
  induction p generalizing h with
  | ret x => exact hQ x h hp
  | act a k ih => exact ⟨hp.1, fun r h' hr => ih r (hp.2 r h' hr)⟩

theorem Prog.wp_pure (x : α) : Prog.Wp R (pure x : Prog Act Res α) Q h ↔ Q x h := Iff.rfl

theorem Prog.wp_bind {f : α → Prog Act Res β} {Q : β → H → Prop} :
    (p >>= f).Wp R Q h ↔ p.Wp R (fun x => (f x).Wp R Q) h := by
  induction p generalizing h with
  | ret x => exact Iff.rfl
  | act a k ih =>
    exact and_congr Iff.rfl
      (forall_congr' fun r => forall_congr' fun h' => imp_congr Iff.rfl (ih r))

/-- An action, and the rest of the program. -/
theorem Prog.wp_act {a : Act} {f : Res a → Prog Act Res α} :
    (Prog.perform a >>= f).Wp R Q h ↔ R.pre h a ∧ ∀ r h', R.post h a r h' → (f r).Wp R Q h' :=
  Iff.rfl

/-- A loop over a list that keeps `I`. -/
theorem Prog.wp_forM {γ : Type} {f : γ → Prog Act Res PUnit} (I : List γ → H → Prop)
    (step : ∀ x xs h, I (x :: xs) h → (f x).Wp R (fun _ => I xs) h) {xs : List γ} (hI : I xs h) :
    Prog.Wp R (forM xs f) (fun _ => I []) h := by
  induction xs generalizing h with
  | nil => exact hI
  | cons x xs ih =>
    rw [List.forM_cons, Prog.wp_bind]
    exact (step x xs h hI).mono fun _ h' hI' => ih hI'

end Wp

/-- The same for a loop with a result. -/
theorem Prog.wp_foldlM {γ : Type} {f : α → γ → Prog Act Res α} (I : List γ → α → H → Prop)
    (step : ∀ x xs y h, I (x :: xs) y h → (f y x).Wp R (I xs) h) {xs : List γ} {y : α}
    (hI : I xs y h) : Prog.Wp R (xs.foldlM f y) (I []) h := by
  induction xs generalizing h y with
  | nil => exact hI
  | cons x xs ih =>
    rw [List.foldlM_cons, Prog.wp_bind]
    exact (step x xs y h hI).mono fun _ h' hI' => ih hI'

/-- Threads over a shared state. A thread that may run begins any of the calls. -/
structure Threads (Act : Type) (Res : Act → Type) (S : Type u) (P : Type) (C : Type) where
  init : S → Prop
  may : S → P → Bool
  body : C → Prog Act Res Int
  exec : S → P → (a : Act) → Res a → S → Prop

namespace Threads

variable {Act : Type} {Res : Act → Type} {S : Type u} {P C : Type} [DecidableEq P]

structure State (Act : Type) (Res : Act → Type) (S : Type u) (P : Type) where
  shared : S
  prog : P → Prog Act Res Int

inductive Label (Act : Type) (Res : Act → Type) (P C : Type)
  | call (p : P) (c : C)
  | act (p : P) (a : Act) (r : Res a)

variable (M : Threads Act Res S P C)

/-- The programs after an action of `p`: a thread that could not run before it begins anew. -/
def resume (s : State Act Res S P) (p : P) (rest : Prog Act Res Int) (q : P) : Prog Act Res Int :=
  if q = p then rest else if M.may s.shared q then s.prog q else .ret 0

inductive Step (s : State Act Res S P) : Label Act Res P C → State Act Res S P → Prop
  | call (c : C) (hmay : M.may s.shared p = true) (hidle : s.prog p = .ret n) :
    Step s (.call p c) { s with prog := update s.prog p (M.body c) }
  | act (hmay : M.may s.shared p = true) (hprog : s.prog p = .act a k)
    (hexec : M.exec s.shared p a r t) :
    Step s (.act p a r) ⟨t, M.resume s p (k r)⟩

def system : System (State Act Res S P) (Label Act Res P C) where
  init s := M.init s.shared ∧ ∀ p, s.prog p = .ret 0
  step := M.Step

/-- That the rules are right for the threads. -/
structure Logic {H : Type u} (R : Rules Act Res H) where
  /-- What the threads own, and the shared state. -/
  Inv : S → (P → H) → Prop
  /-- What a thread owns between its calls. -/
  Idle : H → Prop
  init : ∀ s, M.init s → ∃ hs, Inv s hs ∧ ∀ p, M.may s p = true → Idle (hs p)
  call : ∀ s hs p c, Inv s hs → M.may s p = true → Idle (hs p) →
    (M.body c).Wp R (fun _ => Idle) (hs p)
  act : ∀ s hs p a r t, Inv s hs → M.may s p = true → R.pre (hs p) a → M.exec s p a r t →
    ∃ hs', Inv t hs' ∧ R.post (hs p) a r (hs' p) ∧
      ∀ q, q ≠ p → if M.may s q then hs' q = hs q else M.may t q = true → Idle (hs' q)

variable {M} {H : Type u} {R : Rules Act Res H}

/-- The shared state is as the threads own it, and each thread can go on. -/
def Logic.Safe (L : M.Logic R) (s : State Act Res S P) : Prop :=
  ∃ hs, L.Inv s.shared hs ∧
    ∀ p, M.may s.shared p = true → (s.prog p).Wp R (fun _ => L.Idle) (hs p)

theorem Logic.safe_step (L : M.Logic R) {s t : State Act Res S P} {l : Label Act Res P C}
    (h : L.Safe s) (hs : M.Step s l t) : L.Safe t := by
  obtain ⟨hs', hinv, hwp⟩ := h
  cases hs with
  | @call p n c hmay hidle =>
    have hp := hwp p hmay
    rw [hidle] at hp
    refine ⟨hs', hinv, fun q hq => ?_⟩
    by_cases he : q = p
    · subst he
      simpa using L.call _ _ q c hinv hmay hp
    · simpa [Function.update_of_ne he] using hwp q hq
  | @act p a k r u hmay hprog hexec =>
    have hp := hwp p hmay
    rw [hprog] at hp
    obtain ⟨hs'', hinv', hpost, hothers⟩ := L.act _ _ p a r u hinv hmay hp.1 hexec
    refine ⟨hs'', hinv', fun q hq => ?_⟩
    by_cases he : q = p
    · subst he
      have hself : M.resume s q (k r) q = k r := if_pos rfl
      change (M.resume s q (k r) q).Wp R _ _
      rw [hself]
      exact hp.2 r _ hpost
    · have hother := hothers q he
      have hresume : M.resume s p (k r) q = if M.may s.shared q then s.prog q else .ret 0 :=
        if_neg he
      change (M.resume s p (k r) q).Wp R _ _
      rw [hresume]
      split at hother
      · rename_i hmq
        rw [if_pos hmq, hother]
        exact hwp q hmq
      · rename_i hmq
        rw [if_neg hmq]
        exact hother hq

theorem Logic.run_safe (L : M.Logic R) {s : State Act Res S P} {ls : List (Label Act Res P C)}
    (h : M.system.Run ls s) : L.Safe s := by
  refine h.invariant (P := fun _ s => L.Safe s) (fun s hs => ?_) fun _ s l t hsafe hs =>
    L.safe_step hsafe hs
  obtain ⟨hs', hinv, hidle⟩ := L.init s.shared hs.1
  refine ⟨hs', hinv, fun p hp => ?_⟩
  rw [hs.2 p]
  exact hidle p hp

omit [DecidableEq P] in
/-- A thread that has an action before it owns what the action needs. -/
theorem Logic.safe_pre (L : M.Logic R) {s : State Act Res S P} (h : L.Safe s) {p : P} {a : Act}
    {k : Res a → Prog Act Res Int} (hmay : M.may s.shared p = true)
    (hprog : s.prog p = .act a k) : ∃ hs, L.Inv s.shared hs ∧ R.pre (hs p) a := by
  obtain ⟨hs, hinv, hwp⟩ := h
  have hp := hwp p hmay
  rw [hprog] at hp
  exact ⟨hs, hinv, hp.1⟩

omit [DecidableEq P] in
/-- Where every thread is between its calls, each owns what it owns there. -/
theorem Logic.safe_idle (L : M.Logic R) {s : State Act Res S P} (h : L.Safe s)
    (hidle : ∀ p, M.may s.shared p = true → ∃ n, s.prog p = .ret n) :
    ∃ hs, L.Inv s.shared hs ∧ ∀ p, M.may s.shared p = true → L.Idle (hs p) := by
  obtain ⟨hs, hinv, hwp⟩ := h
  refine ⟨hs, hinv, fun p hp => ?_⟩
  obtain ⟨n, hn⟩ := hidle p hp
  have hwp := hwp p hp
  rwa [hn] at hwp

end Threads

end Lib
