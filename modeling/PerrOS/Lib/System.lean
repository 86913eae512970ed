import Mathlib.Data.List.Basic
import Mathlib.Logic.Function.Basic

/-!
# Transition systems

Labelled steps, finite runs from an initial state, and the two rules every
safety proof below uses: an invariant is proved once per step, and a run of
a simulated system is read back as a run of the simpler one.
-/

namespace Lib

universe u v u' v'

structure System (State : Type u) (Label : Type v) where
  init : State → Prop
  step : State → Label → State → Prop

namespace System

variable {State : Type u} {Label : Type v} {State' : Type u'} {Label' : Type v'}

/-- `T.Run ls s`: a run from an initial state takes the labels `ls`, in this
order, and ends in `s`. -/
inductive Run (T : System State Label) : List Label → State → Prop
  | init : T.init s → Run T [] s
  | step : Run T ls s → T.step s l t → Run T (ls ++ [l]) t

def Reachable (T : System State Label) (s : State) : Prop := ∃ ls, T.Run ls s

/-- The same system with only the steps that `ok` allows. -/
def restrict (T : System State Label) (ok : State → Label → Prop) : System State Label where
  init := T.init
  step s l t := T.step s l t ∧ ok s l

/-- The same steps from one state on. -/
def startingAt (T : System State Label) (s : State) : System State Label where
  init t := t = s
  step := T.step

variable {T : System State Label}

/-- The induction over a run, for facts that read its labels. -/
theorem Run.invariant {P : List Label → State → Prop} (h : T.Run ls s)
    (init : ∀ s, T.init s → P [] s)
    (step : ∀ ls s l t, P ls s → T.step s l t → P (ls ++ [l]) t) : P ls s := by
  induction h with
  | init h => exact init _ h
  | step _ hs ih => exact step _ _ _ _ ih hs

/-- The last step of a run. -/
theorem Run.of_concat (h : T.Run (ls ++ [l]) t) : ∃ s, T.Run ls s ∧ T.step s l t := by
  generalize he : ls ++ [l] = ls' at h
  cases h with
  | init => simp at he
  | step hr hs =>
    obtain ⟨rfl, hl⟩ := List.append_inj' he rfl
    cases hl
    exact ⟨_, hr, hs⟩

theorem Reachable.init (h : T.init s) : T.Reachable s := ⟨[], .init h⟩

theorem Reachable.step (h : T.Reachable s) (hs : T.step s l t) : T.Reachable t := by
  obtain ⟨ls, h⟩ := h
  exact ⟨_, h.step hs⟩

/-- A state predicate that holds initially and is kept by every step from a
reachable state holds in every reachable state. -/
theorem Reachable.invariant {P : State → Prop} (h : T.Reachable s)
    (init : ∀ s, T.init s → P s)
    (step : ∀ s l t, T.Reachable s → P s → T.step s l t → P t) : P s := by
  obtain ⟨ls, h⟩ := h
  induction h with
  | init h => exact init _ h
  | @step ls s l t hr hs ih => exact step s l t ⟨ls, hr⟩ ih hs

theorem Run.single (h : T.step s l t) : (T.startingAt s).Run [l] t :=
  .step (.init rfl) h

theorem Run.of_restrict (h : (T.restrict ok).Run ls s) : T.Run ls s := by
  induction h with
  | init h => exact .init h
  | step _ hs ih => exact ih.step hs.1

theorem Reachable.of_restrict (h : (T.restrict ok).Reachable s) : T.Reachable s := by
  obtain ⟨ls, h⟩ := h
  exact ⟨ls, h.of_restrict⟩

/-- Allowing more steps keeps every run. -/
theorem Run.restrict_mono (h : (T.restrict ok).Run ls s) (hok : ∀ s l, ok s l → ok' s l) :
    (T.restrict ok').Run ls s := by
  induction h with
  | init h => exact .init h
  | step _ hs ih => exact ih.step ⟨hs.1, hok _ _ hs.2⟩

-- ---------------------------------------------------------------------------
-- Systems given by a step function
-- ---------------------------------------------------------------------------

def ofNext (init : State → Prop) (next : State → Label → Option State) :
    System State Label where
  init := init
  step s l t := next s l = some t

def exec (next : State → Label → Option State) : State → List Label → Option State
  | s, [] => some s
  | s, l :: ls => (next s l).bind (exec next · ls)

variable {init : State → Prop} {next : State → Label → Option State}

theorem Run.append_exec (h : (ofNext init next).Run ls s) (he : exec next s ls' = some t) :
    (ofNext init next).Run (ls ++ ls') t := by
  induction ls' generalizing ls s with
  | nil =>
    cases he
    simpa using h
  | cons l ls' ih =>
    obtain ⟨u, hu, he⟩ := Option.bind_eq_some_iff.mp he
    simpa using ih (h.step hu) he

/-- Executing the labels from an initial state is a run. -/
theorem run_exec (h : init s) (he : exec next s ls = some t) : (ofNext init next).Run ls t := by
  simpa using Run.append_exec (.init h) he

theorem exec_append (s : State) (ls ls' : List Label) :
    exec next s (ls ++ ls') = (exec next s ls).bind (exec next · ls') := by
  induction ls generalizing s with
  | nil => rfl
  | cons l ls ih =>
    simp only [List.cons_append, exec, Option.bind_assoc]
    exact congrArg _ (funext fun t => ih t)

/-- Every run is an execution. -/
theorem Run.exec_eq (h : (ofNext init next).Run ls s) :
    ∃ s₀, init s₀ ∧ exec next s₀ ls = some s := by
  induction h with
  | @init s h => exact ⟨s, h, rfl⟩
  | @step ls s l t _ hs ih =>
    obtain ⟨s₀, hinit, he⟩ := ih
    have hs : next s l = some t := hs
    exact ⟨s₀, hinit, by simp [exec_append, he, exec, hs]⟩

/-- Executing the labels while each is allowed is a run of the restricted
system. -/
theorem run_exec_restrict {ok : State → Label → Prop} [∀ s l, Decidable (ok s l)] (h : init s)
    (he : exec (fun s l => if ok s l then next s l else none) s ls = some t) :
    ((ofNext init next).restrict ok).Run ls t := by
  have hr := run_exec h he
  clear he
  induction hr with
  | init h => exact .init h
  | step _ hs ih =>
    obtain ⟨hok, hs⟩ := Option.ite_none_right_eq_some.mp hs
    exact ih.step ⟨hs, hok⟩

/-- A run found by execution, with what is checked of its last state. -/
theorem exists_run_from (init : State → Prop) (next : State → Label → Option State) {s : State}
    (h : init s) (ok : State → Label → Prop)
    [∀ s l, Decidable (ok s l)] (ls : List Label) (P : State → Prop) [DecidablePred P]
    (he : (exec (fun s l => if ok s l then next s l else none) s ls).any
      (fun t => decide (P t)) = true) :
    ∃ t, ((ofNext init next).restrict ok).Run ls t ∧ P t := by
  obtain ⟨t, he, ht⟩ := (Option.any_eq_true _ _).mp he
  exact ⟨t, run_exec_restrict h he, of_decide_eq_true ht⟩

/-- The same from a computed initial state. -/
theorem exists_run (start : Option State) (next : State → Label → Option State)
    (ok : State → Label → Prop) [∀ s l, Decidable (ok s l)] (ls : List Label)
    (P : State → Prop) [DecidablePred P]
    (he : (start.bind (exec (fun s l => if ok s l then next s l else none) · ls)).any
      (fun t => decide (P t)) = true) :
    ∃ t, ((ofNext (fun s => start = some s) next).restrict ok).Run ls t ∧ P t := by
  cases start with
  | none => cases he
  | some s => exact exists_run_from (fun s' => some s = some s') next rfl ok ls P he

-- ---------------------------------------------------------------------------
-- Simulation
-- ---------------------------------------------------------------------------

/-- `R` is a simulation of `T` by `A`: a step of `T` labelled `l` is matched
by the step of `A` labelled `f l`, or by no step where `f l` is `none`. -/
structure Simulation (T : System State Label) (A : System State' Label')
    (R : State → State' → Prop) (f : Label → Option Label') : Prop where
  init : T.init s → ∃ a, A.init a ∧ R s a
  skip : T.step s l t → f l = none → R s a → R t a
  step : T.step s l t → f l = some m → R s a → ∃ b, A.step a m b ∧ R t b

/-- A run of the simulated system is a run of the simpler one over the
matched labels. -/
theorem Simulation.run {A : System State' Label'} {R : State → State' → Prop}
    {f : Label → Option Label'} (sim : Simulation T A R f) (h : T.Run ls s) :
    ∃ a, A.Run (ls.filterMap f) a ∧ R s a := by
  induction h with
  | init h =>
    obtain ⟨a, ha, hr⟩ := sim.init h
    exact ⟨a, .init ha, hr⟩
  | @step ls s l t _ hs ih =>
    obtain ⟨a, ha, hr⟩ := ih
    cases hf : f l with
    | none => exact ⟨a, by simpa [List.filterMap_append, hf] using ha, sim.skip hs hf hr⟩
    | some m =>
      obtain ⟨b, hb, hr'⟩ := sim.step hs hf hr
      exact ⟨b, by simpa [List.filterMap_append, hf] using ha.step hb, hr'⟩

end System

end Lib
