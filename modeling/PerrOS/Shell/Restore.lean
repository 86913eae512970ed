import PerrOS.Shell.Executors

/-!
# The descriptors of the shell

When an executor returns, the shell has the descriptors it had before exactly
if nothing failed between what it opened and what it closed, and redirection
saved standard output before it replaced it.
-/

namespace PerrOS.Shell.Mysh

open Lib (Descriptors)

variable {o : Outcomes} {s : State} {mode : CommandType} {n f k x : Nat}

namespace State

@[simp] theorem alertError_table (s : State) : s.alertError.table = s.table := rfl

@[simp] theorem child_table (s : State) (run : State → State) : (s.child run).table = s.table := rfl

@[simp] theorem closePipe_table (s : State) (p : Nat × Nat) :
    (s.closePipe p).table = s.table.closeBoth p := rfl

theorem pipe_of_false (h : o.pipe n = false) (s : State) : s.pipe o n = none := by
  rw [pipe, h]
  rfl

theorem pipe_of_true (h : o.pipe n = true) (s : State) :
    s.pipe o n = some (s.table.pipe.1, { s with table := s.table.pipe.2 }) := by
  rw [pipe, h]
  rfl

end State

-- ---------------------------------------------------------------------------
-- Pipes
-- ---------------------------------------------------------------------------

/-- What an executor with one pipe makes of the table: the pipe stays open where a fork fails. -/
def onePipe (t : Descriptors) (pipe forks : Bool) : Descriptors :=
  if !pipe then t else if forks then t.pipe.2.closeBoth t.pipe.1 else t.pipe.2

/-- With two pipes, the first stays open also where the second fails. -/
def twoPipes (t : Descriptors) (pipe pipe2 forks : Bool) : Descriptors :=
  if !pipe then t
  else if !pipe2 then t.pipe.2
  else if forks then (t.pipe.2.pipe.2.closeBoth t.pipe.1).closeBoth t.pipe.2.pipe.1
  else t.pipe.2.pipe.2

theorem onePipe_fd_iff (t : Descriptors) (pipe forks : Bool) :
    (onePipe t pipe forks).fd = t.fd ↔ (pipe → forks) := by
  cases pipe with
  | false => simp [onePipe]
  | true =>
    cases forks with
    | false => simpa [onePipe] using Descriptors.pipe_fd_ne t
    | true => simpa [onePipe] using Descriptors.closeBoth_pipe t

theorem twoPipes_fd_iff (t : Descriptors) (pipe pipe2 forks : Bool) :
    (twoPipes t pipe pipe2 forks).fd = t.fd ↔ (pipe → pipe2 ∧ forks) := by
  cases pipe with
  | false => simp [twoPipes]
  | true =>
    cases pipe2 with
    | false => simpa [twoPipes] using Descriptors.pipe_fd_ne t
    | true =>
      cases forks with
      | false => simpa [twoPipes] using Descriptors.pipe_pipe_fd_ne t
      | true => simpa [twoPipes] using Descriptors.closeBoth_pipe_pipe t

theorem pipeRight_table (o : Outcomes) (n : Nat) (p : Nat × Nat) (argv2 : List Word) (s : State) :
    (pipeRight o n p argv2 s).table = if o.fork n then s.table.closeBoth p else s.table := by
  unfold pipeRight
  cases o.fork n <;> rfl

theorem doublePipeRight_table (o : Outcomes) (p p2 : Nat × Nat) (argv2 argv3 : List Word)
    (s : State) : (doublePipeRight o p p2 argv2 argv3 s).table =
      if o.fork 1 && o.fork 2 then (s.table.closeBoth p).closeBoth p2 else s.table := by
  unfold doublePipeRight
  cases o.fork 1 <;> cases o.fork 2 <;> rfl

theorem execSinglePipe_table (o : Outcomes) (argv : Option (List Word)) (argv2 : List Word)
    (s : State) : (execSinglePipe o argv argv2 s).table =
      onePipe s.table (o.pipe 0) ((argv.isNone || o.fork 0) && o.fork 1) := by
  unfold execSinglePipe onePipe
  cases hpipe : o.pipe 0 with
  | false => rw [State.pipe_of_false hpipe]; rfl
  | true =>
    rw [State.pipe_of_true hpipe]
    cases argv with
    | none => exact pipeRight_table ..
    | some argv =>
      cases o.fork 0 with
      | false => rfl
      | true => exact pipeRight_table ..

theorem execSinglePipeRedir_table (o : Outcomes) (argv argv2 : List Word) (file : Word)
    (mode : CommandType) (s : State) : (execSinglePipeRedir o argv argv2 file mode s).table =
      onePipe s.table (o.pipe 0) (o.fork 0 && o.fork 1) := by
  unfold execSinglePipeRedir onePipe
  cases hpipe : o.pipe 0 with
  | false => rw [State.pipe_of_false hpipe]; rfl
  | true =>
    rw [State.pipe_of_true hpipe]
    cases o.fork 0 <;> cases o.fork 1 <;> rfl

theorem execDoublePipe_table (o : Outcomes) (argv : Option (List Word)) (argv2 argv3 : List Word)
    (s : State) : (execDoublePipe o argv argv2 argv3 s).table =
      twoPipes s.table (o.pipe 0) (o.pipe 1)
        ((argv.isNone || o.fork 0) && (o.fork 1 && o.fork 2)) := by
  unfold execDoublePipe twoPipes
  cases hpipe : o.pipe 0 with
  | false => rw [State.pipe_of_false hpipe]; rfl
  | true =>
    rw [State.pipe_of_true hpipe]
    dsimp only
    cases hpipe2 : o.pipe 1 with
    | false => rw [State.pipe_of_false hpipe2]; rfl
    | true =>
      rw [State.pipe_of_true hpipe2]
      cases argv with
      | none => exact doublePipeRight_table ..
      | some argv =>
        cases o.fork 0 with
        | false => rfl
        | true => exact doublePipeRight_table ..

theorem execDoublePipeRedir_table (o : Outcomes) (argv argv2 argv3 : List Word) (file : Word)
    (mode : CommandType) (s : State) : (execDoublePipeRedir o argv argv2 argv3 file mode s).table =
      twoPipes s.table (o.pipe 0) (o.pipe 1) (o.fork 0 && (o.fork 1 && o.fork 2)) := by
  unfold execDoublePipeRedir twoPipes
  cases hpipe : o.pipe 0 with
  | false => rw [State.pipe_of_false hpipe]; rfl
  | true =>
    rw [State.pipe_of_true hpipe]
    dsimp only
    cases hpipe2 : o.pipe 1 with
    | false => rw [State.pipe_of_false hpipe2]; rfl
    | true =>
      rw [State.pipe_of_true hpipe2]
      cases o.fork 0 <;> cases o.fork 1 <;> cases o.fork 2 <;> rfl

-- ---------------------------------------------------------------------------
-- Redirection
-- ---------------------------------------------------------------------------

/-- Standard output is open and can be saved. -/
def Saves (o : Outcomes) (t : Descriptors) : Prop := o.dup = true ∧ t.fd 1 ≠ none

theorem switchStdout_unflushed (h : o.fflush = false) (newStream : Word) (mode : CommandType)
    (s : State) : (s.switchStdout o newStream mode).table = s.table ∧
      (s.switchStdout o newStream mode).oldOut = s.oldOut := by
  unfold State.switchStdout
  rw [h]
  split <;> exact ⟨rfl, rfl⟩

theorem switchStdout_saved (hmode : Redirects mode) (hflush : o.fflush = true)
    (hdup : o.dup = true) (hf : s.table.fd 1 = some f) (newStream : Word) :
    (s.switchStdout o newStream mode).oldOut = some s.table.free ∧
      ∃ x, (s.switchStdout o newStream mode).table.fd =
        Function.update (Function.update s.table.fd s.table.free (some f)) 1 (some x) := by
  have hopen : s.table.fd 1 ≠ none := by rw [hf]; exact Option.some_ne_none f
  have hne := Descriptors.free_ne hopen
  have hone : (s.table.set s.table.free f).fd 1 = some f := by
    rw [Descriptors.set_fd, Function.update_of_ne (Ne.symm hne), hf]
  have hsaved : s.table.dup 1 = some (s.table.free, s.table.set s.table.free f) := by
    rw [Descriptors.dup, hf]
    rfl
  have hsave : s.saveStdout o =
      { s with table := s.table.set s.table.free f, oldOut := some s.table.free } := by
    rw [State.saveStdout, hdup, if_pos rfl, hsaved]
  unfold State.switchStdout
  rw [if_pos hmode, hflush, hsave]
  cases o.opens with
  | false =>
    refine ⟨rfl, f, ?_⟩
    exact (Function.update_eq_self_iff.mpr hone.symm).symm
  | true =>
    refine ⟨rfl, _, Descriptors.openAt_fd (Descriptors.free_ne ?_)⟩
    rw [hone]
    exact Option.some_ne_none f

theorem switchStdout_unsaved (hmode : Redirects mode) (hflush : o.fflush = true)
    (hnot : ¬ Saves o s.table) (newStream : Word) :
    (s.switchStdout o newStream mode).oldOut = none ∧
      (s.switchStdout o newStream mode).table = if o.opens then s.table.openAt 1 else s.table := by
  have hdup : (if o.dup then s.table.dup 1 else none) = none := by
    split
    · next hdup => exact Descriptors.dup_eq_none.mpr (not_not.mp fun h => hnot ⟨hdup, h⟩)
    · rfl
  have hsave : s.saveStdout o = { s with oldOut := none } := by
    rw [State.saveStdout, hdup]
  unfold State.switchStdout
  rw [if_pos hmode, hflush, hsave]
  cases o.opens <;> exact ⟨rfl, rfl⟩

theorem revertStdout_child (s : State) (run : State → State) :
    (s.child run).revertStdout.table = s.revertStdout.table := by
  unfold State.revertStdout State.child
  cases s.oldOut <;> rfl

theorem revertStdout_none (h : s.oldOut = none) : s.revertStdout = s := by
  rw [State.revertStdout, h]

/-- The descriptor put back is closed, whatever it was. -/
theorem revertStdout_fd_iff (h : s.oldOut = some k) :
    s.revertStdout.table.fd = s.table.fd ↔ s.table.fd k = none := by
  rw [State.revertStdout, h]
  constructor
  · intro heq
    rw [← heq]
    exact Function.update_self ..
  · intro hnone
    refine (Descriptors.close_congr (congrArg _ (Descriptors.dup2_none hnone)) k).trans ?_
    exact Descriptors.close_of_fd hnone

/-- Standard output that was saved is put back. -/
theorem revertStdout_saved {t : Descriptors} (hf : t.fd 1 = some f) (hold : s.oldOut = some t.free)
    (htable : s.table.fd = Function.update (Function.update t.fd t.free (some f)) 1 (some x)) :
    s.revertStdout.table.fd = t.fd := by
  have hne : t.free ≠ 1 := Descriptors.free_ne (by rw [hf]; exact Option.some_ne_none f)
  have hsaved : s.table.fd t.free = some f := by
    rw [htable, Function.update_of_ne hne, Function.update_self]
  rw [State.revertStdout, hold]
  refine (Descriptors.close_congr (congrArg _ (Descriptors.dup2_some hsaved)) t.free).trans ?_
  have hone : Function.update t.fd 1 (some f) = t.fd := Function.update_eq_self_iff.mpr hf.symm
  rw [Descriptors.close_fd, Descriptors.set_fd, htable, Function.update_idem,
    Function.update_comm hne, Function.update_idem, hone]
  exact Function.update_eq_self_iff.mpr t.fd_free.symm

/-- Standard output is replaced without having been saved, or nothing is changed. -/
theorem unsaved_fd_iff (t : Descriptors) (opens : Bool) :
    (if opens then t.openAt 1 else t).fd = t.fd ↔ (opens → t.free = 1) := by
  cases opens with
  | false => simp
  | true =>
    simp only [if_true, forall_true_left]
    by_cases hfree : t.free = 1
    · refine iff_of_true ?_ hfree
      rw [← hfree]
      exact Descriptors.openAt_free t
    · refine iff_of_false (fun h => ?_) hfree
      rw [Descriptors.openAt_fd hfree] at h
      exact Descriptors.fd_ne_next t 1 (h ▸ Function.update_self ..)

/-- The condition under which a single command leaves the table as it was. Without redirection it
always does. With it, standard output must have been saved, and then a fork must put it back, or
nothing must have come of the redirection. -/
def SingleRestores (o : Outcomes) (s : State) : Prop :=
  if o.fflush then
    (Saves o s.table ∧ o.fork 0) ∨ ¬ Saves o s.table ∧ (o.opens → s.table.free = 1)
  else o.fork 0 → ∀ k, s.oldOut = some k → s.table.fd k = none

theorem redirected_fd_iff (hmode : Redirects mode) (newStream : Word) (s : State) :
    (if o.fork 0 then (s.switchStdout o newStream mode).revertStdout
      else s.switchStdout o newStream mode).table.fd = s.table.fd ↔ SingleRestores o s := by
  unfold SingleRestores
  cases hflush : o.fflush with
  | false =>
    obtain ⟨htable, hold⟩ := switchStdout_unflushed hflush newStream mode s
    generalize s.switchStdout o newStream mode = r at htable hold ⊢
    rw [← htable, ← hold, if_neg Bool.false_ne_true]
    split
    · next hfork =>
      simp only [hfork, forall_true_left]
      cases hr : r.oldOut with
      | none => simp [revertStdout_none hr]
      | some k => simp [revertStdout_fd_iff hr]
    · next hfork => simp [hfork]
  | true =>
    rw [if_pos rfl]
    by_cases hsaves : Saves o s.table
    · obtain ⟨f, hf⟩ := Option.ne_none_iff_exists'.mp hsaves.2
      obtain ⟨hold, x, htable⟩ := switchStdout_saved hmode hflush hsaves.1 hf newStream
      simp only [hsaves, true_and, not_true_eq_false, false_and, or_false]
      split
      · next hfork => exact iff_of_true (revertStdout_saved hf hold htable) hfork
      · next hfork =>
        refine iff_of_false (fun h => ?_) hfork
        have hne := Descriptors.free_ne hsaves.2
        have hsaved := s.table.fd_free
        rw [← h, htable, Function.update_of_ne hne, Function.update_self] at hsaved
        cases hsaved
    · obtain ⟨hold, htable⟩ := switchStdout_unsaved hmode hflush hsaves newStream
      simp only [hsaves, false_and, not_false_eq_true, true_and, false_or]
      rw [revertStdout_none hold, ite_self, htable]
      exact unsaved_fd_iff s.table o.opens

theorem execSingleCommand_restores_iff (list : CommandList) (argv : List Word) (s : State) :
    (execSingleCommand o list argv s).table.fd = s.table.fd ↔
      (Redirects list.head.outputType →
        ¬ (list.size = 2 ∧ list.target = []) → SingleRestores o s) := by
  by_cases hmode : Redirects list.head.outputType
  · by_cases htarget : list.size = 2 ∧ list.target = []
    · simp [execSingleCommand, checkOutputType, hmode, htarget]
    · have hif := redirected_fd_iff (o := o) hmode (list.target.headD []) s
      simp only [execSingleCommand, checkOutputType, hmode, htarget, if_true, if_false]
      rw [forall_true_left, not_false_eq_true, forall_true_left, ← hif]
      cases o.fork 0 with
      | false => rfl
      | true =>
        simp only [Bool.not_true, Bool.false_eq_true, if_false, if_true]
        rw [revertStdout_child]
  · simp only [execSingleCommand, checkOutputType, hmode, if_false, false_imp_iff, iff_true]
    cases o.fork 0 <;> rfl

-- ---------------------------------------------------------------------------
-- The executors
-- ---------------------------------------------------------------------------

/-- The condition under which a call leaves the shell its descriptors. -/
def Call.Restores (o : Outcomes) (s : State) : Call → Prop
  | singleCommand list _ =>
    Redirects list.head.outputType →
      ¬ (list.size = 2 ∧ list.target = []) → SingleRestores o s
  | singlePipe argv _ => o.pipe 0 → (argv.isSome → o.fork 0) ∧ o.fork 1
  | doublePipe argv _ _ => o.pipe 0 → o.pipe 1 ∧ (argv.isSome → o.fork 0) ∧ o.fork 1 ∧ o.fork 2
  | singlePipeRedir .. => o.pipe 0 → o.fork 0 ∧ o.fork 1
  | doublePipeRedir .. => o.pipe 0 → o.pipe 1 ∧ o.fork 0 ∧ o.fork 1 ∧ o.fork 2

theorem isNone_or_iff (argv : Option (List Word)) (b : Bool) :
    (argv.isNone || b) = true ↔ (argv.isSome → b) := by
  cases argv <;> simp

/-- When an executor returns, the shell has the descriptors it had before exactly if each pipe
that was opened was followed by successful forks, and a redirection could be undone. -/
theorem descriptors_restored_iff (o : Outcomes) (call : Call) (s : State) :
    (call.run o s).table.fd = s.table.fd ↔ call.Restores o s := by
  cases call with
  | singleCommand list argv => exact execSingleCommand_restores_iff list argv s
  | singlePipe argv argv2 =>
    rw [Call.run, execSinglePipe_table, onePipe_fd_iff, Bool.and_eq_true, isNone_or_iff]
    rfl
  | doublePipe argv argv2 argv3 =>
    rw [Call.run, execDoublePipe_table, twoPipes_fd_iff, Bool.and_eq_true, Bool.and_eq_true,
      isNone_or_iff]
    rfl
  | singlePipeRedir argv argv2 file mode =>
    rw [Call.run, execSinglePipeRedir_table, onePipe_fd_iff, Bool.and_eq_true]
    rfl
  | doublePipeRedir argv argv2 argv3 file mode =>
    rw [Call.run, execDoublePipeRedir_table, twoPipes_fd_iff, Bool.and_eq_true, Bool.and_eq_true]
    rfl

/-- Everything succeeds but the first fork. -/
def noFork : Outcomes := ⟨true, true, true, fun _ => true, fun n => n != 0, fun _ => true⟩

/-- A pipe stays open where the first fork of `a|b` fails. -/
theorem pipe_stays_open :
    ((Call.singlePipe (some [['a']]) [['b']]).run noFork .start).table.fd ≠
      State.start.table.fd := by
  rw [Call.run, execSinglePipe_table, ne_eq, onePipe_fd_iff]
  decide

end PerrOS.Shell.Mysh
