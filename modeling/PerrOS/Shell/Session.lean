import PerrOS.Shell.Dispatch
import PerrOS.Shell.Restore

/-!
# Sessions

A shell that executes one list of commands after another keeps its descriptors,
whatever the lists are and whichever files and programs are missing, as long as
it can fork, open pipes and save its standard output.
-/

namespace PerrOS.Shell.Mysh

/-- The system calls after which an executor may leave something open succeed. -/
structure Outcomes.Forks (o : Outcomes) : Prop where
  fflush : o.fflush = true
  dup : o.dup = true
  pipe : ∀ n, o.pipe n = true
  fork : ∀ n, o.fork n = true

variable {o : Outcomes} {w : World} {s : State}

/-- One call of an executor. -/
theorem Call.run_table (ho : o.Forks) (h1 : s.table.fd 1 ≠ none) (call : Call) :
    (call.run o s).table.fd = s.table.fd := by
  cases call with
  | singleCommand list argv =>
    refine (execSingleCommand_restores_iff list argv s).mpr fun _ _ => ?_
    rw [SingleRestores, if_pos ho.fflush]
    exact .inl ⟨⟨ho.dup, h1⟩, ho.fork 0⟩
  | singlePipe argv argv2 =>
    rw [Call.run, execSinglePipe_table, onePipe_fd_iff]
    simp [ho.fork]
  | doublePipe argv argv2 argv3 =>
    rw [Call.run, execDoublePipe_table, twoPipes_fd_iff]
    simp [ho.fork, ho.pipe]
  | singlePipeRedir argv argv2 file mode =>
    rw [Call.run, execSinglePipeRedir_table, onePipe_fd_iff]
    simp [ho.fork]
  | doublePipeRedir argv argv2 argv3 file mode =>
    rw [Call.run, execDoublePipeRedir_table, twoPipes_fd_iff]
    simp [ho.fork, ho.pipe]

/-- The calls for one list. -/
theorem runFrom_table (hw : ∀ n, (w.call n).Forks) (h1 : s.table.fd 1 ≠ none) (n : Nat)
    (calls : List Call) : (runFrom w n calls s).table.fd = s.table.fd := by
  induction calls generalizing n s with
  | nil => rfl
  | cons call calls ih =>
    have hcall := call.run_table (hw n) h1
    rw [runFrom, ih (by rwa [hcall]), hcall]

theorem teeFile_table (w : World) (s : State) : (teeFile w s).table.fd = s.table.fd := by
  unfold teeFile
  split
  · exact Lib.Descriptors.close_openFile s.table
  · rfl

/-- One list. -/
theorem execCommands_table (hw : ∀ n, (w.call n).Forks) (h1 : s.table.fd 1 ≠ none)
    (list : CommandList) : (execCommands w list s).table.fd = s.table.fd := by
  have hrun (calls : List Call) : (run w calls s).table.fd = s.table.fd := runFrom_table hw h1 0 calls
  have hdispatch : (dispatch w list s).table.fd = s.table.fd := by
    unfold dispatch
    dsimp only
    repeat' split
    all_goals first
      | exact hrun _
      | exact (teeFile_table w _).trans (hrun _)
      | rfl
  unfold execCommands
  dsimp only
  split
  · rfl
  · split
    · rfl
    · split
      · split <;> rfl
      · exact hdispatch

/-- The lists of a session, each in a world of its own. -/
def session : List (World × CommandList) → State → State
  | [], s => s
  | (w, list) :: lists, s => session lists (execCommands w list s)

/-- A session in which the shell can fork, open pipes and save its standard output leaves it the
descriptors it had. -/
theorem session_table {lists : List (World × CommandList)}
    (hw : ∀ l ∈ lists, ∀ n, (l.1.call n).Forks) (h1 : s.table.fd 1 ≠ none) :
    (session lists s).table.fd = s.table.fd := by
  induction lists generalizing s with
  | nil => rfl
  | cons l lists ih =>
    have hlist := execCommands_table (hw l List.mem_cons_self) h1 l.2
    rw [session, ih (fun l hl => hw l (List.mem_cons_of_mem _ hl)) (by rwa [hlist]), hlist]

end PerrOS.Shell.Mysh
