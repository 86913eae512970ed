import Mathlib.Data.List.Chain
import PerrOS.Shell.Line
import PerrOS.Shell.Reports

/-!
# Dispatch

`execCommands` chooses executors by the length of a list and by the operators at
some of its positions. Which lists it executes as they are written, and which it
executes in part without a word.
-/

namespace PerrOS.Shell.Mysh

-- ---------------------------------------------------------------------------
-- The commands of a line
-- ---------------------------------------------------------------------------

namespace CommandList

variable (list : CommandList)

def nodes : List Command := list.head :: list.next

def tail : Command := list.next.getLastD list.head

/-- The node so many `next`s behind the head. -/
def node (n : Nat) : Command := list.nodes.getD n list.head

end CommandList

/-- `strncmp` finds the first `n` characters equal, or the strings before. -/
def streq : List Char → List Char → Nat → Bool
  | _, _, 0 => true
  | [], [], _ + 1 => true
  | a :: as, b :: bs, n + 1 => a = b && streq as bs n
  | _, _, _ + 1 => false

/-- What the calls of a run return: of each executor in turn, of `chdir` and of `fopen`. -/
structure World where
  call : Nat → Outcomes
  chdir : Bool
  fopen : Bool

/-- The executors are called one after the other. -/
def runFrom (w : World) : Nat → List Call → State → State
  | _, [], s => s
  | n, call :: calls, s => runFrom w (n + 1) calls (call.run (w.call n) s)

def run (w : World) (calls : List Call) (s : State) : State := runFrom w 0 calls s

/-- The payload of a tee. -/
def mytee : List Word := ["./mytee".toList]

/-- `fopen("tee.txt", "w")`, closed before `execCommands` returns. -/
def teeFile (w : World) (s : State) : State :=
  if w.fopen then ({ s with table := s.table.openFile.2 }.log .teeFile).close s.table.openFile.1
  else s

/-- `execCommands` behind the built-in commands. -/
def dispatch (w : World) (list : CommandList) (s : State) : State :=
  let argv := list.head.argList
  if list.size = 1 ∨ list.size = 2 ∧ Redirects list.head.outputType then
    run w [.singleCommand list argv] s
  else if list.size = 2 then
    if list.head.outputType = .pipe then run w [.singlePipe (some argv) list.tail.argList] s
    else run w [.doublePipe (some argv) mytee list.tail.argList] s
  else if list.size = 3 then
    let argv2 := (list.node 1).argList
    let argv3 := list.tail.argList
    if Redirects list.head.outputType then
      let s := run w [.singleCommand { list with size := 0 } argv, .singlePipe none argv3] s
      if list.tail.inputType = .tee then teeFile w s else s
    else if list.tail.inputType = .pipe then run w [.doublePipe (some argv) argv2 argv3] s
    else if list.head.outputType = .pipe then
      run w [.singlePipeRedir argv argv2 (argv3.headD []) list.tail.inputType] s
    else run w [.doublePipeRedir argv mytee argv2 (argv3.headD []) list.tail.inputType] s
  else if list.size = 4 then
    let argv2 := (list.node 1).argList
    let argv3 := (list.node 2).argList
    let argv4 := list.tail.argList
    if Redirects list.tail.inputType then
      run w [.doublePipeRedir argv argv2 argv3 (argv4.headD []) list.tail.inputType] s
    else if Redirects list.head.outputType then
      run w [.singleCommand list argv, .doublePipe none argv3 argv4] s
    else if Redirects (list.node 1).outputType then
      run w [.singlePipeRedir argv argv2 (argv3.headD []) (list.node 1).outputType,
        .singlePipe none argv4] s
    else s
  else s.alertError

def execCommands (w : World) (list : CommandList) (s : State) : State :=
  if Shell.execCommands list.nodes = .alerted then s.alertError
  else
    let argv := list.head.argList
    if streq (argv.headD []) "exit".toList 4 ∧ list.size = 1 ∧ argv.length = 1 then s.log .exit
    else if streq (argv.headD []) "cd".toList 2 ∧ list.size = 1 then
      let s := s.log (.chdir (if 1 < argv.length then some (argv.getD 1 []) else none))
      if w.chdir then s else s.alertError
    else dispatch w list s

/-- The operator between two commands is the output type of the one and the input type of the
other. -/
def Joined (c d : Command) : Prop := c.outputType = d.inputType ∧ d.inputType ≠ .regular

/-- A list as the parser builds it for `execCommands`, where each command has a word. -/
structure Parsed extends CommandList where
  size_eq : size = next.length + 1
  chained : List.IsChain Joined toCommandList.nodes
  ended : toCommandList.tail.outputType = .regular
  worded : ∀ c ∈ toCommandList.nodes, c.argList ≠ []

theorem operator_ne_regular (h : operator t = some (op, rest)) : op ≠ .regular := by
  unfold operator at h
  split at h <;> cases h <;> decide

theorem chained_of_parses (h : Parses inType seg t list e) :
    ∃ c l, list = c :: l ∧ c.inputType = inType ∧ List.IsChain Joined list ∧
      (l.getLastD c).outputType = .regular := by
  induction h with
  | last => exact ⟨_, _, rfl, rfl, .singleton _, rfl⟩
  | char _ _ ih => exact ih
  | bad => exact ⟨_, _, rfl, rfl, .singleton _, rfl⟩
  | cut ho _ _ _ ih | skip ho _ _ ih =>
    obtain ⟨c, l, rfl, hc, hchain, hlast⟩ := ih
    refine ⟨_, _, rfl, rfl, .cons_cons ⟨hc.symm, ?_⟩ hchain, ?_⟩
    · rw [hc]
      exact operator_ne_regular ho
    · rwa [List.getLastD_cons]

/-- What the parser gives `execCommands` is a list of this form. -/
theorem exists_parsed (h : Parses inType seg t list e) (hw : ∀ c ∈ list, c.argList ≠ []) :
    ∃ p : Parsed, p.nodes = list := by
  obtain ⟨c, l, rfl, -, hchain, hlast⟩ := chained_of_parses h
  exact ⟨⟨⟨l.length + 1, c, l⟩, rfl, hchain, hlast, hw⟩, rfl⟩

-- ---------------------------------------------------------------------------
-- What is started
-- ---------------------------------------------------------------------------

variable {w : World} {s : State} {e : Bool}

theorem not_redirects_pipe : ¬ Redirects .pipe := by decide

theorem not_redirects_tee : ¬ Redirects .tee := by decide

/-- The commands that are started for a list, if nothing is reported; `e` is whether its first
`execvp` succeeds. -/
def CommandList.started (list : CommandList) (e : Bool) : List (List Word) :=
  let argv := list.head.argList
  match list.next with
  | [] => [argv]
  | [c2] =>
    if Redirects c2.inputType then [argv]
    else if c2.inputType = .pipe then [if e then argv else c2.argList, c2.argList]
    else [argv, mytee, c2.argList]
  | [c2, c3] =>
    if Redirects c2.inputType then [argv, c3.argList]
    else if c3.inputType = .pipe then [argv, c2.argList, c3.argList]
    else if c2.inputType = .pipe then [argv, c2.argList]
    else [argv, mytee, c2.argList]
  | [c2, c3, c4] =>
    if Redirects c4.inputType then [argv, c2.argList, c3.argList]
    else if Redirects c2.inputType then [argv, c3.argList, c4.argList]
    else if Redirects c3.inputType then [argv, c2.argList, c4.argList]
    else []
  | _ => []

/-- A list need not be reported: it is not too long, and no tee stands where a redirection is
wanted. -/
def CommandList.Silent (list : CommandList) : Prop :=
  match list.next with
  | [c2, c3] => Redirects c2.inputType ∨ c3.inputType = .pipe ∨ Redirects c3.inputType
  | _ :: _ :: _ :: _ :: _ => False
  | _ => True

/-- Two commands with a pipe between them. -/
def CommandList.SinglePipe (list : CommandList) : Prop :=
  match list.next with
  | [c2] => c2.inputType = .pipe
  | _ => False

/-- Everything succeeds, but the first `execvp` only if `e` says so. -/
def calm (e : Bool) : World where
  call n := ⟨true, true, true, fun _ => true, fun _ => true, fun k => e || n != 0 || k != 0⟩
  chdir := true
  fopen := true

theorem run_one (w : World) (call : Call) (s : State) :
    Yields s (run w [call] s) (call.commands (w.call 0)) (call.Quiet (w.call 0)) :=
  call.yields (w.call 0) s

theorem run_two (w : World) (call call' : Call) (s : State) :
    Yields s (run w [call, call'] s) (call.commands (w.call 0) ++ call'.commands (w.call 1))
      (call.Quiet (w.call 0) ∧ call'.Quiet (w.call 1)) :=
  (call.yields (w.call 0) s).trans (call'.yields (w.call 1) _)

theorem teeFile_yields (w : World) (s : State) : Yields s (teeFile w s) [] True := by
  unfold teeFile
  split
  · exact ⟨[.teeFile], rfl, by simp [Event.IsBuiltin], by simp [Event.argv],
      fun h => absurd trivial h⟩
  · exact .of_events rfl

/-- A run of the calls that were chosen for a list. -/
def Chosen (w : World) (list : CommandList) (s s' : State) : Prop :=
  ∃ q, Yields s s' (list.started ((w.call 0).execvp 0)) q ∧ (q → list.Silent) ∧
    ∀ e, w = calm e → (e = true ∨ list.SinglePipe) → list.Silent → q

theorem Chosen.of_run {list : CommandList} {r : State} {commands : List (List Word)} {q : Prop}
    (hrun : Yields s r commands q) (hd : dispatch w list s = r)
    (hstarted : list.started ((w.call 0).execvp 0) = commands) (hsilent : q → list.Silent)
    (hcalm : ∀ e, w = calm e → (e = true ∨ list.SinglePipe) → list.Silent → q) :
    Chosen w list s (dispatch w list s) := by
  subst hd hstarted
  exact ⟨q, hrun, hsilent, hcalm⟩

/-- Where there is no single pipe, only the run in which everything succeeds is to be quiet. -/
theorem Chosen.of_calm {list : CommandList} {r : State} {commands : List (List Word)} {q : Prop}
    (hnot : ¬ list.SinglePipe) (hrun : Yields s r commands q) (hd : dispatch w list s = r)
    (hstarted : list.started ((w.call 0).execvp 0) = commands) (hsilent : q → list.Silent)
    (hcalm : w = calm true → list.Silent → q) : Chosen w list s (dispatch w list s) := by
  refine .of_run hrun hd hstarted hsilent ?_
  rintro e hw (rfl | hpipe)
  · exact hcalm hw
  · exact absurd hpipe hnot

section

variable (w : World) (s : State) {head c2 c3 c4 : Command}

theorem chosen_one (hregular : head.outputType = .regular) :
    Chosen w ⟨1, head, []⟩ s (dispatch w ⟨1, head, []⟩ s) := by
  refine .of_calm id (run_one w (.singleCommand ⟨1, head, []⟩ head.argList) s) ?_ rfl
    (fun _ => trivial) ?_
  · simp [dispatch]
  · rintro rfl -
    simp [calm, Call.Quiet, hregular]

theorem chosen_two (hout : head.outputType = c2.inputType) (hword : c2.argList ≠ []) :
    Chosen w ⟨2, head, [c2]⟩ s (dispatch w ⟨2, head, [c2]⟩ s) := by
  by_cases hpipe : c2.inputType = .pipe
  · refine .of_run (run_one w (.singlePipe (some head.argList) c2.argList) s) ?_ ?_
      (fun _ => trivial) ?_
    · simp [dispatch, hout, hpipe, CommandList.tail, not_redirects_pipe]
    · simp [CommandList.started, hpipe, Call.commands, not_redirects_pipe]
    · rintro e rfl - -
      simp [calm, Call.Quiet]
  by_cases hredir : Redirects c2.inputType
  · refine .of_calm hpipe (run_one w (.singleCommand ⟨2, head, [c2]⟩ head.argList) s) ?_ ?_
      (fun _ => trivial) ?_
    · simp [dispatch, hout, hredir]
    · simp [CommandList.started, hredir, Call.commands]
    · rintro rfl -
      simp [calm, Call.Quiet, CommandList.target, hword]
  · refine .of_calm hpipe (run_one w (.doublePipe (some head.argList) mytee c2.argList) s) ?_ ?_
      (fun _ => trivial) ?_
    · simp [dispatch, hout, hredir, hpipe, CommandList.tail]
    · simp [CommandList.started, hredir, hpipe, Call.commands]
    · rintro rfl -
      simp [calm, Call.Quiet]

/-- After a redirection the third command gets a pipe of its own. -/
theorem chosen_three_redirects (hout : head.outputType = c2.inputType)
    (hredir : Redirects c2.inputType) :
    Chosen w ⟨3, head, [c2, c3]⟩ s (dispatch w ⟨3, head, [c2, c3]⟩ s) := by
  have hrun := run_two w (.singleCommand ⟨0, head, [c2, c3]⟩ head.argList)
    (.singlePipe none c3.argList) s
  have hquiet (hw : w = calm true) :
      (Call.singleCommand ⟨0, head, [c2, c3]⟩ head.argList).Quiet (w.call 0) ∧
        (Call.singlePipe none c3.argList).Quiet (w.call 1) := by
    subst hw
    simp [calm, Call.Quiet]
  by_cases htee : c3.inputType = .tee
  · refine .of_calm id (hrun.trans (teeFile_yields w _)) ?_ ?_ (fun _ => .inl hredir)
      fun hw _ => ⟨hquiet hw, trivial⟩
    · simp [dispatch, hout, hredir, htee, CommandList.tail]
    · simp [CommandList.started, hredir, Call.commands]
  · refine .of_calm id hrun ?_ ?_ (fun _ => .inl hredir) fun hw _ => hquiet hw
    · simp [dispatch, hout, hredir, htee, CommandList.tail]
    · simp [CommandList.started, hredir, Call.commands]

theorem chosen_three (hout : head.outputType = c2.inputType) :
    Chosen w ⟨3, head, [c2, c3]⟩ s (dispatch w ⟨3, head, [c2, c3]⟩ s) := by
  by_cases hredir : Redirects c2.inputType
  · exact chosen_three_redirects w s hout hredir
  by_cases hpipe : c3.inputType = .pipe
  · refine .of_calm id (run_one w (.doublePipe (some head.argList) c2.argList c3.argList) s) ?_ ?_
      (fun _ => .inr (.inl hpipe)) ?_
    · simp [dispatch, hout, hredir, hpipe, CommandList.tail, CommandList.node, CommandList.nodes]
    · simp [CommandList.started, hredir, hpipe, Call.commands]
    · rintro rfl -
      simp [calm, Call.Quiet]
  -- what is left writes to a file, if the last operator says so
  have hmode (hsilent : CommandList.Silent ⟨3, head, [c2, c3]⟩) : Redirects c3.inputType :=
    (hsilent.resolve_left hredir).resolve_left hpipe
  by_cases hleft : c2.inputType = .pipe
  · refine .of_calm id (run_one w (.singlePipeRedir head.argList c2.argList (c3.argList.headD [])
      c3.inputType) s) ?_ ?_ (fun hquiet => .inr (.inr hquiet.2.2.2.1.1)) ?_
    · simp [dispatch, hout, hleft, hpipe, CommandList.tail, CommandList.node, CommandList.nodes]
    · simp [CommandList.started, hleft, hpipe, Call.commands]
    · rintro rfl hsilent
      simp [calm, Call.Quiet, hmode hsilent]
  · refine .of_calm id (run_one w (.doublePipeRedir head.argList mytee c2.argList
      (c3.argList.headD []) c3.inputType) s) ?_ ?_
        (fun hquiet => .inr (.inr hquiet.2.2.2.2.2.1.1)) ?_
    · simp [dispatch, hout, hleft, hredir, hpipe, CommandList.tail, CommandList.node,
        CommandList.nodes]
    · simp [CommandList.started, hleft, hredir, hpipe, Call.commands]
    · rintro rfl hsilent
      simp [calm, Call.Quiet, hmode hsilent]

theorem chosen_four (hout : head.outputType = c2.inputType) (hout2 : c2.outputType = c3.inputType) :
    Chosen w ⟨4, head, [c2, c3, c4]⟩ s (dispatch w ⟨4, head, [c2, c3, c4]⟩ s) := by
  by_cases hright : Redirects c4.inputType
  · refine .of_calm id (run_one w (.doublePipeRedir head.argList c2.argList c3.argList
      (c4.argList.headD []) c4.inputType) s) ?_ ?_ (fun _ => trivial) ?_
    · simp [dispatch, hright, CommandList.tail, CommandList.node, CommandList.nodes]
    · simp [CommandList.started, hright, Call.commands]
    · rintro rfl -
      simp [calm, Call.Quiet, hright]
  by_cases hleft : Redirects c2.inputType
  · refine .of_calm id (run_two w (.singleCommand ⟨4, head, [c2, c3, c4]⟩ head.argList)
      (.doublePipe none c3.argList c4.argList) s) ?_ ?_ (fun _ => trivial) ?_
    · simp [dispatch, hout, hleft, hright, CommandList.tail, CommandList.node, CommandList.nodes]
    · simp [CommandList.started, hleft, hright, Call.commands]
    · rintro rfl -
      simp [calm, Call.Quiet]
  by_cases hmiddle : Redirects c3.inputType
  · refine .of_calm id (run_two w (.singlePipeRedir head.argList c2.argList (c3.argList.headD [])
      c3.inputType) (.singlePipe none c4.argList) s) ?_ ?_ (fun _ => trivial) ?_
    · simp [dispatch, hout, hout2, hleft, hmiddle, hright, CommandList.tail, CommandList.node,
        CommandList.nodes]
    · simp [CommandList.started, hleft, hmiddle, hright, Call.commands]
    · rintro rfl -
      simp [calm, Call.Quiet, hmiddle]
  · refine .of_calm id (.of_events (s := s) rfl) ?_ ?_ (fun _ => trivial) fun _ _ => trivial
    · simp [dispatch, hout, hout2, hleft, hmiddle, hright, CommandList.tail, CommandList.node,
        CommandList.nodes]
    · simp [CommandList.started, hleft, hmiddle, hright]

theorem chosen_long {rest : List Command} {c5 : Command} :
    Chosen w ⟨rest.length + 5, head, c2 :: c3 :: c4 :: c5 :: rest⟩ s
      (dispatch w ⟨rest.length + 5, head, c2 :: c3 :: c4 :: c5 :: rest⟩ s) := by
  refine .of_run (.error s []) ?_ rfl False.elim fun _ _ _ h => h
  simp [dispatch]

end

/-- The case tree as a table: for each list what is started, or that an error is printed. -/
theorem dispatch_chosen (p : Parsed) (w : World) (s : State) :
    Chosen w p.toCommandList s (dispatch w p.toCommandList s) := by
  rcases p with ⟨⟨size, head, next⟩, hsize, hchain, hended, hworded⟩
  dsimp only at hsize hchain hended hworded ⊢
  subst hsize
  simp only [CommandList.nodes] at hchain hworded
  match next with
  | [] => exact chosen_one w s hended
  | [c2] =>
    rw [List.isChain_pair] at hchain
    exact chosen_two w s hchain.1 (hworded c2 (by simp))
  | [c2, c3] =>
    rw [List.isChain_cons_cons] at hchain
    exact chosen_three w s hchain.1.1
  | [c2, c3, c4] =>
    rw [List.isChain_cons_cons, List.isChain_cons_cons] at hchain
    exact chosen_four w s hchain.1.1 hchain.2.1.1
  | c2 :: c3 :: c4 :: c5 :: rest => exact chosen_long w s

-- ---------------------------------------------------------------------------
-- Built-in commands
-- ---------------------------------------------------------------------------

theorem streq_iff (a b : List Char) (n : Nat) : streq a b n = true ↔ a.take n = b.take n := by
  induction n generalizing a b with
  | zero => simp [streq]
  | succ n ih => cases a <;> cases b <;> simp [streq, ih]

/-- The comparison with a whole word finds what starts with it. -/
theorem streq_length (a b : List Char) : streq a b b.length = true ↔ b <+: a := by
  rw [streq_iff, List.take_length, List.prefix_iff_eq_take, eq_comm]

/-- The list is one of the two built-in commands. -/
def CommandList.IsBuiltin (list : CommandList) : Prop :=
  list.next = [] ∧
    (list.head.argList = ["exit".toList] ∨ list.head.argList.head? = some "cd".toList)

/-- No word that only starts like a built-in command stands in its place. -/
def CommandList.Named (list : CommandList) : Prop :=
  list.next = [] → ∀ word words, list.head.argList = word :: words →
    (words = [] → "exit".toList <+: word → word = "exit".toList) ∧
      ("cd".toList <+: word → word = "cd".toList)

/-- `execCommands` takes the list for a built-in command. -/
def CommandList.RunsBuiltin (list : CommandList) : Prop :=
  list.next = [] ∧ ∃ word words, list.head.argList = word :: words ∧
    (words = [] ∧ "exit".toList <+: word ∨ "cd".toList <+: word)

theorem exit_not_cd : ¬ "exit".toList <+: "cd".toList := by decide

theorem Parsed.exists_cons (p : Parsed) : ∃ word words, p.head.argList = word :: words :=
  List.exists_cons_of_ne_nil (p.worded p.head List.mem_cons_self)

/-- The names are recognised as they should be just where no other word starts with them. -/
theorem named_iff (p : Parsed) : p.Named ↔ (p.RunsBuiltin ↔ p.IsBuiltin) := by
  obtain ⟨word, words, hargs⟩ := p.exists_cons
  unfold CommandList.Named CommandList.RunsBuiltin CommandList.IsBuiltin
  simp only [hargs, List.cons.injEq, List.head?_cons, Option.some.injEq]
  by_cases hnext : p.next = []
  · simp only [hnext, true_and, forall_true_left]
    constructor
    · intro hnamed
      obtain ⟨hexit, hcd⟩ := hnamed word words ⟨rfl, rfl⟩
      constructor
      · rintro ⟨_, _, ⟨rfl, rfl⟩, ⟨hnil, hstarts⟩ | hstarts⟩
        · exact .inl ⟨hexit hnil hstarts, hnil⟩
        · exact .inr (hcd hstarts)
      · rintro (⟨rfl, rfl⟩ | rfl)
        · exact ⟨_, _, ⟨rfl, rfl⟩, .inl ⟨rfl, List.prefix_rfl⟩⟩
        · exact ⟨_, _, ⟨rfl, rfl⟩, .inr List.prefix_rfl⟩
    · rintro hiff _ _ ⟨rfl, rfl⟩
      refine ⟨fun hnil hstarts => ?_, fun hstarts => ?_⟩
      · rcases hiff.mp ⟨_, _, ⟨rfl, rfl⟩, .inl ⟨hnil, hstarts⟩⟩ with ⟨h, -⟩ | rfl
        · exact h
        · exact absurd hstarts exit_not_cd
      · rcases hiff.mp ⟨_, _, ⟨rfl, rfl⟩, .inr hstarts⟩ with ⟨rfl, -⟩ | h
        · exact absurd hstarts (by decide)
        · exact h
  · simp [hnext]

/-- What `execCommands` does for a list. -/
def did (w : World) (list : CommandList) (s : State) : List Event :=
  (execCommands w list { s with events := [] }).events

theorem Parsed.not_alerted (p : Parsed) : Shell.execCommands p.nodes ≠ .alerted := by
  have hnone : p.nodes.any (fun c => c.argList.isEmpty) = false := by
    rw [List.any_eq_false]
    intro c hc
    simpa using p.worded c hc
  rw [Shell.execCommands, hnone]
  simp

theorem Parsed.size_eq_one (p : Parsed) : p.size = 1 ↔ p.next = [] := by
  rw [p.size_eq, Nat.add_eq_right, List.length_eq_zero_iff]

theorem did_builtin (p : Parsed) (h : p.RunsBuiltin) (w : World) (s : State) :
    ∃ e ∈ did w p.toCommandList s, e.IsBuiltin := by
  obtain ⟨hnext, word, words, hargs, hname⟩ := h
  unfold did execCommands
  rw [if_neg p.not_alerted]
  simp only [hargs, p.size_eq_one.mpr hnext, List.headD_cons]
  split
  · exact ⟨.exit, List.mem_append_right _ (List.mem_singleton_self _), trivial⟩
  · next hexit =>
    split
    · have hlog (e : Event) (s : State) : e ∈ (s.log e).events :=
        List.mem_append_right _ (List.mem_singleton_self e)
      split
      · exact ⟨_, hlog _ _, trivial⟩
      · exact ⟨_, List.mem_append_left _ (hlog _ _), trivial⟩
    · next hcd =>
      rcases hname with ⟨rfl, hstarts⟩ | hstarts
      · exact absurd ⟨(streq_length word "exit".toList).mpr hstarts, trivial, rfl⟩ hexit
      · exact absurd ⟨(streq_length word "cd".toList).mpr hstarts, trivial⟩ hcd

theorem did_dispatch (p : Parsed) (h : ¬ p.RunsBuiltin) (w : World) (s : State) :
    did w p.toCommandList s = (dispatch w p.toCommandList { s with events := [] }).events := by
  obtain ⟨word, words, hargs⟩ := p.exists_cons
  unfold did execCommands
  rw [if_neg p.not_alerted]
  simp only [hargs, List.headD_cons]
  rw [if_neg, if_neg]
  · rintro ⟨hcd, hsize⟩
    exact h ⟨p.size_eq_one.mp hsize, word, words, hargs,
      .inr ((streq_length word "cd".toList).mp hcd)⟩
  · rintro ⟨hexit, hsize, hlen⟩
    rw [List.length_cons, Nat.add_eq_right, List.length_eq_zero_iff] at hlen
    exact h ⟨p.size_eq_one.mp hsize, word, words, hargs,
      .inl ⟨hlen, (streq_length word "exit".toList).mp hexit⟩⟩

/-- The commands that a list asks for: those that are no target of a redirection, in order, and a
tee for each of its operators. -/
def CommandList.asked (list : CommandList) : List (List Word) :=
  list.head.argList :: list.next.flatMap fun c =>
    if Redirects c.inputType then []
    else if c.inputType = .tee then [mytee, c.argList]
    else [c.argList]

/-- An error is printed, or a built-in command is run, the one that the list is, or each command
is started. -/
structure Keeps (w : World) (list : CommandList) (s : State) : Prop where
  builtin : (∃ e ∈ did w list s, e.IsBuiltin) ↔ list.IsBuiltin
  commands : .error ∈ did w list s ∨ (∃ e ∈ did w list s, e.IsBuiltin) ∨
    (did w list s).filterMap Event.argv = list.asked

/-- Only a single pipe depends on its first `execvp`. -/
theorem started_false {list : CommandList} (h : ¬ list.SinglePipe) :
    list.started false = list.started true := by
  obtain ⟨size, head, next⟩ := list
  match next with
  | [] => rfl
  | [c2] =>
    have hpipe : ¬ c2.inputType = .pipe := h
    simp [CommandList.started, hpipe]
  | [_, _] => rfl
  | [_, _, _] => rfl
  | _ :: _ :: _ :: _ :: _ => rfl

/-- What is dispatched is reported, or it is started. -/
theorem did_started (p : Parsed) (h : ¬ p.RunsBuiltin) (w : World) (s : State) :
    ∃ q, (∀ e ∈ did w p.toCommandList s, ¬ e.IsBuiltin) ∧ (¬ q → .error ∈ did w p.toCommandList s) ∧
      (q → .error ∉ did w p.toCommandList s ∧ p.Silent ∧
        (did w p.toCommandList s).filterMap Event.argv = p.started ((w.call 0).execvp 0)) ∧
      ∀ e, w = calm e → (e = true ∨ p.SinglePipe) → p.Silent → q := by
  obtain ⟨q, ⟨new, hnew, hplain, hquiet, herror⟩, hsilent, hcalm⟩ :=
    dispatch_chosen p w { s with events := [] }
  rw [did_dispatch p h, hnew, List.nil_append]
  exact ⟨q, hplain, herror, fun hq => ⟨(hquiet hq).1, hsilent hq, (hquiet hq).2⟩, hcalm⟩

/-- A single pipe is kept in every run in which its first `execvp` succeeds. -/
theorem single_pipe_kept (p : Parsed) (h : p.SinglePipe) (hexec : (w.call 0).execvp 0 = true) :
    .error ∈ did w p.toCommandList s ∨ (did w p.toCommandList s).filterMap Event.argv = p.asked := by
  obtain ⟨c2, hnext⟩ : ∃ c2, p.next = [c2] := by
    unfold CommandList.SinglePipe at h
    split at h
    · next c2 hnext => exact ⟨c2, hnext⟩
    · exact h.elim
  have hpipe : c2.inputType = .pipe := by
    simpa [CommandList.SinglePipe, hnext] using h
  have hruns : ¬ p.RunsBuiltin := by
    rintro ⟨hnil, -⟩
    rw [hnext] at hnil
    cases hnil
  obtain ⟨q, -, herror, hquiet, -⟩ := did_started p hruns w s
  by_cases hq : q
  · refine .inr ((hquiet hq).2.2.trans ?_)
    simp [hexec, CommandList.started, CommandList.asked, hnext, hpipe, not_redirects_pipe]
  · exact .inl (herror hq)

/-- Without a built-in command, a list keeps its commands in every run exactly if what is started
for it is what it asks for, unless it is always reported. -/
theorem keeps_dispatched_iff (p : Parsed) (h : ¬ p.RunsBuiltin) :
    (∀ w s, .error ∈ did w p.toCommandList s ∨ (∃ e ∈ did w p.toCommandList s, e.IsBuiltin) ∨
      (did w p.toCommandList s).filterMap Event.argv = p.asked) ↔
      (p.Silent → p.started true = p.asked ∧ (p.SinglePipe → p.started false = p.asked)) := by
  constructor
  · intro hkeeps hsilent
    have hstarted (e : Bool) (he : e = true ∨ p.SinglePipe) : p.started e = p.asked := by
      obtain ⟨q, hplain, -, hquiet, hcalm⟩ := did_started p h (calm e) .start
      obtain ⟨hno, -, hdid⟩ := hquiet (hcalm e rfl he hsilent)
      have hexec : ((calm e).call 0).execvp 0 = e := by simp [calm]
      rw [← hexec, ← hdid]
      rcases hkeeps (calm e) .start with herror | ⟨b, hb, hbuiltin⟩ | hasked
      · exact absurd herror hno
      · exact absurd hbuiltin (hplain b hb)
      · exact hasked
    exact ⟨hstarted true (.inl rfl), fun hpipe => hstarted false (.inr hpipe)⟩
  · intro hstarted w s
    obtain ⟨q, -, herror, hquiet, -⟩ := did_started p h w s
    by_cases hq : q
    · obtain ⟨-, hsilent, hdid⟩ := hquiet hq
      obtain ⟨htrue, hfalse⟩ := hstarted hsilent
      refine .inr (.inr (hdid.trans ?_))
      cases (w.call 0).execvp 0 with
      | true => exact htrue
      | false =>
        by_cases hpipe : p.SinglePipe
        · exact hfalse hpipe
        · rw [started_false hpipe, htrue]
    · exact .inl (herror hq)

/-- The lists that are executed as they are written, or reported: by the operators between their
commands. Three of them are so only because a command is itself the tee that is left out. -/
def CommandList.Covered (list : CommandList) : Prop :=
  match list.next with
  | [c2] => c2.inputType = .pipe → c2.argList = list.head.argList
  | [c2, c3] => if Redirects c2.inputType then c3.inputType = .pipe
    else c2.inputType = .tee → c3.inputType ≠ .pipe
  | [c2, c3, c4] =>
    if Redirects c4.inputType then
      c2.inputType = .pipe ∧ c3.inputType = .pipe ∨
        Redirects c2.inputType ∧ c3.inputType = .tee ∧ c2.argList = mytee ∨
        c2.inputType = .tee ∧ Redirects c3.inputType ∧ c2.argList = mytee ∧ c3.argList = c2.argList
    else if Redirects c2.inputType then
      c3.inputType = .pipe ∧ c4.inputType = .pipe ∨
        Redirects c3.inputType ∧ c4.inputType = .tee ∧ c3.argList = mytee
    else c2.inputType = .pipe ∧ Redirects c3.inputType ∧ c4.inputType = .pipe
  | _ => True

theorem operator_cases {t : CommandType} (h : t ≠ .regular) :
    t = .pipe ∨ t = .tee ∨ Redirects t ∧ t ≠ .pipe ∧ t ≠ .tee := by
  revert h
  cases t <;> decide

section

variable {size : Nat} {head c2 c3 c4 : Command}

theorem covered_two (h2 : c2.inputType ≠ .regular) :
    CommandList.Covered ⟨size, head, [c2]⟩ ↔
      CommandList.started ⟨size, head, [c2]⟩ true = CommandList.asked ⟨size, head, [c2]⟩ ∧
        (CommandList.SinglePipe ⟨size, head, [c2]⟩ →
          CommandList.started ⟨size, head, [c2]⟩ false = CommandList.asked ⟨size, head, [c2]⟩) := by
  simp only [CommandList.Covered, CommandList.started, CommandList.asked, CommandList.SinglePipe]
  rcases operator_cases h2 with h | h | ⟨h, h', h''⟩
  · simp [h, not_redirects_pipe]
  · simp [h, not_redirects_tee]
  · simp [h, h']

theorem covered_three (h2 : c2.inputType ≠ .regular) (h3 : c3.inputType ≠ .regular) :
    CommandList.Covered ⟨size, head, [c2, c3]⟩ ↔ (CommandList.Silent ⟨size, head, [c2, c3]⟩ →
      CommandList.started ⟨size, head, [c2, c3]⟩ true =
        CommandList.asked ⟨size, head, [c2, c3]⟩) := by
  simp only [CommandList.Covered, CommandList.started, CommandList.asked, CommandList.Silent]
  rcases operator_cases h2 with h2 | h2 | ⟨h2, h2', h2''⟩ <;>
    rcases operator_cases h3 with h3 | h3 | ⟨h3, h3', h3''⟩ <;>
      simp [not_redirects_pipe, not_redirects_tee, *]

theorem covered_four (h2 : c2.inputType ≠ .regular) (h3 : c3.inputType ≠ .regular)
    (h4 : c4.inputType ≠ .regular) :
    CommandList.Covered ⟨size, head, [c2, c3, c4]⟩ ↔
      CommandList.started ⟨size, head, [c2, c3, c4]⟩ true =
        CommandList.asked ⟨size, head, [c2, c3, c4]⟩ := by
  simp only [CommandList.Covered, CommandList.started, CommandList.asked]
  rcases operator_cases h2 with h2 | h2 | ⟨h2, h2', h2''⟩ <;>
    rcases operator_cases h3 with h3 | h3 | ⟨h3, h3', h3''⟩ <;>
      rcases operator_cases h4 with h4 | h4 | ⟨h4, h4', h4''⟩ <;>
        simp [not_redirects_pipe, not_redirects_tee, *]

end

theorem covered_iff (p : Parsed) : p.Covered ↔
    (p.Silent → p.started true = p.asked ∧ (p.SinglePipe → p.started false = p.asked)) := by
  rcases p with ⟨⟨size, head, next⟩, -, hchain, -, -⟩
  dsimp only
  simp only [CommandList.nodes] at hchain
  match next with
  | [] => simp [CommandList.Covered, CommandList.started, CommandList.asked, CommandList.SinglePipe]
  | [c2] =>
    rw [List.isChain_pair] at hchain
    rw [covered_two hchain.2]
    exact ⟨fun h _ => h, fun h => h trivial⟩
  | [c2, c3] =>
    rw [List.isChain_cons_cons, List.isChain_pair] at hchain
    rw [covered_three hchain.1.2 hchain.2.2]
    exact forall_congr' fun _ => (and_iff_left False.elim).symm
  | [c2, c3, c4] =>
    rw [List.isChain_cons_cons, List.isChain_cons_cons, List.isChain_pair] at hchain
    rw [covered_four hchain.1.2 hchain.2.1.2 hchain.2.2.2]
    exact ⟨fun h _ => ⟨h, False.elim⟩, fun h => (h trivial).1⟩
  | c2 :: c3 :: c4 :: c5 :: rest => exact iff_of_true trivial False.elim

/-- In every run `execCommands` reports a list, runs the built-in command that it is, or starts each
of its commands, exactly if no other word is taken for a built-in command and the operators are
ones that the case tree knows. -/
theorem keeps_commands_iff (p : Parsed) :
    (∀ w s, Keeps w p.toCommandList s) ↔ p.Named ∧ p.Covered := by
  rw [named_iff]
  by_cases hruns : p.RunsBuiltin
  · have hcovered : p.Covered := by
      rw [CommandList.Covered, hruns.1]
      trivial
    have hdid := did_builtin p hruns
    constructor
    · intro h
      exact ⟨iff_of_true hruns ((h (calm true) .start).builtin.mp (hdid _ _)), hcovered⟩
    · rintro ⟨hnamed, -⟩ w s
      exact ⟨iff_of_true (hdid w s) (hnamed.mp hruns), .inr (.inl (hdid w s))⟩
  · have hdid (w : World) (s : State) : ¬ ∃ e ∈ did w p.toCommandList s, e.IsBuiltin := by
      obtain ⟨-, hplain, -⟩ := did_started p hruns w s
      rintro ⟨e, he, hbuiltin⟩
      exact hplain e he hbuiltin
    rw [covered_iff, ← keeps_dispatched_iff p hruns]
    constructor
    · intro h
      refine ⟨iff_of_false hruns fun hbuiltin => ?_, fun w s => (h w s).commands⟩
      exact hdid _ _ ((h (calm true) .start).builtin.mpr hbuiltin)
    · rintro ⟨hnamed, hcommands⟩ w s
      exact ⟨iff_of_false (hdid w s) fun hbuiltin => hruns (hnamed.mpr hbuiltin), hcommands w s⟩

/-- `a|b|c|d`. -/
def fourPipes : Parsed where
  size := 4
  head := ⟨[['a']], .regular, .pipe⟩
  next := [⟨[['b']], .pipe, .pipe⟩, ⟨[['c']], .pipe, .pipe⟩, ⟨[['d']], .pipe, .regular⟩]
  size_eq := rfl
  chained := by
    refine .cons_cons ?_ (.cons_cons ?_ (.cons_cons ?_ (.singleton _))) <;> exact ⟨rfl, by decide⟩
  ended := rfl
  worded := by decide

/-- Of four commands in a pipeline none is started, and nothing is said. -/
theorem four_pipes_dropped : did (calm true) fourPipes.toCommandList .start = [] ∧
    ¬ Keeps (calm true) fourPipes.toCommandList .start := by
  have hdid : did (calm true) fourPipes.toCommandList .start = [] := by decide
  refine ⟨hdid, fun h => ?_⟩
  have hcommands := h.commands
  rw [hdid] at hcommands
  simp [CommandList.asked] at hcommands

end PerrOS.Shell.Mysh
