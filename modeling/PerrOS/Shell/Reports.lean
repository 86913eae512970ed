import PerrOS.Shell.Executors

/-!
# What the executors report

A call of an executor starts its commands, or it prints an error: which of them
is decided by the outcomes of its system calls. Only the left-hand side of a
single pipe can fail without an error.
-/

namespace PerrOS.Shell.Mysh

/-- The command that a child executes. -/
def Event.argv : Event → Option (List Word)
  | child _ argv => some argv
  | _ => none

/-- The shell itself does what the line says. -/
def Event.IsBuiltin : Event → Prop
  | exit => True
  | chdir _ => True
  | _ => False

/-- Between the two states children are started for the commands, in order, if `quiet` holds, and
otherwise an error is printed. -/
def Yields (s s' : State) (commands : List (List Word)) (quiet : Prop) : Prop :=
  ∃ new, s'.events = s.events ++ new ∧ (∀ e ∈ new, ¬ e.IsBuiltin) ∧
    (quiet → .error ∉ new ∧ new.filterMap Event.argv = commands) ∧ (¬ quiet → .error ∈ new)

variable {o : Outcomes} {s s' s'' : State} {as bs : List (List Word)} {p q : Prop} {n : Nat}

namespace Yields

theorem of_events (h : s'.events = s.events) : Yields s s' [] True :=
  ⟨[], by rw [h, List.append_nil], fun _ he => absurd he List.not_mem_nil,
    fun _ => ⟨List.not_mem_nil, rfl⟩, fun h => absurd trivial h⟩

theorem trans (h : Yields s s' as p) (h' : Yields s' s'' bs q) :
    Yields s s'' (as ++ bs) (p ∧ q) := by
  obtain ⟨new, hnew, hplain, hquiet, herror⟩ := h
  obtain ⟨new', hnew', hplain', hquiet', herror'⟩ := h'
  refine ⟨new ++ new', by rw [hnew', hnew, List.append_assoc], ?_, ?_, ?_⟩
  · exact List.forall_mem_append.mpr ⟨hplain, hplain'⟩
  · rintro ⟨hp, hq⟩
    obtain ⟨hno, hcommands⟩ := hquiet hp
    obtain ⟨hno', hcommands'⟩ := hquiet' hq
    exact ⟨by simp [hno, hno'], by rw [List.filterMap_append, hcommands, hcommands']⟩
  · intro hnot
    rw [List.mem_append]
    rcases not_and_or.mp hnot with hp | hq
    · exact .inl (herror hp)
    · exact .inr (herror' hq)

theorem congr (h : Yields s s' as p) (heq : as = bs) (hiff : p ↔ q) : Yields s s' bs q := by
  subst heq
  rwa [← propext hiff]

theorem error (s : State) (as : List (List Word)) : Yields s s.alertError as False :=
  ⟨[.error], rfl, by simp [Event.IsBuiltin], False.elim, fun _ => List.mem_singleton_self _⟩

theorem execvp_true (h : o.execvp n = true) (s : State) (argv : List Word)
    (orElse : State → State) : Yields s (s.execvp o n argv orElse) [argv] True := by
  rw [State.execvp, if_pos h]
  exact ⟨[.child s.table argv], rfl, by simp [Event.IsBuiltin], by simp [Event.argv],
    fun h => absurd trivial h⟩

theorem execvp_false (h : o.execvp n = false) (argv : List Word) {orElse : State → State}
    (hor : Yields s (orElse s) as p) : Yields s (s.execvp o n argv orElse) as p := by
  rw [State.execvp, if_neg (ne_true_of_eq_false h)]
  exact hor

theorem exec (o : Outcomes) (n : Nat) (s : State) (argv : List Word) :
    Yields s (s.exec o n argv) [argv] (o.execvp n) := by
  unfold State.exec
  cases h : o.execvp n with
  | true => exact (execvp_true h ..).congr rfl (by simp)
  | false => exact (execvp_false h argv (error s [argv])).congr rfl (by simp)

/-- What a child does from the state in which it is forked counts as done. -/
theorem child (run : State → State) (h : Yields s (run s) as p) : Yields s (s.child run) as p := h

theorem fork {next : State} (n : Nat) (h : Yields s next as p) :
    Yields s (if !o.fork n then s.alertError else next) as (o.fork n ∧ p) := by
  cases hfork : o.fork n with
  | true => exact h.congr rfl (by simp)
  | false => exact (error s as).congr rfl (by simp)

theorem pipe {next : Nat × Nat → State → State} (n : Nat)
    (h : ∀ p s', s'.events = s.events → Yields s' (next p s') as q) :
    Yields s (match s.pipe o n with
      | none => s.alertError
      | some (p, s) => next p s) as (o.pipe n ∧ q) := by
  unfold State.pipe
  cases hpipe : o.pipe n with
  | true =>
    refine ((of_events rfl).trans (h s.table.pipe.1 { s with table := s.table.pipe.2 } rfl)).congr
      rfl ?_
    simp
  | false => exact (error s as).congr rfl (by simp)

/-- A child that rearranges its descriptors and executes a command. -/
theorem spawn (o : Outcomes) (s : State) {f : State → State} (hf : ∀ c, (f c).events = c.events)
    (n : Nat) (argv : List Word) :
    Yields s (s.child fun c => (f c).exec o n argv) [argv] (o.execvp n) :=
  (child (fun c => (f c).exec o n argv)
    ((of_events (hf s)).trans (exec o n (f s) argv))).congr rfl (by simp)

theorem opened (h : s'.events = s.events) (file : Nat) (name : Word) (mode : CommandType)
    (t : Lib.Descriptors) :
    Yields s { s' with table := t, events := s'.events ++ [.opened file name mode] } [] True :=
  ⟨[.opened file name mode], by rw [h], by simp [Event.IsBuiltin], by simp [Event.argv],
    fun h => absurd trivial h⟩

end Yields

@[simp] theorem State.dup_events (s : State) (fd : Nat) : (s.dup fd).events = s.events := by
  unfold State.dup
  split <;> rfl

@[simp] theorem State.close_events (s : State) (fd : Nat) : (s.close fd).events = s.events := rfl

@[simp] theorem State.closePipe_events (s : State) (p : Nat × Nat) :
    (s.closePipe p).events = s.events := rfl

@[simp] theorem State.revertStdout_events (s : State) : s.revertStdout.events = s.events := by
  unfold State.revertStdout
  split <;> rfl

theorem State.saveStdout_events (o : Outcomes) (s : State) : (s.saveStdout o).events = s.events := by
  unfold State.saveStdout
  split <;> rfl

theorem switchStdout_yields (o : Outcomes) (newStream : Word) (mode : CommandType) (s : State) :
    Yields s (s.switchStdout o newStream mode) [] (Redirects mode ∧ o.fflush ∧ o.opens) := by
  unfold State.switchStdout
  by_cases hmode : Redirects mode
  · rw [if_pos hmode]
    cases hflush : o.fflush with
    | false => exact (Yields.error s []).congr rfl (by simp)
    | true =>
      have hsaved := s.saveStdout_events o
      cases o.opens with
      | false =>
        refine Yields.congr (Yields.trans (.of_events hsaved) (.error (s.saveStdout o) [])) rfl ?_
        simp
      | true =>
        refine Yields.congr (Yields.opened hsaved (s.saveStdout o).table.next newStream mode _) rfl ?_
        simp [hmode]
  · rw [if_neg hmode]
    exact (Yields.error s []).congr rfl (by simp [hmode])

/-- All the calls succeed of which a failure is reported. Where the left-hand side of a single pipe
is not executed, the child goes on to the right-hand side. -/
def Call.Quiet (o : Outcomes) : Call → Prop
  | singleCommand list _ =>
    (Redirects list.head.outputType →
      ¬ (list.size = 2 ∧ list.target = []) ∧ o.fflush ∧ o.opens) ∧ o.fork 0 ∧ o.execvp 0
  | singlePipe argv _ =>
    o.pipe 0 ∧ (argv.isSome → o.fork 0 ∧ (o.execvp 0 = false → o.fork 2 ∧ o.execvp 2)) ∧
      o.fork 1 ∧ o.execvp 1
  | doublePipe argv _ _ =>
    o.pipe 0 ∧ o.pipe 1 ∧ (argv.isSome → o.fork 0 ∧ o.execvp 0) ∧
      (o.fork 1 ∧ o.execvp 1) ∧ o.fork 2 ∧ o.execvp 2
  | singlePipeRedir _ _ _ mode =>
    o.pipe 0 ∧ (o.fork 0 ∧ o.execvp 0) ∧
      o.fork 1 ∧ (Redirects mode ∧ o.fflush ∧ o.opens) ∧ o.execvp 1
  | doublePipeRedir _ _ _ _ mode =>
    o.pipe 0 ∧ o.pipe 1 ∧ (o.fork 0 ∧ o.execvp 0) ∧ (o.fork 1 ∧ o.execvp 1) ∧
      o.fork 2 ∧ (Redirects mode ∧ o.fflush ∧ o.opens) ∧ o.execvp 2

/-- The commands that a call starts. -/
def Call.commands (o : Outcomes) : Call → List (List Word)
  | singleCommand _ argv => [argv]
  | singlePipe none argv2 => [argv2]
  | singlePipe (some argv) argv2 => [if o.execvp 0 then argv else argv2, argv2]
  | doublePipe none argv2 argv3 => [argv2, argv3]
  | doublePipe (some argv) argv2 argv3 => [argv, argv2, argv3]
  | singlePipeRedir argv argv2 _ _ => [argv, argv2]
  | doublePipeRedir argv argv2 argv3 _ _ => [argv, argv2, argv3]

/-- A child that redirects its output besides. -/
theorem Yields.spawn_switched (o : Outcomes) (s : State) {f : State → State}
    (hf : ∀ c, (f c).events = c.events) {g : State → State} (hg : ∀ c, (g c).events = c.events)
    (n : Nat) (argv : List Word) (file : Word) (mode : CommandType) :
    Yields s (s.child fun c => (g ((f c).switchStdout o file mode)).exec o n argv) [argv]
      ((Redirects mode ∧ o.fflush ∧ o.opens) ∧ o.execvp n) := by
  have hswitch := switchStdout_yields o file mode (f s)
  have hexec := Yields.exec o n (g ((f s).switchStdout o file mode)) argv
  refine Yields.congr (Yields.trans (.of_events (hf s))
    (Yields.trans hswitch (Yields.trans (.of_events (hg _)) hexec))) rfl ?_
  simp

theorem pipeRight_yields (o : Outcomes) (n : Nat) (p : Nat × Nat) (argv2 : List Word) (s : State) :
    Yields s (pipeRight o n p argv2 s) [argv2] (o.fork n ∧ o.execvp n) := by
  have hchild := Yields.spawn o s (f := fun c => ((c.close 0).dup p.1).closePipe p) (by simp) n argv2
  unfold pipeRight
  exact Yields.congr (.fork n (hchild.trans (.of_events rfl))) rfl (by simp)

theorem execSinglePipe_yields (o : Outcomes) (argv : Option (List Word)) (argv2 : List Word)
    (s : State) : Yields s (execSinglePipe o argv argv2 s) ((Call.singlePipe argv argv2).commands o)
      ((Call.singlePipe argv argv2).Quiet o) := by
  unfold execSinglePipe
  cases argv with
  | none =>
    refine Yields.congr (.pipe 0 fun p s _ => pipeRight_yields o 1 p argv2 s) rfl ?_
    simp [Call.Quiet]
  | some argv =>
    have hleft (p : Nat × Nat) (s : State) :
        Yields s (s.child fun c =>
            (((c.close 1).dup p.2).closePipe p).execvp o 0 argv (pipeRight o 2 p argv2))
          [if o.execvp 0 then argv else argv2]
          (o.execvp 0 = false → o.fork 2 ∧ o.execvp 2) := by
      have hevents : (((s.close 1).dup p.2).closePipe p).events = s.events := by simp
      cases hexec : o.execvp 0 with
      | true =>
        exact Yields.congr (Yields.trans (.of_events hevents) (.execvp_true hexec ..)) rfl (by simp)
      | false =>
        exact Yields.congr (Yields.trans (.of_events hevents)
          (.execvp_false hexec argv (pipeRight_yields o 2 p argv2 _))) rfl (by simp)
    refine Yields.congr (.pipe 0 fun p s _ => .fork 0 ((hleft p s).trans
      (pipeRight_yields o 1 p argv2 _))) rfl ?_
    simp [Call.Quiet, and_assoc]

theorem execSinglePipeRedir_yields (o : Outcomes) (argv argv2 : List Word) (file : Word)
    (mode : CommandType) (s : State) :
    Yields s (execSinglePipeRedir o argv argv2 file mode s) [argv, argv2]
      ((Call.singlePipeRedir argv argv2 file mode).Quiet o) := by
  have hleft (p : Nat × Nat) (s : State) := Yields.spawn o s
    (f := fun c => ((c.close 1).dup p.2).closePipe p) (by simp) 0 argv
  have hright (p : Nat × Nat) (s : State) := Yields.spawn_switched o s
    (f := fun c => ((c.close 0).dup p.1).closePipe p) (by simp) (g := id) (fun _ => rfl)
    1 argv2 file mode
  unfold execSinglePipeRedir
  refine Yields.congr (.pipe 0 fun p s _ => .fork 0 ((hleft p s).trans (.fork 1 ((hright p _).trans
    (.of_events rfl))))) rfl ?_
  simp [Call.Quiet, and_assoc]

theorem doublePipeRight_yields (o : Outcomes) (p p2 : Nat × Nat) (argv2 argv3 : List Word)
    (s : State) : Yields s (doublePipeRight o p p2 argv2 argv3 s) [argv2, argv3]
      ((o.fork 1 ∧ o.execvp 1) ∧ o.fork 2 ∧ o.execvp 2) := by
  have hmiddle (s : State) := Yields.spawn o s
    (f := fun c => (((((c.close 0).dup p.1).close 1).dup p2.2).closePipe p).closePipe p2)
    (by simp) 1 argv2
  have hright (s : State) := Yields.spawn o s
    (f := fun c => (((c.close 0).dup p2.1).closePipe p).closePipe p2) (by simp) 2 argv3
  unfold doublePipeRight
  refine Yields.congr (.fork 1 ((hmiddle s).trans (.fork 2 ((hright _).trans (.of_events rfl))))) rfl ?_
  simp [and_assoc]

theorem execDoublePipe_yields (o : Outcomes) (argv : Option (List Word)) (argv2 argv3 : List Word)
    (s : State) : Yields s (execDoublePipe o argv argv2 argv3 s)
      ((Call.doublePipe argv argv2 argv3).commands o)
      ((Call.doublePipe argv argv2 argv3).Quiet o) := by
  unfold execDoublePipe
  cases argv with
  | none =>
    refine Yields.congr (.pipe 0 fun p s _ => .pipe 1 fun p2 s _ =>
      doublePipeRight_yields o p p2 argv2 argv3 s) rfl ?_
    simp [Call.Quiet]
  | some argv =>
    have hleft (p p2 : Nat × Nat) (s : State) := Yields.spawn o s
      (f := fun c => (((c.close 1).dup p.2).closePipe p).closePipe p2) (by simp) 0 argv
    refine Yields.congr (.pipe 0 fun p s _ => .pipe 1 fun p2 s _ => .fork 0 ((hleft p p2 s).trans
      (doublePipeRight_yields o p p2 argv2 argv3 _))) rfl ?_
    simp [Call.Quiet, and_assoc]

theorem execDoublePipeRedir_yields (o : Outcomes) (argv argv2 argv3 : List Word) (file : Word)
    (mode : CommandType) (s : State) :
    Yields s (execDoublePipeRedir o argv argv2 argv3 file mode s) [argv, argv2, argv3]
      ((Call.doublePipeRedir argv argv2 argv3 file mode).Quiet o) := by
  have hleft (p p2 : Nat × Nat) (s : State) := Yields.spawn o s
    (f := fun c => (((c.close 1).dup p.2).closePipe p).closePipe p2) (by simp) 0 argv
  have hmiddle (p p2 : Nat × Nat) (s : State) := Yields.spawn o s
    (f := fun c => (((((c.close 0).dup p.1).close 1).dup p2.2).closePipe p).closePipe p2)
    (by simp) 1 argv2
  have hright (p p2 : Nat × Nat) (s : State) := Yields.spawn_switched o s
    (f := fun c => (c.close 0).dup p2.1) (by simp)
    (g := fun c => (c.closePipe p).closePipe p2) (by simp) 2 argv3 file mode
  unfold execDoublePipeRedir
  refine Yields.congr (.pipe 0 fun p s _ => .pipe 1 fun p2 s _ => .fork 0 ((hleft p p2 s).trans
    (.fork 1 ((hmiddle p p2 _).trans (.fork 2 ((hright p p2 _).trans (.of_events rfl))))))) rfl ?_
  simp [Call.Quiet, and_assoc]

theorem execSingleCommand_yields (o : Outcomes) (list : CommandList) (argv : List Word)
    (s : State) : Yields s (execSingleCommand o list argv s) [argv]
      ((Call.singleCommand list argv).Quiet o) := by
  have hchild (s : State) := Yields.spawn o s (f := id) (fun _ => rfl) 0 argv
  unfold execSingleCommand checkOutputType
  by_cases hmode : Redirects list.head.outputType
  · rw [if_pos hmode]
    by_cases htarget : list.size = 2 ∧ list.target = []
    · rw [if_pos htarget]
      exact Yields.congr (Yields.error s [argv]) rfl (by simp [Call.Quiet, hmode, htarget])
    · rw [if_neg htarget]
      refine Yields.congr (Yields.trans
        (switchStdout_yields o (list.target.headD []) list.head.outputType s)
        (Yields.fork 0 ((hchild _).trans (.of_events ?_)))) rfl ?_
      · rw [if_pos hmode]
        exact State.revertStdout_events _
      · simp [Call.Quiet, hmode, htarget, and_assoc]
  · rw [if_neg hmode]
    refine Yields.congr (.fork 0 ((hchild s).trans (.of_events ?_))) rfl ?_
    · rw [if_neg hmode]
      rfl
    · simp [Call.Quiet, hmode]

theorem Call.yields (o : Outcomes) (call : Call) (s : State) :
    Yields s (call.run o s) (call.commands o) (call.Quiet o) := by
  cases call with
  | singleCommand list argv => exact execSingleCommand_yields o list argv s
  | singlePipe argv argv2 => exact execSinglePipe_yields o argv argv2 s
  | doublePipe argv argv2 argv3 => exact execDoublePipe_yields o argv argv2 argv3 s
  | singlePipeRedir argv argv2 file mode => exact execSinglePipeRedir_yields o argv argv2 file mode s
  | doublePipeRedir argv argv2 argv3 file mode =>
    exact execDoublePipeRedir_yields o argv argv2 argv3 file mode s

end PerrOS.Shell.Mysh
