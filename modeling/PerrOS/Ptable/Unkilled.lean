import PerrOS.Ptable.Moves

/-!
# Free slots

A slot without a process is to have the pid 0 and no mark of `kill`, so that
the next process in it starts unkilled. Reaping sees to that. A creation that
fails returns the slot with its pid, and `kill` looks for the pid alone: it
takes the pid 0 for that of a free slot.
-/

namespace PerrOS.Ptable

open Xv6 (Slot slots mem_slots)

variable {s t u : State} {p k : Slot} {pid : Pid}

-- ---------------------------------------------------------------------------
-- What a step does to free slots
-- ---------------------------------------------------------------------------

/-- A slot that is free in `t` is so from before and untouched, or has been
reset. -/
def Clean (s t : State) : Prop :=
  ∀ k, (t.proc k).state = .unused →
    ((s.proc k).state = .unused ∧ (t.proc k).killed = (s.proc k).killed ∧
      (t.proc k).pid = (s.proc k).pid) ∨
    ((t.proc k).killed = false ∧ (t.proc k).pid = 0)

namespace Clean

/-- The table is as it was. -/
theorem same (h : t.proc = s.proc) : Clean s t := by
  intro k hk
  rw [h] at hk ⊢
  exact .inl ⟨hk, rfl, rfl⟩

theorem refl (s : State) : Clean s s := .same rfl

theorem trans (h : Clean s t) (h' : Clean t u) : Clean s u := by
  intro k hk
  rcases h' k hk with ⟨ht, hkilled, hpid⟩ | hreset
  · rw [hkilled, hpid]
    exact h k ht
  · exact .inr hreset

/-- The entry that is written is not free afterwards. -/
theorem set {e : Proc} (he : e.state ≠ .unused) : Clean s (s.set p e) := by
  intro k hk
  rcases eq_or_ne k p with rfl | hne
  · simp only [State.set_proc, if_pos] at hk
    exact absurd hk he
  · have hother : (s.set p e).proc k = s.proc k := by simp [hne]
    rw [hother] at hk ⊢
    exact .inl ⟨hk, rfl, rfl⟩

/-- The write leaves the entry with its state, its pid and its mark. -/
theorem keep {e : Proc} (he : e = { s.proc p with
      sz := e.sz, pgdir := e.pgdir, kstack := e.kstack, parent := e.parent, chan := e.chan,
      isThread := e.isThread }) : Clean s (s.set p e) := by
  intro k hk
  rcases eq_or_ne k p with rfl | hne
  · simp only [State.set_proc, if_pos] at hk ⊢
    rw [he] at hk ⊢
    exact .inl ⟨hk, rfl, rfl⟩
  · have hother : (s.set p e).proc k = s.proc k := by simp [hne]
    rw [hother] at hk ⊢
    exact .inl ⟨hk, rfl, rfl⟩

end Clean

theorem wakeup1_clean (s : State) (chan : Chan) : Clean s (wakeup1 s chan) := by
  intro k hk
  simp only [wakeup1, Proc.woken] at hk ⊢
  split at hk
  · cases hk
  · exact .inl ⟨hk, trivial, trivial⟩

theorem reap_clean (s : State) (call : Reaper) (k : Slot) : Clean s (reap s call k) := by
  intro j hj
  rw [reap_proc] at hj ⊢
  split
  · exact .inr ⟨rfl, rfl⟩
  · next hne =>
    rw [if_neg hne] at hj
    exact .inl ⟨hj, rfl, rfl⟩

theorem Swept.clean {ks : List Slot} (h : Swept s p ks t) : Clean s t := by
  intro k hk
  refine .inl ⟨?_, ?_, h.pid k⟩
  · rw [← h.state_eq (by rw [hk]; rfl), hk]
  · rw [h.kept k]

theorem turned_clean {w : Wait} (h : Turned s p w t) : Clean s t := by
  cases h with
  | reap => exact (reap_clean s _ _).trans (.same rfl)
  | fail => exact .same rfl
  | sleep => exact Clean.trans (.set (by simp)) (.same rfl)

theorem exits_clean {ks : List Slot} (h : Exits s p ks t) : Clean s t := by
  cases h with
  | drop h => exact h.clean.trans (.same rfl)
  | done h => exact (h.clean.trans (wakeup1_clean _ _)).trans (Clean.trans (.set (by simp)) (.same rfl))

theorem create_clean {start : Slot → Pc} : Clean s (create s p start) := by
  unfold create
  rcases allocproc_cases s with h | ⟨np, -, h⟩
  · rw [h]
    exact .refl s
  · rw [h]
    exact (Clean.set (s := s) (p := np) (by simp)).trans (.same rfl)

/-- `kill` finds no free slot. -/
theorem kill_clean (h : ∀ k, (slots.find? fun k => (s.proc k).pid = pid) = some k →
    (s.proc k).state ≠ .unused) : Clean s (kill s pid) := by
  unfold kill
  split
  · next k hk =>
    refine .set ?_
    split
    · nofun
    · exact h k hk
  · exact .refl s

-- ---------------------------------------------------------------------------
-- Runs without a failed creation
-- ---------------------------------------------------------------------------

/-- The first entry with the pid 0 is a free slot, and 0 is to be killed. -/
def KillsFree (s : State) (pid : Pid) : Prop :=
  pid = 0 ∧ ∃ k, (slots.find? fun k => (s.proc k).pid = 0) = some k ∧ (s.proc k).state = .unused

/-- No `kill` with the pid 0 comes upon a free slot, and `kalloc` finds the
pages that a creation asks for. -/
def Careful (s : State) : Label → Prop
  | .run _ (.kill pid) => ¬KillsFree s pid
  | .run p (.step pg) =>
    match s.pc p with
    | .forking _ .kstack | .forking _ .pgdir | .cloning _ .kstack => pg ≠ 0
    | .exitKilling _ pid => ¬KillsFree s pid
    | _ => True
  | _ => True

/-- The free slots are as `allocproc` takes them for granted. -/
def Unused (s : State) : Prop :=
  ∀ k, (s.proc k).state = .unused → (s.proc k).killed = false ∧ (s.proc k).pid = 0

theorem Unused.clean (h : Unused s) (hc : Clean s t) : Unused t := by
  intro k hk
  rcases hc k hk with ⟨hs, hkilled, hpid⟩ | hreset
  · rw [hkilled, hpid]
    exact h k hs
  · exact hreset

theorem Unused.kill (h : Unused s) (hpid : ¬KillsFree s pid) : Clean s (kill s pid) := by
  refine kill_clean fun k hk hfree => ?_
  obtain rfl : (s.proc k).pid = pid := by simpa using List.find?_some hk
  have h0 := (h k hfree).2
  rw [h0] at hpid hk
  exact hpid ⟨rfl, k, hk, hfree⟩

theorem allocStack_clean {kind : Kind} {np : Slot} {pg : Page} {c : Pc} (hpg : pg ≠ 0)
    (h : allocStack s p kind np pg c = some t) : Clean s t := by
  unfold allocStack at h
  rw [if_neg hpg] at h
  obtain ⟨-, h⟩ := Option.ite_none_right_eq_some.mp h
  obtain rfl := Option.some.inj h
  exact Clean.trans (.same rfl) (.trans (.keep rfl) (.same rfl))

theorem publish_clean {np : Slot} : Clean s (publish s p np) :=
  Clean.trans (.set (by simp)) (.same rfl)

theorem forkStep_clean {np : Slot} {pg : Page} {stage : ForkStage}
    (hpg : stage = .kstack ∨ stage = .pgdir → pg ≠ 0) (h : forkStep s p np pg stage = some t) :
    Clean s t := by
  cases stage with
  | kstack => exact allocStack_clean (hpg (.inl rfl)) h
  | pgdir =>
    unfold forkStep at h
    rw [if_neg (hpg (.inr rfl))] at h
    obtain ⟨-, h⟩ := Option.ite_none_right_eq_some.mp h
    obtain rfl := Option.some.inj h
    exact Clean.trans (.same rfl) (.trans (.keep rfl) (.same rfl))
  | sz | parent | isThread =>
    obtain rfl := Option.some.inj h
    exact Clean.trans (.keep rfl) (.same rfl)
  | state =>
    obtain rfl := Option.some.inj h
    exact publish_clean

theorem cloneStep_clean {np : Slot} {pg : Page} {stage : CloneStage}
    (hpg : stage = .kstack → pg ≠ 0) (h : cloneStep s p np pg stage = some t) : Clean s t := by
  cases stage with
  | kstack => exact allocStack_clean (hpg rfl) h
  | parent | sz | pgdir | isThread =>
    obtain rfl := Option.some.inj h
    exact Clean.trans (.keep rfl) (.same rfl)
  | state =>
    obtain rfl := Option.some.inj h
    exact publish_clean

theorem resize_clean {sz : BitVec 32} : Clean s (resize s p sz) := by
  intro k hk
  rw [resize_kept] at hk ⊢
  exact .inl ⟨hk, rfl, rfl⟩

theorem turn_clean (w : Wait) :
    Clean s (turn s p w.call (w.looksAt s p) w.asleep w.done) :=
  turned_clean (turn_turned s p w)

theorem call_clean {a : Act} (hs : Unused s) (hok : Careful s (.run p a))
    (h : act s p a .user = some t) : Clean s t := by
  cases a with
  | step pg => cases h
  | yield =>
    obtain ⟨-, rfl⟩ := locked_eq_some.mp h
    exact .set (by simp)
  | sleep n =>
    obtain ⟨-, rfl⟩ := locked_eq_some.mp h
    exact Clean.trans (.set (by simp)) (.same rfl)
  | fork | clone stack =>
    rcases ite_eq_some.mp h with ⟨-, h⟩ | ⟨-, h⟩
    · obtain rfl := Option.some.inj h
      exact .refl s
    · obtain ⟨-, rfl⟩ := locked_eq_some.mp h
      exact create_clean
  | exit =>
    rcases ite_eq_some.mp h with ⟨-, h⟩ | ⟨-, h⟩
    · cases h
    · obtain ⟨-, rfl⟩ := locked_eq_some.mp h
      exact exits_clean (exitFrom_exits s p slots)
  | kill pid =>
    obtain ⟨-, rfl⟩ := locked_eq_some.mp h
    exact hs.kill hok
  | wait =>
    rcases ite_eq_some.mp h with ⟨-, h⟩ | ⟨-, h⟩
    · obtain rfl := Option.some.inj h
      exact .refl s
    · obtain ⟨-, rfl⟩ := locked_eq_some.mp h
      exact turn_clean .child
  | join pid =>
    obtain ⟨-, rfl⟩ := locked_eq_some.mp h
    exact turn_clean (.thread pid)
  | exec pg sz =>
    rcases ite_eq_some.mp h with ⟨-, h⟩ | ⟨-, h⟩
    · obtain rfl := Option.some.inj h
      exact .refl s
    · obtain ⟨-, h⟩ := Option.ite_none_right_eq_some.mp h
      obtain rfl := Option.some.inj h
      exact Clean.trans (.same rfl) (.trans (.keep rfl) (.same rfl))
  | growproc n mem =>
    obtain ⟨-, rfl⟩ := locked_eq_some.mp h
    unfold growproc
    split
    · exact .same rfl
    · exact resize_clean

theorem act_clean {a : Act} (hs : Unused s) (hok : Careful s (.run p a))
    (h : act s p a (s.pc p) = some t) : Clean s t := by
  cases a with
  | step pg =>
    simp only [Careful] at hok
    cases hpc : s.pc p with
    | forking np next =>
      rw [hpc] at h hok
      exact forkStep_clean (by rintro (rfl | rfl) <;> exact hok) h
    | cloning np next =>
      rw [hpc] at h hok
      exact cloneStep_clean (by rintro rfl; exact hok) h
    | exitKilling i pid =>
      rw [hpc] at h hok
      obtain ⟨-, rfl⟩ := locked_eq_some.mp h
      exact (hs.kill hok).trans (.same rfl)
    | exitKill i | exitJoin i =>
      rw [hpc] at h
      obtain rfl := Option.some.inj h
      exact .same rfl
    | exitJoining i pid =>
      rw [hpc] at h
      obtain ⟨-, rfl⟩ := locked_eq_some.mp h
      exact turn_clean (.dying i pid)
    | exitResume i =>
      rw [hpc] at h
      obtain ⟨-, rfl⟩ := locked_eq_some.mp h
      unfold exitResume
      split
      · exact (wakeup1_clean s _).trans (exits_clean (exitFrom_exits _ p _))
      · exact exits_clean (exitFrom_exits s p _)
    | _ =>
      rw [hpc] at h
      cases h
  | yield =>
    obtain ⟨-, rfl⟩ := locked_eq_some.mp h
    exact .set (by simp)
  | _ =>
    -- the other acts are calls from user code
    have hpc : s.pc p = .user := by
      cases hpc : s.pc p with
      | user => rfl
      | _ =>
        rw [hpc] at h
        cases h
    rw [hpc] at h
    exact call_clean hs hok h

theorem next_clean {l : Label} (hs : Unused s) (hok : Careful s l) (h : next s l = some t) :
    Clean s t := by
  cases l with
  | wakeup n =>
    obtain ⟨-, rfl⟩ := locked_eq_some.mp h
    exact wakeup1_clean s _
  | run p a =>
    obtain ⟨-, h⟩ := Option.ite_none_right_eq_some.mp h
    exact act_clean hs hok h
  | dispatch p =>
    obtain ⟨-, h⟩ := Option.ite_none_right_eq_some.mp h
    obtain ⟨-, rfl⟩ := locked_eq_some.mp h
    have hrun : Clean s (s.setState p .running) := .set (by simp)
    have htidy : Clean s (tidy (s.setState p .running) p) := hrun.trans (.keep rfl)
    unfold resume
    split
    · exact htidy.trans (.same rfl)
    · exact htidy.trans (turn_clean .child)
    · next pid _ => exact htidy.trans (turn_clean (.thread pid))
    · next i pid _ => exact htidy.trans (turn_clean (.dying i pid))
    · exact hrun

-- ---------------------------------------------------------------------------
-- New processes and `kill`
-- ---------------------------------------------------------------------------

/-- What `kill` returns. -/
def killResult (s : State) (pid : Pid) : Int :=
  if slots.any fun k => (s.proc k).pid = pid then 0 else -1

structure Unkilled (s : State) : Prop where
  unused : Unused s
  /-- The entry that `allocproc` returns is not marked. -/
  alloc : ∀ np t, allocproc s = some (np, t) → (t.proc np).killed = false
  /-- `kill` returns 0 for the pid of a process. -/
  kill : ∀ pid, ¬KillsFree s pid → killResult s pid = 0 →
    ∃ k, (s.proc k).state ≠ .unused ∧ (s.proc k).pid = pid

theorem Unused.alloc {np : Slot} (h : Unused s) (ha : allocproc s = some (np, t)) :
    (t.proc np).killed = false := by
  rcases allocproc_cases s with hnone | ⟨k, hk, hsome⟩
  · rw [hnone] at ha
    cases ha
  · obtain ⟨rfl, rfl⟩ := Prod.mk.inj (Option.some.inj (hsome.symm.trans ha))
    simpa using (h k hk).1

theorem Unused.killResult (h : Unused s) (hpid : ¬KillsFree s pid)
    (hr : killResult s pid = 0) : ∃ k, (s.proc k).state ≠ .unused ∧ (s.proc k).pid = pid := by
  cases hfind : slots.find? fun k => (s.proc k).pid = pid with
  | none =>
    have hnone : ∀ k, (s.proc k).pid ≠ pid := by simpa using hfind
    simp [Ptable.killResult, hnone] at hr
  | some k =>
    obtain rfl : (s.proc k).pid = pid := by simpa using List.find?_some hfind
    refine ⟨k, fun hfree => ?_, rfl⟩
    have h0 := (h k hfree).2
    rw [h0] at hpid hfind
    exact hpid ⟨rfl, k, hfind, hfree⟩

theorem unkilled (h : (kernel.restrict Careful).Reachable s) : Unkilled s := by
  have hunused : Unused s := by
    refine h.invariant (fun s hs => ?_) fun s l t _ hs hst => hs.clean (next_clean hs hst.2 hst.1)
    obtain ⟨kstack, pgdir, -, -, -, rfl⟩ := hs
    intro k hk
    rcases eq_or_ne k initproc with rfl | hne
    · simp [userinit] at hk
    · simp [userinit, bss, hne]
  exact ⟨hunused, fun _ _ => hunused.alloc, fun _ => hunused.killResult⟩

instance (s : State) (pid : Pid) : Decidable (KillsFree s pid) :=
  inferInstanceAs (Decidable (_ ∧ _))

instance (s : State) (l : Label) : Decidable (Careful s l) := by
  unfold Careful
  split
  · infer_instance
  · split <;> infer_instance
  · infer_instance

/-- Init kills its thread and joins it. -/
theorem unkilled_join : ∃ s, (s.proc 1).state = .unused ∧ Unkilled s := by
  obtain ⟨s, hrun, hs⟩ := exists_run Careful
    (bootRun ++ cloneRun 0 0x4000 4 ++ [.run 0 (.kill 2), .dispatch 1, .run 1 .exit,
      .run 0 (.join 2)])
    (fun s => (s.proc 1).state = .unused) (by decide +kernel)
  exact ⟨s, hs, unkilled ⟨_, hrun⟩⟩

/-- Init kills the pid 0, and so the next process before it is created. -/
theorem unused_killed : ¬∀ s, kernel.Reachable s → Unkilled s := by
  intro h
  obtain ⟨s, hrun, hs, hkilled⟩ := exists_run (fun _ _ => True) (bootRun ++ [.run 0 (.kill 0)])
    (fun s => (s.proc 1).state = .unused ∧ (s.proc 1).killed = true) (by decide +kernel)
  have := ((h s ⟨_, hrun.of_restrict⟩).unused 1 hs).1
  rw [hkilled] at this
  cases this

end PerrOS.Ptable
