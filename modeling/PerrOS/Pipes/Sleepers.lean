import PerrOS.Pipes.Fifo

/-!
# Who sleeps at a pipe

Where no process is inside, one that sleeps in `piperead` has found the pipe
empty and still written to, and one that sleeps in `pipewrite` has found it
full and still read. Only a `pipewrite` that gives up can leave a reader asleep
beside bytes that it has written.
-/

namespace PerrOS.Pipes

universe u

variable {Proc : Type u} {s t : State Proc} {p q : Proc} {l : Label Proc}
  {ls : List (Label Proc)} {n : Int} {i : Nat} {pc : Pc}

/-- In the loops, where the process has the lock. -/
def Pc.inside : Pc → Bool
  | .writing .. | .waiting _ | .reading .. => true
  | _ => false

@[simp] theorem Pc.inside_wakeReader : ∀ pc : Pc, pc.wakeReader.inside = pc.inside
  | .readAsleep _ | .user | .writing .. | .writeAsleep .. | .writeAwake .. | .waiting _
  | .readAwake _ | .reading .. => rfl

@[simp] theorem Pc.inside_wakeWriter : ∀ pc : Pc, pc.wakeWriter.inside = pc.inside
  | .readAsleep _ | .user | .writing .. | .writeAsleep .. | .writeAwake .. | .waiting _
  | .readAwake _ | .reading .. => rfl

/-- The process that has the lock is the one inside. -/
def Locked (s : State Proc) : Prop := ∀ p, (s.pc p).inside = true ↔ s.lock = some p

namespace Locked

theorem wake (h : Locked s) {f : Pc → Pc} (hf : ∀ pc, (f pc).inside = pc.inside)
    (hpc : ∀ p, t.pc p = f (s.pc p)) (hlock : t.lock = s.lock) : Locked t := by
  intro p
  rw [hpc, hf, hlock]
  exact h p

variable [DecidableEq Proc]

theorem enter (hlock : s.lock = none) (h : Locked s) (hpc : pc.inside = true) :
    Locked (s.enter p pc) := by
  intro q
  have hq : (s.pc q).inside = false := by
    rw [← Bool.not_eq_true, h q, hlock]
    exact nofun
  by_cases he : q = p
  · subst he
    simp [State.enter, State.goto, hpc]
  · simp [State.enter, State.goto, hq, Function.update_of_ne he, Ne.symm he]

theorem goto (h : Locked s) (hp : (s.pc p).inside = true) (hpc : pc.inside = true) :
    Locked (s.goto p pc) := by
  intro q
  by_cases he : q = p
  · subst he
    simpa [State.goto, hpc] using (h q).mp hp
  · simpa [State.goto, Function.update_of_ne he] using h q

theorem leave (h : Locked s) (hp : (s.pc p).inside = true) (hpc : pc.inside = false) :
    Locked (s.leave p pc) := by
  intro q
  have hlock := (h p).mp hp
  by_cases he : q = p
  · subst he
    simp [State.leave, State.goto, hpc]
  · have hq : (s.pc q).inside = false := by
      rw [← Bool.not_eq_true, h q, hlock]
      exact fun hs => he (Option.some.inj hs).symm
    simp [State.leave, State.goto, hq, Function.update_of_ne he]

theorem step (h : Locked s) (hs : Step s l t) : Locked t := by
  cases hs with
  | kill p =>
    intro q
    by_cases he : q = p
    · subst he
      simpa [Pipes.kill, State.goto] using h q
    · simpa [Pipes.kill, State.goto, Function.update_of_ne he] using h q
  | @close p b hpc hlock =>
    cases b
    · exact h.wake Pc.inside_wakeWriter (fun _ => rfl) rfl
    · exact h.wake Pc.inside_wakeReader (fun _ => rfl) rfl
  | write hpc hlock | writeAwake hpc hlock | read hpc hlock | readAwake hpc hlock =>
    exact enter hlock h rfl
  | put x hpc | ready hpc | take hpc => exact h.goto (by rw [hpc]; rfl) rfl
  | full hpc | written hpc =>
    refine leave (h.wake Pc.inside_wakeReader (fun _ => rfl) rfl) ?_ rfl
    rw [State.wakeReaders, Pc.inside_wakeReader, hpc]
    rfl
  | refused hpc | empty hpc | abandoned hpc => exact h.leave (by rw [hpc]; rfl) rfl
  | returned hpc =>
    refine leave (h.wake Pc.inside_wakeWriter (fun _ => rfl) rfl) ?_ rfl
    rw [State.wakeWriters, Pc.inside_wakeWriter, hpc]
    rfl

end Locked

theorem Initial.locked (h : Initial s) : Locked s := by
  intro p
  rw [h.pc p, h.lock]
  exact ⟨nofun, nofun⟩

-- ---------------------------------------------------------------------------
-- Reasons to sleep
-- ---------------------------------------------------------------------------

/-- A `pipewrite` has given up since the last `wakeup(&p->nread)`. -/
def gaveUp (ls : List (Label Proc)) : Bool :=
  ls.foldl (fun b l =>
    match l with
    | .refused _ => true
    | .full _ | .written _ | .close _ true => false
    | _ => b) false

/-- Whoever sleeps in `piperead` has found the pipe empty, or a writer gave up. -/
def ReadersWait (gaveUp : Bool) (s : State Proc) : Prop :=
  ∀ p n, s.pc p = .readAsleep n → (s.pipe.empty = true ∧ s.pipe.writeopen = true) ∨ gaveUp = true

/-- Whoever sleeps in `pipewrite` has found the pipe full. -/
def WritersWait (s : State Proc) : Prop :=
  ∀ p n i, s.pc p = .writeAsleep n i → s.pipe.full = true ∧ s.pipe.readopen = true

/-- While bytes are copied the others need not have a reason to sleep: they will be woken. -/
structure Sleepers (gaveUp : Bool) (s : State Proc) : Prop where
  readers : ReadersWait gaveUp s ∨ ∃ w n i, s.pc w = .writing n i
  writers : WritersWait s ∨ ∃ r n i, s.pc r = .reading n i

variable {b : Bool}

/-- Fewer sleep for the same reason. -/
theorem ReadersWait.mono (h : ReadersWait b s) (hpipe : t.pipe = s.pipe)
    (hpc : ∀ q n, t.pc q = .readAsleep n → s.pc q = .readAsleep n) : ReadersWait b t := by
  intro q n hq
  rw [hpipe]
  exact h q n (hpc q n hq)

theorem WritersWait.mono (h : WritersWait s) (hpipe : t.pipe = s.pipe)
    (hpc : ∀ q n i, t.pc q = .writeAsleep n i → s.pc q = .writeAsleep n i) : WritersWait t := by
  intro q n i hq
  rw [hpipe]
  exact h q n i (hpc q n i hq)

/-- Where nobody writes, the readers have a reason to sleep. -/
theorem Sleepers.readersWait (h : Sleepers b s) (hnot : ∀ w n i, s.pc w ≠ .writing n i) :
    ReadersWait b s := h.readers.resolve_right fun ⟨w, n, i, hw⟩ => hnot w n i hw

theorem Sleepers.writersWait (h : Sleepers b s) (hnot : ∀ r n i, s.pc r ≠ .reading n i) :
    WritersWait s := h.writers.resolve_right fun ⟨r, n, i, hr⟩ => hnot r n i hr

/-- Only the process that has the lock can be inside. -/
theorem Locked.pc_ne (h : Locked s) (hp : (s.pc p).inside = true) (hpc : pc.inside = true)
    (hne : s.pc p ≠ pc) (q : Proc) : s.pc q ≠ pc := by
  intro hq
  have hlock := (h p).mp hp
  rw [(h q).mp (by rw [hq, hpc])] at hlock
  obtain rfl := Option.some.inj hlock
  exact hne hq

theorem Locked.pc_ne_of_free (h : Locked s) (hlock : s.lock = none) (hpc : pc.inside = true)
    (q : Proc) : s.pc q ≠ pc := by
  intro hq
  have hinside := (h q).mp (by rw [hq, hpc])
  rw [hlock] at hinside
  cases hinside

theorem Sleepers.of_free (h : Sleepers b s) (hl : Locked s) (hlock : s.lock = none) :
    ReadersWait b s ∧ WritersWait s :=
  ⟨h.readersWait fun w _ _ => hl.pc_ne_of_free hlock rfl w,
    h.writersWait fun r _ _ => hl.pc_ne_of_free hlock rfl r⟩

theorem Sleepers.of_waiting (h : Sleepers b s) (hl : Locked s) (hp : s.pc p = .waiting n) :
    ReadersWait b s ∧ WritersWait s := by
  have hin : (s.pc p).inside = true := by
    rw [hp]
    rfl
  exact ⟨h.readersWait fun w _ _ => hl.pc_ne hin rfl (by simp [hp]) w,
    h.writersWait fun r _ _ => hl.pc_ne hin rfl (by simp [hp]) r⟩

variable [DecidableEq Proc]

theorem pc_update (h : Function.update s.pc p pc q = x) (hne : pc ≠ x) : s.pc q = x := by
  by_cases he : q = p
  · subst he
    rw [Function.update_self] at h
    exact absurd h hne
  · rwa [Function.update_of_ne he] at h

/-- A process that does not go to sleep leaves the others their reasons. -/
theorem Sleepers.move (h : ReadersWait b s ∧ WritersWait s) (hpipe : t.pipe = s.pipe)
    (hpc : t.pc = Function.update s.pc p pc) (hread : ∀ n, pc ≠ .readAsleep n)
    (hwrite : ∀ n i, pc ≠ .writeAsleep n i) : Sleepers b t :=
  ⟨.inl (h.1.mono hpipe fun _ n hq => pc_update (hpc ▸ hq) (hread n)),
    .inl (h.2.mono hpipe fun _ n i hq => pc_update (hpc ▸ hq) (hwrite n i))⟩

theorem wakeReader_ne : pc.wakeReader ≠ .readAsleep n := by
  cases pc <;> nofun

theorem wakeWriter_ne : pc.wakeWriter ≠ .writeAsleep n i := by
  cases pc <;> nofun

theorem wakeReader_eq (h : pc.wakeReader = .writeAsleep n i) : pc = .writeAsleep n i := by
  cases pc <;> first | exact h | cases h

theorem wakeWriter_eq (h : pc.wakeWriter = .readAsleep n) : pc = .readAsleep n := by
  cases pc <;> first | exact h | cases h

theorem readersWait_woken (s : State Proc) (hread : ∀ n, pc ≠ .readAsleep n) :
    ReadersWait b (s.wakeReaders.leave p pc) := fun _ n hq =>
  absurd (pc_update (s := s.wakeReaders) hq (hread n)) wakeReader_ne

theorem writersWait_woken (s : State Proc) (hwrite : ∀ n i, pc ≠ .writeAsleep n i) :
    WritersWait (s.wakeWriters.leave p pc) := fun _ n i hq =>
  absurd (pc_update (s := s.wakeWriters) hq (hwrite n i)) wakeWriter_ne

/-- A `kill` moves no process that is inside. -/
theorem kill_pc (hq : s.pc q = pc) (hpc : pc.inside = true) : (kill s p).pc q = pc := by
  by_cases he : q = p
  · subst he
    refine (Function.update_self ..).trans ?_
    rw [hq]
    cases pc <;> first | rfl | cases hpc
  · exact (Function.update_of_ne he ..).trans hq

theorem Sleepers.step (hl : Locked s) (h : Sleepers (gaveUp ls) s) (hs : Step s l t) :
    Sleepers (gaveUp (ls ++ [l])) t := by
  rw [gaveUp, List.foldl_append, List.foldl_cons, List.foldl_nil, ← gaveUp]
  have hin {p : Proc} {pc : Pc} (hp : s.pc p = pc) (hpc : pc.inside = true) :
      (s.pc p).inside = true := by rw [hp, hpc]
  cases hs with
  | kill p =>
    obtain ⟨hr, hw⟩ := h
    refine ⟨hr.imp (fun hr => hr.mono rfl fun q n hq => ?_) fun ⟨w, n, i, hw⟩ => ⟨w, n, i, ?_⟩,
      hw.imp (fun hw => hw.mono rfl fun q n i hq => ?_) fun ⟨r, n, i, hr⟩ => ⟨r, n, i, ?_⟩⟩
    · exact pc_update hq fun he => wakeReader_ne (wakeWriter_eq he)
    · exact kill_pc hw rfl
    · exact pc_update hq wakeWriter_ne
    · exact kill_pc hr rfl
  | @close p b hpc hlock =>
    obtain ⟨hr, hw⟩ := h.of_free hl hlock
    cases b with
    | true =>
      exact ⟨.inl fun q n hq => absurd hq wakeReader_ne,
        .inl fun q n i hq => hw q n i (wakeReader_eq hq)⟩
    | false =>
      exact ⟨.inl fun q n hq => hr q n (wakeWriter_eq hq),
        .inl fun q n i hq => absurd hq wakeWriter_ne⟩
  | write hpc hlock | writeAwake hpc hlock | read hpc hlock | readAwake hpc hlock =>
    exact .move (h.of_free hl hlock) rfl rfl nofun nofun
  | @put p n i x hpc hi hroom =>
    have hw := h.writersWait fun r _ _ => hl.pc_ne (hin hpc rfl) rfl (by simp [hpc]) r
    refine ⟨.inr ⟨p, _, _, Function.update_self ..⟩, .inl fun q m j hq => ?_⟩
    have hfull := (hw q m j (pc_update hq nofun)).1
    rw [hroom] at hfull
    cases hfull
  | @ready p n hpc => exact .move (h.of_waiting hl hpc) rfl rfl nofun nofun
  | @take p n i hpc hi hempty =>
    have hr := h.readersWait fun w _ _ => hl.pc_ne (hin hpc rfl) rfl (by simp [hpc]) w
    refine ⟨.inl fun q m hq => .inr ?_, .inr ⟨p, _, _, Function.update_self ..⟩⟩
    refine (hr q m (pc_update hq nofun)).resolve_left fun he => ?_
    rw [hempty] at he
    cases he.1
  | @full p n i hpc hi hfull hopen =>
    have hw := h.writersWait fun r _ _ => hl.pc_ne (hin hpc rfl) rfl (by simp [hpc]) r
    refine ⟨.inl (readersWait_woken s nofun), .inl fun q m j hq => ?_⟩
    by_cases he : q = p
    · exact ⟨hfull, hopen⟩
    · exact hw q m j (wakeReader_eq ((Function.update_of_ne he ..).symm.trans hq))
  | @written p n i hpc =>
    have hw := h.writersWait fun r _ _ => hl.pc_ne (hin hpc rfl) rfl (by simp [hpc]) r
    refine ⟨.inl (readersWait_woken s nofun), .inl (hw.mono rfl fun q m j hq => ?_)⟩
    exact wakeReader_eq (pc_update (s := s.wakeReaders) hq nofun)
  | @refused p n i hpc =>
    have hw := h.writersWait fun r _ _ => hl.pc_ne (hin hpc rfl) rfl (by simp [hpc]) r
    exact ⟨.inl fun _ _ _ => .inr rfl, .inl (hw.mono rfl fun q m j hq => pc_update hq nofun)⟩
  | @empty p n hpc hempty hopen =>
    obtain ⟨hr, hw⟩ := h.of_waiting hl hpc
    refine ⟨.inl fun q m hq => ?_, .inl (hw.mono rfl fun q m j hq => pc_update hq nofun)⟩
    by_cases he : q = p
    · exact .inl ⟨hempty, hopen⟩
    · exact hr q m ((Function.update_of_ne he ..).symm.trans hq)
  | abandoned hpc => exact .move (h.of_waiting hl hpc) rfl rfl nofun nofun
  | @returned p n i hpc =>
    have hr := h.readersWait fun w _ _ => hl.pc_ne (hin hpc rfl) rfl (by simp [hpc]) w
    refine ⟨.inl (hr.mono rfl fun q m hq => ?_), .inl (writersWait_woken s nofun)⟩
    exact wakeWriter_eq (pc_update (s := s.wakeWriters) hq nofun)

omit [DecidableEq Proc] in
theorem Initial.sleepers (h : Initial s) : Sleepers b s := by
  refine ⟨.inl fun p n hp => ?_, .inl fun p n i hp => ?_⟩ <;> rw [h.pc p] at hp <;> cases hp

theorem run_sleepers (h : (system Proc).Run ls s) :
    Locked s ∧ Sleepers (gaveUp ls) s := by
  refine h.invariant (P := fun ls s => Locked s ∧ Sleepers (gaveUp ls) s)
    (fun s hs => ⟨hs.locked, hs.sleepers⟩) fun ls s l t hinv hs => ?_
  have hstep := step_of_next hs
  exact ⟨hinv.1.step hstep, hinv.2.step hinv.1 hstep⟩

/-- Between the calls a sleeping reader has nothing to read and can still be written to, unless a
`pipewrite` gave up, and a sleeping writer has no room and can still be read. -/
theorem sleepers_wait (h : (system Proc).Run ls s) (hlock : s.lock = none) :
    (∀ p n, s.pc p = .readAsleep n →
      (s.pipe.queue = [] ∧ s.pipe.writeopen = true) ∨ gaveUp ls = true) ∧
      ∀ p n i, s.pc p = .writeAsleep n i →
        s.pipe.queue.length = PIPESIZE ∧ s.pipe.readopen = true := by
  obtain ⟨bytes, -, hholds⟩ := simulation.run h
  obtain ⟨hl, hsleep⟩ := run_sleepers h
  obtain ⟨hr, hw⟩ := hsleep.of_free hl hlock
  rw [hholds.queue_eq, ← hholds.empty_iff, ← hholds.full_iff]
  exact ⟨hr, hw⟩

/-- The process 0 reads before anything is written. -/
theorem reader_waits : ∃ s, (system (Fin 2)).Run [.read 0 5, .empty 0] s ∧
    s.pc 0 = .readAsleep 5 ∧ s.pipe.queue = [] := by
  have hrun : (system (Fin 2)).Run [.read 0 5, .empty 0] _ :=
    Lib.System.run_exec opened_initial rfl
  refine ⟨_, hrun, rfl, ?_⟩
  exact (((sleepers_wait hrun rfl).1 0 5 rfl).resolve_right nofun).1

-- ---------------------------------------------------------------------------
-- A writer that gives up
-- ---------------------------------------------------------------------------

/-- As long as there is room, a writer goes on. -/
theorem run_puts {bytes : List Byte} (h : (system Proc).Run ls s)
    (hfreed : s.freed = false) (hp : s.pc p = .writing n i) (hholds : s.pipe.Holds bytes)
    (x : Byte) (k : Nat)
    (hn : (i + k : Nat) ≤ n) (hroom : bytes.length + k ≤ PIPESIZE) :
    ∃ t, (system Proc).Run (ls ++ List.replicate k (.put p x)) t ∧ t.freed = false ∧
      t.killed = s.killed ∧ t.pc = Function.update s.pc p (.writing n (i + k)) ∧
      t.pipe.Holds (bytes ++ List.replicate k x) := by
  induction k with
  | zero => exact ⟨s, by simpa using h, hfreed, rfl, by simp [← hp], by simpa using hholds⟩
  | succ k ih =>
    obtain ⟨t, hrun, hf, hkilled, hpc, ht⟩ := ih (by omega) (by omega)
    have hlt : ((i + k : Nat) : Int) < n := by omega
    have hfull : t.pipe.full = false := by
      rw [← Bool.not_eq_true, ht.full_iff, List.length_append, List.length_replicate]
      omega
    have hpt : t.pc p = .writing n (i + k) := by rw [hpc, Function.update_self]
    have hnext : next t (.put p x) =
        some ((t.setPipe (t.pipe.put x)).goto p (.writing n (i + k + 1))) := by
      simp only [next, Label.proc, hf, hpt, hlt, hfull, and_self, if_true, Bool.false_eq_true,
        if_false]
    refine ⟨(t.setPipe (t.pipe.put x)).goto p (.writing n (i + k + 1)), ?_, hf, hkilled, ?_, ?_⟩
    · rw [List.replicate_succ', ← List.append_assoc]
      exact hrun.step hnext
    · simp [State.goto, State.setPipe, hpc, Nat.add_assoc]
    · rw [List.replicate_succ', ← List.append_assoc]
      exact ht.put hfull x

/-- The reader 0 stays asleep beside a full pipe: the writer 1 is killed and gives up. -/
theorem reader_left_asleep : ∃ ls s, (system (Fin 2)).Run ls s ∧ s.lock = none ∧
    s.pc 0 = .readAsleep 5 ∧ s.pipe.queue.length = PIPESIZE := by
  have hstart : (system (Fin 2)).Run [.read 0 5, .empty 0, .write 1 600, .kill 1] _ :=
    Lib.System.run_exec opened_initial rfl
  obtain ⟨t, hrun, hf, hkilled, hpc, ht⟩ := run_puts (p := 1) (n := 600) (i := 0) hstart rfl rfl
    opened_initial.holds 0 PIPESIZE (by decide) (by decide)
  have hfull : t.pipe.full = true := ht.full_iff.mpr (by simp)
  have hp : t.pc 1 = .writing 600 512 := by rw [hpc]; rfl
  have hk : t.killed 1 = true := by rw [hkilled]; rfl
  have hnext : next t (.refused 1) = some (t.leave 1 .user) := by
    simp [next, Label.proc, hf, hp, hfull, hk]
  refine ⟨_, _, hrun.step hnext, rfl, ?_, ?_⟩
  · simp [State.leave, State.goto, hpc]
    rfl
  · rw [show (t.leave 1 .user).pipe = t.pipe from rfl, ht.queue_eq]
    simp

end PerrOS.Pipes
