import PerrOS.Stride.Kernel

/-!
# What a step does to a process

Every step of the kernel changes the entry of a process in one of the ways of
`Move`. The results about stride data read a step through `next_move` and
never unfold an operation.
-/

namespace PerrOS.Stride

open Function (update)
open Xv6

variable {Cpu : Type} {s t : State Cpu}

-- ---------------------------------------------------------------------------
-- The operations
-- ---------------------------------------------------------------------------

/-- The stride data of a new child. -/
def child (globalMinPassVal : BitVec 32) : StrideData :=
  ⟨STRIDE.sdiv INIT_TICKET_VAL, globalMinPassVal, INIT_TICKET_VAL, 0⟩

theorem allocproc_cases (s : State Cpu) :
    allocproc s = none ∨ ∃ np, (s.ptable np).state = .unused ∧
      allocproc s = some (np, { (s.setState np .embryo).setTask np
        { s.task np with pid := s.nextpid } with nextpid := s.nextpid + 1 }) := by
  unfold allocproc
  cases hfind : slots.find? fun p => (s.ptable p).state = .unused with
  | none => exact .inl rfl
  | some np => exact .inr ⟨np, by simpa using List.find?_some hfind, rfl⟩

theorem fork_cases (me : Slot) (mem : Bool) (s : State Cpu) :
    fork me mem s = s ∨ ∃ np, (s.ptable np).state = .unused ∧
      (fork me mem s).globalMinPassVal = s.globalMinPassVal ∧
      (fork me mem s).proc = s.proc ∧ (fork me mem s).initproc = s.initproc ∧
      (fork me mem s).ptable =
        if mem then update s.ptable np ⟨.runnable, child s.globalMinPassVal⟩ else s.ptable := by
  unfold fork
  obtain h | ⟨np, hnp, h⟩ := allocproc_cases s
  · exact .inl (by rw [h])
  · refine .inr ⟨np, hnp, ?_⟩
    rw [h]
    cases mem
    · refine ⟨rfl, rfl, rfl, ?_⟩
      simp [State.setState, State.setTask, ← hnp]
    · refine ⟨rfl, rfl, rfl, ?_⟩
      simp [Assign.all, Assign.run, State.setState, State.setTask, State.setStride, child]

theorem kill_cases (pid : BitVec 32) (s : State Cpu) :
    (kill pid s).toKernel = s.toKernel ∨
      ∃ p, killTarget s pid = some p ∧ (s.ptable p).state = .sleeping ∧
        (kill pid s).globalMinPassVal = s.globalMinPassVal ∧
        (kill pid s).ptable = update s.ptable p { s.ptable p with state := .runnable } := by
  unfold kill
  split
  case h_1 => exact .inl rfl
  case h_2 p hp =>
    dsimp only
    split
    case isTrue hsleep => exact .inr ⟨p, hp, hsleep, rfl, rfl⟩
    case isFalse => exact .inl rfl

@[simp] theorem kill_proc : (kill pid s).proc = s.proc := by
  unfold kill
  split
  · rfl
  · dsimp only
    split <;> rfl

@[simp] theorem kill_initproc : (kill pid s).initproc = s.initproc := by
  unfold kill
  split
  · rfl
  · dsimp only
    split <;> rfl

-- ---------------------------------------------------------------------------
-- The loop of `exit`
-- ---------------------------------------------------------------------------

/-- The loop of `exit` wakes init if one of the children in `l` is a zombie. -/
def Zombie (me : Slot) (l : List Slot) (s : State Cpu) : Prop :=
  ∃ q ∈ l, (s.task q).parent = some me ∧ (s.ptable q).state = .zombie

instance (me : Slot) (l : List Slot) (s : State Cpu) : Decidable (Zombie me l s) :=
  inferInstanceAs (Decidable (∃ q ∈ l, _ ∧ _))

/-- What the loop of `exit` over `l` leaves. -/
structure Reparented (me : Slot) (l : List Slot) (s t : State Cpu) : Prop where
  global : t.globalMinPassVal = s.globalMinPassVal
  proc : t.proc = s.proc
  initproc : t.initproc = s.initproc
  ptable : ∀ p, t.ptable p =
    if Asleep s (some (.proc s.initproc)) p ∧ Zombie me l s then
      (s.ptable p).wake s.globalMinPassVal
    else s.ptable p

theorem reparent_task (me : Slot) (s : State Cpu) (q p : Slot) :
    ((reparent me s q).task p).chan = (s.task p).chan ∧
      (((reparent me s q).task p).parent = some me → (s.task p).parent = some me) ∧
      (p ≠ q → (reparent me s q).task p = s.task p) := by
  unfold reparent
  split
  case isFalse => exact ⟨rfl, id, fun _ => rfl⟩
  case isTrue hq =>
    have htask : ((s.setTask q { s.task q with parent := some s.initproc }).task p).chan =
        (s.task p).chan ∧
        (((s.setTask q { s.task q with parent := some s.initproc }).task p).parent = some me →
          (s.task p).parent = some me) ∧
        (p ≠ q → (s.setTask q { s.task q with parent := some s.initproc }).task p = s.task p) := by
      simp only [State.setTask]
      rcases eq_or_ne p q with rfl | hpq
      · exact ⟨by simp, fun _ => hq, by simp⟩
      · simp [hpq]
    dsimp only
    split <;> exact htask

theorem reparent_turn (me : Slot) (s : State Cpu) (q : Slot) :
    Reparented me [q] s (reparent me s q) := by
  have hone : Zombie me [q] s ↔ (s.task q).parent = some me ∧ (s.ptable q).state = .zombie := by
    simp [Zombie]
  unfold reparent
  split
  case isFalse hq => exact ⟨rfl, rfl, rfl, fun p => (if_neg fun h => hq (hone.mp h.2).1).symm⟩
  case isTrue hq =>
    dsimp only
    split
    case isFalse hz => exact ⟨rfl, rfl, rfl, fun p => (if_neg fun h => hz (hone.mp h.2).2).symm⟩
    case isTrue hz =>
      refine ⟨rfl, rfl, rfl, fun p => ?_⟩
      have hz : Zombie me [q] s := hone.mpr ⟨hq, hz⟩
      have hasleep : Asleep (s.setTask q { s.task q with parent := some s.initproc })
          (some (.proc s.initproc)) p ↔ Asleep s (some (.proc s.initproc)) p := by
        unfold Asleep State.setTask
        rcases eq_or_ne p q with rfl | hpq
        · simp
        · simp [hpq]
      simp only [hz, and_true]
      exact if_congr hasleep rfl rfl

theorem reparent_foldl (me : Slot) (l : List Slot) (s : State Cpu) :
    Reparented me l s (l.foldl (reparent me) s) := by
  induction l generalizing s with
  | nil => exact ⟨rfl, rfl, rfl, fun p => by simp [Zombie]⟩
  | cons q l ih =>
    have hq := reparent_turn me s q
    have hl := ih (reparent me s q)
    rw [List.foldl_cons]
    refine ⟨hl.global.trans hq.global, hl.proc.trans hq.proc, hl.initproc.trans hq.initproc,
      fun p => ?_⟩
    rw [hl.ptable p, hq.global, hq.initproc]
    have hasleep : Asleep (reparent me s q) (some (.proc s.initproc)) p ↔
        ((reparent me s q).ptable p).state = .sleeping ∧
          (s.task p).chan = some (.proc s.initproc) := by
      rw [Asleep, (reparent_task me s q p).1]
    by_cases hz : Zombie me [q] s
    · -- the turn wakes init, and nothing sleeps on it any more
      have hcons : Zombie me (q :: l) s := by
        obtain ⟨q', hq', h⟩ := hz
        exact ⟨q', by simp_all, h⟩
      by_cases hp : Asleep s (some (.proc s.initproc)) p
      · have hre : (reparent me s q).ptable p = (s.ptable p).wake s.globalMinPassVal := by
          rw [hq.ptable p, if_pos ⟨hp, hz⟩]
        rw [if_neg fun h => ?_, hre, if_pos ⟨hp, hcons⟩]
        have := (hasleep.mp h.1).1
        simp [hre, Entry.wake] at this
      · have hre : (reparent me s q).ptable p = s.ptable p := by
          rw [hq.ptable p, if_neg (hp ·.1)]
        rw [if_neg fun h => ?_, hre, if_neg (hp ·.1)]
        rw [hre] at hasleep
        exact hp (hasleep.mp h.1)
    · have hsame (p : Slot) : (reparent me s q).ptable p = s.ptable p := by
        rw [hq.ptable p, if_neg (hz ·.2)]
      have hzombie : Zombie me l (reparent me s q) ↔ Zombie me (q :: l) s := by
        constructor
        · rintro ⟨q', hq', hparent, hstate⟩
          exact ⟨q', by simp [hq'], (reparent_task me s q q').2.1 hparent, hsame q' ▸ hstate⟩
        · rintro ⟨q', hq', hparent, hstate⟩
          have hne : q' ≠ q := by
            rintro rfl
            exact hz ⟨q', by simp, hparent, hstate⟩
          refine ⟨q', (List.mem_cons.mp hq').resolve_left hne, ?_, (hsame q').symm ▸ hstate⟩
          rw [(reparent_task me s q q').2.2 hne, hparent]
      rw [hsame p]
      rw [hsame p] at hasleep
      exact if_congr (and_congr hasleep hzombie) rfl rfl

-- ---------------------------------------------------------------------------
-- Moves
-- ---------------------------------------------------------------------------

/-- The processes that a step wakes through `wakeup1`. -/
def Woken (s : State Cpu) : Label Cpu → Slot → Prop
  | .wakeup chan, p => Asleep s (some chan) p
  | .call _ me .exit, p =>
    Asleep s ((s.task me).parent.map .proc) p ∨
      Asleep s (some (.proc s.initproc)) p ∧
        ∃ q, (s.task q).parent = some me ∧ (s.ptable q).state = .zombie
  | _, _ => False

theorem Woken.sleeping (h : Woken s l p) : (s.ptable p).state = .sleeping := by
  unfold Woken at h
  split at h
  · exact h.1
  · exact h.elim And.left (·.1.1)
  · exact h.elim

/-- What the step from `s` with a label can leave at the entry of a process. -/
inductive Move (s : State Cpu) : Label Cpu → Slot → Entry → Prop
  | stay : Move s l p (s.ptable p)
  | dispatch : (s.ptable p).state = .runnable → (scheduler s.toKernel).1 = some p →
      Move s (.schedule c) p (s.ptable p).dispatch
  | wake : Woken s l p → Move s l p ((s.ptable p).wake s.globalMinPassVal)
  | rouse : killTarget s pid = some p → (s.ptable p).state = .sleeping →
      Move s (.call c me (.kill pid)) p { s.ptable p with state := .runnable }
  | leave (state : ProcState) : (s.ptable p).state = .running →
      (state = .runnable ∨ state = .sleeping ∨ state = .zombie ∧ p ≠ s.initproc) →
      Move s (.call c p call) p { s.ptable p with state }
  | tickets : (s.ptable p).state = .running → ValidTickets n →
      Move s (.call c p (.settickets n)) p
        { s.ptable p with strideData := (s.ptable p).strideData.settickets n }
  | create : (s.ptable p).state = .unused →
      Move s (.call c me (.fork true)) p ⟨.runnable, child s.globalMinPassVal⟩
  | reap : (s.ptable p).state = .zombie →
      Move s (.call c me .wait) p { s.ptable p with state := .unused }

instance (s : State Cpu) (l : Label Cpu) (p : Slot) : Decidable (Woken s l p) := by
  unfold Woken
  split <;> infer_instance

/-- An operation that rewrites one entry. -/
theorem Move.of_update {e : Entry} (h : Move s l q e) (p : Slot) :
    Move s l p (update s.ptable q e p) := by
  rcases eq_or_ne p q with rfl | hpq
  · simpa using h
  · rw [Function.update_of_ne hpq]
    exact .stay

/-- A process runs on one CPU, whose `proc` names it. -/
structure Cpus (s : State Cpu) : Prop where
  running : ∀ c p, s.proc c = some p → (s.ptable p).state = .running
  cpu : ∀ p, (s.ptable p).state = .running → ∃ c, s.proc c = some p
  inj : ∀ c c' p, s.proc c = some p → s.proc c' = some p → c = c'

/-- `exit` wakes the parent, and init for a zombie child. -/
theorem reparent_entry (c : Cpu) (me : Slot) (s : State Cpu) (p : Slot) :
    (slots.foldl (reparent me) (wakeup1 ((s.task me).parent.map .proc) s)).ptable p =
      if Woken s (.call c me .exit) p then (s.ptable p).wake s.globalMinPassVal
      else s.ptable p := by
  have hloop := reparent_foldl me slots (wakeup1 ((s.task me).parent.map .proc) s)
  rw [hloop.ptable p]
  by_cases hp : Asleep s ((s.task me).parent.map .proc) p
  · have hu : (wakeup1 ((s.task me).parent.map .proc) s).ptable p =
        (s.ptable p).wake s.globalMinPassVal := if_pos hp
    have hw : Woken s (.call c me .exit) p := .inl hp
    rw [if_neg fun h => ?_, hu, if_pos hw]
    have := h.1.1
    simp [hu, Entry.wake] at this
  · have hu : (wakeup1 ((s.task me).parent.map .proc) s).ptable p = s.ptable p := if_neg hp
    have hasleep : Asleep (wakeup1 ((s.task me).parent.map .proc) s)
        (some (.proc s.initproc)) p ↔ Asleep s (some (.proc s.initproc)) p := by
      rw [Asleep, hu]
      rfl
    have hzombie : Zombie me slots (wakeup1 ((s.task me).parent.map .proc) s) ↔
        ∃ q, (s.task q).parent = some me ∧ (s.ptable q).state = .zombie := by
      simp only [Zombie, mem_slots, true_and]
      refine exists_congr fun q => and_congr_right fun _ => ?_
      simp only [wakeup1]
      split
      case isTrue hq => simp [Entry.wake, hq.1]
      case isFalse => rfl
    rw [hu]
    exact if_congr ((and_congr hasleep hzombie).trans (or_iff_right hp).symm) rfl rfl

/-- The same processes run on the same CPUs. -/
theorem Cpus.congr (hs : Cpus s) (hproc : t.proc = s.proc)
    (h : ∀ p, (t.ptable p).state = .running ↔ (s.ptable p).state = .running) : Cpus t :=
  ⟨fun c p hp => (h p).mpr (hs.running c p (hproc ▸ hp)),
    fun p hp => hproc ▸ hs.cpu p ((h p).mp hp), hproc ▸ hs.inj⟩

variable [DecidableEq Cpu]

theorem exit_move (hs : Cpus s) (h : exit c me s = some t) (hme : s.proc c = some me) (p : Slot) :
    Move s (.call c me .exit) p (t.ptable p) := by
  unfold exit at h
  split at h
  case isTrue => cases h
  case isFalse hinit =>
    cases h
    simp only [sched, State.setState]
    rcases eq_or_ne p me with rfl | hp
    · rw [Function.update_self]
      have hrun := hs.running c p hme
      rw [reparent_entry c p s p, if_neg fun hw => by simp [hw.sleeping] at hrun]
      exact .leave .zombie hrun (.inr (.inr ⟨rfl, hinit⟩))
    · rw [Function.update_of_ne hp, reparent_entry c me s p]
      split
      case isTrue hw => exact .wake hw
      case isFalse => exact .stay

theorem call_move (hs : Cpus s) (h : call.run c me s = some t) (hme : s.proc c = some me)
    (p : Slot) : Move s (.call c me call) p (t.ptable p) := by
  have hrun := hs.running c me hme
  cases call with
  | yield =>
    cases h
    exact Move.of_update (.leave .runnable hrun (.inl rfl)) p
  | sleep chan =>
    cases h
    exact Move.of_update (.leave .sleeping hrun (.inr (.inl rfl))) p
  | kill pid =>
    cases h
    obtain h | ⟨q, hq, hsleep, -, h⟩ := kill_cases pid s
    · rw [h]
      exact .stay
    · rw [h]
      exact Move.of_update (.rouse hq hsleep) p
  | settickets n =>
    cases h
    unfold settickets
    split
    case isTrue hn => exact Move.of_update (.tickets hrun hn) p
    case isFalse => exact .stay
  | fork mem =>
    cases h
    obtain h | ⟨np, hnp, -, -, -, h⟩ := fork_cases me mem s
    · rw [h]
      exact .stay
    · rw [h]
      cases mem
      · exact .stay
      · exact Move.of_update (.create hnp) p
  | exit => exact exit_move hs h hme p
  | wait =>
    cases h
    unfold wait
    split
    case h_1 q hq =>
      have hz : (s.ptable q).state = .zombie := by
        have := List.find?_some hq
        simp only [decide_eq_true_eq] at this
        exact this.2
      exact Move.of_update (.reap hz) p
    case h_2 =>
      split
      · exact .stay
      · exact Move.of_update (.leave .sleeping hrun (.inr (.inl rfl))) p

theorem next_move (hs : Cpus s) (h : next s l = some t) (p : Slot) : Move s l p (t.ptable p) := by
  cases l with
  | schedule c =>
    obtain ⟨-, h⟩ := Option.ite_none_right_eq_some.mp h
    cases h
    unfold schedule
    obtain h | ⟨q, hq, -, h⟩ := scheduler_eq s.toKernel
    · rw [h]
      exact .stay
    · have hsel : (scheduler s.toKernel).1 = some q := by rw [h]
      rw [h]
      exact Move.of_update (.dispatch hq hsel) p
  | wakeup chan =>
    cases h
    simp only [wakeup1]
    split
    case isTrue hp => exact .wake hp
    case isFalse => exact .stay
  | call c me call =>
    obtain ⟨hme, h⟩ := Option.ite_none_right_eq_some.mp h
    exact call_move hs h hme p

-- ---------------------------------------------------------------------------
-- The rest of the state
-- ---------------------------------------------------------------------------

/-- The process stays on its CPU, or the CPU goes back to its scheduler. -/
def Switched (c : Cpu) (me : Slot) (s t : State Cpu) : Prop :=
  t.proc = s.proc ∧ (∀ p, (s.ptable p).state = .running → (t.ptable p).state = .running) ∨
    t.proc = update s.proc c none ∧ (t.ptable me).state ≠ .running

omit [DecidableEq Cpu] in
/-- An entry of a process off the CPUs is rewritten. -/
theorem running_update {e : Entry} (hq : (s.ptable q).state ≠ .running)
    (hp : (s.ptable p).state = .running) : (update s.ptable q e p).state = .running := by
  rcases eq_or_ne p q with rfl | hpq
  · exact absurd hp hq
  · rwa [Function.update_of_ne hpq]

theorem call_rest {call : Call} (h : call.run c me s = some t) :
    t.globalMinPassVal = s.globalMinPassVal ∧ t.initproc = s.initproc ∧ Switched c me s t := by
  cases call with
  | yield =>
    cases h
    exact ⟨rfl, rfl, .inr ⟨rfl, by simp [yield, sched, State.setState]⟩⟩
  | sleep chan =>
    cases h
    exact ⟨rfl, rfl, .inr ⟨rfl, by simp [sleep, sched, State.setState]⟩⟩
  | kill pid =>
    cases h
    obtain h | ⟨q, -, hsleep, hg, h⟩ := kill_cases pid s
    · exact ⟨by rw [h], kill_initproc, .inl ⟨kill_proc, fun p hp => by rwa [h]⟩⟩
    · refine ⟨hg, kill_initproc, .inl ⟨kill_proc, fun p hp => ?_⟩⟩
      rw [h]
      exact running_update (by simp [hsleep]) hp
  | settickets n =>
    cases h
    unfold settickets
    split
    · refine ⟨rfl, rfl, .inl ⟨rfl, fun p hp => ?_⟩⟩
      simp only [State.setStride]
      rcases eq_or_ne p me with rfl | hpm
      · simpa using hp
      · rwa [Function.update_of_ne hpm]
    · exact ⟨rfl, rfl, .inl ⟨rfl, fun _ => id⟩⟩
  | fork mem =>
    cases h
    obtain h | ⟨np, hnp, hg, hproc, hinit, h⟩ := fork_cases me mem s
    · rw [h]
      exact ⟨rfl, rfl, .inl ⟨rfl, fun _ => id⟩⟩
    · refine ⟨hg, hinit, .inl ⟨hproc, fun p hp => ?_⟩⟩
      rw [h]
      cases mem
      · exact hp
      · exact running_update (by simp [hnp]) hp
  | exit =>
    simp only [Call.run, exit] at h
    split at h
    case isTrue => cases h
    case isFalse =>
      cases h
      obtain ⟨hg, hproc, hinit, -⟩ :=
        reparent_foldl me slots (wakeup1 ((s.task me).parent.map .proc) s)
      generalize slots.foldl (reparent me) (wakeup1 ((s.task me).parent.map .proc) s) = u at *
      refine ⟨hg, hinit, .inr ⟨?_, by simp [sched, State.setState]⟩⟩
      change update u.proc c none = _
      rw [hproc]
      rfl
  | wait =>
    cases h
    unfold wait
    split
    case h_1 q hq =>
      have hz : (s.ptable q).state = .zombie := by
        have := List.find?_some hq
        simp only [decide_eq_true_eq] at this
        exact this.2
      exact ⟨rfl, rfl, .inl ⟨rfl, fun p hp => running_update (by simp [hz]) hp⟩⟩
    case h_2 =>
      split
      · exact ⟨rfl, rfl, .inl ⟨rfl, fun _ => id⟩⟩
      · exact ⟨rfl, rfl, .inr ⟨rfl, by simp [sleep, sched, State.setState]⟩⟩

theorem next_initproc (h : next s l = some t) : t.initproc = s.initproc := by
  cases l with
  | schedule c =>
    obtain ⟨-, h⟩ := Option.ite_none_right_eq_some.mp h
    cases h
    rfl
  | wakeup chan =>
    cases h
    rfl
  | call c me call =>
    obtain ⟨-, h⟩ := Option.ite_none_right_eq_some.mp h
    exact (call_rest h).2.1

/-- Only the scheduler moves the global pass value, to the least one. -/
theorem next_global (h : next s l = some t) :
    (t.globalMinPassVal = s.globalMinPassVal ∧
      ∀ c, l = .schedule c → (scheduler s.toKernel).1 = none) ∨
      ∃ c p, l = .schedule c ∧ s.proc c = none ∧ (scheduler s.toKernel).1 = some p ∧
        (s.ptable p).state = .runnable ∧
        (∀ q, (s.ptable q).state = .runnable →
          (s.ptable p).strideData.passVal ≤ (s.ptable q).strideData.passVal) ∧
        t.globalMinPassVal = (s.ptable p).strideData.passVal := by
  cases l with
  | schedule c =>
    obtain ⟨hc, h⟩ := Option.ite_none_right_eq_some.mp h
    cases h
    obtain h | ⟨p, hrun, hmin, h⟩ := scheduler_eq s.toKernel
    · exact .inl ⟨by simp only [schedule, h], fun _ _ => by rw [h]⟩
    · exact .inr ⟨c, p, rfl, hc, by rw [h], hrun, hmin, by simp only [schedule, h]⟩
  | wakeup chan =>
    cases h
    exact .inl ⟨rfl, by simp⟩
  | call c me call =>
    obtain ⟨-, h⟩ := Option.ite_none_right_eq_some.mp h
    exact .inl ⟨(call_rest h).1, by simp⟩

theorem Cpus.schedule (hs : Cpus s) (hc : s.proc c = none) : Cpus (schedule c s) := by
  unfold Stride.schedule
  obtain h | ⟨q, hrun, -, h⟩ := scheduler_eq s.toKernel
  · rw [h]
    have hsame : update s.proc c none = s.proc := by rw [← hc, Function.update_eq_self]
    exact ⟨by simpa [hsame] using hs.running, by simpa [hsame] using hs.cpu,
      by simpa [hsame] using hs.inj⟩
  · rw [h]
    -- `q` was on no CPU
    have hq (c' : Cpu) : s.proc c' ≠ some q := fun h => by simp [hs.running c' q h] at hrun
    refine ⟨fun c' p hp => ?_, fun p hp => ?_, fun c₁ c₂ p h₁ h₂ => ?_⟩
    · rcases eq_or_ne c' c with rfl | hne
      · obtain rfl : q = p := by simpa using hp
        simp [Entry.dispatch]
      · simp only [Function.update_of_ne hne] at hp
        have hpq : p ≠ q := fun h => hq c' (h ▸ hp)
        simpa [hpq] using hs.running c' p hp
    · rcases eq_or_ne p q with rfl | hpq
      · exact ⟨c, by simp⟩
      · obtain ⟨c', hc'⟩ := hs.cpu p (by simpa [hpq] using hp)
        have hne : c' ≠ c := by
          rintro rfl
          simp [hc] at hc'
        exact ⟨c', by simpa [hne] using hc'⟩
    · have hc' (c' : Cpu) (h' : update s.proc c (some q) c' = some p) (hne : c' ≠ c) :
          s.proc c' = some p ∧ p ≠ q := by
        rw [Function.update_of_ne hne] at h'
        exact ⟨h', fun hpq => hq c' (hpq ▸ h')⟩
      by_cases hne₁ : c₁ = c
      · subst hne₁
        obtain rfl : q = p := by simpa using h₁
        by_contra hne
        exact (hc' c₂ h₂ (Ne.symm hne)).2 rfl
      · by_cases hne₂ : c₂ = c
        · subst hne₂
          obtain rfl : q = p := by simpa using h₂
          exact absurd rfl (hc' c₁ h₁ hne₁).2
        · exact hs.inj c₁ c₂ p (hc' c₁ h₁ hne₁).1 (hc' c₂ h₂ hne₂).1

omit [DecidableEq Cpu] in
/-- Only the scheduler makes a process `RUNNING`, and only its own call takes
it off. -/
theorem Move.running {e : Entry} (h : Move s l p e) (hl : ∀ c, l ≠ .schedule c) :
    (e.state = .running → (s.ptable p).state = .running) ∧
      ((s.ptable p).state = .running → e.state = .running ∨ ∃ c call, l = .call c p call) := by
  cases h with
  | stay => exact ⟨id, .inl⟩
  | dispatch => exact absurd rfl (hl _)
  | wake hw => exact ⟨by simp [Entry.wake], by simp [hw.sleeping]⟩
  | rouse hk hsleep => exact ⟨by simp, by simp [hsleep]⟩
  | leave st hrun hst =>
    refine ⟨fun h => ?_, fun _ => .inr ⟨_, _, rfl⟩⟩
    obtain rfl : st = .running := h
    simp at hst
  | tickets => exact ⟨id, .inl⟩
  | create hp => exact ⟨by simp, by simp [hp]⟩
  | reap hp => exact ⟨by simp, by simp [hp]⟩

theorem Cpus.switched {call : Call} (hs : Cpus s) (h : call.run c me s = some t)
    (hme : s.proc c = some me) : Cpus t := by
  have hmove := call_move hs h hme
  obtain ⟨-, -, ⟨hproc, hkeep⟩ | ⟨hproc, hoff⟩⟩ := call_rest h
  · refine ⟨fun c p hp => hkeep p (hs.running c p (hproc ▸ hp)), fun p hp => ?_,
      hproc ▸ hs.inj⟩
    rw [hproc]
    exact hs.cpu p (((hmove p).running (by simp)).1 hp)
  · have hc' {c' p} (hp : t.proc c' = some p) : s.proc c' = some p ∧ p ≠ me := by
      have hne : c' ≠ c := by
        rintro rfl
        simp [hproc] at hp
      have hp : s.proc c' = some p := by simpa [hproc, hne] using hp
      exact ⟨hp, fun hpm => hne (hs.inj c' c me (hpm ▸ hp) hme)⟩
    refine ⟨fun c' p hp => ?_, fun p hp => ?_, fun c₁ c₂ p h₁ h₂ =>
      hs.inj c₁ c₂ p (hc' h₁).1 (hc' h₂).1⟩
    · obtain ⟨hp, hpm⟩ := hc' hp
      refine (((hmove p).running (by simp)).2 (hs.running c' p hp)).resolve_right ?_
      rintro ⟨_, _, h⟩
      cases h
      exact hpm rfl
    · obtain ⟨c', hc⟩ := hs.cpu p (((hmove p).running (by simp)).1 hp)
      have hne : c' ≠ c := by
        rintro rfl
        obtain rfl : me = p := Option.some.inj (hme.symm.trans hc)
        exact hoff hp
      exact ⟨c', by simpa [hproc, hne] using hc⟩

theorem Cpus.next (hs : Cpus s) (h : next s l = some t) : Cpus t := by
  cases l with
  | schedule c =>
    obtain ⟨hc, h⟩ := Option.ite_none_right_eq_some.mp h
    cases h
    exact hs.schedule hc
  | wakeup chan =>
    have hmove := next_move hs h
    have hnot (p : Slot) : (t.ptable p).state = .running ↔ (s.ptable p).state = .running :=
      ⟨((hmove p).running (by simp)).1,
        fun hp => (((hmove p).running (by simp)).2 hp).resolve_right (by simp)⟩
    have hproc : t.proc = s.proc := by
      cases h
      rfl
    exact hs.congr hproc hnot
  | call c me call =>
    obtain ⟨hme, h⟩ := Option.ite_none_right_eq_some.mp h
    exact hs.switched h hme

-- ---------------------------------------------------------------------------
-- Boot
-- ---------------------------------------------------------------------------

omit [DecidableEq Cpu] in
theorem allocproc_bss : ∃ s : State Cpu, allocproc bss = some (0, s) ∧
    s.ptable = update (fun _ => ⟨.unused, 0, 0, 0, 0⟩) 0 ⟨.embryo, 0, 0, 0, 0⟩ ∧
    s.globalMinPassVal = 0 ∧ s.proc = fun _ => none := by
  have hfind : (slots.find? fun p => ((bss : State Cpu).ptable p).state = .unused) = some 0 := by
    change slots.find? (fun _ => true) = some 0
    decide
  unfold allocproc
  rw [hfind]
  exact ⟨_, rfl, rfl, rfl, rfl⟩

omit [DecidableEq Cpu] in
/-- What `userinit` leaves: init is runnable, and nothing has written its
stride and its pass value. -/
theorem userinit_bss (h : userinit bss = some s) :
    s.ptable = update (fun _ => ⟨.unused, 0, 0, 0, 0⟩) 0 ⟨.runnable, 0, 0, INIT_TICKET_VAL, 0⟩ ∧
      s.globalMinPassVal = 0 ∧ s.initproc = 0 ∧ s.proc = fun _ => none := by
  obtain ⟨u, hu, hptable, hg, hproc⟩ := (allocproc_bss : ∃ s : State Cpu, _)
  simp only [userinit, hu, Option.map_some, Option.some.injEq] at h
  subst h
  refine ⟨?_, hg, rfl, hproc⟩
  simp [State.setState, State.setStride, hptable]

theorem cpus_of_reachable (h : (kernel Cpu).Reachable s) : Cpus s := by
  refine h.invariant (P := Cpus) (fun s h => ?_) fun s l t _ hs h => hs.next h
  obtain ⟨hptable, -, -, hproc⟩ := userinit_bss h
  refine ⟨by simp [hproc], fun p hp => ?_, by simp [hproc]⟩
  rw [hptable] at hp
  rcases eq_or_ne p 0 with rfl | hp0
  · simp at hp
  · simp [hp0] at hp

end PerrOS.Stride
