import PerrOS.Cond.Queue
import PerrOS.Cond.Sched

/-!
# The invariant of condition variables

Three facts hold of every reachable state together: who holds `ptable.lock`
(`Sched`), which threads are inside their ticket locks (`Locked`), and what
each queue holds (`Waiting`).
-/

namespace PerrOS.Cond

open Function (update)
open Xv6 (ProcState)

variable {Thread Cpu L C : Type}

-- ---------------------------------------------------------------------------
-- Reading a program point
-- ---------------------------------------------------------------------------

/-- The interruptible point a thread is at, on or off the CPU. -/
def Pc.code : Pc C → Option (Code C)
  | .run p | .yielding p _ | .away p | .resuming p => some p
  | .kernel _ => none

/-- Where a thread stands with the lock of the condition variable it uses. -/
def Code.lockPc : Code C → Option (C × Ticket.Pc)
  | .waitTest c | .waitStore c | .waitAdvance c | .waitSleep c | .signalTest c | .signalLoad c
  | .signalClear c _ | .signalAdvance c _ | .signalWake c _ => some (c, .critical)
  | .waitTake c => some (c, .outside)
  | .user | .waitSpin _ => none

def Kernel.lockPc : Kernel C → Option (C × Ticket.Pc)
  | .sleepUnlock c | .wakeScan c _ | .wakeDone c => some (c, .critical)
  | .sleepMark c | .sleepSwitch c | .asleep c | .sleepDone c => some (c, .outside)

def Pc.lockPc : Pc C → Option (C × Ticket.Pc)
  | .run p | .yielding p _ | .away p | .resuming p => p.lockPc
  | .kernel p => p.lockPc

def Code.role : Code C → Option (C × Role)
  | .waitStore c => some (c, .room)
  | .waitAdvance c => some (c, .stored)
  | .waitSleep c => some (c, .entered)
  | .signalLoad c => some (c, .found)
  | .signalClear c p => some (c, .loaded p)
  | .signalAdvance c p => some (c, .cleared p)
  | .signalWake c p => some (c, .waking p)
  | .user | .waitTest _ | .waitTake _ | .waitSpin _ | .signalTest _ => none

/-- A thread inside `sched` is parked only until it is made `RUNNABLE`. -/
def Kernel.role (state : ProcState) : Kernel C → Option (C × Role)
  | .sleepUnlock c => some (c, .entered)
  | .sleepMark c => some (c, .parked)
  | .sleepSwitch c | .asleep c => if state = .sleeping then some (c, .parked) else none
  | .wakeScan c p => some (c, .waking p)
  | .sleepDone _ | .wakeDone _ => none

def Pc.role (state : ProcState) : Pc C → Option (C × Role)
  | .run p | .yielding p _ | .away p | .resuming p => p.role
  | .kernel p => p.role state

theorem Code.lockPc_of_inside {p : Code C} {c : C} {r : Role} (h : p.role = some (c, r)) :
    p.lockPc = some (c, .critical) := by
  cases p <;> simp_all [Code.role, Code.lockPc]

theorem Kernel.lockPc_of_inside {p : Kernel C} {state : ProcState} {c : C} {r : Role}
    (h : p.role state = some (c, r)) (hr : r.Inside) : p.lockPc = some (c, .critical) := by
  cases p with
  | sleepUnlock d | wakeScan d =>
    cases h
    rfl
  | sleepMark d =>
    cases h
    exact hr.elim
  | sleepSwitch d | asleep d =>
    by_cases hs : state = .sleeping
    · obtain ⟨-, rfl⟩ : d = c ∧ Role.parked = r := by simpa [Kernel.role, hs] using h
      exact hr.elim
    · simp [Kernel.role, hs] at h
  | sleepDone d | wakeDone d => simp [Kernel.role] at h

theorem Code.role_ne_parked {p : Code C} {c : C} : p.role ≠ some (c, .parked) := by
  cases p <;> simp [Code.role]

section
variable [DecidableEq C]

/-- The role with respect to `c`. -/
def roleAt (c : C) : Option (C × Role) → Role
  | some (d, r) => if c = d then r else .idle
  | none => .idle

@[simp] theorem roleAt_some {c d : C} {r : Role} :
    roleAt c (some (d, r)) = if c = d then r else .idle := rfl

@[simp] theorem roleAt_none {c : C} : roleAt c none = .idle := rfl

def State.role (s : State Thread Cpu L C) (c : C) (t : Thread) : Role :=
  roleAt c ((s.pc t).role (s.pstate t))

/-- At `p` a thread has the role `r` at `c` and none elsewhere. -/
def Plays (c : C) (r : Role) (p : Pc C) (state : ProcState) : Prop :=
  ∀ d, roleAt d (p.role state) = if d = c then r else .idle

theorem Plays.some {c : C} {r : Role} {p : Pc C} {state : ProcState}
    (h : p.role state = some (c, r)) : Plays c r p state := by
  intro d
  rw [h, roleAt_some]

theorem Plays.none {c : C} {p : Pc C} {state : ProcState} (h : p.role state = none) :
    Plays c .idle p state := by
  intro d
  rw [h, roleAt_none, ite_self]

theorem Plays.role {s : State Thread Cpu L C} {c : C} {t : Thread} {r : Role} {p : Pc C}
    (hp : s.pc t = p) (h : Plays c r p (s.pstate t)) : s.role c t = r := by
  have := h c
  rwa [if_pos rfl, ← hp] at this

theorem role_of_roleAt {c : C} {o : Option (C × Role)} {r : Role} (h : roleAt c o = r)
    (hr : r ≠ .idle) : o = some (c, r) := by
  match o with
  | none => exact absurd h.symm hr
  | some (d, r') =>
    rw [roleAt_some] at h
    rcases eq_or_ne c d with rfl | hne
    · rw [if_pos rfl] at h
      rw [h]
    · exact absurd ((if_neg hne).symm.trans h).symm hr

/-- A thread whose role is inside the queue's lock is at a point inside it. -/
theorem lockPc_of_inside {p : Pc C} {state : ProcState} {c : C}
    (h : (roleAt c (p.role state)).Inside) : p.lockPc = some (c, .critical) := by
  have hr := role_of_roleAt (o := p.role state) rfl (c := c) fun he => by simp [he, Role.Inside] at h
  cases p with
  | run p | yielding p | away p | resuming p => exact Code.lockPc_of_inside hr
  | kernel p => exact Kernel.lockPc_of_inside hr h

/-- A waiter is parked from its release of the lock until it is made
`RUNNABLE` inside `sched`. -/
theorem parked_cases {p : Pc C} {state : ProcState} {c : C}
    (h : roleAt c (p.role state) = .parked) :
    p = .kernel (.sleepMark c) ∨ p = .kernel (.sleepSwitch c) ∨
      p = .kernel (.asleep c) ∧ state = .sleeping := by
  have hr := role_of_roleAt h (by simp)
  cases p with
  | run p | yielding p | away p | resuming p => exact absurd hr Code.role_ne_parked
  | kernel p =>
    cases p with
    | sleepMark d =>
      cases hr
      exact .inl rfl
    | sleepSwitch d =>
      obtain ⟨-, rfl⟩ : state = .sleeping ∧ d = c := by simpa [Pc.role, Kernel.role] using hr
      exact .inr (.inl rfl)
    | asleep d =>
      obtain ⟨hs, rfl⟩ : state = .sleeping ∧ d = c := by simpa [Pc.role, Kernel.role] using hr
      exact .inr (.inr ⟨rfl, hs⟩)
    | sleepUnlock d | wakeScan d | sleepDone d | wakeDone d => simp [Pc.role, Kernel.role] at hr

theorem waking_cases {p : Pc C} {state : ProcState} {c : C} {pid : Int}
    (h : roleAt c (p.role state) = .waking pid) :
    p.code = some (.signalWake c pid) ∨ p = .kernel (.wakeScan c pid) := by
  have hr := role_of_roleAt h (by simp)
  have code {p : Code C} (hr : p.role = some (c, .waking pid)) : p = .signalWake c pid := by
    cases p <;> simp_all [Code.role]
  cases p with
  | run p | yielding p | away p | resuming p => exact .inl (congrArg some (code hr))
  | kernel p =>
    cases p with
    | wakeScan d =>
      cases hr
      exact .inr rfl
    | _ => simp [Pc.role, Kernel.role] at hr

end

/-- `swtch` continues a thread inside `ptable.lock`, with what it knew. -/
theorem Pc.resume_spec {p p' : Pc C} (h : p.resume = some p') :
    p'.place = .holding ∧ p'.lockPc = p.lockPc ∧ p'.role .running = p.role .runnable := by
  cases p with
  | away p =>
    cases h
    exact ⟨rfl, rfl, rfl⟩
  | kernel p =>
    cases p with
    | asleep c =>
      cases h
      exact ⟨rfl, rfl, rfl⟩
    | _ => simp [Pc.resume] at h
  | _ => simp [Pc.resume] at h

-- ---------------------------------------------------------------------------
-- The ticket locks
-- ---------------------------------------------------------------------------

variable {cfg : Setup Thread L C}

structure Locked (cfg : Setup Thread L C) (locks : L → Ticket.State Thread) (pc : Thread → Pc C) :
    Prop where
  queued : ∀ l, ∃ a, Ticket.Queued (locks l) a
  lockPc : ∀ t c m, (pc t).lockPc = some (c, m) → (locks (cfg.lockOf c)).pc t = m

namespace Locked

variable {locks : L → Ticket.State Thread} {pc : Thread → Pc C} {t u : Thread} {c : C} {p : Pc C}

theorem exclusive (h : Locked cfg locks pc) {l : L} (ht : (locks l).pc t = .critical)
    (hu : (locks l).pc u = .critical) : t = u := by
  obtain ⟨a, ha⟩ := h.queued l
  exact ha.exclusive ht hu

theorem inside (h : Locked cfg locks pc) (ht : (pc t).lockPc = some (c, .critical))
    (hu : (pc u).lockPc = some (c, .critical)) : t = u :=
  h.exclusive (h.lockPc t c _ ht) (h.lockPc u c _ hu)

section
variable [DecidableEq Thread]

theorem goto (h : Locked cfg locks pc)
    (hp : ∀ c m, p.lockPc = some (c, m) → (locks (cfg.lockOf c)).pc t = m) :
    Locked cfg locks (update pc t p) := by
  refine ⟨h.queued, fun u c m hu => ?_⟩
  rcases eq_or_ne u t with rfl | hne
  · exact hp c m (by simpa using hu)
  · exact h.lockPc u c m (by rwa [Function.update_of_ne hne] at hu)

variable [Fintype Thread] [DecidableEq L]

theorem act (h : Locked cfg locks pc) (hcard : Fintype.card Thread < 2 ^ 32) {l : L}
    {a : Ticket.Act Thread} {lk : Ticket.State Thread} (hn : Ticket.next (locks l) a = some lk)
    (ha : a.thread = t)
    (hp : ∀ c m, p.lockPc = some (c, m) → (update locks l lk (cfg.lockOf c)).pc t = m) :
    Locked cfg (update locks l lk) (update pc t p) := by
  have other {u m} (hu : u ≠ t) : (update locks l lk m).pc u = (locks m).pc u := by
    rcases eq_or_ne m l with rfl | hne
    · rw [Function.update_self, Ticket.next_pc_of_ne hn (ha ▸ hu)]
    · rw [Function.update_of_ne hne]
  refine ⟨fun m => ?_, fun u c m hu => ?_⟩
  · rcases eq_or_ne m l with rfl | hne
    · obtain ⟨b, hb⟩ := h.queued m
      rw [Function.update_self]
      exact hb.next hcard hn
    · rw [Function.update_of_ne hne]
      exact h.queued m
  · rcases eq_or_ne u t with rfl | hne
    · exact hp c m (by simpa using hu)
    · rw [other hne]
      exact h.lockPc u c m (by rwa [Function.update_of_ne hne] at hu)

end

end Locked

-- ---------------------------------------------------------------------------
-- The invariant
-- ---------------------------------------------------------------------------

structure Inv [DecidableEq C] (cfg : Setup Thread L C) (s : State Thread Cpu L C)
    (q : C → List Thread) : Prop where
  sched : Sched s.proc s.ptable (fun t => (s.pc t).place) s.pstate
  locked : Locked cfg s.locks s.pc
  waiting : ∀ c, Waiting cfg.pid (s.role c) (s.conds c) (q c)

variable [DecidableEq C]
variable {s s' : State Thread Cpu L C} {q : C → List Thread} {t : Thread} {c : C} {p p' : Pc C}
variable {r r' : Role}

theorem Inv.initial (hs : Initial s) : Inv cfg s (fun _ => []) := by
  have hpc : s.pc = fun _ => .away .user := funext hs.pc
  refine ⟨?_, ?_, fun c => ?_⟩
  · refine ⟨by simp [hs.proc], ?_, by simp [hs.proc], ?_⟩ <;> simp [hpc, Pc.place]
  · refine ⟨fun l => ⟨⟨[], false⟩, hs.locks l ▸ Ticket.Queued.initial⟩, ?_⟩
    simp [hpc, Pc.lockPc, Code.lockPc]
  · have hr : s.role c = fun _ => .idle := by
      funext t
      simp [State.role, hpc, Pc.role, Code.role]
    rw [hr]
    exact .initial (hs.conds c)

theorem Inv.inside (h : Inv cfg s q) (hp : s.pc t = p) (hl : p.lockPc = some (c, .critical)) :
    ∀ u, (s.role c u).Inside → u = t :=
  fun _ hu => h.locked.inside (lockPc_of_inside hu) (hp ▸ hl)

/-- A step that changes no role and no queue. -/
theorem Inv.frame (h : Inv cfg s q)
    (sched : Sched s'.proc s'.ptable (fun t => (s'.pc t).place) s'.pstate)
    (locked : Locked cfg s'.locks s'.pc) (hr : ∀ c t, s'.role c t = s.role c t)
    (hc : s'.conds = s.conds) : Inv cfg s' q := by
  refine ⟨sched, locked, fun c => ?_⟩
  rw [hc, show s'.role c = s.role c from funext (hr c)]
  exact h.waiting c

/-- When `proc_wakeup` scans the table, the thread it was called for has
reached `sched`: until then it holds `ptable.lock` itself. -/
theorem Inv.target {p : Int} (h : Inv cfg s q) (hp : s.pc t = .kernel (.wakeScan c p)) :
    ∃ u, p = cfg.pid u ∧ u ∉ q c ∧ s.role c u = .parked ∧ s.pc u = .kernel (.asleep c) ∧
      s.pstate u = .sleeping := by
  have hw : s.role c t = .waking p := Plays.role hp (.some rfl)
  obtain ⟨-, u, hu, hpark, hq⟩ := (h.waiting c).knows_self (h.inside hp rfl) hw (by simp)
  refine ⟨u, hu, hq, hpark, ?_⟩
  have hold {p' : Pc C} (hp' : s.pc u = p') (hplace : p'.place = .holding) : p' = s.pc t := by
    rw [← hp', h.sched.holder_unique (t := u) (u := t) (by rw [hp', hplace]) (by rw [hp]; rfl)]
  rcases parked_cases hpark with hu | hu | hu
  · have := hp ▸ hold hu rfl
    simp at this
  · have := hp ▸ hold hu rfl
    simp at this
  · exact hu

section
variable [DecidableEq Thread]

omit [DecidableEq C] in
theorem place_goto (s : State Thread Cpu L C) :
    (fun u => ((s.goto t p).pc u).place) = update (fun u => (s.pc u).place) t p.place := by
  funext u
  rcases eq_or_ne u t with rfl | hne
  · simp [State.goto]
  · simp [State.goto, Function.update_of_ne hne]

omit [DecidableEq C] in
/-- A thread that stays free, or stays the holder of `ptable.lock`. -/
theorem Sched.goto (h : Sched s.proc s.ptable (fun t => (s.pc t).place) s.pstate)
    (hp : s.pc t = p) (hplace : p'.place = p.place) :
    Sched s.proc s.ptable (fun u => ((s.goto t p').pc u).place) s.pstate := by
  rw [place_goto, hplace, ← hp]
  simpa using h

theorem role_goto (hr : Plays c r p (s.pstate t)) (d : C) :
    (s.goto t p).role d = update (s.role d) t (if d = c then r else .idle) := by
  funext u
  rcases eq_or_ne u t with rfl | hne
  · simp [State.role, State.goto, hr d]
  · simp [State.role, State.goto, Function.update_of_ne hne]

/-- A step from `p` to `p'` inside a call on `c` concerns the queue of `c`. -/
theorem Inv.waiting_goto {cvar : Cvar} {l : List Thread} (h : Inv cfg s q) (hp : s.pc t = p)
    (hr : Plays c r p (s.pstate t)) (hr' : Plays c r' p' (s.pstate t))
    (hw : Waiting cfg.pid (update (s.role c) t r') cvar l) (d : C) :
    Waiting cfg.pid ((s.goto t p').role d) (update s.conds c cvar d) (update q c l d) := by
  rw [role_goto hr']
  rcases eq_or_ne d c with rfl | hne
  · simpa using hw
  · have hd : s.role d t = .idle := by
      have := hr d
      rwa [← hp, if_neg hne] at this
    rw [if_neg hne, ← hd]
    simpa [hne] using h.waiting d

/-- A step inside a call on `c` that leaves the CPUs and the locks alone. -/
theorem Inv.move {cvar : Cvar} {l : List Thread} (h : Inv cfg s q) (hp : s.pc t = p)
    (hr : Plays c r p (s.pstate t)) (hr' : Plays c r' p' (s.pstate t))
    (hplace : p'.place = p.place)
    (hlock : ∀ c m, p'.lockPc = some (c, m) → (s.locks (cfg.lockOf c)).pc t = m)
    (hw : Waiting cfg.pid (update (s.role c) t r') cvar l) :
    Inv cfg ((s.setCond c cvar).goto t p') (update q c l) :=
  ⟨h.sched.goto hp hplace, h.locked.goto hlock, h.waiting_goto hp hr hr' hw⟩

/-- Such a step that neither queues nor dequeues a thread. -/
theorem Inv.touch {cvar : Cvar} (h : Inv cfg s q) (hp : s.pc t = p)
    (hr : Plays c r p (s.pstate t)) (hr' : Plays c r' p' (s.pstate t))
    (hplace : p'.place = p.place)
    (hlock : ∀ c m, p'.lockPc = some (c, m) → (s.locks (cfg.lockOf c)).pc t = m)
    (hw : Waiting cfg.pid (update (s.role c) t r') cvar (q c)) :
    Inv cfg ((s.setCond c cvar).goto t p') q := by
  simpa using h.move hp hr hr' hplace hlock hw

/-- Two points with the same role mean the same to every queue. -/
theorem role_still (hp : s.pc t = p) (hr : p'.role (s.pstate t) = p.role (s.pstate t))
    (d : C) (u : Thread) : (s.goto t p').role d u = s.role d u := by
  rcases eq_or_ne u t with rfl | hne
  · simp [State.role, State.goto, hp, hr]
  · simp [State.role, State.goto, Function.update_of_ne hne]

theorem role_setState_goto {state : ProcState}
    (hr : p'.role state = (s.pc t).role (s.pstate t)) (d : C) (u : Thread) :
    ((s.setState t state).goto t p').role d u = s.role d u := by
  rcases eq_or_ne u t with rfl | hne
  · simp [State.role, State.goto, State.setState, hr]
  · simp [State.role, State.goto, State.setState, Function.update_of_ne hne]

theorem Inv.still (h : Inv cfg s q) (hp : s.pc t = p)
    (hr : p'.role (s.pstate t) = p.role (s.pstate t)) (hplace : p'.place = p.place)
    (hlock : ∀ c m, p'.lockPc = some (c, m) → (s.locks (cfg.lockOf c)).pc t = m) :
    Inv cfg (s.goto t p') q :=
  h.frame (h.sched.goto hp hplace) (h.locked.goto hlock) (role_still hp hr) rfl

/-- A change of `state` that means nothing to the queues. -/
theorem Inv.setState {state : ProcState} (h : Inv cfg s q)
    (hr : (s.pc t).role state = (s.pc t).role (s.pstate t))
    (hs : state = .runnable → (s.pc t).place = .off) : Inv cfg (s.setState t state) q := by
  refine h.frame (h.sched.setState fun u hu => ?_) h.locked ?_ rfl
  · rcases eq_or_ne u t with rfl | hne
    · exact .inr (hs (by simpa [State.setState] using hu))
    · exact .inl (by simpa [State.setState, hne] using hu)
  · intro d u
    rw [← role_setState_goto (s := s) hr d u, State.goto, State.setState, Function.update_eq_self]

theorem Inv.scan {p : Int} {u : Thread} (h : Inv cfg s q) (hp : s.pc t = .kernel (.wakeScan c p))
    (hu : p = cfg.pid u) (hq : u ∉ q c) (hpark : s.role c u = .parked)
    (hpc : s.pc u = .kernel (.asleep c)) :
    Inv cfg ((s.setState u .runnable).goto t (.kernel (.wakeDone c))) q := by
  have hut : u ≠ t := by
    rintro rfl
    simp [hp] at hpc
  have hrole (d : C) : ((s.setState u .runnable).goto t (.kernel (.wakeDone c))).role d =
      update (update (s.role d) t .idle) u .idle := by
    funext v
    rcases eq_or_ne v u with rfl | hvu
    · simp [State.role, State.goto, State.setState, hut, hpc, Pc.role, Kernel.role]
    rw [Function.update_of_ne hvu]
    rcases eq_or_ne v t with rfl | hvt
    · simp [State.role, State.goto, Pc.role, Kernel.role]
    · simp [State.role, State.goto, State.setState, hvu, hvt]
  have hl := h.locked.lockPc t c .critical (by rw [hp]; rfl)
  refine ⟨?_, h.locked.goto ?_, fun d => ?_⟩
  · refine Sched.goto (s := s.setState u .runnable) (h.sched.setState fun v hv => ?_) hp rfl
    rcases eq_or_ne v u with rfl | hne
    · exact .inr (by rw [hpc]; rfl)
    · exact .inl (by simpa [State.setState, hne] using hv)
  · rintro d m ⟨⟩
    exact hl
  · rw [hrole d]
    rcases eq_or_ne d c with rfl | hne
    · exact (h.waiting d).scan (h.inside hp rfl) (Plays.role hp (.some rfl)) hu hpark hq cfg.pid_inj
    · have ht : s.role d t = .idle := by simp [State.role, hp, Pc.role, Kernel.role, hne]
      have hu : s.role d u = .idle := by
        simp only [State.role, hpc, Pc.role, Kernel.role]
        split <;> simp [hne]
      rw [← ht, Function.update_eq_self, ht, ← hu, Function.update_eq_self]
      exact h.waiting d

end

end PerrOS.Cond
