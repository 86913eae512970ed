import PerrOS.Cond.Invariant

/-!
# No lost wake-up

Every step keeps the invariant and moves threads through the queues in
arrival order; the facts about a whole run follow.
-/

namespace PerrOS.Cond

open Function (update)
open Lib (System)
open Xv6 (ProcState)

variable {Thread Cpu L C : Type}
variable [DecidableEq C]
variable {cfg : Setup Thread L C} {s s' : State Thread Cpu L C} {q : C → List Thread}
variable {k : Cpu} {t : Thread} {c : C}

/-- The step `l` adds to the ends of the queues what it enqueues, and takes
from their fronts what it dequeues. -/
def Moves (pid : Thread → Int) (q : C → List Thread) (l : Label Thread Cpu L C)
    (q' : C → List Thread) : Prop :=
  ∀ d, (q d ++ enqueued d [l]).map pid = dequeued d [l] ++ (q' d).map pid

theorem Moves.stay {pid : Thread → Int} {l : Label Thread Cpu L C}
    (he : ∀ d, enqueued d [l] = []) (hd : ∀ d, dequeued d [l] = []) : Moves pid q l q := by
  intro d
  simp [he, hd]

variable [DecidableEq Thread]

section
variable [DecidableEq Cpu] [DecidableEq L] [Fintype Thread]

-- ---------------------------------------------------------------------------
-- The steps of `cv_wait`
-- ---------------------------------------------------------------------------

theorem Inv.waitStep (hcard : Fintype.card Thread < 2 ^ 32) {a : WaitStep} (h : Inv cfg s q)
    (hok : hasRoom s (.wait k t c a)) (hs : waitStep cfg s k t c a = some s') :
    ∃ q', Inv cfg s' q' ∧ Moves cfg.pid q (.wait k t c a : Label Thread Cpu L C) q' := by
  cases a with
  | call =>
    obtain ⟨hl, hs⟩ := Option.ite_none_right_eq_some.mp hs
    obtain ⟨⟨-, hp⟩, rfl⟩ := State.step_eq_some.mp hs
    refine ⟨q, h.still hp rfl rfl ?_, .stay (fun _ => rfl) fun _ => rfl⟩
    rintro d m ⟨⟩
    exact hl
  | test =>
    obtain ⟨⟨-, hp⟩, rfl⟩ := State.step_eq_some.mp hs
    have hl := h.locked.lockPc t c .critical (by rw [hp]; rfl)
    obtain ⟨hfull, hw⟩ := (h.waiting c).test_room (h.inside hp rfl)
      (Plays.role hp (.none rfl)) hok
    rw [hfull]
    refine ⟨q, h.touch hp (.none rfl) (.some rfl) rfl ?_ hw, .stay (fun _ => rfl) fun _ => rfl⟩
    rintro d m ⟨⟩
    exact hl
  | store =>
    obtain ⟨⟨-, hp⟩, rfl⟩ := State.step_eq_some.mp hs
    have hl := h.locked.lockPc t c .critical (by rw [hp]; rfl)
    have hw := (h.waiting c).store (h.inside hp rfl) (Plays.role hp (.some rfl))
    refine ⟨q, h.touch hp (.some rfl) (.some rfl) rfl ?_ hw, .stay (fun _ => rfl) fun _ => rfl⟩
    rintro d m ⟨⟩
    exact hl
  | enqueue =>
    obtain ⟨⟨-, hp⟩, rfl⟩ := State.step_eq_some.mp hs
    have hl := h.locked.lockPc t c .critical (by rw [hp]; rfl)
    have hw := (h.waiting c).enqueue (h.inside hp rfl) (Plays.role hp (.some rfl))
    refine ⟨_, h.move hp (.some rfl) (.some rfl) rfl ?_ hw, fun d => ?_⟩
    · rintro d m ⟨⟩
      exact hl
    · rcases eq_or_ne d c with rfl | hne
      · simp [enqueued, dequeued]
      · simp [enqueued, dequeued, hne, Ne.symm hne]
  | acquire =>
    obtain ⟨hfree, hs⟩ := Option.ite_none_right_eq_some.mp hs
    obtain ⟨⟨hk, hp⟩, rfl⟩ := State.step_eq_some.mp hs
    have hl := h.locked.lockPc t c .critical (by rw [hp]; rfl)
    refine ⟨q, h.frame ?_ (h.locked.goto ?_) (role_still hp rfl) rfl,
      .stay (fun _ => rfl) fun _ => rfl⟩
    · rw [place_goto]
      exact (hfree ▸ h.sched).acquire hk
    · rintro d m ⟨⟩
      exact hl
  | unlock =>
    obtain ⟨⟨-, hp⟩, rfl⟩ := State.step_eq_some.mp hs
    have hl := h.locked.lockPc t c .critical (by rw [hp]; rfl)
    have hw := (h.waiting c).unlock (h.inside hp rfl) (Plays.role hp (.some rfl))
    refine ⟨q, ⟨h.sched.goto hp rfl, h.locked.act hcard (Ticket.next_release.mpr ⟨hl, rfl⟩) rfl ?_,
      fun d => ?_⟩, .stay (fun _ => rfl) fun _ => rfl⟩
    · rintro d m ⟨⟩
      simp [Ticket.release]
    · have hr : Plays c .parked (.kernel (.sleepMark c)) (s.pstate t) := .some rfl
      have := h.waiting_goto hp (.some rfl) hr hw d
      simp only [Function.update_eq_self] at this
      exact this
  | mark =>
    obtain ⟨⟨-, hp⟩, rfl⟩ := State.step_eq_some.mp hs
    have hl := h.locked.lockPc t c .outside (by rw [hp]; rfl)
    have h' : Inv cfg (s.setState t .sleeping) q := h.setState (by rw [hp]; rfl) (by simp)
    refine ⟨q, h'.still hp ?_ rfl ?_, .stay (fun _ => rfl) fun _ => rfl⟩
    · simp [State.setState, Pc.role, Kernel.role]
    · rintro d m ⟨⟩
      exact hl
  | switch =>
    obtain ⟨⟨hk, hp⟩, rfl⟩ := State.step_eq_some.mp hs
    have hl := h.locked.lockPc t c .outside (by rw [hp]; rfl)
    refine ⟨q, h.frame ?_ (h.locked.goto ?_) (role_still hp rfl) rfl,
      .stay (fun _ => rfl) fun _ => rfl⟩
    · rw [place_goto]
      exact h.sched.switch (by rw [hp]; rfl) hk
    · rintro d m ⟨⟩
      exact hl
  | leave =>
    obtain ⟨⟨hk, hp⟩, rfl⟩ := State.step_eq_some.mp hs
    have hl := h.locked.lockPc t c .outside (by rw [hp]; rfl)
    refine ⟨q, h.frame ?_ (h.locked.goto ?_) (role_still hp rfl) rfl,
      .stay (fun _ => rfl) fun _ => rfl⟩
    · rw [place_goto]
      exact h.sched.release (by rw [hp]; rfl)
    · rintro d m ⟨⟩
      exact hl
  | take =>
    obtain ⟨⟨hk, hp⟩, rfl⟩ := State.step_eq_some.mp hs
    have hl := h.locked.lockPc t c .outside (by rw [hp]; rfl)
    refine ⟨q, h.frame (h.sched.goto hp rfl)
      (h.locked.act hcard (Ticket.next_take.mpr ⟨hl, rfl⟩) rfl ?_)
      (role_still hp rfl) rfl, .stay (fun _ => rfl) fun _ => rfl⟩
    rintro d m ⟨⟩
  | spin =>
    obtain ⟨lk, -, hs⟩ := Option.bind_eq_some_iff.mp hs
    obtain ⟨-, rfl⟩ := State.step_eq_some.mp hs
    exact ⟨q, h, .stay (fun _ => rfl) fun _ => rfl⟩
  | ret =>
    obtain ⟨lk, hn, hs⟩ := Option.bind_eq_some_iff.mp hs
    obtain ⟨⟨-, hp⟩, rfl⟩ := State.step_eq_some.mp hs
    refine ⟨q, h.frame (h.sched.goto hp rfl) (h.locked.act hcard hn rfl ?_)
      (role_still hp rfl) rfl, .stay (fun _ => rfl) fun _ => rfl⟩
    rintro d m ⟨⟩

end

-- ---------------------------------------------------------------------------
-- The steps of `cv_signal`
-- ---------------------------------------------------------------------------

theorem Inv.signalStep {a : SignalStep} (h : Inv cfg s q)
    (hs : signalStep cfg s k t c a = some s') :
    ∃ q', Inv cfg s' q' ∧ Moves cfg.pid q (.signal k t c a : Label Thread Cpu L C) q' := by
  cases a with
  | call =>
    obtain ⟨hl, hs⟩ := Option.ite_none_right_eq_some.mp hs
    obtain ⟨⟨-, hp⟩, rfl⟩ := State.step_eq_some.mp hs
    refine ⟨q, h.still hp rfl rfl ?_, .stay (fun _ => rfl) fun _ => rfl⟩
    rintro d m ⟨⟩
    exact hl
  | test =>
    obtain ⟨⟨-, hp⟩, rfl⟩ := State.step_eq_some.mp hs
    have hl := h.locked.lockPc t c .critical (by rw [hp]; rfl)
    have hr : s.role c t = .idle := Plays.role hp (.none rfl)
    by_cases he : (s.conds c).ready.head = (s.conds c).ready.tail
    · rw [if_pos he]
      have hw : Waiting cfg.pid (update (s.role c) t .idle) (s.conds c).ready (q c) := by
        rw [← hr, Function.update_eq_self]
        exact (h.waiting c).ready
      refine ⟨q, h.touch hp (.none rfl) (.none rfl) rfl ?_ hw, .stay (fun _ => rfl) fun _ => rfl⟩
      rintro d m ⟨⟩
    · rw [if_neg he]
      have hw := (h.waiting c).test_found (h.inside hp rfl) hr he
      refine ⟨q, h.touch hp (.none rfl) (.some rfl) rfl ?_ hw, .stay (fun _ => rfl) fun _ => rfl⟩
      rintro d m ⟨⟩
      exact hl
  | load =>
    obtain ⟨⟨-, hp⟩, rfl⟩ := State.step_eq_some.mp hs
    have hl := h.locked.lockPc t c .critical (by rw [hp]; rfl)
    have hw := (h.waiting c).load (h.inside hp rfl) (Plays.role hp (.some rfl))
    let p := (s.conds c).queue (s.conds c).head
    have hr : Plays c (.loaded p) (.run (.signalClear c p)) (s.pstate t) := .some rfl
    have := h.touch hp (.some rfl) hr rfl (by rintro d m ⟨⟩; exact hl) hw
    rw [State.setCond, Function.update_eq_self] at this
    exact ⟨q, this, .stay (fun _ => rfl) fun _ => rfl⟩
  | clear p =>
    obtain ⟨⟨-, hp⟩, rfl⟩ := State.step_eq_some.mp hs
    have hl := h.locked.lockPc t c .critical (by rw [hp]; rfl)
    have hw := (h.waiting c).clear (h.inside hp rfl) (Plays.role hp (.some rfl))
    refine ⟨q, h.touch hp (.some rfl) (.some rfl) rfl ?_ hw, .stay (fun _ => rfl) fun _ => rfl⟩
    rintro d m ⟨⟩
    exact hl
  | dequeue p =>
    obtain ⟨⟨-, hp⟩, rfl⟩ := State.step_eq_some.mp hs
    have hl := h.locked.lockPc t c .critical (by rw [hp]; rfl)
    obtain ⟨u, l, hq, hu, hw⟩ := (h.waiting c).dequeue (h.inside hp rfl)
      (Plays.role hp (.some rfl))
    refine ⟨_, h.move hp (.some rfl) (.some rfl) rfl ?_ hw, fun d => ?_⟩
    · rintro d m ⟨⟩
      exact hl
    · rcases eq_or_ne d c with rfl | hne
      · simp [enqueued, dequeued, hq, hu]
      · simp [enqueued, dequeued, hne, Ne.symm hne]
  | acquire p =>
    obtain ⟨hfree, hs⟩ := Option.ite_none_right_eq_some.mp hs
    obtain ⟨⟨hk, hp⟩, rfl⟩ := State.step_eq_some.mp hs
    have hl := h.locked.lockPc t c .critical (by rw [hp]; rfl)
    refine ⟨q, h.frame ?_ (h.locked.goto ?_) (role_still hp rfl) rfl,
      .stay (fun _ => rfl) fun _ => rfl⟩
    · rw [place_goto]
      exact (hfree ▸ h.sched).acquire hk
    · rintro d m ⟨⟩
      exact hl
  | scan p =>
    obtain ⟨⟨-, hp⟩, rfl⟩ := State.step_eq_some.mp hs
    obtain ⟨u, hu, hq, hpark, hpc, hst⟩ := h.target hp
    have hwoken : (fun v => if s.pstate v = .sleeping ∧ cfg.pid v = p then .runnable
        else s.pstate v) = update s.pstate u .runnable := by
      funext v
      rcases eq_or_ne v u with rfl | hne
      · simp [hst, hu]
      · rw [Function.update_of_ne hne, if_neg]
        rintro ⟨-, hv⟩
        exact hne (cfg.pid_inj (hv.trans hu))
    refine ⟨q, ?_, .stay (fun _ => rfl) fun _ => rfl⟩
    rw [hwoken]
    exact h.scan hp hu hq hpark hpc
  | leave =>
    obtain ⟨⟨hk, hp⟩, rfl⟩ := State.step_eq_some.mp hs
    refine ⟨q, h.frame ?_ (h.locked.goto ?_) (role_still hp rfl) rfl,
      .stay (fun _ => rfl) fun _ => rfl⟩
    · rw [place_goto]
      exact h.sched.release (by rw [hp]; rfl)
    · rintro d m ⟨⟩

-- ---------------------------------------------------------------------------
-- Every step
-- ---------------------------------------------------------------------------

variable [DecidableEq Cpu]

theorem Inv.dispatch {p : Pc C} (h : Inv cfg s q) (hk : s.proc k = none)
    (hlock : s.ptable = some k) (hst : s.pstate t = .runnable) (hp : (s.pc t).resume = some p) :
    Inv cfg (((s.setProc k (some t)).setState t .running).goto t p) q := by
  obtain ⟨hplace, hl, hr⟩ := Pc.resume_spec hp
  refine h.frame ?_ (h.locked.goto fun d m hm => h.locked.lockPc t d m (hl ▸ hm))
    (role_setState_goto (hst ▸ hr)) rfl
  rw [place_goto, hplace]
  have := (hlock ▸ h.sched).dispatch hk (h.sched.runnable t hst)
  rwa [← hlock] at this

variable [DecidableEq L]

theorem Inv.next [Fintype Thread] (hcard : Fintype.card Thread < 2 ^ 32) {l : Label Thread Cpu L C}
    (h : Inv cfg s q) (hok : hasRoom s l) (hs : next cfg s l = some s') :
    ∃ q', Inv cfg s' q' ∧ Moves cfg.pid q l q' := by
  cases l with
  | schedAcquire k =>
    obtain ⟨⟨hk, hfree⟩, hs⟩ := Option.ite_none_right_eq_some.mp hs
    cases hs
    exact ⟨q, h.frame (h.sched.scheduler hk (.inl hfree) _) h.locked (fun _ _ => rfl) rfl,
      .stay (fun _ => rfl) fun _ => rfl⟩
  | dispatch k t =>
    obtain ⟨⟨hk, hlock, hst⟩, hs⟩ := Option.ite_none_right_eq_some.mp hs
    obtain ⟨p, hp, rfl⟩ := Option.map_eq_some_iff.mp hs
    exact ⟨q, h.dispatch hk hlock hst hp, .stay (fun _ => rfl) fun _ => rfl⟩
  | schedRelease k =>
    obtain ⟨⟨hk, hlock⟩, hs⟩ := Option.ite_none_right_eq_some.mp hs
    cases hs
    exact ⟨q, h.frame (h.sched.scheduler hk (.inr hlock) _) h.locked (fun _ _ => rfl) rfl,
      .stay (fun _ => rfl) fun _ => rfl⟩
  | yieldAcquire k t p state =>
    obtain ⟨⟨hfree, -⟩, hs⟩ := Option.ite_none_right_eq_some.mp hs
    obtain ⟨⟨hk, hp⟩, rfl⟩ := State.step_eq_some.mp hs
    refine ⟨q, h.frame ?_ (h.locked.goto ?_) (role_still hp rfl) rfl,
      .stay (fun _ => rfl) fun _ => rfl⟩
    · rw [place_goto]
      exact (hfree ▸ h.sched).acquire hk
    · intro d m hm
      exact h.locked.lockPc t d m (hp ▸ hm)
  | yieldSwitch k t p state =>
    obtain ⟨⟨hk, hp⟩, rfl⟩ := State.step_eq_some.mp hs
    refine ⟨q, h.frame ?_ (h.locked.goto ?_) (role_setState_goto (by rw [hp]; rfl)) rfl,
      .stay (fun _ => rfl) fun _ => rfl⟩
    · rw [place_goto]
      refine (h.sched.switch (by rw [hp]; rfl) hk).setState fun u hu => ?_
      rcases eq_or_ne u t with rfl | hne
      · exact .inr (Function.update_self ..)
      · exact .inl (by simpa [State.goto, State.setProc, State.setState, hne] using hu)
    · intro d m hm
      exact h.locked.lockPc t d m (hp ▸ hm)
  | yieldRelease k t p =>
    obtain ⟨⟨hk, hp⟩, rfl⟩ := State.step_eq_some.mp hs
    refine ⟨q, h.frame ?_ (h.locked.goto ?_) (role_still hp rfl) rfl,
      .stay (fun _ => rfl) fun _ => rfl⟩
    · rw [place_goto]
      exact h.sched.release (by rw [hp]; rfl)
    · intro d m hm
      exact h.locked.lockPc t d m (hp ▸ hm)
  | wakeOther t p =>
    obtain ⟨⟨-, hp, -⟩, hs⟩ := Option.ite_none_right_eq_some.mp hs
    cases hs
    exact ⟨q, h.setState (by rw [hp]; rfl) fun _ => by rw [hp]; rfl,
      .stay (fun _ => rfl) fun _ => rfl⟩
  | lock k l t a =>
    obtain ⟨ha, hs⟩ := Option.ite_none_right_eq_some.mp hs
    obtain ⟨lk, hn, hs⟩ := Option.bind_eq_some_iff.mp hs
    obtain ⟨⟨-, hp⟩, rfl⟩ := State.step_eq_some.mp hs
    have hl : Locked cfg (update s.locks l lk) (update s.pc t (s.pc t)) := by
      refine h.locked.act hcard hn ha ?_
      rw [hp]
      rintro d m ⟨⟩
    rw [Function.update_eq_self] at hl
    exact ⟨q, h.frame h.sched hl (fun _ _ => rfl) rfl, .stay (fun _ => rfl) fun _ => rfl⟩
  | wait k t c a => exact h.waitStep hcard hok hs
  | signal k t c a => exact h.signalStep hs

/-- The queues of a run: what was queued and is not dequeued yet. -/
theorem run_inv {ls : List (Label Thread Cpu L C)}
    (h : ((system cfg).restrict hasRoom).Run ls s) :
    ∃ q, Inv cfg s q ∧
      ∀ c, (enqueued c ls).map cfg.pid = dequeued c ls ++ (q c).map cfg.pid := by
  refine h.invariant (P := fun ls s => ∃ q, Inv cfg s q ∧
    ∀ c, (enqueued c ls).map cfg.pid = dequeued c ls ++ (q c).map cfg.pid)
    (fun s hs => ⟨_, .initial hs, fun c => rfl⟩) ?_
  rintro ls s l s' ⟨q, hi, hq⟩ ⟨hs, hok⟩
  obtain ⟨_, hcard⟩ := cfg.few_threads
  obtain ⟨q', hi', hm⟩ := hi.next hcard hok hs
  refine ⟨q', hi', fun c => ?_⟩
  have he : enqueued c (ls ++ [l]) = enqueued c ls ++ enqueued c [l] := List.filterMap_append ..
  have hd : dequeued c (ls ++ [l]) = dequeued c ls ++ dequeued c [l] := List.filterMap_append ..
  calc (enqueued c (ls ++ [l])).map cfg.pid
      = dequeued c ls ++ (q c ++ enqueued c [l]).map cfg.pid := by simp [he, hq]
    _ = dequeued c ls ++ (dequeued c [l] ++ (q' c).map cfg.pid) := by rw [hm c]
    _ = dequeued c (ls ++ [l]) ++ (q' c).map cfg.pid := by rw [hd, List.append_assoc]

/-- A thread has taken the pid out of the queue of `c` and is yet to scan the
table for it. -/
def waking (s : State Thread Cpu L C) (c : C) (pid : Int) : Prop :=
  ∃ u, (s.pc u).code = some (.signalWake c pid) ∨ s.pc u = .kernel (.wakeScan c pid)

theorem no_lost_wakeup {ls : List (Label Thread Cpu L C)}
    (h : ((system cfg).restrict hasRoom).Run ls s) (c : C) :
    ∃ waiting : List Thread,
      -- waiters are dequeued in arrival order
      (enqueued c ls).map cfg.pid = dequeued c ls ++ waiting.map cfg.pid ∧
      -- the scan finds the thread it was called for asleep, and wakes it
      (∀ k u p s', next cfg s (.signal k u c (.scan p)) = some s' →
        ∃ t, cfg.pid t = p ∧ s.pc t = .kernel (.asleep c) ∧ s.pstate t = .sleeping ∧
          s'.pstate t = .runnable) ∧
      -- who is asleep is queued, or about to be woken
      (∀ t, s.pc t = .kernel (.asleep c) → s.pstate t = .sleeping →
        t ∈ waiting ∨ waking s c (cfg.pid t)) ∧
      -- who returns has been dequeued as often as it queued, and holds the lock
      (∀ k t s', next cfg s (.wait k t c .ret) = some s' →
        (dequeued c ls).count (cfg.pid t) = (enqueued c ls).count t ∧
        (s'.locks (cfg.lockOf c)).pc t = .critical ∧
        ∀ u, (s'.locks (cfg.lockOf c)).pc u = .critical → u = t) := by
  obtain ⟨q, hi, hq⟩ := run_inv h
  refine ⟨q c, hq c, ?_, ?_, ?_⟩
  · intro k u p s' hs
    obtain ⟨⟨-, hp⟩, rfl⟩ := State.step_eq_some.mp hs
    obtain ⟨t, ht, -, -, hpc, hst⟩ := hi.target hp
    exact ⟨t, ht.symm, hpc, hst, by simp [State.goto, hst, ht]⟩
  · intro t hp hst
    have hpark : s.role c t = .parked :=
      Plays.role hp (.some (by simp [hst, Pc.role, Kernel.role]))
    exact ((hi.waiting c).parked t hpark).imp_right (Exists.imp fun u => waking_cases)
  · intro k t s' hs
    obtain ⟨lk, hn, hs⟩ := Option.bind_eq_some_iff.mp hs
    obtain ⟨⟨-, hp⟩, rfl⟩ := State.step_eq_some.mp hs
    have hr : s.role c t = .idle := Plays.role hp (.none rfl)
    have ht : t ∉ q c := (hi.waiting c).not_mem (by simp [hr]) (by simp [hr])
    have hcrit : lk.pc t = .critical := by
      obtain ⟨-, rfl⟩ := Ticket.next_enter.mp hn
      simp
    obtain ⟨a, ha⟩ := hi.locked.queued (cfg.lockOf c)
    obtain ⟨_, hcard⟩ := cfg.few_threads
    obtain ⟨b, hb⟩ := ha.next hcard hn
    refine ⟨?_, by simpa [State.goto, State.setLock] using hcrit, fun u hu => ?_⟩
    · have hcount := congrArg (List.count (cfg.pid t)) (hq c)
      rw [List.count_map_of_injective _ _ cfg.pid_inj, List.count_append,
        List.count_map_of_injective _ _ cfg.pid_inj, List.count_eq_zero_of_not_mem ht] at hcount
      simpa using hcount.symm
    · exact hb.exclusive (by simpa [State.goto, State.setLock] using hu) hcrit

/-- Two threads and one condition variable. -/
def pair : Setup (Fin 2) Unit Unit where
  pid t := 4 + t.val
  pid_inj := by decide
  pid_range := by decide
  lockOf _ := ()

def pairStart : State (Fin 2) (Fin 2) Unit Unit where
  locks _ := .initial
  conds _ := ⟨0, 0, false, fun _ => 0⟩
  pc _ := .away .user
  pstate _ := .runnable
  proc _ := none
  ptable := none

/-- Thread 0 waits, and thread 1 signals between its release of the lock and
its sleep. -/
def pairRun : List (Label (Fin 2) (Fin 2) Unit Unit) :=
  [.schedAcquire 0, .dispatch 0 0, .yieldRelease 0 0 .user,
    .schedAcquire 1, .dispatch 1 1, .yieldRelease 1 1 .user,
    .lock 0 () 0 (.take 0), .lock 0 () 0 (.enter 0)] ++
  [WaitStep.call, .test, .store, .enqueue, .acquire, .unlock].map (.wait 0 0 () ·) ++
  [.lock 1 () 1 (.take 1), .lock 1 () 1 (.enter 1)] ++
  [SignalStep.call, .test, .load, .clear 4, .dequeue 4].map (.signal 1 1 () ·) ++
  [.wait 0 0 () .mark, .wait 0 0 () .switch, .schedRelease 0, .signal 1 1 () (.acquire 4)]

theorem no_lost_wakeup_pair :
    ∃ s : State (Fin 2) (Fin 2) Unit Unit,
      ((system pair).restrict hasRoom).Run pairRun s ∧
      ∃ s', next pair s (.signal 1 1 () (.scan 4)) = some s' ∧
        ∃ t, pair.pid t = 4 ∧ s.pc t = .kernel (.asleep ()) ∧ s.pstate t = .sleeping ∧
          s'.pstate t = .runnable := by
  have start : Initial pairStart :=
    ⟨fun _ => rfl, fun _ => nofun, fun _ => rfl, fun _ => rfl, rfl⟩
  have run : ((system pair).restrict hasRoom).Run pairRun _ := System.run_exec_restrict start rfl
  obtain ⟨-, -, scan, -⟩ := no_lost_wakeup run ()
  exact ⟨_, run, _, rfl, scan 1 1 4 _ rfl⟩

end PerrOS.Cond
