import PerrOS.Cond.Variable
import PerrOS.Lib.Fifo
import PerrOS.Lib.Ring

/-!
# The queue as a FIFO

`cv_wait` up to its call of `ticket_sleep` and `cv_signal` as the operations
of a bounded queue. They are one as long as no pid goes to the last slot while
the head is at the first: there `cv_wait` compares `tail + 1` with `head`
before it takes the remainder, and the full queue looks empty afterwards.
-/

namespace PerrOS.Cond

open Function (update)
open Lib (System Ring)
open Lib.Fifo (Event)

/-- `cv_wait` called by the process `currPid`; the flag says that it has
queued. -/
def enqueue (cvar : Cvar) (currPid : Int) : Cvar × Bool :=
  let cvar := cvar.ready
  if cvar.full then (cvar, false)
  else
    ({ cvar with
      queue := update cvar.queue cvar.tail currPid
      tail := (cvar.tail + 1) % CVAR_QUEUE_SIZE }, true)

/-- `cv_signal`, with the pid it wakes. -/
def dequeue (cvar : Cvar) : Cvar × Option Int :=
  let cvar := cvar.ready
  if cvar.head = cvar.tail then (cvar, none)
  else
    ({ cvar with
      queue := update cvar.queue cvar.head (-1)
      head := (cvar.head + 1) % CVAR_QUEUE_SIZE }, some (cvar.queue cvar.head))

section
variable {Thread Cpu L C : Type}
variable [DecidableEq Thread] [DecidableEq Cpu] [DecidableEq L] [DecidableEq C]
variable {cfg : Setup Thread L C} {s : State Thread Cpu L C} {k : Cpu} {t : Thread} {c : C}

/-- The steps of `cv_wait` in the system, taken one after the other. -/
theorem enqueue_steps (hproc : s.proc k = some t) (hpc : s.pc t = .run (.waitTest c))
    (hroom : (s.conds c).ready.full = false) :
    (System.exec (next cfg) s
      [.wait k t c .test, .wait k t c .store, .wait k t c .enqueue]).map (·.conds c) =
      some (enqueue (s.conds c) (cfg.pid t)).1 := by
  simp [System.exec, next, waitStep, State.step, State.goto, State.setCond, enqueue, hproc, hpc,
    hroom]

/-- Those of `cv_signal`, where a pid is queued. -/
theorem dequeue_steps {pid : Int} (hproc : s.proc k = some t)
    (hpc : s.pc t = .run (.signalTest c)) (hpid : (dequeue (s.conds c)).2 = some pid) :
    (System.exec (next cfg) s
      [.signal k t c .test, .signal k t c .load, .signal k t c (.clear pid),
        .signal k t c (.dequeue pid)]).map (·.conds c) = some (dequeue (s.conds c)).1 := by
  by_cases hne : (s.conds c).ready.head = (s.conds c).ready.tail
  · simp [dequeue, hne] at hpid
  · obtain rfl : (s.conds c).ready.queue (s.conds c).ready.head = pid := by
      simpa [dequeue, hne] using hpid
    simp [dequeue, System.exec, next, signalStep, State.step, State.goto, State.setCond, hproc, hpc, hne]

end

/-- A call that comes out as the event says. -/
def queueNext (cvar : Cvar) : Event Int → Option Cvar
  | .refuse pid => if (enqueue cvar pid).2 then none else some (enqueue cvar pid).1
  | .push pid => if (enqueue cvar pid).2 then some (enqueue cvar pid).1 else none
  | .pop pid => if (dequeue cvar).2 = some pid then some (dequeue cvar).1 else none
  | .idle => if (dequeue cvar).2 = none then some (dequeue cvar).1 else none

/-- What `cv_init` leaves. -/
def Fresh (cvar : Cvar) : Prop := ∃ c, cvar = cvInit c

/-- One `cond_t`, from `cv_init` on. -/
def queue : System Cvar (Event Int) := .ofNext Fresh queueNext

/-- A list of pids, at most as many as the array holds. -/
def fifo : System (List Int) (Event Int) := Lib.Fifo.system (CVAR_QUEUE_SIZE - 1)

/-- The pid goes to the last slot while the head is at the first. -/
def Spills (cvar : Cvar) : Event Int → Prop
  | .push _ => cvar.head = 0 ∧ cvar.tail = CVAR_QUEUE_SIZE - 1
  | _ => False

instance (cvar : Cvar) (e : Event Int) : Decidable (Spills cvar e) := by
  unfold Spills
  split <;> infer_instance

/-- The array holds `q`. -/
structure Represents (cvar : Cvar) (q : List Int) : Prop where
  init : cvar.init = true
  ring : Ring CVAR_QUEUE_SIZE cvar.head cvar.tail cvar.queue q

variable {c d : Cvar} {q : List Int} {e : Event Int} {es : List (Event Int)} {pid : Int}

namespace Represents

theorem ready (h : Represents c q) : c.ready = c := by
  simp [Cvar.ready, h.init]

/-- `cv_wait` turns down a full queue, unless its head is at the first slot. -/
theorem full_iff (h : Represents c q) :
    c.full = true ↔ q.length = CVAR_QUEUE_SIZE - 1 ∧ c.head ≠ 0 := by
  have hhead := h.ring.head_lt
  have hlen := h.ring.length_lt
  have htail := h.ring.tail_eq
  simp only [Cvar.full, Bool.or_eq_true, decide_eq_true_eq, beq_iff_eq]
  unfold CVAR_QUEUE_SIZE at *
  omega

theorem spills_iff (h : Represents c q) :
    Spills c (.push pid) ↔ q.length = CVAR_QUEUE_SIZE - 1 ∧ c.head = 0 := by
  have hhead := h.ring.head_lt
  have hlen := h.ring.length_lt
  have htail := h.ring.tail_eq
  unfold Spills CVAR_QUEUE_SIZE at *
  omega

/-- A call that is turned down leaves the queue as it is. -/
theorem refused (h : Represents c q) (hs : queueNext c (.refuse pid) = some d) :
    d = c ∧ c.full = true := by
  simp only [queueNext, enqueue, h.ready] at hs
  by_cases hfull : c.full = true
  · simp only [hfull, if_true] at hs
    exact ⟨(Option.some.inj hs).symm, hfull⟩
  · simp [hfull] at hs

theorem pushed (h : Represents c q) (hs : queueNext c (.push pid) = some d) :
    c.full = false ∧ d = { c with
      queue := update c.queue c.tail pid, tail := (c.tail + 1) % CVAR_QUEUE_SIZE } := by
  simp only [queueNext, enqueue, h.ready] at hs
  by_cases hfull : c.full = true
  · simp [hfull] at hs
  · simp only [hfull] at hs
    exact ⟨by simpa using hfull, (Option.some.inj hs).symm⟩

theorem dequeue_nil (h : Represents c []) : dequeue c = (c, none) := by
  simp [dequeue, h.ready, h.ring.head_eq_tail.mpr rfl]

/-- `cv_signal` takes the oldest pid. -/
theorem dequeue_cons (h : Represents c (pid :: q)) : dequeue c = ({ c with
    queue := update c.queue c.head (-1), head := (c.head + 1) % CVAR_QUEUE_SIZE }, some pid) := by
  have hne : c.head ≠ c.tail := fun he => by simpa using h.ring.head_eq_tail.mp he
  simp [dequeue, h.ready, hne, h.ring.front]

/-- A step is one of the FIFO, unless it spills. -/
theorem step_iff (h : Represents c q) (hs : queueNext c e = some d) :
    (∃ q', fifo.step q e q' ∧ Represents d q') ↔ ¬Spills c e := by
  cases e with
  | refuse pid =>
    obtain ⟨rfl, hfull⟩ := h.refused hs
    exact iff_of_true ⟨q, if_pos (h.full_iff.mp hfull).1, h⟩ id
  | push pid =>
    obtain ⟨hfull, rfl⟩ := h.pushed hs
    constructor
    · rintro ⟨q', hq, hd⟩ hspill
      obtain rfl : q ++ [pid] = q' := Option.some.inj hq
      -- the tail is back at the first slot, where the head is
      have hempty := hd.ring.head_eq_tail.mp (by
        obtain ⟨hhead, htail⟩ := hspill
        simp [hhead, htail, CVAR_QUEUE_SIZE])
      simp at hempty
    · intro hspill
      have hroom : q.length + 1 < CVAR_QUEUE_SIZE := by
        have hlen := h.ring.length_lt
        have hnot := mt h.full_iff.mpr (by simp [hfull])
        rw [h.spills_iff] at hspill
        have hfit : q.length ≠ CVAR_QUEUE_SIZE - 1 := fun he => by
          by_cases hhead : c.head = 0
          · exact hspill ⟨he, hhead⟩
          · exact hnot ⟨he, hhead⟩
        omega
      exact ⟨q ++ [pid], rfl, h.init,
        (h.ring.store pid).push hroom (Function.update_self ..)⟩
  | pop pid =>
    obtain ⟨hpid, hd⟩ := Option.ite_none_right_eq_some.mp hs
    cases q with
    | nil =>
      rw [h.dequeue_nil] at hpid
      cases hpid
    | cons x q =>
      rw [h.dequeue_cons] at hpid hd
      obtain rfl := Option.some.inj hpid
      obtain rfl := Option.some.inj hd
      exact iff_of_true ⟨q, if_pos rfl, h.init, h.ring.pop (-1)⟩ id
  | idle =>
    obtain ⟨hnone, hd⟩ := Option.ite_none_right_eq_some.mp hs
    cases q with
    | nil =>
      rw [h.dequeue_nil] at hd
      obtain rfl := Option.some.inj hd
      exact iff_of_true ⟨[], rfl, h⟩ id
    | cons x q =>
      rw [h.dequeue_cons] at hnone
      cases hnone

end Represents

theorem represents_cvInit (c : Cvar) : Represents (cvInit c) [] := ⟨rfl, .empty (by decide)⟩

/-- What the calls `es` come to is what they would with the FIFO, which then
holds `q`, and so is the next call, unless it spills. -/
structure Simulates (es : List (Event Int)) (c : Cvar) (q : List Int) : Prop where
  run : fifo.Run es q
  represents : Represents c q
  /-- No queued pid is lost or overwritten. -/
  conserved : Lib.Fifo.pushed es = Lib.Fifo.popped es ++ q
  refused : ∀ pid d, queue.step c (.refuse pid) d → d = c
  step : ∀ e d, queue.step c e d → ((∃ q', fifo.step q e q' ∧ Represents d q') ↔ ¬Spills c e)

theorem queue_simulates (h : (queue.restrict fun c e => ¬Spills c e).Run es c) :
    ∃ q, Simulates es c q := by
  obtain ⟨q, hrun, hc⟩ : ∃ q, fifo.Run es q ∧ Represents c q := by
    induction h with
    | init h =>
      obtain ⟨c, rfl⟩ := h
      exact ⟨[], .init rfl, represents_cvInit c⟩
    | step _ hs ih =>
      obtain ⟨q, hrun, hc⟩ := ih
      obtain ⟨q', hq, hd⟩ := (hc.step_iff hs.1).mpr hs.2
      exact ⟨q', hrun.step hq, hd⟩
  exact ⟨q, hrun, hc, Lib.Fifo.run_conserves hrun, fun _ _ hs => (hc.refused hs).1,
    fun _ _ hs => hc.step_iff hs⟩

/-- A `cond_t` in memory that was never written. -/
def blankCvar : Cvar := ⟨0, 0, false, fun _ => 0⟩

theorem queue_simulates_one : ∃ c q, Simulates [.push 5, .push 6, .pop 5] c q := by
  obtain ⟨c, hrun, -⟩ := System.exists_run_from Fresh queueNext ⟨blankCvar, rfl⟩
    (fun c e => ¬Spills c e) [.push 5, .push 6, .pop 5] (fun _ => True) (by decide +kernel)
  exact ⟨c, queue_simulates hrun⟩

/-- 64 processes queue before the first is to be woken. -/
def spillRun : List (Event Int) := (List.range 64).map (fun i => .push (i + 1)) ++ [.idle]

theorem queue_loses_pids : ¬∀ es c, queue.Run es c → ∃ q, fifo.Run es q := by
  intro h
  obtain ⟨c, hrun, -⟩ := System.exists_run_from Fresh queueNext ⟨blankCvar, rfl⟩
    (fun _ _ => True) spillRun (fun _ => True) (by decide +kernel)
  obtain ⟨q, hq⟩ := h spillRun c hrun.of_restrict
  obtain ⟨q₀, hinit, he⟩ := System.Run.exec_eq hq
  obtain rfl := hinit
  have hnone : System.exec (Lib.Fifo.next (CVAR_QUEUE_SIZE - 1)) ([] : List Int) spillRun = none := by
    decide +kernel
  rw [hnone] at he
  cases he

end PerrOS.Cond
