import Mathlib.Algebra.Group.Int.Defs
import Mathlib.Algebra.Group.Nat.Defs
import Mathlib.Data.Fintype.Card
import PerrOS.Lib.FifoLock

/-!
# The ticket lock

`locklib.c` as the atomic steps of any number of threads: `lock_acquire`
takes a ticket with one `FetchAndAdd` and then reads `turn` until it is the
ticket taken; `lock_release` is one `FetchAndAdd` on `turn`. Both counters
are 32 bits wide and wrap.

The lock is simulated by `Lib.FifoLock`: the queue is the list of threads
with outstanding tickets, and the ticket of the thread at position `i` is
`turn + i`. With fewer than `2 ^ 32` threads no two positions share a ticket.
-/

namespace PerrOS.Ticket

open Lib (System FifoLock.Label)
open Function (update)

/-- `lock_t`. -/
structure Lock where
  ticket : BitVec 32
  turn : BitVec 32
deriving DecidableEq, Repr

def lockInit : Lock := ⟨0, 0⟩

/-- `lock; xaddl`: the value found and the value left behind. -/
def fetchAndAdd (var incr : BitVec 32) : BitVec 32 × BitVec 32 := (var, var + incr)

/-- Where a thread stands with the lock: `spinning myTurn` is the loop of
`lock_acquire`, `critical` is from its end to the call of `lock_release`. -/
inductive Pc
  | outside
  | spinning (myTurn : BitVec 32)
  | critical
deriving DecidableEq, Repr

structure State (Thread : Type u) where
  lock : Lock
  pc : Thread → Pc

inductive Act (Thread : Type u)
  | take (t : Thread)
  | spin (t : Thread)
  | enter (t : Thread)
  | release (t : Thread)

variable {Thread : Type u}

/-- The thread that takes the step. -/
def Act.thread : Act Thread → Thread
  | .take t | .spin t | .enter t | .release t => t

def State.initial : State Thread := ⟨lockInit, fun _ => .outside⟩

section
variable [DecidableEq Thread] {s s' : State Thread} {t : Thread}

/-- The `FetchAndAdd` of `lock_acquire`. -/
def take (s : State Thread) (t : Thread) : State Thread :=
  let r := fetchAndAdd s.lock.ticket 1
  ⟨{ s.lock with ticket := r.2 }, update s.pc t (.spinning r.1)⟩

/-- `lock_release`. -/
def release (s : State Thread) (t : Thread) : State Thread :=
  ⟨{ s.lock with turn := (fetchAndAdd s.lock.turn 1).2 }, update s.pc t .outside⟩

/-- One atomic step. A read of `turn` in the loop is `spin` when it finds
another turn and `enter` when it finds the thread's own. -/
def next (s : State Thread) : Act Thread → Option (State Thread)
  | .take t => if s.pc t = .outside then some (take s t) else none
  | .spin t =>
    match s.pc t with
    | .spinning myTurn => if s.lock.turn ≠ myTurn then some s else none
    | _ => none
  | .enter t =>
    match s.pc t with
    | .spinning myTurn =>
      if s.lock.turn ≠ myTurn then none else some { s with pc := update s.pc t .critical }
    | _ => none
  | .release t => if s.pc t = .critical then some (release s t) else none

theorem next_take : next s (.take t) = some s' ↔ s.pc t = .outside ∧ s' = take s t := by
  simp [next, eq_comm]

theorem next_spin :
    next s (.spin t) = some s' ↔ (∃ m, s.pc t = .spinning m ∧ s.lock.turn ≠ m) ∧ s' = s := by
  cases h : s.pc t <;> simp [next, h, eq_comm]

theorem next_enter :
    next s (.enter t) = some s' ↔
      s.pc t = .spinning s.lock.turn ∧ s' = { s with pc := update s.pc t .critical } := by
  cases h : s.pc t <;> simp [next, h, eq_comm]

theorem next_release :
    next s (.release t) = some s' ↔ s.pc t = .critical ∧ s' = release s t := by
  simp [next, eq_comm]

/-- A step leaves the other threads where they are. -/
theorem next_pc_of_ne {a : Act Thread} {u : Thread} (h : next s a = some s') (hu : u ≠ a.thread) :
    s'.pc u = s.pc u := by
  cases a with
  | take t =>
    obtain ⟨-, rfl⟩ := next_take.mp h
    exact Function.update_of_ne hu ..
  | spin t =>
    obtain ⟨-, rfl⟩ := next_spin.mp h
    rfl
  | enter t =>
    obtain ⟨-, rfl⟩ := next_enter.mp h
    exact Function.update_of_ne hu ..
  | release t =>
    obtain ⟨-, rfl⟩ := next_release.mp h
    exact Function.update_of_ne hu ..

def system (Thread : Type u) [DecidableEq Thread] : System (State Thread) (Act Thread) :=
  .ofNext (· = .initial) next

end

-- ---------------------------------------------------------------------------
-- The queue of outstanding tickets
-- ---------------------------------------------------------------------------

/-- The queue `a` explains the lock `s`: its threads are those with an
outstanding ticket, and only its head can be in the critical section. -/
structure Queued (s : State Thread) (a : Lib.FifoLock.State Thread) : Prop where
  nodup : a.queue.Nodup
  occupied : a.held = true → a.queue ≠ []
  ticket : s.lock.ticket = s.lock.turn + BitVec.ofNat 32 a.queue.length
  spinning : ∀ t m, s.pc t = .spinning m ↔
    ∃ i : Nat, a.queue[i]? = some t ∧ m = s.lock.turn + BitVec.ofNat 32 i ∧
      (i = 0 → a.held = false)
  critical : ∀ t, s.pc t = .critical ↔ a.held = true ∧ a.queue[0]? = some t

variable {s : State Thread} {a : Lib.FifoLock.State Thread} {t u : Thread} {q : List Thread}

theorem Queued.initial : Queued (State.initial : State Thread) ⟨[], false⟩ :=
  ⟨by simp, by simp, by simp [State.initial, lockInit], by simp [State.initial],
    by simp [State.initial]⟩

theorem Queued.outside (h : Queued s a) : s.pc t = .outside ↔ t ∉ a.queue := by
  constructor
  · intro ho hm
    obtain ⟨i, hi⟩ := List.mem_iff_getElem?.mp hm
    by_cases hc : i = 0 ∧ a.held = true
    · obtain ⟨rfl, hh⟩ := hc
      simp [(h.critical t).mpr ⟨hh, hi⟩] at ho
    · have := (h.spinning t _).mpr ⟨i, hi, rfl, fun h0 => by simpa [h0] using hc⟩
      simp [this] at ho
  · intro hm
    cases hp : s.pc t with
    | outside => rfl
    | spinning m =>
      obtain ⟨i, hi, -⟩ := (h.spinning t m).mp hp
      exact absurd (List.mem_of_getElem? hi) hm
    | critical => exact absurd (List.mem_of_getElem? ((h.critical t).mp hp).2) hm

/-- At most one thread is in the critical section. -/
theorem Queued.exclusive (h : Queued s a) (ht : s.pc t = .critical) (hu : s.pc u = .critical) :
    t = u := by
  have ht := ((h.critical t).mp ht).2
  have hu := ((h.critical u).mp hu).2
  exact Option.some.inj (ht.symm.trans hu)

theorem Queued.length_le [Fintype Thread] (h : Queued s a) :
    a.queue.length ≤ Fintype.card Thread := h.nodup.length_le_card

/-- Only the head of the queue reads its own turn. -/
theorem Queued.turn_head [Fintype Thread] (h : Queued s a)
    (hcard : Fintype.card Thread < 2 ^ 32) (hp : s.pc t = .spinning s.lock.turn) :
    a.held = false ∧ ∃ q, a.queue = t :: q := by
  obtain ⟨i, hi, hm, hh⟩ := (h.spinning t _).mp hp
  have hlt : i < 2 ^ 32 := by
    have := (List.getElem?_eq_some_iff.mp hi).1
    have := h.length_le
    omega
  have h0 : i = 0 := by
    have hz : BitVec.ofNat 32 i = 0#32 := BitVec.self_eq_add_right.mp hm
    have hz' := congrArg BitVec.toNat hz
    rw [BitVec.toNat_ofNat, Nat.mod_eq_of_lt hlt] at hz'
    exact hz'
  subst h0
  cases hq : a.queue with
  | nil => simp [hq] at hi
  | cons u q => exact ⟨hh rfl, q, by simpa [hq] using hi⟩

section
variable [DecidableEq Thread]

theorem Queued.take (h : Queued s a) (ho : s.pc t = .outside) :
    Queued (take s t) ⟨a.queue ++ [t], a.held⟩ := by
  have ht : t ∉ a.queue := h.outside.mp ho
  refine ⟨?_, by simp, ?_, ?_, ?_⟩
  · exact List.nodup_append.mpr ⟨h.nodup, by simp, fun a ha b hb e => ht (by simp_all)⟩
  · simp [Ticket.take, fetchAndAdd, h.ticket, BitVec.ofNat_add, BitVec.add_assoc]
  · intro u m
    by_cases hu : u = t
    · subst hu
      simp only [Ticket.take, fetchAndAdd, Function.update_self, Pc.spinning.injEq]
      constructor
      · rintro rfl
        refine ⟨a.queue.length, by simp, h.ticket, fun h0 => ?_⟩
        cases hh : a.held
        · rfl
        · exact absurd (List.length_eq_zero_iff.mp h0) (h.occupied hh)
      · rintro ⟨i, hi, rfl, -⟩
        rcases Nat.lt_trichotomy i a.queue.length with hl | rfl | hl
        · rw [List.getElem?_append_left hl] at hi
          exact absurd (List.mem_of_getElem? hi) ht
        · exact h.ticket
        · rw [List.getElem?_eq_none (by simp; omega)] at hi
          simp at hi
    · simp only [Ticket.take, fetchAndAdd, Function.update_of_ne hu, h.spinning]
      refine exists_congr fun i => and_congr_left fun _ => ?_
      rcases Nat.lt_or_ge i a.queue.length with hl | hl
      · rw [List.getElem?_append_left hl]
      · rw [List.getElem?_append_right hl, List.getElem?_eq_none hl]
        cases i - a.queue.length <;> simp [Ne.symm hu]
  · intro u
    by_cases hu : u = t
    · subst hu
      simp only [Ticket.take, fetchAndAdd, Function.update_self, reduceCtorEq, false_iff, not_and]
      intro hh hi
      rw [List.getElem?_append_left (List.length_pos_iff.mpr (h.occupied hh))] at hi
      exact ht (List.mem_of_getElem? hi)
    · simp only [Ticket.take, fetchAndAdd, Function.update_of_ne hu, h.critical]
      refine and_congr_right fun hh => ?_
      rw [List.getElem?_append_left (List.length_pos_iff.mpr (h.occupied hh))]

theorem Queued.enter (h : Queued s ⟨t :: q, false⟩) :
    Queued { s with pc := update s.pc t .critical } ⟨t :: q, true⟩ := by
  have ht : t ∉ q := (List.nodup_cons.mp h.nodup).1
  refine ⟨h.nodup, by simp, h.ticket, ?_, ?_⟩
  · intro u m
    by_cases hu : u = t
    · subst hu
      simp only [Function.update_self, reduceCtorEq, false_iff]
      rintro ⟨i, hi, -, h0⟩
      cases i with
      | zero => simp at h0
      | succ i => exact ht (List.mem_of_getElem? (by simpa using hi))
    · simp only [Function.update_of_ne hu, h.spinning]
      refine exists_congr fun i => and_congr_right fun hi => ?_
      cases i with
      | zero => simp [Ne.symm hu] at hi
      | succ i => simp
  · intro u
    by_cases hu : u = t
    · simp [hu]
    · simp [Function.update_of_ne hu, h.critical, Ne.symm hu]

theorem Queued.release (h : Queued s ⟨t :: q, true⟩) : Queued (release s t) ⟨q, false⟩ := by
  have ht : t ∉ q := (List.nodup_cons.mp h.nodup).1
  have shift (i : Nat) : s.lock.turn + BitVec.ofNat 32 (i + 1) =
      s.lock.turn + 1 + BitVec.ofNat 32 i := by
    rw [Nat.add_comm, BitVec.ofNat_add, BitVec.add_assoc]
    rfl
  refine ⟨(List.nodup_cons.mp h.nodup).2, by simp, ?_, ?_, ?_⟩
  · exact h.ticket.trans (shift q.length)
  · intro u m
    by_cases hu : u = t
    · subst hu
      simp only [Ticket.release, Function.update_self, reduceCtorEq, false_iff]
      rintro ⟨i, hi, -⟩
      exact ht (List.mem_of_getElem? hi)
    · simp only [Ticket.release, fetchAndAdd, Function.update_of_ne hu, h.spinning]
      constructor
      · rintro ⟨i, hi, hm, -⟩
        cases i with
        | zero => simp [Ne.symm hu] at hi
        | succ i => exact ⟨i, by simpa using hi, by rw [hm, shift], fun _ => trivial⟩
      · rintro ⟨i, hi, hm, -⟩
        exact ⟨i + 1, by simpa using hi, by rw [hm, shift], by simp⟩
  · intro u
    by_cases hu : u = t
    · simp [Ticket.release, hu]
    · simp [Ticket.release, Function.update_of_ne hu, h.critical, Ne.symm hu]

-- ---------------------------------------------------------------------------
-- The lock is first come, first served
-- ---------------------------------------------------------------------------

@[simp] def Act.label : Act Thread → Option (FifoLock.Label Thread)
  | .take t => some (.arrive t)
  | .spin _ => none
  | .enter t => some (.enter t)
  | .release t => some (.leave t)

theorem simulation [Fintype Thread] (hcard : Fintype.card Thread < 2 ^ 32) :
    System.Simulation (system Thread) (Lib.FifoLock.system Thread) Queued Act.label where
  init := by
    rintro s rfl
    exact ⟨_, rfl, .initial⟩
  skip := by
    intro s l s' a hs hl h
    cases l with
    | spin t =>
      obtain ⟨-, rfl⟩ := next_spin.mp hs
      exact h
    | _ => simp at hl
  step := by
    intro s l s' m a hs hl h
    cases l with
    | take t =>
      obtain ⟨ho, rfl⟩ := next_take.mp hs
      cases hl
      exact ⟨_, .arrive t a.queue a.held (h.outside.mp ho), h.take ho⟩
    | spin t => simp at hl
    | enter t =>
      obtain ⟨hp, rfl⟩ := next_enter.mp hs
      cases hl
      obtain ⟨hh, q, hq⟩ := h.turn_head hcard hp
      obtain ⟨queue, held⟩ := a
      cases hh; cases hq
      exact ⟨_, .enter t q, h.enter⟩
    | release t =>
      obtain ⟨hp, rfl⟩ := next_release.mp hs
      cases hl
      obtain ⟨hh, hq⟩ := (h.critical t).mp hp
      obtain ⟨queue, held⟩ := a
      cases hh
      cases queue with
      | nil => simp at hq
      | cons u q =>
        cases hq
        exact ⟨_, .leave t q, h.release⟩

/-- Every step of a lock with a queue leaves a lock with a queue. -/
theorem Queued.next [Fintype Thread] (hcard : Fintype.card Thread < 2 ^ 32) {s' : State Thread}
    {l : Act Thread} (h : Queued s a) (hs : next s l = some s') : ∃ b, Queued s' b := by
  cases hl : l.label with
  | none => exact ⟨a, (simulation hcard).skip hs hl h⟩
  | some m =>
    obtain ⟨b, -, hb⟩ := (simulation hcard).step hs hl h
    exact ⟨b, hb⟩

end

/-- The threads in the order in which their `FetchAndAdd` on `ticket` took
effect. -/
def taken (ls : List (Act Thread)) : List Thread :=
  ls.filterMap fun | .take t => some t | _ => none

/-- The threads in the order in which they left the loop of `lock_acquire`. -/
def entered (ls : List (Act Thread)) : List Thread :=
  ls.filterMap fun | .enter t => some t | _ => none

theorem arrivals_label (ls : List (Act Thread)) :
    Lib.FifoLock.arrivals (ls.filterMap Act.label) = taken ls := by
  rw [Lib.FifoLock.arrivals, List.filterMap_filterMap, taken]
  congr 1
  funext l
  cases l <;> rfl

theorem entries_label (ls : List (Act Thread)) :
    Lib.FifoLock.entries (ls.filterMap Act.label) = entered ls := by
  rw [Lib.FifoLock.entries, List.filterMap_filterMap, entered]
  congr 1
  funext l
  cases l <;> rfl

theorem Queued.mem_waiting (h : Queued s a) :
    t ∈ a.waiting ↔ ∃ m, s.pc t = .spinning m := by
  obtain ⟨queue, held⟩ := a
  simp only [h.spinning]
  cases held with
  | false =>
    simp only [Lib.FifoLock.State.waiting, List.mem_iff_getElem?]
    exact ⟨fun ⟨i, hi⟩ => ⟨_, i, hi, rfl, by simp⟩, fun ⟨_, i, hi, _⟩ => ⟨i, hi⟩⟩
  | true =>
    simp only [Lib.FifoLock.State.waiting, List.mem_iff_getElem?, List.getElem?_tail]
    constructor
    · rintro ⟨i, hi⟩
      exact ⟨_, i + 1, hi, rfl, by simp⟩
    · rintro ⟨_, i, hi, -, h0⟩
      cases i with
      | zero => simp at h0
      | succ i => exact ⟨i, hi⟩

/-- Mutual exclusion and arrival order, over every interleaving: the entries
are the takes so far, in the same order, less those of the threads still
spinning. -/
theorem lock_exclusive_fifo {N : Nat} {ls : List (Act (Fin N))} {s : State (Fin N)}
    (hN : N < 2 ^ 32) (h : (system (Fin N)).Run ls s) :
    (∀ t u : Fin N, s.pc t = .critical → s.pc u = .critical → t = u) ∧
      ∃ waiting, taken ls = entered ls ++ waiting ∧ waiting.Nodup ∧
        ∀ t : Fin N, t ∈ waiting ↔ ∃ myTurn, s.pc t = .spinning myTurn := by
  obtain ⟨a, ha, hq⟩ := (simulation (by simpa using hN)).run h
  have served := Lib.FifoLock.served ha
  refine ⟨fun _ _ => hq.exclusive, a.waiting, ?_, ?_, fun _ => hq.mem_waiting⟩
  · rw [← arrivals_label, ← entries_label]
    exact served.arrivals
  · obtain ⟨queue, held⟩ := a
    cases held with
    | false => exact served.nodup
    | true => exact served.nodup.sublist (List.tail_sublist _)

/-- Thread 1 takes its ticket while thread 0 is inside and enters after it. -/
theorem lock_exclusive_fifo_two :
    ∃ s : State (Fin 2),
      (system (Fin 2)).Run [.take 0, .enter 0, .take 1, .spin 1, .release 0, .enter 1] s ∧
      s.pc 1 = .critical ∧ ∀ t u : Fin 2, s.pc t = .critical → s.pc u = .critical → t = u := by
  have run : (system (Fin 2)).Run [.take 0, .enter 0, .take 1, .spin 1, .release 0, .enter 1] _ :=
    System.run_exec rfl rfl
  exact ⟨_, run, by decide, (lock_exclusive_fifo (by decide) run).1⟩

end PerrOS.Ticket
