import PerrOS.Cond.Variable
import PerrOS.Lib.Ring

/-!
# The queue of one condition variable

What each thread's program point means for the queue, as a role, and the
invariant that ties the roles to the circular array. `q` lists the threads
that have queued and are not dequeued yet. A thread queues, and a signaller
works on the queue, only inside the ticket lock, so at most one thread has a
role that `Inside` names.
-/

namespace PerrOS.Cond

open Function (update)

/-- Inside `cv_wait`: `room` found a free slot, `stored` has written it,
`entered` is queued and holds the lock, and `parked` is queued or about to
be woken. Inside `cv_signal`: `found` a pid, `loaded` it, `cleared` its slot,
and `waking` has taken it out of the queue. -/
inductive Role
  | idle
  | room
  | stored
  | entered
  | parked
  | found
  | loaded (pid : Int)
  | cleared (pid : Int)
  | waking (pid : Int)

def Role.Inside : Role → Prop
  | .idle | .parked => False
  | _ => True

variable {Thread : Type}

/-- The array holds the pids of `q`. -/
def Cvar.Holds (cvar : Cvar) (pid : Thread → Int) (q : List Thread) : Prop :=
  Lib.Ring CVAR_QUEUE_SIZE cvar.head cvar.tail cvar.queue (q.map pid)

/-- What the thread inside the lock knows of the queue. -/
def Knows (pid : Thread → Int) (role : Thread → Role) (cvar : Cvar) (q : List Thread)
    (t : Thread) : Role → Prop
  | .idle | .parked => cvar.Holds pid q
  | .room => cvar.Holds pid q ∧ q.length + 1 < CVAR_QUEUE_SIZE
  | .stored =>
    cvar.Holds pid q ∧ q.length + 1 < CVAR_QUEUE_SIZE ∧ cvar.queue cvar.tail = pid t
  | .entered => cvar.Holds pid q ∧ t ∈ q
  | .found => cvar.Holds pid q ∧ q ≠ []
  | .loaded p => cvar.Holds pid q ∧ ∃ u q', q = u :: q' ∧ p = pid u
  -- the head slot is spent, and `head` is still to be advanced
  | .cleared p => ∃ u q', q = u :: q' ∧ p = pid u ∧
    { cvar with head := (cvar.head + 1) % CVAR_QUEUE_SIZE }.Holds pid q'
  | .waking p => cvar.Holds pid q ∧ ∃ u, p = pid u ∧ role u = .parked ∧ u ∉ q

structure Waiting (pid : Thread → Int) (role : Thread → Role) (cvar : Cvar) (q : List Thread) :
    Prop where
  fresh : cvar.init = false → q = [] ∧ ∀ t, role t = .idle
  nodup : q.Nodup
  queued : ∀ t ∈ q, role t = .entered ∨ role t = .parked
  parked : ∀ t, role t = .parked → t ∈ q ∨ ∃ u, role u = .waking (pid t)
  knows : cvar.init = true → ∀ t, (∀ u, (role u).Inside → u = t) →
    Knows pid role cvar q t (role t)

namespace Waiting

variable {pid : Thread → Int} {role : Thread → Role} {cvar : Cvar} {q : List Thread}
variable {t u : Thread} {p : Int} {x : Role}

theorem initial (hi : cvar.init = true → cvar.head = 0 ∧ cvar.tail = 0) :
    Waiting pid (fun _ => .idle) cvar [] := by
  refine ⟨by simp, by simp, by simp, by simp, fun h _ _ => ?_⟩
  obtain ⟨hh, ht⟩ := hi h
  unfold Knows Cvar.Holds
  rw [hh, ht]
  exact .empty (by decide)

theorem init_of_role (h : Waiting pid role cvar q) (ht : role t = x) (hx : x ≠ .idle) :
    cvar.init = true := by
  cases hi : cvar.init with
  | true => rfl
  | false => exact absurd (ht.symm.trans ((h.fresh hi).2 t)) hx

@[simp] theorem ready_init : cvar.ready.init = true := by
  unfold Cvar.ready cvInit
  cases h : cvar.init <;> simp [h]

theorem ready_of_init (hi : cvar.init = true) : cvar.ready = cvar := by
  simp [Cvar.ready, hi]

/-- `cv_init` only ever runs on a condition variable nobody has used. -/
theorem ready (h : Waiting pid role cvar q) : Waiting pid role cvar.ready q := by
  cases hi : cvar.init with
  | true => rwa [ready_of_init hi]
  | false =>
    obtain ⟨rfl, hr⟩ := h.fresh hi
    obtain rfl : role = fun _ => .idle := funext hr
    exact initial fun _ => by simp [Cvar.ready, cvInit, hi]

theorem not_mem (h : Waiting pid role cvar q) (he : role t ≠ .entered) (hp : role t ≠ .parked) :
    t ∉ q := fun hm => (h.queued t hm).elim he hp

theorem knows_self (h : Waiting pid role cvar q) (hin : ∀ u, (role u).Inside → u = t)
    (ht : role t = x) (hx : x ≠ .idle) : Knows pid role cvar q t x := by
  have := h.knows (h.init_of_role ht hx) t hin
  rwa [ht] at this

/-- Unless `t` itself is waking somebody, every parked thread is queued. -/
theorem parked_mem (h : Waiting pid role cvar q) (hin : ∀ u, (role u).Inside → u = t)
    (ht : ∀ p, role t ≠ .waking p) (hu : role u = .parked) : u ∈ q := by
  rcases h.parked u hu with hm | ⟨w, hw⟩
  · exact hm
  · obtain rfl := hin w (by simp [hw, Role.Inside])
    exact absurd hw (ht _)

section
variable [DecidableEq Thread] {cvar' : Cvar} {q' : List Thread}

/-- A step of the thread `t` inside the lock owes the array only what `t`
knows afterwards. -/
theorem move (hin : ∀ u, (role u).Inside → u = t) (hi : cvar'.init = true) (hn : q'.Nodup)
    (hq : ∀ u ∈ q', update role t x u = .entered ∨ update role t x u = .parked)
    (hp : ∀ u, update role t x u = .parked →
      u ∈ q' ∨ ∃ w, update role t x w = .waking (pid u))
    (ht : Knows pid (update role t x) cvar' q' t x) :
    Waiting pid (update role t x) cvar' q' := by
  refine ⟨by simp [hi], hn, hq, hp, fun _ u hu => ?_⟩
  rcases eq_or_ne u t with rfl | hne
  · simpa using ht
  -- nobody is inside after the step, so the array represents the queue
  have hx : ¬ x.Inside := fun hx => hne (hu t (by simpa using hx)).symm
  have hr : ¬ (role u).Inside := fun hr => hne (hin u hr)
  have holds : cvar'.Holds pid q' := by
    cases x with
    | idle => exact ht
    | parked => exact ht
    | _ => exact absurd trivial hx
  rw [Function.update_of_ne hne]
  cases h : role u with
  | idle => exact holds
  | parked => exact holds
  | _ => exact absurd (h ▸ trivial : (role u).Inside) hr

/-- The role of `t` changes, but the queue does not, and `t` is not in it. -/
theorem keep (h : Waiting pid role cvar q) (hin : ∀ u, (role u).Inside → u = t)
    (hi : cvar'.init = true) (hq : t ∉ q) (ht : ∀ p, role t ≠ .waking p) (hx : x ≠ .parked)
    (hk : Knows pid (update role t x) cvar' q t x) : Waiting pid (update role t x) cvar' q := by
  refine move hin hi h.nodup ?_ ?_ hk
  · intro u hu
    rw [Function.update_of_ne (by rintro rfl; exact hq hu)]
    exact h.queued u hu
  · intro u hu
    rcases eq_or_ne u t with rfl | hne
    · simp [hx] at hu
    · rw [Function.update_of_ne hne] at hu
      exact .inl (h.parked_mem hin ht hu)

-- ---------------------------------------------------------------------------
-- The steps of `cv_wait`
-- ---------------------------------------------------------------------------

/-- Where fewer than `CVAR_QUEUE_SIZE - 1` pids are queued, the test finds
room. -/
theorem test_room (h : Waiting pid role cvar q) (hin : ∀ u, (role u).Inside → u = t)
    (ht : role t = .idle) (hc : cvar.ready.count < CVAR_QUEUE_SIZE - 1) :
    cvar.ready.full = false ∧ Waiting pid (update role t .room) cvar.ready q := by
  have hk : cvar.ready.Holds pid q := by
    have := h.ready.knows ready_init t hin
    rwa [ht] at this
  have hl : q.length + 1 < CVAR_QUEUE_SIZE := by
    have := hk.count
    simp only [List.length_map] at this
    unfold Cvar.count at hc
    omega
  constructor
  · have htail := hk.tail_lt
    have hne := hk.not_full (by simpa using hl)
    simp [Cvar.full, Nat.not_le.mpr htail, hne]
  · exact h.ready.keep hin ready_init (h.not_mem (by simp [ht]) (by simp [ht])) (by simp [ht])
      (by simp) ⟨hk, hl⟩

theorem store (h : Waiting pid role cvar q) (hin : ∀ u, (role u).Inside → u = t)
    (ht : role t = .room) :
    Waiting pid (update role t .stored)
      { cvar with queue := update cvar.queue cvar.tail (pid t) } q := by
  obtain ⟨hk, hl⟩ := h.knows_self hin ht (by simp)
  have hi := h.init_of_role ht (by simp)
  exact h.keep hin hi
    (h.not_mem (by simp [ht]) (by simp [ht])) (by simp [ht]) (by simp)
    ⟨hk.store _, hl, by simp⟩

theorem enqueue (h : Waiting pid role cvar q) (hin : ∀ u, (role u).Inside → u = t)
    (ht : role t = .stored) :
    Waiting pid (update role t .entered)
      { cvar with tail := (cvar.tail + 1) % CVAR_QUEUE_SIZE } (q ++ [t]) := by
  obtain ⟨hk, hl, hs⟩ := h.knows_self hin ht (by simp)
  have hi := h.init_of_role ht (by simp)
  have hq : t ∉ q := h.not_mem (by simp [ht]) (by simp [ht])
  refine move hin hi ?_ ?_ ?_ ⟨?_, by simp⟩
  · exact List.nodup_append.mpr ⟨h.nodup, by simp, fun a ha b hb e => hq (by simp_all)⟩
  · intro u hu
    rcases eq_or_ne u t with rfl | hne
    · simp
    · rw [Function.update_of_ne hne]
      exact h.queued u (by simpa [hne] using hu)
  · intro u hu
    rcases eq_or_ne u t with rfl | hne
    · simp at hu
    · rw [Function.update_of_ne hne] at hu
      exact .inl (List.mem_append_left _ (h.parked_mem hin (by simp [ht]) hu))
  · unfold Cvar.Holds
    rw [List.map_append]
    exact Lib.Ring.push hk (by simpa using hl) hs

/-- The waiter gives up the lock: from here on it may be dequeued. -/
theorem unlock (h : Waiting pid role cvar q) (hin : ∀ u, (role u).Inside → u = t)
    (ht : role t = .entered) : Waiting pid (update role t .parked) cvar q := by
  obtain ⟨hk, hm⟩ := h.knows_self hin ht (by simp)
  have hi := h.init_of_role ht (by simp)
  refine move hin hi h.nodup ?_ ?_ hk
  · intro u hu
    rcases eq_or_ne u t with rfl | hne
    · simp
    · rw [Function.update_of_ne hne]
      exact h.queued u hu
  · intro u hu
    rcases eq_or_ne u t with rfl | hne
    · exact .inl hm
    · rw [Function.update_of_ne hne] at hu
      exact .inl (h.parked_mem hin (by simp [ht]) hu)

-- ---------------------------------------------------------------------------
-- The steps of `cv_signal`
-- ---------------------------------------------------------------------------

theorem test_found (h : Waiting pid role cvar q) (hin : ∀ u, (role u).Inside → u = t)
    (ht : role t = .idle) (hne : cvar.ready.head ≠ cvar.ready.tail) :
    Waiting pid (update role t .found) cvar.ready q := by
  have hk : cvar.ready.Holds pid q := by
    have := h.ready.knows ready_init t hin
    rwa [ht] at this
  have hq : q ≠ [] := by
    rintro rfl
    exact hne (hk.head_eq_tail.mpr rfl)
  exact h.ready.keep hin ready_init (h.not_mem (by simp [ht]) (by simp [ht])) (by simp [ht])
    (by simp) ⟨hk, hq⟩

theorem load (h : Waiting pid role cvar q) (hin : ∀ u, (role u).Inside → u = t)
    (ht : role t = .found) :
    Waiting pid (update role t (.loaded (cvar.queue cvar.head))) cvar q := by
  obtain ⟨hk, hq⟩ := h.knows_self hin ht (by simp)
  have hi := h.init_of_role ht (by simp)
  obtain ⟨u, q', rfl⟩ := List.exists_cons_of_ne_nil hq
  exact h.keep hin hi
    (h.not_mem (by simp [ht]) (by simp [ht])) (by simp [ht]) (by simp)
    ⟨hk, u, q', rfl, Lib.Ring.front hk⟩

theorem clear (h : Waiting pid role cvar q) (hin : ∀ u, (role u).Inside → u = t)
    (ht : role t = .loaded p) :
    Waiting pid (update role t (.cleared p))
      { cvar with queue := update cvar.queue cvar.head (-1) } q := by
  obtain ⟨hk, u, q', rfl, hp⟩ := h.knows_self hin ht (by simp)
  have hi := h.init_of_role ht (by simp)
  exact h.keep hin hi
    (h.not_mem (by simp [ht]) (by simp [ht])) (by simp [ht]) (by simp)
    ⟨u, q', rfl, hp, Lib.Ring.pop hk _⟩

/-- The pid taken out is that of the thread that queued first, and that
thread has given up the lock. -/
theorem dequeue (h : Waiting pid role cvar q) (hin : ∀ u, (role u).Inside → u = t)
    (ht : role t = .cleared p) :
    ∃ u q', q = u :: q' ∧ p = pid u ∧
      Waiting pid (update role t (.waking p))
        { cvar with head := (cvar.head + 1) % CVAR_QUEUE_SIZE } q' := by
  obtain ⟨u, q', rfl, hp, hk⟩ := h.knows_self hin ht (by simp)
  have hi := h.init_of_role ht (by simp)
  refine ⟨u, q', rfl, hp, ?_⟩
  obtain ⟨hu, hn⟩ := List.nodup_cons.mp h.nodup
  have hq : t ∉ u :: q' := h.not_mem (by simp [ht]) (by simp [ht])
  have hut : u ≠ t := by
    rintro rfl
    simp at hq
  have hpark : role u = .parked := by
    rcases h.queued u (by simp) with he | hp
    · exact absurd (hin u (by simp [he, Role.Inside])) hut
    · exact hp
  refine move hin hi hn ?_ ?_
    ⟨hk, u, hp, by rwa [Function.update_of_ne hut], hu⟩
  · intro w hw
    rw [Function.update_of_ne (by rintro rfl; exact hq (List.mem_cons_of_mem _ hw))]
    exact h.queued w (List.mem_cons_of_mem _ hw)
  · intro w hw
    rcases eq_or_ne w t with rfl | hne
    · simp at hw
    · rw [Function.update_of_ne hne] at hw
      rcases List.mem_cons.mp (h.parked_mem hin (by simp [ht]) hw) with rfl | hm
      · exact .inr ⟨t, by simp [hp]⟩
      · exact .inl hm

/-- The scan wakes the one thread with the pid. -/
theorem scan (h : Waiting pid role cvar q) (hin : ∀ u, (role u).Inside → u = t)
    (ht : role t = .waking p) (hu : p = pid u) (hpark : role u = .parked) (hq : u ∉ q)
    (hinj : Function.Injective pid) :
    Waiting pid (update (update role t .idle) u .idle) cvar q := by
  obtain ⟨hk, -⟩ := h.knows_self hin ht (by simp)
  have hi := h.init_of_role ht (by simp)
  have htq : t ∉ q := h.not_mem (by simp [ht]) (by simp [ht])
  have rest {w} (hw : w ≠ u) (hw' : w ≠ t) : update (update role t .idle) u .idle w = role w := by
    rw [Function.update_of_ne hw, Function.update_of_ne hw']
  have idle {w} (hw : w = u ∨ w = t) : update (update role t .idle) u .idle w = .idle := by
    rcases eq_or_ne w u with rfl | hne
    · simp
    · rw [Function.update_of_ne hne, hw.resolve_left hne, Function.update_self]
  refine ⟨by simp [hi], h.nodup, ?_, ?_, fun _ v hv => ?_⟩
  · intro w hw
    rw [rest (by rintro rfl; exact hq hw) (by rintro rfl; exact htq hw)]
    exact h.queued w hw
  · intro w hw
    by_cases he : w = u ∨ w = t
    · simp [idle he] at hw
    obtain ⟨hwu, hwt⟩ := not_or.mp he
    rw [rest hwu hwt] at hw
    rcases h.parked w hw with hm | ⟨v, hv⟩
    · exact .inl hm
    · obtain rfl := hin v (by simp [hv, Role.Inside])
      obtain rfl : p = pid w := by simpa [ht] using hv
      exact absurd (hinj hu) hwu
  · by_cases he : v = u ∨ v = t
    · rw [idle he]
      exact hk
    obtain ⟨hvu, hvt⟩ := not_or.mp he
    rw [rest hvu hvt]
    have hr : ¬ (role v).Inside := fun hr => hvt (hin v hr)
    cases hv : role v with
    | idle => exact hk
    | parked => exact hk
    | _ => exact absurd (hv ▸ trivial : (role v).Inside) hr

end

end Waiting

end PerrOS.Cond
