import PerrOS.Stride.Boot

/-!
# `fork` interrupted

`fork` writes the child without `ptable.lock`, one assignment after the other,
and makes it `RUNNABLE` before its stride data. Here every assignment is a
step of its own. An account of every process, kept beside the machine, records
what its stride data should be: those that `fork` assigns, from the creation
on, and what dispatches, wakeups and `settickets` make of them.
-/

namespace PerrOS.Stride

open Function (update)
open Lib (System)
open Xv6

/-- A `fork` in progress: the child and the assignments still to make. -/
structure Pending where
  np : Slot
  todo : List Assign
deriving DecidableEq, Repr

/-- The kernel and the `fork` each process is in. -/
structure Forking (Cpu : Type) extends State Cpu where
  forks : Slot → Option Pending

inductive Event (Cpu : Type)
  | step (l : Label Cpu)
  | alloc (c : Cpu) (me : Slot)
  | fail (c : Cpu) (me : Slot)
  | assign (c : Cpu) (me : Slot)
deriving DecidableEq, Repr

variable {Cpu : Type}

/-- A process inside `fork` makes no call, but the timer can make it yield. -/
def Free (s : Forking Cpu) : Label Cpu → Prop
  | .call _ _ (.fork _) => False
  | .call _ _ .yield => True
  | .call _ me _ => s.forks me = none
  | _ => True

instance (s : Forking Cpu) : (l : Label Cpu) → Decidable (Free s l)
  | .call _ _ (.fork _) => .isFalse nofun
  | .call _ _ .yield => .isTrue trivial
  | .call _ me (.sleep _) | .call _ me (.kill _) | .call _ me (.settickets _) | .call _ me .exit
  | .call _ me .wait => inferInstanceAs (Decidable (s.forks me = none))
  | .schedule _ | .wakeup _ => .isTrue trivial

variable [DecidableEq Cpu]

/-- `allocproc`, the failure of `kalloc` or `copyuvm`, and one assignment are
the steps of `fork`; it returns after the last assignment. -/
def Forking.next (s : Forking Cpu) : Event Cpu → Option (Forking Cpu)
  | .step l => if Free s l then (Stride.next s.toState l).map ({ s with toState := · }) else none
  | .alloc c me =>
    if s.proc c = some me ∧ s.forks me = none then
      match allocproc s.toState with
      | none => some s
      | some (np, t) => some ⟨t, update s.forks me (some ⟨np, Assign.all⟩)⟩
    else none
  | .fail c me =>
    match s.forks me with
    | some ⟨np, .parent :: _⟩ =>
      if s.proc c = some me then some ⟨s.setState np .unused, update s.forks me none⟩ else none
    | _ => none
  | .assign c me =>
    match s.forks me with
    | some ⟨np, a :: todo⟩ =>
      if s.proc c = some me then
        some ⟨a.run me np s.toState,
          update s.forks me (if todo = [] then none else some ⟨np, todo⟩)⟩
      else none
    | _ => none

-- ---------------------------------------------------------------------------
-- Without interruption
-- ---------------------------------------------------------------------------

variable {s t : State Cpu}

omit [DecidableEq Cpu] in
theorem allocproc_eq {w t : State Cpu} (h : allocproc w = some (np, t)) :
    (w.ptable np).state = .unused ∧ t.globalMinPassVal = w.globalMinPassVal ∧ t.proc = w.proc ∧
      t.initproc = w.initproc ∧
      t.ptable = update w.ptable np { w.ptable np with state := .embryo } := by
  obtain hnone | ⟨np', hnp, hsome⟩ := allocproc_cases w
  · simp [hnone] at h
  · obtain ⟨rfl, rfl⟩ := Prod.mk.inj (Option.some.inj (hsome.symm.trans h))
    exact ⟨hnp, rfl, rfl, rfl, rfl⟩

omit [DecidableEq Cpu] in
theorem Assign.run_frame (a : Assign) (me np : Slot) (s : State Cpu) :
    (a.run me np s).proc = s.proc ∧ (a.run me np s).initproc = s.initproc ∧
      ∀ p ≠ np, (a.run me np s).ptable p = s.ptable p := by
  cases a <;> exact ⟨rfl, rfl, fun p hp => by simp [Assign.run, State.setTask, State.setState,
    State.setStride, hp]⟩

theorem assign_step {s : Forking Cpu} (hme : s.proc c = some me)
    (hf : s.forks me = some ⟨np, a :: todo⟩) :
    s.next (.assign c me) = some ⟨a.run me np s.toState,
      update s.forks me (if todo = [] then none else some ⟨np, todo⟩)⟩ := by
  simp [Forking.next, hf, hme]

theorem exec_assigns (todo : List Assign) (hne : todo ≠ []) (s : Forking Cpu)
    (hme : s.proc c = some me) (hf : s.forks me = some ⟨np, todo⟩) :
    System.exec Forking.next s (List.replicate todo.length (.assign c me)) =
      some ⟨todo.foldl (Assign.run me np) s.toState, update s.forks me none⟩ := by
  induction todo generalizing s with
  | nil => exact absurd rfl hne
  | cons a todo ih =>
    rw [List.length_cons, List.replicate_succ, System.exec, assign_step hme hf, Option.bind_some]
    cases todo with
    | nil => rfl
    | cons b todo =>
      rw [ih (by simp) _ ((congrFun (a.run_frame me np s.toState).1 c).trans hme) (by simp)]
      simp

/-- A `fork` that nothing interrupts is the one step of the kernel. -/
theorem fork_uninterrupted {s : Forking Cpu} (hme : s.proc c = some me) (hf : s.forks me = none)
    (h : allocproc s.toState = some (np, t)) :
    System.exec Forking.next s (.alloc c me :: List.replicate Assign.all.length (.assign c me)) =
      some ⟨fork me true s.toState, s.forks⟩ := by
  have halloc : s.next (.alloc c me) = some ⟨t, update s.forks me (some ⟨np, Assign.all⟩)⟩ := by
    simp [Forking.next, hme, hf, h]
  have hproc := (allocproc_eq h).2.2.1
  rw [System.exec, halloc, Option.bind_some,
    exec_assigns Assign.all (by simp [Assign.all]) _ ((congrFun hproc c).trans hme)
      (Function.update_self ..)]
  have hforks : update s.forks me none = s.forks := by rw [← hf, Function.update_eq_self]
  simp [fork, h, hforks]

-- ---------------------------------------------------------------------------
-- The account of a process
-- ---------------------------------------------------------------------------

/-- What a step of the kernel makes of the stride data `d` of `p`. -/
def charge (s : State Cpu) (p : Slot) (d : StrideData) : Label Cpu → StrideData
  | .schedule _ =>
    if (scheduler s.toKernel).1 = some p then
      { d with n_schedule := d.n_schedule + 1, passVal := d.passVal + d.strideVal }
    else d
  | .call _ me (.settickets n) => if me = p ∧ ValidTickets n then d.settickets n else d
  | l => if Woken s l p then { d with passVal := s.globalMinPassVal } else d

/-- The pass value `fork` assigned, the stride data due, and the dispatches
since the creation. -/
structure Account where
  assigned : BitVec 32
  data : StrideData
  dispatched : Nat

/-- The account of `p` after an event. -/
def Account.after (s : Forking Cpu) (p : Slot) (a : Account) : Event Cpu → Account
  | .step l =>
    { a with
      data := charge s.toState p a.data l
      dispatched := match l with
        | .schedule _ => if (scheduler s.toKernel).1 = some p then a.dispatched + 1 else a.dispatched
        | _ => a.dispatched }
  | .alloc _ _ =>
    if (allocproc s.toState).map Prod.fst = some p then
      ⟨s.globalMinPassVal, child s.globalMinPassVal, 0⟩
    else a
  | .fail _ _ => a
  | .assign _ me =>
    match s.forks me with
    | some ⟨np, .passVal :: _⟩ =>
      if np = p then
        { a with
          assigned := s.globalMinPassVal
          data := { a.data with passVal := s.globalMinPassVal } }
      else a
    | _ => a

/-- The machine and the accounts kept of it. -/
structure Watched (Cpu : Type) extends Forking Cpu where
  account : Slot → Account

def Watched.next (w : Watched Cpu) (e : Event Cpu) : Option (Watched Cpu) :=
  (w.toForking.next e).map fun s => ⟨s, fun p => (w.account p).after w.toForking p e⟩

/-- After `userinit`, with the accounts opened on the data it leaves. -/
def boot : Option (Watched Cpu) :=
  (userinit bss).map fun s => ⟨⟨s, fun _ => none⟩, fun p => ⟨0, (s.ptable p).strideData, 0⟩⟩

def watched (Cpu : Type) [DecidableEq Cpu] : System (Watched Cpu) (Event Cpu) :=
  .ofNext (fun w => boot = some w) Watched.next

/-- A `fork` still has to write to `p`. -/
def Unfinished (s : Forking Cpu) (p : Slot) : Prop := ∃ me, (s.forks me).map Pending.np = some p

instance (s : Forking Cpu) (p : Slot) : Decidable (Unfinished s p) :=
  inferInstanceAs (Decidable (∃ me, (s.forks me).map Pending.np = some p))

/-- No dispatch falls between the publication of a child and the last
assignment of its `fork`. -/
def Uninterrupted (w : Watched Cpu) : Event Cpu → Prop
  | .step (.schedule _) => ∀ p, (scheduler w.toKernel).1 = some p → ¬ Unfinished w.toForking p
  | _ => True

instance (w : Watched Cpu) (e : Event Cpu) : Decidable (Uninterrupted w e) := by
  unfold Uninterrupted
  split <;> infer_instance

-- ---------------------------------------------------------------------------
-- Steps of the kernel
-- ---------------------------------------------------------------------------

omit [DecidableEq Cpu] in
@[simp] theorem setState_strideData (s : State Cpu) (q : Slot) (st : ProcState) (p : Slot) :
    ((s.setState q st).ptable p).strideData = (s.ptable p).strideData := by
  unfold State.setState
  rcases eq_or_ne p q with rfl | hpq
  · simp
  · simp [hpq]

theorem call_strideData {call : Call} (h : call.run c me s = some t)
    (hl : ∀ mem, call ≠ .fork mem) (p : Slot) :
    (t.ptable p).strideData = charge s p (s.ptable p).strideData (.call c me call) := by
  cases call with
  | yield =>
    cases h
    exact setState_strideData s me _ p
  | sleep chan =>
    cases h
    exact setState_strideData _ me _ p
  | kill pid =>
    cases h
    obtain h | ⟨q, -, -, -, h⟩ := kill_cases pid s
    · rw [h]
      rfl
    · rw [h]
      exact setState_strideData s q .runnable p
  | settickets n =>
    cases h
    unfold settickets charge
    by_cases hn : ValidTickets n
    · rcases eq_or_ne me p with rfl | hp
      · simp [hn, State.setStride]
      · simp [hn, State.setStride, hp, Ne.symm hp]
    · simp [hn]
  | fork mem => exact absurd rfl (hl mem)
  | exit =>
    simp only [Call.run, exit] at h
    split at h
    case isTrue => cases h
    case isFalse =>
      cases h
      have hentry := reparent_entry c me s p
      generalize slots.foldl (reparent me) (wakeup1 ((s.task me).parent.map .proc) s) = u at *
      refine (setState_strideData u me .zombie p).trans ?_
      rw [hentry]
      simp only [charge]
      split <;> rfl
  | wait =>
    cases h
    unfold wait
    split
    · exact setState_strideData s _ .unused p
    · split
      · rfl
      · exact setState_strideData _ me _ p

/-- The stride data change as the account says. -/
theorem next_strideData (h : next s l = some t)
    (hl : ∀ c me mem, l ≠ .call c me (.fork mem)) (p : Slot) :
    (t.ptable p).strideData = charge s p (s.ptable p).strideData l := by
  cases l with
  | schedule c =>
    obtain ⟨-, h⟩ := Option.ite_none_right_eq_some.mp h
    cases h
    unfold schedule charge
    obtain h | ⟨q, -, -, h⟩ := scheduler_eq s.toKernel
    · simp [h]
    · rw [h]
      rcases eq_or_ne q p with rfl | hp
      · simp [Entry.dispatch]
      · simp [hp, Ne.symm hp]
  | wakeup chan =>
    cases h
    by_cases hp : Asleep s (some chan) p
    · have hw : Woken s (.wakeup chan) p := hp
      simp [wakeup1, charge, hp, hw, Entry.wake]
    · have hw : ¬ Woken s (.wakeup chan) p := hp
      simp [wakeup1, charge, hp, hw]
  | call c me call =>
    obtain ⟨-, h⟩ := Option.ite_none_right_eq_some.mp h
    exact call_strideData h (fun mem hmem => hl c me mem (by rw [hmem])) p

/-- A process that has not run is left alone until it is dispatched. -/
theorem next_quiet (hs : Cpus s) (h : next s l = some t)
    (hl : ∀ c me mem, l ≠ .call c me (.fork mem))
    (hp : (s.ptable p).state = .embryo ∨ (s.ptable p).state = .runnable)
    (hsel : ∀ c, l = .schedule c → (scheduler s.toKernel).1 ≠ some p) :
    t.ptable p = s.ptable p ∧ ∀ d, charge s p d l = d := by
  have hasleep : ¬ Woken s l p := fun hw => by simp [hw.sleeping] at hp
  have hrun : ∀ c, s.proc c ≠ some p := fun c hc => by simp [hs.running c p hc] at hp
  refine ⟨?_, fun d => ?_⟩
  · have hmove := next_move hs h p
    generalize t.ptable p = e at hmove
    cases hmove with
    | stay => rfl
    | dispatch _ h => exact absurd h (hsel _ rfl)
    | wake hw => exact absurd hw hasleep
    | create => exact absurd rfl (hl _ _ _)
    | rouse _ hst | leave _ hst | tickets hst | reap hst => simp [hst] at hp
  · unfold charge
    split
    case h_1 c => exact if_neg (hsel c rfl)
    case h_2 c me n =>
      refine if_neg fun hme => ?_
      exact hrun c (hme.1 ▸ (Option.ite_none_right_eq_some.mp h).1)
    case h_3 => exact if_neg hasleep

-- ---------------------------------------------------------------------------
-- The invariant
-- ---------------------------------------------------------------------------

/-- A child that has not been dispatched: its data are due as `fork` assigns
them. -/
structure New (e : Entry) (a : Account) : Prop where
  state : e.state = .embryo ∨ e.state = .runnable
  dispatched : a.dispatched = 0
  data : a.data = child a.assigned

/-- The child of a `fork` that still has `todo` to do. -/
structure Half (e : Entry) (a : Account) (todo : List Assign) : Prop extends New e a where
  suffix : todo <:+ Assign.all
  ne : todo ≠ []
  published : .state ∈ todo → e.state = .embryo
  numTickets : .numTickets ∉ todo → e.strideData.numTickets = a.data.numTickets
  strideVal : .strideVal ∉ todo → e.strideData.strideVal = a.data.strideVal
  passVal : .passVal ∉ todo → e.strideData.passVal = a.data.passVal

/-- A process whose `fork` has returned. -/
structure Settled (e : Entry) (a : Account) : Prop where
  data : e.strideData = a.data
  n_schedule : a.data.n_schedule = BitVec.ofNat 32 a.dispatched

structure Inv (w : Watched Cpu) : Prop where
  cpus : Cpus w.toState
  pending : ∀ me np todo, w.forks me = some ⟨np, todo⟩ → Half (w.ptable np) (w.account np) todo
  distinct : ∀ me me' p, (w.forks me).map Pending.np = some p →
    (w.forks me').map Pending.np = some p → me = me'
  settled : ∀ p, (w.ptable p).state ≠ .unused → ¬ Unfinished w.toForking p →
    Settled (w.ptable p) (w.account p)
  new : ∀ p, (w.ptable p).state ≠ .unused → p ≠ w.initproc → (w.account p).dispatched = 0 →
    New (w.ptable p) (w.account p)

omit [DecidableEq Cpu] in
theorem Move.inUse {e : Entry} (h : Move s l p e) (hl : ∀ c me mem, l ≠ .call c me (.fork mem))
    (he : e.state ≠ .unused) : (s.ptable p).state ≠ .unused := by
  cases h with
  | stay => exact he
  | wake hw => simp [hw.sleeping]
  | create => exact absurd rfl (hl _ _ _)
  | dispatch hst | rouse _ hst | leave _ hst | tickets hst | reap hst => simp [hst]

omit [DecidableEq Cpu] in
theorem after_quiet {w : Forking Cpu} (a : Account)
    (hsel : ∀ c, l = .schedule c → (scheduler w.toKernel).1 ≠ some p)
    (hc : ∀ d, charge w.toState p d l = d) : a.after w p (.step l) = a := by
  simp only [Account.after, hc]
  split
  case h_1 c => rw [if_neg (hsel c rfl)]
  case h_2 => rfl

omit [DecidableEq Cpu] in
theorem Settled.after {w : Forking Cpu} (h : Settled (w.ptable p) a) (l : Label Cpu)
    (he : e.strideData = charge w.toState p (w.ptable p).strideData l) :
    Settled e (a.after w p (.step l)) := by
  refine ⟨by rw [he, h.data]; rfl, ?_⟩
  cases l with
  | schedule c =>
    simp only [Account.after, charge]
    split
    · rw [h.n_schedule, BitVec.ofNat_add]
      rfl
    · exact h.n_schedule
  | wakeup chan =>
    simp only [Account.after, charge]
    split <;> exact h.n_schedule
  | call c me call =>
    simp only [Account.after]
    unfold charge
    split
    case h_1 heq => cases heq
    case h_2 => split <;> exact h.n_schedule
    case h_3 => split <;> exact h.n_schedule

theorem Inv.step {w : Watched Cpu} (hw : Inv w) (h : next w.toState l = some t)
    (hl : Free w.toForking l) (hok : Uninterrupted w (.step l)) :
    Inv ⟨⟨t, w.forks⟩, fun p => (w.account p).after w.toForking p (.step l)⟩ := by
  have hfork : ∀ c me mem, l ≠ .call c me (.fork mem) := by
    rintro c me mem rfl
    exact hl
  -- a new process that is not dispatched keeps its entry and its account
  have hquiet {p : Slot} (hp : New (w.ptable p) (w.account p))
      (hsel : ∀ c, l = .schedule c → (scheduler w.toKernel).1 ≠ some p) :
      t.ptable p = w.ptable p ∧ (w.account p).after w.toForking p (.step l) = w.account p := by
    obtain ⟨he, hc⟩ := next_quiet hw.cpus h hfork hp.state hsel
    exact ⟨he, after_quiet _ hsel hc⟩
  refine ⟨hw.cpus.next h, fun me np todo hme => ?_, hw.distinct, fun p hp hun => ?_,
    fun p hp hinit hnew => ?_⟩
  · have hhalf := hw.pending me np todo hme
    have hsel : ∀ c, l = .schedule c → (scheduler w.toKernel).1 ≠ some np := by
      rintro c rfl hsel
      exact hok np hsel ⟨me, congrArg (Option.map Pending.np) hme⟩
    obtain ⟨he, ha⟩ := hquiet hhalf.toNew hsel
    simpa only [he, ha] using hhalf
  · have huse := (next_move hw.cpus h p).inUse hfork hp
    exact (hw.settled p huse hun).after l (next_strideData h hfork p)
  · have huse := (next_move hw.cpus h p).inUse hfork hp
    have hsel : ∀ c, l = .schedule c → (scheduler w.toKernel).1 ≠ some p := by
      rintro c rfl hsel
      simp [Account.after, hsel] at hnew
    have hold : (w.account p).dispatched = 0 := by
      simp only [Account.after] at hnew
      split at hnew
      · split at hnew
        · simp at hnew
        · exact hnew
      · exact hnew
    have hnew := hw.new p huse (next_initproc h ▸ hinit) hold
    obtain ⟨he, ha⟩ := hquiet hnew hsel
    simpa only [he, ha] using hnew

omit [DecidableEq Cpu] in
/-- A step of the `fork` of `me`, which concerns its child `np` alone. -/
theorem Inv.replace {w v : Watched Cpu} (hw : Inv w) (np : Slot) (hproc : v.proc = w.proc)
    (hinit : v.initproc = w.initproc) (hforks : v.forks = update w.forks me f)
    (hframe : ∀ p ≠ np, v.ptable p = w.ptable p ∧ v.account p = w.account p)
    (hrunning : (v.ptable np).state ≠ .running ∧ (w.ptable np).state ≠ .running)
    (hothers : ∀ me' ≠ me, (w.forks me').map Pending.np ≠ some np)
    (hold : ∀ q, w.forks me = some q → q.np = np)
    (hpending : ∀ q, f = some q → q.np = np ∧ Half (v.ptable np) (v.account np) q.todo)
    (hsettled : f = none → (v.ptable np).state ≠ .unused → Settled (v.ptable np) (v.account np))
    (hnew : (v.ptable np).state ≠ .unused → np ≠ w.initproc → (v.account np).dispatched = 0 →
      New (v.ptable np) (v.account np)) : Inv v := by
  have hme : v.forks me = f := by simp [hforks]
  have hne {me' : Slot} (h : me' ≠ me) : v.forks me' = w.forks me' := by simp [hforks, h]
  -- a fork with another child is not the one of `me`
  have hfork {me' p : Slot} (hp : p ≠ np) :
      (v.forks me').map Pending.np = some p ↔ (w.forks me').map Pending.np = some p := by
    rcases eq_or_ne me' me with rfl | hm
    · rw [hme]
      constructor
      · intro h
        obtain ⟨q, hq, rfl⟩ := Option.map_eq_some_iff.mp h
        exact absurd (hpending q hq).1 hp
      · intro h
        obtain ⟨q, hq, rfl⟩ := Option.map_eq_some_iff.mp h
        exact absurd (hold q hq) hp
    · rw [hne hm]
  have hnp {me' : Slot} (h : (v.forks me').map Pending.np = some np) : me' = me := by
    by_contra hm
    exact hothers me' hm (hne hm ▸ h)
  refine ⟨hw.cpus.congr hproc fun p => ?_, fun me' p todo hp => ?_, fun me₁ me₂ p h₁ h₂ => ?_,
    fun p hp hun => ?_, fun p hp hpi hd => ?_⟩
  · rcases eq_or_ne p np with rfl | hp
    · simp [hrunning]
    · rw [(hframe p hp).1]
  · rcases eq_or_ne me' me with rfl | hm
    · obtain ⟨rfl, hhalf⟩ := hpending ⟨p, todo⟩ (hme ▸ hp)
      exact hhalf
    · rw [hne hm] at hp
      have hpn : p ≠ np := by
        rintro rfl
        exact hothers me' hm (by rw [hp]; rfl)
      rw [(hframe p hpn).1, (hframe p hpn).2]
      exact hw.pending me' p todo hp
  · rcases eq_or_ne p np with rfl | hpn
    · rw [hnp h₁, hnp h₂]
    · exact hw.distinct me₁ me₂ p ((hfork hpn).mp h₁) ((hfork hpn).mp h₂)
  · rcases eq_or_ne p np with rfl | hpn
    · refine hsettled ?_ hp
      by_contra hf
      obtain ⟨q, hq⟩ := Option.ne_none_iff_exists'.mp hf
      exact hun ⟨me, by rw [hme, hq, Option.map_some, (hpending q hq).1]⟩
    · rw [(hframe p hpn).1, (hframe p hpn).2]
      rw [(hframe p hpn).1] at hp
      exact hw.settled p hp fun ⟨me', h⟩ => hun ⟨me', (hfork hpn).mpr h⟩
  · rcases eq_or_ne p np with rfl | hpn
    · exact hnew hp (hinit ▸ hpi) hd
    · rw [(hframe p hpn).1, (hframe p hpn).2]
      rw [(hframe p hpn).1] at hp
      rw [(hframe p hpn).2] at hd
      exact hw.new p hp (hinit ▸ hpi) hd

omit [DecidableEq Cpu] in
/-- The child of a `fork` in progress has never run. -/
theorem Inv.pending_state {w : Watched Cpu} (hw : Inv w)
    (h : (w.forks me).map Pending.np = some p) :
    (w.ptable p).state = .embryo ∨ (w.ptable p).state = .runnable := by
  obtain ⟨⟨_, todo⟩, hf, rfl⟩ := Option.map_eq_some_iff.mp h
  exact (hw.pending me _ todo hf).state

omit [DecidableEq Cpu] in
theorem Inv.alloc {w : Watched Cpu} (hw : Inv w) (hme : w.forks me = none)
    (h : allocproc w.toState = some (np, t)) (c : Cpu) :
    Inv ⟨⟨t, update w.forks me (some ⟨np, Assign.all⟩)⟩,
      fun p => (w.account p).after w.toForking p (.alloc c me)⟩ := by
  obtain ⟨hnp, -, hproc, hinit, hptable⟩ := allocproc_eq h
  have haccount : (w.account np).after w.toForking np (.alloc c me) =
      ⟨w.globalMinPassVal, child w.globalMinPassVal, 0⟩ := by
    simp [Account.after, h]
  have hstate : (t.ptable np).state = .embryo := by simp [hptable]
  have hnew : New (t.ptable np) ((w.account np).after w.toForking np (.alloc c me)) := by
    rw [haccount]
    exact ⟨.inl hstate, rfl, rfl⟩
  refine hw.replace np hproc hinit rfl (fun p hp => ⟨?_, ?_⟩) (by simp [hstate, hnp])
    (fun me' _ hf => ?_) (by simp [hme]) ?_ (by simp) fun _ _ _ => hnew
  · exact (congrFun hptable p).trans (Function.update_of_ne hp _ _)
  · simp [Account.after, h, Ne.symm hp]
  · have := hw.pending_state hf
    simp [hnp] at this
  · rintro q ⟨⟩
    exact ⟨rfl, hnew, List.suffix_refl _, by simp [Assign.all], fun _ => hstate, by simp [Assign.all],
      by simp [Assign.all], by simp [Assign.all]⟩

omit [DecidableEq Cpu] in
theorem Inv.fail {w : Watched Cpu} (hw : Inv w) (hme : w.forks me = some ⟨np, todo⟩) (c : Cpu) :
    Inv ⟨⟨w.setState np .unused, update w.forks me none⟩,
      fun p => (w.account p).after w.toForking p (.fail c me)⟩ := by
  have hmap : (w.forks me).map Pending.np = some np := by simp [hme]
  have hstate : ((w.setState np .unused).ptable np).state = .unused := by simp [State.setState]
  refine hw.replace np rfl rfl rfl (fun p hp => ⟨?_, rfl⟩) ⟨by simp [hstate], ?_⟩
    (fun me' hm hf => hm (hw.distinct me' me np hf hmap)) (by simp [hme]) (by simp)
    (fun _ h => absurd hstate h) fun h => absurd hstate h
  · simp [State.setState, hp]
  · have := hw.pending_state hmap
    intro h
    simp [h] at this

omit [DecidableEq Cpu] in
/-- One assignment brings the child closer to its account. -/
theorem Half.assign {w : Forking Cpu} (h : Half (w.ptable np) a (x :: todo))
    (hme : w.forks me = some ⟨np, x :: todo⟩) (c : Cpu) :
    New ((x.run me np w.toState).ptable np) (a.after w np (.assign c me)) ∧
      (todo ≠ [] → Half ((x.run me np w.toState).ptable np) (a.after w np (.assign c me)) todo) ∧
      (todo = [] → Settled ((x.run me np w.toState).ptable np) (a.after w np (.assign c me))) := by
  obtain ⟨⟨hstate, hd, hdata⟩, hsuffix, -, hpub, ht, hs, hp⟩ := h
  have hcases := hsuffix
  simp only [Assign.all, List.suffix_cons_iff, List.cons.injEq, List.suffix_nil,
    reduceCtorEq, or_false] at hcases
  rcases hcases with ⟨rfl, rfl⟩ | ⟨rfl, rfl⟩ | ⟨rfl, rfl⟩ | ⟨rfl, rfl⟩ | ⟨rfl, rfl⟩ | ⟨rfl, rfl⟩
  all_goals simp only [Assign.run, Account.after, hme]
  -- parent
  · have hnew : New (w.ptable np) a := ⟨hstate, hd, hdata⟩
    exact ⟨hnew, fun _ => ⟨hnew, by simp [Assign.all], by simp, fun _ => hpub (by simp), by simp,
      by simp, by simp⟩, by simp⟩
  -- state
  · have hnew : New ((w.setState np .runnable).ptable np) a :=
      ⟨by simp [State.setState], hd, hdata⟩
    exact ⟨hnew, fun _ => ⟨hnew, by simp [Assign.all, List.suffix_cons_iff], by simp, by simp,
      by simp, by simp, by simp⟩, by simp⟩
  -- numTickets
  · have hnew : New ((w.setStride np { (w.ptable np).strideData with
        numTickets := INIT_TICKET_VAL }).ptable np) a :=
      ⟨by simpa [State.setStride] using hstate, hd, hdata⟩
    exact ⟨hnew, fun _ => ⟨hnew, by simp [Assign.all, List.suffix_cons_iff], by simp, by simp,
      by simp [State.setStride, hdata, child], by simp, by simp⟩, by simp⟩
  -- strideVal
  · have hnew : New ((w.setStride np { (w.ptable np).strideData with
        strideVal := STRIDE.sdiv INIT_TICKET_VAL }).ptable np) a :=
      ⟨by simpa [State.setStride] using hstate, hd, hdata⟩
    have ht := ht (by simp)
    exact ⟨hnew, fun _ => ⟨hnew, by simp [Assign.all, List.suffix_cons_iff], by simp, by simp,
      by simp [State.setStride, ht], by simp [State.setStride, hdata, child], by simp⟩, by simp⟩
  -- passVal
  · have hnew : New ((w.setStride np { (w.ptable np).strideData with
        passVal := w.globalMinPassVal }).ptable np)
        { a with
          assigned := w.globalMinPassVal
          data := { a.data with passVal := w.globalMinPassVal } } :=
      ⟨by simpa [State.setStride] using hstate, hd, by simp [hdata, child]⟩
    have ht := ht (by simp)
    have hs := hs (by simp)
    simp only [if_true]
    exact ⟨hnew, fun _ => ⟨hnew, by simp [Assign.all, List.suffix_cons_iff], by simp, by simp,
      by simp [State.setStride, ht], by simp [State.setStride, hs], by simp [State.setStride]⟩,
      by simp⟩
  -- n_schedule
  · have hnew : New ((w.setStride np { (w.ptable np).strideData with
        n_schedule := 0 }).ptable np) a :=
      ⟨by simpa [State.setStride] using hstate, hd, hdata⟩
    have ht := ht (by simp)
    have hs := hs (by simp)
    have hp := hp (by simp)
    refine ⟨hnew, by simp, fun _ => ⟨?_, by simp [hdata, child, hd]⟩⟩
    simp only [State.setStride, Function.update_self, ht, hs, hp]
    rw [hdata]
    rfl

omit [DecidableEq Cpu] in
theorem Inv.assign {w : Watched Cpu} (hw : Inv w) (hme : w.forks me = some ⟨np, a :: todo⟩)
    (c : Cpu) :
    Inv ⟨⟨a.run me np w.toState, update w.forks me (if todo = [] then none else some ⟨np, todo⟩)⟩,
      fun p => (w.account p).after w.toForking p (.assign c me)⟩ := by
  have hmap : (w.forks me).map Pending.np = some np := by simp [hme]
  have hhalf := hw.pending me np _ hme
  obtain ⟨hproc, hinit, hframe⟩ := a.run_frame me np w.toState
  obtain ⟨hnew, hrest, hlast⟩ := hhalf.assign hme c
  refine hw.replace np hproc hinit rfl (fun p hp => ⟨hframe p hp, ?_⟩) ⟨?_, ?_⟩
    (fun me' hm hf => hm (hw.distinct me' me np hf hmap)) (by simp [hme]) (fun q hq => ?_)
    (fun hf _ => ?_) fun _ _ _ => hnew
  · cases a <;> simp [Account.after, hme, Ne.symm hp]
  · rcases hnew.state with h | h <;> simp [h]
  · rcases hhalf.state with h | h <;> simp [h]
  · split at hq
    · simp at hq
    · cases hq
      exact ⟨rfl, hrest ‹_›⟩
  · split at hf
    · exact hlast ‹_›
    · simp at hf

theorem Inv.next {w v : Watched Cpu} (hw : Inv w) (h : w.next e = some v)
    (hok : Uninterrupted w e) : Inv v := by
  obtain ⟨s, hs, rfl⟩ := Option.map_eq_some_iff.mp h
  cases e with
  | step l =>
    obtain ⟨hl, hs⟩ := Option.ite_none_right_eq_some.mp hs
    obtain ⟨t, ht, rfl⟩ := Option.map_eq_some_iff.mp hs
    exact hw.step ht hl hok
  | alloc c me =>
    obtain ⟨⟨-, hme⟩, hs⟩ := Option.ite_none_right_eq_some.mp hs
    split at hs
    case h_1 hnone =>
      cases hs
      have hsame (p : Slot) : (w.account p).after w.toForking p (.alloc c me) = w.account p := by
        simp [Account.after, hnone]
      simpa [hsame] using hw
    case h_2 np t hsome =>
      cases hs
      exact hw.alloc hme hsome c
  | fail c me =>
    simp only [Forking.next] at hs
    split at hs
    case h_1 np todo hme =>
      obtain ⟨-, hs⟩ := Option.ite_none_right_eq_some.mp hs
      cases hs
      exact hw.fail hme c
    case h_2 => cases hs
  | assign c me =>
    simp only [Forking.next] at hs
    split at hs
    case h_1 np a todo hme =>
      obtain ⟨-, hs⟩ := Option.ite_none_right_eq_some.mp hs
      cases hs
      exact hw.assign hme c
    case h_2 => cases hs

theorem Inv.boot {w : Watched Cpu} (h : boot = some w) : Inv w := by
  obtain ⟨s, hs, rfl⟩ := Option.map_eq_some_iff.mp h
  obtain ⟨hptable, -, hinit, -⟩ := userinit_bss hs
  have huse {p : Slot} (hp : (s.ptable p).state ≠ .unused) : p = s.initproc := by
    by_contra hne
    exact hp (by simp [hptable, hinit ▸ hne])
  refine ⟨cpus_of_reachable (.init hs), by simp, by simp, fun p hp _ => ⟨rfl, ?_⟩,
    fun p hp hpi _ => absurd (huse hp) hpi⟩
  simp [huse hp, hptable, hinit]

theorem inv_of_reachable {w : Watched Cpu}
    (h : ((watched Cpu).restrict Uninterrupted).Reachable w) : Inv w :=
  h.invariant (fun _ h => .boot h) fun _ _ _ _ hw h => hw.next h.1 h.2

/-- Where no dispatch interrupts a `fork` after the publication of its child:
every process is dispatched with the data of its account, a child for the
first time with exactly what `fork` assigned, and once `fork` has returned
`n_schedule` counts the dispatches. -/
theorem dispatched_own {w : Watched Cpu}
    (h : ((watched Cpu).restrict Uninterrupted).Reachable w) :
    (∀ c p, w.proc c = none → Uninterrupted w (.step (.schedule c)) →
      (scheduler w.toKernel).1 = some p →
      (w.ptable p).strideData = (w.account p).data ∧
        (p ≠ w.initproc → (w.account p).dispatched = 0 →
          (w.ptable p).strideData = child (w.account p).assigned)) ∧
      ∀ p, (w.ptable p).state ≠ .unused → ¬ Unfinished w.toForking p →
        (w.ptable p).strideData.n_schedule = BitVec.ofNat 32 (w.account p).dispatched := by
  have hw := inv_of_reachable h
  refine ⟨fun c p _ hok hsel => ?_, fun p hp hun => ?_⟩
  · have huse : (w.ptable p).state ≠ .unused := by simp [scheduler_runnable hsel]
    have hdata := (hw.settled p huse (hok p hsel)).data
    exact ⟨hdata, fun hpi hd => hdata.trans (hw.new p huse hpi hd).data⟩
  · obtain ⟨hdata, hcount⟩ := hw.settled p hp hun
    rw [hdata, hcount]

/-- init forks a child, without interruption, and waits for it. -/
def forkSteps : List (Event Unit) :=
  [.step (.schedule ()), .alloc () 0] ++ List.replicate 6 (.assign () 0) ++
    [.step (.call () 0 .wait)]

theorem dispatched_own_child : ∃ w : Watched Unit, (scheduler w.toKernel).1 = some 1 ∧
    (w.ptable 1).strideData = child 0 ∧ (w.ptable 1).strideData = child (w.account 1).assigned := by
  obtain ⟨w, hw, hproc, hok, hsel, hinit, hd, hdata⟩ := System.exists_run boot Watched.next
    Uninterrupted forkSteps
    (fun w => w.proc () = none ∧ Uninterrupted w (.step (.schedule ())) ∧
      (scheduler w.toKernel).1 = some 1 ∧ 1 ≠ w.initproc ∧ (w.account 1).dispatched = 0 ∧
      (w.ptable 1).strideData = child 0)
    (by decide +kernel)
  exact ⟨w, hsel, hdata, ((dispatched_own ⟨_, hw⟩).1 () 1 hproc hok hsel).2 hinit hd⟩

/-- The timer interrupts `fork` after the publication of the child. -/
def early : List (Event Unit) :=
  [.step (.schedule ()), .step (.call () 0 (.settickets 10)), .step (.call () 0 .yield),
    .step (.schedule ()), .alloc () 0, .assign () 0, .assign () 0, .step (.call () 0 .yield)]

/-- A child is dispatched with the stride data of the slot's past. -/
theorem dispatched_stale : ¬ ∀ w : Watched Unit, (watched Unit).Reachable w →
    ∀ c p, w.proc c = none → (scheduler w.toKernel).1 = some p → p ≠ w.initproc →
    (w.ptable p).strideData = (w.account p).data := by
  intro h
  obtain ⟨w, hw, hproc, hsel, hinit, hdata⟩ := System.exists_run boot Watched.next
    (fun _ _ => True) early
    (fun w => w.proc () = none ∧ (scheduler w.toKernel).1 = some 1 ∧ 1 ≠ w.initproc ∧
      (w.ptable 1).strideData ≠ (w.account 1).data)
    (by decide +kernel)
  exact hdata (h w ⟨_, hw.of_restrict⟩ () 1 hproc hsel hinit)

end PerrOS.Stride
