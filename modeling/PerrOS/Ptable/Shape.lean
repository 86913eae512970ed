import PerrOS.Ptable.Moves

/-!
# Entries and the points of their processes

Which point a process is at agrees with the state of its entry, and every
embryo has the one process that is filling it in.
-/

namespace PerrOS.Ptable

open Function (update)
open Xv6 (ProcState Slot slots mem_slots)

variable {s t u : State} {p q np k : Slot}

/-- The entry a process at the point is filling in. -/
def Pc.target : Pc → Option Slot
  | .forking np _ | .cloning np _ => some np
  | _ => none

@[simp] theorem Pc.target_user : Pc.user.target = none := rfl
@[simp] theorem Pc.target_dead : Pc.dead.target = none := rfl

@[simp] theorem Wait.target_start (w : Wait) : w.start.target = none := by cases w <;> rfl
@[simp] theorem Wait.target_asleep (w : Wait) : w.asleep.target = none := by cases w <;> rfl
@[simp] theorem Wait.target_done (w : Wait) : w.done.target = none := by cases w <;> rfl

/-- The points of `exit` with the lock dropped. -/
def Pc.exiting : Pc → Bool
  | .exitKill _ | .exitKilling _ _ | .exitJoin _ | .exitJoining _ _ | .exitAsleep _ _
  | .exitResume _ => true
  | _ => false

/-- The entry a process is filling in, until it has written the parent. -/
def Pc.blank : Pc → Option Slot
  | .forking np .kstack | .forking np .pgdir | .forking np .sz | .forking np .parent
  | .cloning np .kstack | .cloning np .parent => some np
  | _ => none

theorem Pc.target_of_blank {c : Pc} (h : c.blank = some np) : c.target = some np := by
  cases c with
  | forking _ next | cloning _ next => cases next <;> simp_all [Pc.blank, Pc.target]
  | _ => cases h

/-- The entry a process is about to publish, and whether as a thread. -/
def Pc.flag : Pc → Option (Slot × Bool)
  | .forking np .state => some (np, false)
  | .cloning np .state => some (np, true)
  | _ => none

theorem Pc.target_of_flag {c : Pc} {b : Bool} (h : c.flag = some (np, b)) :
    c.target = some np := by
  cases c with
  | forking _ next | cloning _ next => cases next <;> simp_all [Pc.flag, Pc.target]
  | _ => cases h

/-- The points inside `fork` and `wait`, which turn threads away. -/
def Pc.mainOnly : Pc → Bool
  | .forking _ _ | .waiting => true
  | _ => false

theorem Pc.cases_target {c : Pc} (h : c.target = some np) :
    (∃ next, c = .forking np next) ∨ ∃ next, c = .cloning np next := by
  cases c with
  | forking _ next =>
    cases h
    exact .inl ⟨next, rfl⟩
  | cloning _ next =>
    cases h
    exact .inr ⟨next, rfl⟩
  | _ => cases h

/-- In one step `p`, which is filling in the embryo `np`, writes to it. -/
structure Written (s t : State) (p np : Slot) : Prop where
  proc : ∀ k, k ≠ np → t.proc k = s.proc k
  state : (t.proc np).state = .embryo ∨ (t.proc np).state = .unused ∨
    (t.proc np).state = .runnable
  pc : ∀ k, k ≠ p → k ≠ np → t.pc k = s.pc k
  pcNew : np ≠ p → t.pc np = s.pc np ∨ t.pc np = .user
  pcOwn : (t.pc p).target = some np ∨ t.pc p = .user
  nextpid : t.nextpid = s.nextpid

/-- Where a process is after the step. -/
theorem Written.pcs (h : Written s t p np) (q : Slot) :
    t.pc q = s.pc q ∨ t.pc q = .user ∨ (t.pc q).target = some np := by
  rcases eq_or_ne q p with rfl | hqp
  · exact .inr h.pcOwn.symm
  · rcases eq_or_ne q np with rfl | hqnp
    · exact (h.pcNew hqp).imp_right .inl
    · exact .inl (h.pc q hqp hqnp)

theorem allocStack_written {kind : Kind} {pg : Page} {c : Pc} (hnp : (s.proc np).state = .embryo)
    (hc : c.target = some np) (h : allocStack s p kind np pg c = some t) : Written s t p np := by
  rcases ite_eq_some.mp h with ⟨-, h⟩ | ⟨-, h⟩
  case inr => cases h
  rcases ite_eq_some.mp h with ⟨-, h⟩ | ⟨-, h⟩
  · obtain rfl := Option.some.inj h
    exact ⟨fun k hk => by simp [hk], by simp, fun k hk _ => by simp [hk],
      fun hne => .inl (by simp [hne]), .inr (by simp), rfl⟩
  · obtain rfl := Option.some.inj h
    exact ⟨fun k hk => by simp [hk], by simp [hnp], fun k hk _ => by simp [hk],
      fun hne => .inl (by simp [hne]), .inl (by simp [hc]), rfl⟩

theorem publish_written : Written s (publish s p np) p np :=
  ⟨fun k hk => by simp [publish, State.setState, hk], by simp [publish, State.setState],
    fun k hk hk' => by simp [publish, State.setState, hk, hk'],
    fun hne => .inr (by simp [publish, hne]), .inr (by simp [publish]), rfl⟩

theorem forkStep_written {pg : Page} {next : ForkStage} (hnp : (s.proc np).state = .embryo)
    (h : forkStep s p np pg next = some t) : Written s t p np := by
  cases next with
  | kstack => exact allocStack_written hnp rfl h
  | pgdir =>
    rcases ite_eq_some.mp h with ⟨-, h⟩ | ⟨-, h⟩
    case inr => cases h
    rcases ite_eq_some.mp h with ⟨-, h⟩ | ⟨-, h⟩
    · obtain rfl := Option.some.inj h
      exact ⟨fun k hk => by simp [hk], by simp, fun k hk _ => by simp [hk],
        fun hne => .inl (by simp [hne]), .inr (by simp), rfl⟩
    · obtain rfl := Option.some.inj h
      exact ⟨fun k hk => by simp [hk], by simp [hnp], fun k hk _ => by simp [hk],
        fun hne => .inl (by simp [hne]), .inl (by simp [Pc.target]), rfl⟩
  | state =>
    obtain rfl := Option.some.inj h
    exact publish_written
  | _ =>
    obtain rfl := Option.some.inj h
    exact ⟨fun k hk => by simp [hk], by simp [hnp], fun k hk _ => by simp [hk],
      fun hne => .inl (by simp [hne]), .inl (by simp [Pc.target]), rfl⟩

theorem cloneStep_written {pg : Page} {next : CloneStage} (hnp : (s.proc np).state = .embryo)
    (h : cloneStep s p np pg next = some t) : Written s t p np := by
  cases next with
  | kstack => exact allocStack_written hnp rfl h
  | state =>
    obtain rfl := Option.some.inj h
    exact publish_written
  | _ =>
    obtain rfl := Option.some.inj h
    exact ⟨fun k hk => by simp [hk], by simp [hnp], fun k hk _ => by simp [hk],
      fun hne => .inl (by simp [hne]), .inl (by simp [Pc.target]), rfl⟩

structure Shape (s : State) : Prop where
  dead : ∀ k, s.pc k = .dead ↔ live (s.proc k).state = false
  embryo : ∀ np, (s.proc np).state = .embryo ↔ ∃ p, (s.pc p).target = some np
  unique : ∀ p q np, (s.pc p).target = some np → (s.pc q).target = some np → p = q
  unused : ∀ k, (s.proc k).state = .unused → (s.proc k).parent = none
  blank : ∀ p np, (s.pc p).blank = some np → (s.proc np).parent = none
  flag : ∀ p np b, (s.pc p).flag = some (np, b) → (s.proc np).isThread = b
  asleep : ∀ k w, (s.proc k).state = .sleeping → (s.pc k).wait = some w →
    (s.proc k).chan = .proc k
  mainOnly : ∀ p, (s.pc p).mainOnly = true → (s.proc p).isThread = false
  init : live (s.proc initproc).state = true ∧ (s.pc initproc).exiting = false

namespace Shape

theorem not_dead (h : Shape s) (hp : live (s.proc p).state = true) : s.pc p ≠ .dead := by
  rw [Ne, h.dead p, hp]
  decide

/-- A process that fills an entry in is alive, and the entry is not its own. -/
theorem target_ne (h : Shape s) (hp : (s.pc p).target = some np) : np ≠ p := by
  rintro rfl
  have hnp := (h.embryo np).mpr ⟨np, hp⟩
  have := (h.dead np).mpr (by rw [hnp]; rfl)
  rw [this] at hp
  cases hp

theorem calm (h : Shape s) (hc : Calm s t) : Shape t where
  dead k := by
    rw [hc.live_eq k, ← h.dead k]
    exact iff_of_eq (hc.read (f := (· = .dead)) (by simp) k)
  embryo np := by
    simp only [hc.read (f := Pc.target) rfl, ← h.embryo np]
    constructor <;> intro hnp
    · rw [← hc.state_eq (by rw [hnp]; rfl), hnp]
    · rw [hc.state_eq, hnp]
      rw [hc.live_eq, hnp]
      rfl
  unique p q np hp hq := by
    rw [hc.read (f := Pc.target) rfl] at hp hq
    exact h.unique p q np hp hq
  unused k hk := by
    rw [hc.parent k]
    exact h.unused k (by rw [← hc.state_eq (by rw [hk]; rfl), hk])
  blank p np hp := by
    rw [hc.read (f := Pc.blank) rfl] at hp
    exact (hc.parent np).trans (h.blank p np hp)
  flag p np b hp := by
    rw [hc.read (f := Pc.flag) rfl] at hp
    exact (hc.isThread np).trans (h.flag p np b hp)
  asleep k w hk hw := by
    rcases hc.sleeping k hk with hb | ⟨hs, hpc, hchan⟩
    · rw [hb] at hw
      cases hw
    · rw [hchan]
      exact h.asleep k w hs (hpc ▸ hw)
  mainOnly p hp := by
    rw [hc.read (f := Pc.mainOnly) rfl] at hp
    exact (hc.isThread p).trans (h.mainOnly p hp)
  init := by
    rw [hc.live_eq, hc.read (f := Pc.exiting) rfl]
    exact h.init

/-- A process goes to another point, its entry and all others keeping what
`Shape` reads. -/
theorem goto (h : Shape s) {c : Pc} (hp : live (s.proc p).state = true)
    (hstate : ∀ k, (t.proc k).state = (s.proc k).state)
    (hparent : ∀ k, (s.pc p).target ≠ some k → (s.proc k).parent = none →
      (t.proc k).parent = none)
    (hchan : ∀ k, (t.proc k).chan = (s.proc k).chan)
    (hthread : ∀ k, (s.pc p).target ≠ some k → (t.proc k).isThread = (s.proc k).isThread)
    (hpc : ∀ k, t.pc k = if k = p then c else s.pc k) (hc : c ≠ .dead)
    (htarget : c.target = (s.pc p).target)
    (hblank : ∀ np, c.blank = some np → (t.proc np).parent = none)
    (hflag : ∀ np b, c.flag = some (np, b) → (t.proc np).isThread = b) (hwait : c.wait = none)
    (hmain : c.mainOnly = true → (s.proc p).isThread = false)
    (hinit : p = initproc → c.exiting = false) : Shape t where
  dead k := by
    rw [hstate k, ← h.dead k, hpc k]
    split
    · next hk => simp [hc, hk, h.not_dead hp]
    · rfl
  embryo np := by
    rw [hstate np, h.embryo np]
    refine exists_congr fun q => ?_
    rw [hpc q]
    split
    · next hq => rw [htarget, hq]
    · rfl
  unique q q' np hq hq' := by
    have htgt (k : Slot) : (t.pc k).target = (s.pc k).target := by
      rw [hpc k]
      split
      · next hk => rw [htarget, hk]
      · rfl
    exact h.unique q q' np (htgt q ▸ hq) (htgt q' ▸ hq')
  unused k hk := by
    have hk : (s.proc k).state = .unused := hstate k ▸ hk
    refine hparent k (fun htgt => ?_) (h.unused k hk)
    have := (h.embryo k).mpr ⟨p, htgt⟩
    rw [hk] at this
    cases this
  blank q np hq := by
    rw [hpc q] at hq
    split at hq
    · exact hblank np hq
    · next hqp =>
      refine hparent np (fun htgt => hqp ?_) (h.blank q np hq)
      exact h.unique q p np (Pc.target_of_blank hq) htgt
  flag q np b hq := by
    rw [hpc q] at hq
    split at hq
    · exact hflag np b hq
    · next hqp =>
      rw [hthread np fun htgt => hqp (h.unique q p np (Pc.target_of_flag hq) htgt)]
      exact h.flag q np b hq
  asleep k w hk hw := by
    rw [hpc k] at hw
    split at hw
    · rw [hwait] at hw
      cases hw
    · rw [hchan k]
      exact h.asleep k w (hstate k ▸ hk) hw
  mainOnly k hk := by
    have hlive : live (s.proc k).state = true := by
      rw [← Bool.not_eq_false, ← h.dead k]
      intro hd
      rw [hpc k] at hk
      split at hk
      · next e => exact h.not_dead hp (e ▸ hd)
      · rw [hd] at hk
        cases hk
    rw [hthread k fun htgt => by
      rw [(h.embryo k).mpr ⟨p, htgt⟩] at hlive
      cases hlive]
    rw [hpc k] at hk
    split at hk
    · next e => exact e ▸ hmain hk
    · exact h.mainOnly k hk
  init := by
    refine ⟨(congrArg live (hstate _)).trans h.init.1, ?_⟩
    rw [hpc]
    split
    · next e => exact hinit e.symm
    · exact h.init.2

/-- A process takes a free slot. -/
theorem create (h : Shape s) {c : Pc} (hp : live (s.proc p).state = true)
    (hnone : (s.pc p).target = none) (hnp : (s.proc np).state = .unused)
    (hstate : ∀ k, (t.proc k).state = if k = np then .embryo else (s.proc k).state)
    (hparent : ∀ k, (t.proc k).parent = (s.proc k).parent)
    (hchan : ∀ k, (t.proc k).chan = (s.proc k).chan)
    (hthread : ∀ k, (t.proc k).isThread = (s.proc k).isThread)
    (hpc : ∀ k, t.pc k = if k = p then c else s.pc k) (hc : c.blank = some np)
    (hmain : c.mainOnly = true → (s.proc p).isThread = false) : Shape t := by
  have hne : np ≠ p := by
    rintro rfl
    rw [hnp] at hp
    cases hp
  have htarget := Pc.target_of_blank hc
  have hother (q : Slot) : (s.pc q).target ≠ some np := fun hq => by
    have := (h.embryo np).mpr ⟨q, hq⟩
    rw [hnp] at this
    cases this
  have hdead : c ≠ .dead := by
    rintro rfl
    cases hc
  have hinit : c.exiting = false := by
    cases c with
    | forking | cloning => rfl
    | _ => cases hc
  have hnwait : c.wait = none := by
    cases c with
    | forking | cloning => rfl
    | _ => cases hc
  have hnflag : c.flag = none := by
    cases c with
    | forking _ next | cloning _ next => cases next <;> simp_all [Pc.flag, Pc.blank]
    | _ => rfl
  refine ⟨fun k => ?_, fun k => ?_, fun q q' k hq hq' => ?_, fun k hk => ?_, fun q k hq => ?_,
    fun q k b hq => ?_, fun k w hk hw => ?_, fun k hk => ?_, ?_, ?_⟩
  · rw [hpc k, hstate k]
    split
    · next hk => simp [hdead, hk, hp, hne.symm]
    · rw [h.dead k]
      split
      · next hk => simp [hk, hnp]
      · rfl
  · rw [hstate k]
    split
    · next hk => exact ⟨fun _ => ⟨p, by rw [hpc p, if_pos rfl, htarget, hk]⟩, fun _ => rfl⟩
    · next hk =>
      rw [h.embryo k]
      refine exists_congr fun q => ?_
      rw [hpc q]
      split
      · next hq => simp [hq, hnone, htarget, Ne.symm hk]
      · rfl
  · rw [hpc q] at hq
    rw [hpc q'] at hq'
    split at hq <;> split at hq'
    · next e e' => rw [e, e']
    · rw [← hq, htarget] at hq'
      exact absurd hq' (hother q')
    · rw [← hq', htarget] at hq
      exact absurd hq (hother q)
    · exact h.unique q q' k hq hq'
  · rw [hstate k] at hk
    rw [hparent k]
    split at hk
    · cases hk
    · exact h.unused k hk
  · rw [hparent k]
    rw [hpc q] at hq
    split at hq
    · rw [hc] at hq
      cases hq
      exact h.unused np hnp
    · exact h.blank q k hq
  · rw [hthread k]
    rw [hpc q] at hq
    split at hq
    · rw [hnflag] at hq
      cases hq
    · exact h.flag q k b hq
  · rw [hpc k] at hw
    rw [hstate k] at hk
    rw [hchan k]
    split at hw
    · rw [hnwait] at hw
      cases hw
    · split at hk
      · cases hk
      · exact h.asleep k w hk hw
  · rw [hthread k]
    rw [hpc k] at hk
    split at hk
    · next e => exact e ▸ hmain hk
    · exact h.mainOnly k hk
  · rw [hstate]
    split
    · next e =>
      rw [← e] at hnp
      have := h.init.1
      rw [hnp] at this
      cases this
    · exact h.init.1
  · rw [hpc]
    split
    · exact hinit
    · exact h.init.2

/-- A process is done with the entry it was filling in, which is published or
given up. -/
theorem settle (h : Shape s) (state : ProcState) (hp : live (s.proc p).state = true)
    (hnp : (s.pc p).target = some np) (hst : live state = true ∨ state = .unused)
    (hgone : state = .unused → (s.proc np).parent = none) (hsleep : state ≠ .sleeping)
    (hstate : ∀ k, (t.proc k).state = if k = np then state else (s.proc k).state)
    (hparent : ∀ k, (t.proc k).parent = (s.proc k).parent)
    (hchan : ∀ k, (t.proc k).chan = (s.proc k).chan)
    (hthread : ∀ k, (t.proc k).isThread = (s.proc k).isThread)
    (hpc : ∀ k, t.pc k =
      if k = p then .user else if k = np ∧ live state = true then .user else s.pc k) : Shape t := by
  have hne := h.target_ne hnp
  have hembryo := (h.embryo np).mpr ⟨p, hnp⟩
  have hdead : s.pc np = .dead := (h.dead np).mpr (by rw [hembryo]; rfl)
  have hstay (k : Slot) (hk : t.pc k ≠ .user) : k ≠ p ∧ t.pc k = s.pc k := by
    rw [hpc k] at hk ⊢
    split at hk
    · exact absurd rfl hk
    · next hkp =>
      split at hk
      · exact absurd rfl hk
      · next hknp => exact ⟨hkp, by rw [if_neg hkp, if_neg hknp]⟩
  refine ⟨fun k => ?_, fun k => ?_, fun q q' k hq hq' => ?_, fun k hk => ?_, fun q k hq => ?_,
    fun q k b hq => ?_, fun k w hk hw => ?_, fun k hk => ?_, ?_, ?_⟩
  · rw [hpc k, hstate k]
    rcases eq_or_ne k p with rfl | hkp
    · simp [hp, hne.symm]
    · rw [if_neg hkp]
      rcases eq_or_ne k np with rfl | hk
      · rcases hst with hst | rfl
        · simp [hst]
        · simp [hdead]
      · simp [hk, h.dead k]
  · rw [hstate k]
    split
    · next hk =>
      refine ⟨fun e => ?_, fun ⟨q, hq⟩ => ?_⟩
      · rcases hst with hst | hst <;> rw [e] at hst <;> cases hst
      · have hq' := hstay q fun e => by
          rw [e] at hq
          cases hq
        exact absurd (h.unique q p np (hk ▸ hq'.2 ▸ hq) hnp) hq'.1
    · next hk =>
      rw [h.embryo k]
      refine ⟨fun ⟨q, hq⟩ => ⟨q, ?_⟩, fun ⟨q, hq⟩ => ⟨q, ?_⟩⟩
      · rw [hpc q, if_neg, if_neg, hq]
        · rintro ⟨rfl, -⟩
          rw [hdead] at hq
          cases hq
        · rintro rfl
          rw [hnp] at hq
          exact hk (Option.some.inj hq).symm
      · rwa [← (hstay q fun e => by rw [e] at hq; cases hq).2]
  · have hq₁ := (hstay q fun e => by rw [e] at hq; cases hq).2
    have hq₂ := (hstay q' fun e => by rw [e] at hq'; cases hq').2
    exact h.unique q q' k (hq₁ ▸ hq) (hq₂ ▸ hq')
  · rw [hparent k]
    rw [hstate k] at hk
    split at hk
    · next e => exact e ▸ hgone hk
    · exact h.unused k hk
  · rw [hparent k]
    exact h.blank q k ((hstay q fun e => by rw [e] at hq; cases hq).2 ▸ hq)
  · rw [hthread k]
    exact h.flag q k b ((hstay q fun e => by rw [e] at hq; cases hq).2 ▸ hq)
  · rw [hchan k]
    refine h.asleep k w ?_ ((hstay k fun e => by rw [e] at hw; cases hw).2 ▸ hw)
    rw [hstate k] at hk
    split at hk
    · exact absurd hk hsleep
    · exact hk
  · rw [hthread k]
    exact h.mainOnly k ((hstay k fun e => by rw [e] at hk; cases hk).2 ▸ hk)
  · rw [hstate]
    split
    · next e =>
      rw [← e] at hembryo
      have := h.init.1
      rw [hembryo] at this
      cases this
    · exact h.init.1
  · by_cases hu : t.pc initproc = .user
    · rw [hu]
      rfl
    · rw [(hstay _ hu).2, h.init.2]

/-- Nobody starts or ends filling an entry in. -/
theorem keep (h : Shape s) (hdead : ∀ k, t.pc k = .dead ↔ live (t.proc k).state = false)
    (hembryo : ∀ k, (t.proc k).state = .embryo ↔ (s.proc k).state = .embryo)
    (htarget : ∀ k, (t.pc k).target = (s.pc k).target)
    (hblank : ∀ k np, (t.pc k).blank = some np → (s.pc k).blank = some np)
    (hflag : ∀ k x, (t.pc k).flag = some x → (s.pc k).flag = some x)
    (hparent : ∀ k, (s.proc k).parent = none → (t.proc k).parent = none)
    (hunused : ∀ k, (t.proc k).state = .unused → (s.proc k).state ≠ .unused →
      (t.proc k).parent = none)
    (hasleep : ∀ k w, (t.proc k).state = .sleeping → (t.pc k).wait = some w →
      (t.proc k).chan = .proc k)
    (hmain : ∀ k, (t.pc k).mainOnly = true → (s.proc k).isThread = false)
    (hthread : ∀ k, (t.proc k).isThread = (s.proc k).isThread)
    (hinit : live (t.proc initproc).state = true ∧ (t.pc initproc).exiting = false) :
    Shape t where
  dead := hdead
  embryo np := by
    rw [hembryo np, h.embryo np]
    simp only [htarget]
  unique p q np hp hq := h.unique p q np (htarget p ▸ hp) (htarget q ▸ hq)
  unused k hk := by
    by_cases hs : (s.proc k).state = .unused
    · exact hparent k (h.unused k hs)
    · exact hunused k hk hs
  blank p np hp := hparent np (h.blank p np (hblank p np hp))
  flag p np b hp := (hthread np).trans (h.flag p np b (hflag p (np, b) hp))
  asleep := hasleep
  mainOnly k hk := (hthread k).trans (hmain k hk)
  init := hinit

/-- Entries change state among live ones, and children get a parent. -/
theorem swept (h : Shape s) {ks : List Slot} (hs : Swept s p ks t) : Shape t := by
  refine h.keep (fun k => ?_) (fun k => ?_) (fun k => by rw [hs.pc])
    (fun k np => by rw [hs.pc]; exact id) (fun k x => by rw [hs.pc]; exact id) (fun k hk => ?_)
    (fun k hk hne => ?_) (fun k w hk hw => ?_) (fun k hk => ?_) hs.isThread ?_
  · rw [hs.pc, hs.live_eq k]
    exact h.dead k
  · refine ⟨fun hk => ?_, fun hk => ?_⟩
    · rw [← hs.state_eq (by rw [hk]; rfl), hk]
    · rw [hs.state_eq, hk]
      rw [hs.live_eq, hk]
      rfl
  · rw [hs.parent k, if_neg, hk]
    simp [isChild, hk]
  · rw [← hs.state_eq (by rw [hk]; rfl)] at hne
    exact absurd hk hne
  · rw [hs.pc] at hw
    rw [hs.chan k]
    exact h.asleep k w (hs.sleeping hk) hw
  · rw [hs.pc] at hk
    exact h.mainOnly k hk
  · rw [hs.live_eq, hs.pc]
    exact h.init

/-- A process becomes a zombie. -/
theorem zombie (h : Shape s) (hp : live (s.proc p).state = true) (hnone : (s.pc p).target = none)
    (hinit : p ≠ initproc) : Shape ((s.setState p .zombie).setPc p .dead) := by
  have hne : (s.proc p).state ≠ .embryo := fun e => by
    rw [e] at hp
    cases hp
  refine h.keep (fun k => ?_) (fun k => ?_) (fun k => ?_) (fun k np => ?_) (fun k x => ?_)
    (fun k hk => ?_) (fun k hk hne => ?_) (fun k w hk hw => ?_) (fun k hk => ?_) (fun k => ?_) ?_
  case refine_11 => simpa [State.setState, Ne.symm hinit] using h.init
  all_goals rcases eq_or_ne k p with rfl | hkp
  · simp [State.setState]
  · simpa [State.setState, hkp] using h.dead k
  · simp [State.setState, hne]
  · simp [State.setState, hkp]
  · simp [hnone]
  · simp [State.setState, hkp]
  · simp [Pc.blank]
  · simp [State.setState, hkp]
  · simp [Pc.flag]
  · simp [State.setState, hkp]
  · simpa [State.setState] using hk
  · simpa [State.setState, hkp] using hk
  · simp [State.setState] at hk
  · simp [State.setState, hkp] at hk
    exact absurd hk hne
  · simp [State.setState] at hk
  · have := h.asleep k w (by simpa [State.setState, hkp] using hk)
      (by simpa [State.setState, hkp] using hw)
    simpa [State.setState, hkp] using this
  · simp [Pc.mainOnly] at hk
  · exact h.mainOnly k (by simpa [State.setState, hkp] using hk)
  · simp [State.setState]
  · simp [State.setState, hkp]

/-- A process goes to sleep on its own entry. -/
theorem sleep (h : Shape s) {w : Wait} (hp : live (s.proc p).state = true)
    (hnone : (s.pc p).target = none) (hmain : w = .child → (s.proc p).isThread = false)
    (hinit : p = initproc → w.asleep.exiting = false) :
    Shape ((sleep s p (.proc p)).setPc p w.asleep) := by
  have hne : (s.proc p).state ≠ .embryo := fun e => by
    rw [e] at hp
    cases hp
  refine h.keep (fun k => ?_) (fun k => ?_) (fun k => ?_) (fun k np => ?_) (fun k x => ?_)
    (fun k hk => ?_) (fun k hk hne => ?_) (fun k w hk hw => ?_) (fun k hk => ?_) (fun k => ?_) ?_
  case refine_11 =>
    rcases eq_or_ne initproc p with rfl | hk
    · simpa [Ptable.sleep] using hinit rfl
    · simpa [Ptable.sleep, hk] using h.init
  all_goals rcases eq_or_ne k p with rfl | hkp
  · cases w <;> simp [Ptable.sleep, Wait.asleep]
  · simpa [Ptable.sleep, hkp] using h.dead k
  · simp [Ptable.sleep, hne]
  · simp [Ptable.sleep, hkp]
  · simp [hnone]
  · simp [Ptable.sleep, hkp]
  · cases w <;> simp [Pc.blank, Wait.asleep]
  · simp [Ptable.sleep, hkp]
  · cases w <;> simp [Pc.flag, Wait.asleep]
  · simp [Ptable.sleep, hkp]
  · simpa [Ptable.sleep] using hk
  · simpa [Ptable.sleep, hkp] using hk
  · simp [Ptable.sleep] at hk
  · simp [Ptable.sleep, hkp] at hk
    exact absurd hk hne
  · simp [Ptable.sleep]
  · have := h.asleep k w (by simpa [Ptable.sleep, hkp] using hk)
      (by simpa [Ptable.sleep, hkp] using hw)
    simpa [Ptable.sleep, hkp] using this
  · cases w with
    | child => exact hmain rfl
    | _ => simp [Pc.mainOnly, Wait.asleep] at hk
  · exact h.mainOnly k (by simpa [Ptable.sleep, hkp] using hk)
  · simp [Ptable.sleep]
  · simp [Ptable.sleep, hkp]

/-- A zombie is taken out of the table. -/
theorem reap (h : Shape s) {call : Reaper} (hk : (s.proc k).state = .zombie) :
    Shape (reap s call k) := by
  have hinit : initproc ≠ k := fun e => by
    have := h.init.1
    rw [e, hk] at this
    cases this
  refine h.keep (fun j => ?_) (fun j => ?_) (fun j => by simp) (fun j np => by simp)
    (fun j x => by simp) (fun j hj => ?_) (fun j hj hne => ?_) (fun j w hj hw => ?_)
    (fun j hj => ?_) (fun j => ?_) ?_
  case refine_8 => simpa [hinit] using h.init
  case refine_6 => exact h.mainOnly j (by simpa using hj)
  all_goals rcases eq_or_ne j k with rfl | hjk
  · simpa [Proc.reaped, hk] using h.dead j
  · simpa [hjk] using h.dead j
  · simp [Proc.reaped, hk]
  · simp [hjk]
  · simp [Proc.reaped]
  · simpa [hjk] using hj
  · simp [Proc.reaped]
  · simp [hjk] at hj
    exact absurd hj hne
  · simp [Proc.reaped] at hj
  · simpa [hjk] using h.asleep j w (by simpa [hjk] using hj) (by simpa using hw)
  · simp [Proc.reaped]
  · simp [hjk]

/-- A process writes to the entry it is filling in. -/
theorem fill (h : Shape s) {e : Proc} {c : Pc} (hp : live (s.proc p).state = true)
    (hnp : (s.pc p).target = some np) (ht : ∀ k, t.proc k = if k = np then e else s.proc k)
    (htpc : ∀ k, t.pc k = if k = p then c else s.pc k) (he : e.state = (s.proc np).state)
    (hchan : e.chan = (s.proc np).chan) (hc : c.target = some np)
    (hblank : c.blank = some np → e.parent = none)
    (hflag : ∀ b, c.flag = some (np, b) → e.isThread = b)
    (hmain : c.mainOnly = true → (s.proc p).isThread = false) : Shape t := by
  have hembryo := (h.embryo np).mpr ⟨p, hnp⟩
  have hcs := Pc.cases_target hc
  refine h.goto hp (fun k => ?_) (fun k hk hkp => ?_) (fun k => ?_) (fun k hk => ?_) htpc
    ?_ (by rw [hc, hnp]) (fun k hk => ?_) (fun k b hk => ?_) ?_ hmain ?_
  · rw [ht k]
    split
    · next e => rw [he, e]
    · rfl
  · rw [hnp] at hk
    rwa [ht k, if_neg fun e => hk (congrArg some e.symm)]
  · rw [ht k]
    split
    · next e => rw [hchan, e]
    · rfl
  · rw [ht k, if_neg]
    rintro rfl
    exact hk hnp
  · rcases hcs with ⟨next, rfl⟩ | ⟨next, rfl⟩ <;> nofun
  · have htgt := Pc.target_of_blank hk
    rw [hc] at htgt
    obtain rfl := Option.some.inj htgt
    rw [ht np, if_pos rfl]
    exact hblank hk
  · have htgt := Pc.target_of_flag hk
    rw [hc] at htgt
    obtain rfl := Option.some.inj htgt
    rw [ht np, if_pos rfl]
    exact hflag b hk
  · rcases hcs with ⟨next, rfl⟩ | ⟨next, rfl⟩ <;> rfl
  · rcases hcs with ⟨next, rfl⟩ | ⟨next, rfl⟩ <;> exact fun _ => rfl

/-- `kalloc` for the stack of a new entry. -/
theorem allocStack (h : Shape s) {kind : Kind} {pg : Page} {c : Pc}
    (hp : live (s.proc p).state = true) (hnp : (s.pc p).blank = some np)
    (hc : c.target = some np) (hflag : c.flag = none)
    (hmain : c.mainOnly = true → (s.proc p).isThread = false)
    (hs : Ptable.allocStack s p kind np pg c = some t) : Shape t := by
  have htgt := Pc.target_of_blank hnp
  have hembryo := (h.embryo np).mpr ⟨p, htgt⟩
  rcases ite_eq_some.mp hs with ⟨-, hs⟩ | ⟨-, hs⟩
  case inr => cases hs
  rcases ite_eq_some.mp hs with ⟨-, hs⟩ | ⟨-, hs⟩
  · obtain rfl := Option.some.inj hs
    refine h.settle .unused hp htgt (.inr rfl) (fun _ => h.blank p np hnp) (by decide)
      (fun k => ?_) (fun k => ?_) (fun k => ?_) (fun k => ?_) (fun k => by simp)
    all_goals rcases eq_or_ne k np with rfl | hk <;> simp_all
  · obtain rfl := Option.some.inj hs
    exact h.fill hp htgt (Function.update_apply s.proc np _) (Function.update_apply s.pc p _) rfl rfl
      hc (fun _ => h.blank p np hnp) (by rw [hflag]; nofun) hmain

/-- The new entry is published. -/
theorem publish (h : Shape s) (hp : live (s.proc p).state = true)
    (hnp : (s.pc p).target = some np) : Shape (publish s p np) := by
  refine h.settle .runnable hp hnp (.inl rfl) nofun (by decide)
    (fun k => ?_) (fun k => ?_) (fun k => ?_) (fun k => ?_) (fun k => ?_)
  all_goals rcases eq_or_ne k np with rfl | hk <;> simp_all [Ptable.publish, State.setState]

theorem forkStep (h : Shape s) {pg : Page} {next : ForkStage} (hp : live (s.proc p).state = true)
    (hpc : s.pc p = .forking np next) (hs : Ptable.forkStep s p np pg next = some t) : Shape t := by
  have hnp : (s.pc p).target = some np := by
    rw [hpc]
    rfl
  have hthread : (s.proc p).isThread = false := h.mainOnly p (by rw [hpc]; rfl)
  cases next with
  | kstack => exact h.allocStack hp (by rw [hpc]; rfl) rfl rfl (fun _ => hthread) hs
  | pgdir =>
    have hblank := h.blank p np (by rw [hpc]; rfl)
    rcases ite_eq_some.mp hs with ⟨-, hs⟩ | ⟨-, hs⟩
    case inr => cases hs
    rcases ite_eq_some.mp hs with ⟨-, hs⟩ | ⟨-, hs⟩
    · obtain rfl := Option.some.inj hs
      refine h.settle .unused hp hnp (.inr rfl) (fun _ => hblank) (by decide)
        (fun k => ?_) (fun k => ?_) (fun k => ?_) (fun k => ?_) (fun k => by simp)
      all_goals rcases eq_or_ne k np with rfl | hk <;> simp_all
    · obtain rfl := Option.some.inj hs
      exact h.fill hp hnp (Function.update_apply s.proc np _) (Function.update_apply s.pc p _) rfl
        rfl rfl (fun _ => hblank) nofun fun _ => hthread
  | sz =>
    have hblank := h.blank p np (by rw [hpc]; rfl)
    obtain rfl := Option.some.inj hs
    exact h.fill hp hnp (Function.update_apply s.proc np _) (Function.update_apply s.pc p _) rfl
      rfl rfl (fun _ => hblank) nofun fun _ => hthread
  | parent =>
    obtain rfl := Option.some.inj hs
    exact h.fill hp hnp (Function.update_apply s.proc np _) (Function.update_apply s.pc p _) rfl
      rfl rfl nofun nofun fun _ => hthread
  | isThread =>
    obtain rfl := Option.some.inj hs
    exact h.fill hp hnp (Function.update_apply s.proc np _) (Function.update_apply s.pc p _) rfl
      rfl rfl nofun (fun b hb => by cases hb; rfl) fun _ => hthread
  | state =>
    obtain rfl := Option.some.inj hs
    exact h.publish hp hnp

theorem cloneStep (h : Shape s) {pg : Page} {next : CloneStage}
    (hp : live (s.proc p).state = true) (hpc : s.pc p = .cloning np next)
    (hs : Ptable.cloneStep s p np pg next = some t) : Shape t := by
  have hnp : (s.pc p).target = some np := by
    rw [hpc]
    rfl
  cases next with
  | kstack => exact h.allocStack (c := .cloning np .parent) hp (by rw [hpc]; rfl) rfl rfl nofun hs
  | parent | sz | pgdir =>
    obtain rfl := Option.some.inj hs
    exact h.fill hp hnp (Function.update_apply s.proc np _) (Function.update_apply s.pc p _) rfl
      rfl rfl nofun nofun nofun
  | isThread =>
    obtain rfl := Option.some.inj hs
    exact h.fill hp hnp (Function.update_apply s.proc np _) (Function.update_apply s.pc p _) rfl
      rfl rfl nofun (fun b hb => by cases hb; rfl) nofun
  | state =>
    obtain rfl := Option.some.inj hs
    exact h.publish hp hnp

theorem turned (h : Shape s) {w : Wait} (hp : live (s.proc p).state = true)
    (hpc : s.pc p = w.start ∨ s.pc p = w.asleep)
    (hw : s.pc p = .user → w = .child → (s.proc p).isThread = false) (ht : Turned s p w t) :
    Shape t := by
  have hnone : (s.pc p).target = none := by
    rcases hpc with hpc | hpc <;> simp [hpc]
  have hmain : w = .child → (s.proc p).isThread = false := by
    rintro rfl
    rcases hpc with hpc | hpc
    · exact hw hpc rfl
    · exact h.mainOnly p (by rw [hpc]; rfl)
  have hexit : p = initproc → w.asleep.exiting = false ∧ w.done.exiting = false := by
    rintro rfl
    cases w with
    | dying i pid => exact absurd h.init.2 (by rcases hpc with hpc | hpc <;> rw [hpc] <;> nofun)
    | _ => exact ⟨rfl, rfl⟩
  have fin {u : State} (hu : Shape u) (hlive : live (u.proc p).state = true)
      (hupc : u.pc p = s.pc p) : Shape (u.setPc p w.done) := by
    refine hu.goto (c := w.done) hlive (fun _ => rfl) (fun _ _ hk => hk) (fun _ => rfl)
      (fun _ _ => rfl) (fun k => by simp) ?_ (by rw [hupc, hnone, w.target_done]) (fun k hk => ?_)
      (fun k b hk => ?_) ?_ ?_ fun e => (hexit e).2
    · cases w <;> nofun
    · cases w <;> cases hk
    · cases w <;> cases hk
    · cases w <;> rfl
    · cases w <;> nofun
  cases ht with
  | reap hk hz =>
    refine fin (h.reap hz) ?_ (by simp)
    rw [reap_proc, if_neg, hp]
    rintro rfl
    rw [hz] at hp
    cases hp
  | fail => exact fin h hp rfl
  | sleep => exact h.sleep hp hnone hmain fun e => (hexit e).1

theorem exits (h : Shape s) {ks : List Slot} (hp : live (s.proc p).state = true)
    (hnone : (s.pc p).target = none) (hinit : p ≠ initproc) (ht : Exits s p ks t) : Shape t := by
  cases ht with
  | @drop u pre post k hu =>
    have hpu : (u.pc p).target = none := by rw [hu.pc, hnone]
    exact (h.swept hu).goto (c := .exitKill k) (by rw [hu.live_eq, hp]) (fun _ => rfl) (fun _ _ hk => hk)
      (fun _ => rfl) (fun _ _ => rfl) (fun k => by simp) nofun (by rw [hpu]; rfl)
      (fun _ => nofun) (fun _ _ => nofun) rfl nofun fun e => absurd e hinit
  | done hu =>
    refine ((h.swept hu).calm (wakeup1_calm _ _)).zombie ?_ ?_ hinit
    · rw [(wakeup1_calm _ _).live_eq, hu.live_eq, hp]
    · exact (congrArg Pc.target (congrFun hu.pc p)).trans hnone

theorem move {l : Label} (h : Shape s) (hm : Move s l t) : Shape t := by
  have hrunning {p : Slot} (hp : (s.proc p).state = .running) : live (s.proc p).state = true := by
    rw [hp]
    rfl
  cases hm with
  | calm hc => exact h.calm hc
  | @create p np a c hp hpc hnp hc =>
    refine h.create (c := c) (hrunning hp) (by rw [hpc]; rfl) hnp (fun k => ?_) (fun k => ?_)
      (fun k => ?_) (fun k => ?_) (fun k => by simp) ?_ ?_
    case refine_5 => rcases hc with ⟨rfl, -⟩ | rfl <;> rfl
    case refine_6 =>
      rcases hc with ⟨rfl, hth⟩ | rfl
      · exact fun _ => hth
      · nofun
    all_goals rcases eq_or_ne k np with rfl | hk
    all_goals simp_all
  | fork hp hpc hs => exact h.forkStep (hrunning hp) hpc hs
  | clone hp hpc hs => exact h.cloneStep (hrunning hp) hpc hs
  | turn hl hp hpc hw hcalm hpcs hkilled ht =>
    refine (h.calm hcalm).turned (live_of_running hp) (by rwa [hpcs]) ?_ ht
    rwa [hpcs, hcalm.isThread]
  | @advance l p c u hp hpc hcalm hpcs =>
    have hlive := live_of_running hp
    have hp' : (u.pc p).exiting = true ∧ (u.pc p).target = none := by
      rw [hpcs]
      generalize s.pc p = c' at hpc
      cases hpc <;> exact ⟨rfl, rfl⟩
    have hc : c.target = none ∧ c ≠ .dead ∧ c.wait = none ∧ c.mainOnly = false ∧ c.blank = none ∧
        c.flag = none := by
      generalize s.pc p = c' at hpc
      cases hpc <;> exact ⟨rfl, nofun, rfl, rfl, rfl, rfl⟩
    refine (h.calm hcalm).goto (c := c) hlive (fun _ => rfl) (fun _ _ hk => hk) (fun _ => rfl)
      (fun _ _ => rfl) (fun k => by simp) hc.2.1 (by rw [hc.1, hp'.2]) (fun np hnp => ?_)
      (fun np b hnp => ?_) hc.2.2.1 (fun hm => ?_) fun e => ?_
    · rw [hc.2.2.2.2.1] at hnp
      cases hnp
    · rw [hc.2.2.2.2.2] at hnp
      cases hnp
    · rw [hc.2.2.2.1] at hm
      cases hm
    · rw [e, (h.calm hcalm).init.2] at hp'
      cases hp'.1
  | exit hp hpc hinit ht => exact h.exits (hrunning hp) (by rw [hpc]; rfl) hinit ht
  | @resume l p i u _ hp hpc hcalm hpcs ht =>
    refine (h.calm hcalm).exits (live_of_running hp) (by rw [hpcs, hpc]; rfl) ?_ ht
    rintro rfl
    have := h.init.2
    rw [hpc] at this
    cases this
  | @commit p pg sz hp hpc =>
    refine h.goto (c := .user) (hrunning hp) (fun k => ?_) (fun k _ hk => ?_) (fun k => ?_)
      (fun k _ => ?_) (fun k => ?_) nofun (by rw [hpc]) (fun _ => nofun)
      (fun _ _ => nofun) rfl nofun (fun _ => rfl)
    all_goals rcases eq_or_ne k p with rfl | hkp <;> simp_all [Ptable.commit]
  | @resize p n mem hp hpc =>
    have hkept (k : Slot) := resize_kept s p k (newSize (s.proc p).sz n mem)
    refine h.goto (c := .user) (hrunning hp) (fun k => ?_) (fun k _ hk => ?_) (fun k => ?_)
      (fun k _ => ?_) (fun k => ?_) nofun (by rw [hpc]) (fun _ => nofun)
      (fun _ _ => nofun) rfl nofun (fun _ => rfl)
    case refine_5 =>
      rcases eq_or_ne k p with rfl | hkp
      · simpa [Ptable.resize] using hpc
      · simp [hkp, Ptable.resize]
    all_goals rw [hkept k]
    exact hk

end Shape

theorem userinit_shape {kstack pgdir : Page} : Shape (userinit kstack pgdir) := by
  have hproc (k : Slot) (hk : k ≠ initproc) : (userinit kstack pgdir).proc k = bss k := by
    simp [userinit, hk]
  have hpc (k : Slot) : (userinit kstack pgdir).pc k = if k = initproc then .user else .dead :=
    Function.update_apply (fun _ => Pc.dead) initproc .user k
  have htarget (k : Slot) : ((userinit kstack pgdir).pc k).target = none := by
    rw [hpc k]
    split <;> rfl
  refine ⟨fun k => ?_, fun k => ?_, fun p q np hp => ?_, fun k hk => ?_, fun p np hp => ?_,
    fun p np b hp => ?_, fun k w hk hw => ?_, fun p hp => ?_, rfl, rfl⟩
  · rw [hpc k]
    rcases eq_or_ne k initproc with rfl | hk
    · simp [userinit]
    · simp [hproc k hk, bss, hk]
  · simp only [htarget]
    rcases eq_or_ne k initproc with rfl | hk
    · simp [userinit]
    · simp [hproc k hk, bss]
  · rw [htarget] at hp
    cases hp
  · rcases eq_or_ne k initproc with rfl | hk'
    · cases hk
    · rw [hproc k hk']
      rfl
  · have := Pc.target_of_blank hp
    rw [htarget] at this
    cases this
  · have := Pc.target_of_flag hp
    rw [htarget] at this
    cases this
  · rw [hpc k] at hw
    split at hw <;> cases hw
  · rw [hpc p] at hp
    split at hp <;> cases hp

/-- `Shape` holds of every state of the kernel. -/
theorem reachable_shape (h : kernel.Reachable s) : Shape s := by
  refine h.invariant (fun s hs => ?_) fun s l t _ hs hst => hs.move (next_move hst)
  obtain ⟨kstack, pgdir, -, -, -, rfl⟩ := hs
  exact userinit_shape

end PerrOS.Ptable
