import PerrOS.Ptable.Shape

/-!
# Wake-ups

`exit` wakes whoever may reap the process before it becomes a zombie. A
process therefore never sleeps in `wait` or `proc_join` next to a zombie that
it looks for, as long as a thread goes through its pass in one critical
section.
-/

namespace PerrOS.Ptable

open Function (update)
open Xv6 (ProcState Slot slots mem_slots)

variable {s t u : State} {p q z k : Slot}

/-- No process sleeps in `wait` or `proc_join` while its scan would find a
zombie. -/
def NoMissedWakeup (s : State) : Prop :=
  ∀ q w z, (s.proc q).state = .sleeping → (s.pc q).wait = some w →
    (s.proc z).state = .zombie → w.looksAt s q z = false

/-- A thread that calls `exit` is the parent of no thread. -/
def LeafExit (s : State) : Label → Prop
  | .run p .exit => (s.proc p).isThread = true → ∀ k, ownThread s p k = false
  | _ => True

instance (s : State) (l : Label) : Decidable (LeafExit s l) :=
  match l with
  | .run _ .exit => inferInstanceAs (Decidable (_ → ∀ _, _))
  | .run _ .yield | .run _ (.sleep _) | .run _ .fork | .run _ (.clone _) | .run _ (.kill _)
  | .run _ .wait | .run _ (.join _) | .run _ (.exec _ _) | .run _ (.growproc _ _)
  | .run _ (.step _) | .dispatch _ | .wakeup _ => inferInstanceAs (Decidable True)

/-- Inside `exit` with the lock dropped there are only main processes. -/
def MainsExit (s : State) : Prop := ∀ p, (s.pc p).exiting = true → (s.proc p).isThread = false

-- ---------------------------------------------------------------------------
-- What a scan looks at
-- ---------------------------------------------------------------------------

/-- What a scan reads of the process and of an entry. -/
structure SameKin (s t : State) (k : Slot) : Prop where
  pid : (t.proc k).pid = (s.proc k).pid
  parent : (t.proc k).parent = (s.proc k).parent
  isThread : (t.proc k).isThread = (s.proc k).isThread

theorem Wait.looksAt_congr {w : Wait} (hq : SameKin s t q) (hz : SameKin s t z) :
    w.looksAt t q z = w.looksAt s q z := by
  cases w <;> simp only [Wait.looksAt, isChild, isJoinable, hq.parent, hq.isThread, hz.parent,
    hz.isThread, hz.pid]

/-- Sleepers and zombies are those there were. -/
theorem NoMissedWakeup.mono (h : NoMissedWakeup s)
    (hq : ∀ q, (t.proc q).state = .sleeping → (t.pc q).wait ≠ none →
      (s.proc q).state = .sleeping ∧ t.pc q = s.pc q ∧ SameKin s t q)
    (hz : ∀ z, (t.proc z).state = .zombie → (s.proc z).state = .zombie ∧ SameKin s t z) :
    NoMissedWakeup t := by
  intro q w z hsleep hw hzombie
  obtain ⟨hs, hpc, hkin⟩ := hq q hsleep (by rw [hw]; nofun)
  rw [w.looksAt_congr hkin (hz z hzombie).2]
  exact h q w z hs (hpc ▸ hw) (hz z hzombie).1

theorem Calm.sameKin (h : Calm s t) (k : Slot) : SameKin s t k :=
  ⟨h.pid k, h.parent k, h.isThread k⟩

theorem NoMissedWakeup.calm (h : NoMissedWakeup s) (hc : Calm s t) : NoMissedWakeup t := by
  refine h.mono (fun q hq hw => ?_) fun z hz => ⟨?_, hc.sameKin z⟩
  · rcases hc.sleeping q hq with hb | ⟨hs, hpc, -⟩
    · rw [hb] at hw
      exact absurd rfl hw
    · exact ⟨hs, hpc, hc.sameKin q⟩
  · rw [← hc.state_eq (by rw [hz]; rfl), hz]

/-- The entries that the pass of `exit` goes by. -/
theorem NoMissedWakeup.swept {ks : List Slot} (h : NoMissedWakeup s) (hshape : Shape s)
    (hs : Swept s p ks t) : NoMissedWakeup t := by
  intro q w z hsleep hw hzombie
  rw [hs.pc] at hw
  have hqs := hs.sleeping hsleep
  have hzs : (s.proc z).state = .zombie := by
    rw [← hs.state_eq (by rw [hzombie]; rfl), hzombie]
  have hold := h q w z hqs hw hzs
  have hchan := hshape.asleep q w hqs hw
  by_contra hlook
  have hlook : w.looksAt t q z = true := by simpa using hlook
  have join {pid : Pid} (hj : isJoinable t q pid z = true) : isJoinable s q pid z = true := by
    simp only [isJoinable, hs.isThread, hs.pid, Bool.and_eq_true, Bool.or_eq_true,
      decide_eq_true_eq] at hj ⊢
    obtain ⟨⟨hz, hpar⟩, hpid⟩ := hj
    rw [hs.parent_thread hz] at hpar
    refine ⟨⟨hz, hpar.imp_right fun hq => ⟨?_, hq.2⟩⟩, hpid⟩
    rw [hq.1, hs.parent_thread hq.2]
  cases w with
  | thread pid | dying i pid =>
    have := join hlook
    rw [Wait.looksAt, this] at hold
    cases hold
  | child =>
    simp only [Wait.looksAt, isChild, hs.isThread, Bool.and_eq_true, Bool.and_eq_false_iff,
      decide_eq_true_eq, decide_eq_false_iff_not, Bool.not_eq_true', Bool.not_eq_false'] at hlook hold
    by_cases hz : z ∈ ks ∧ isChild s p z = true
    · -- the zombie was passed to init, and init was woken
      rw [hs.parent z, if_pos hz] at hlook
      obtain rfl : initproc = q := Option.some.inj hlook.1
      exact hs.zombie z hz.1 hz.2 hzs _ hsleep hchan
    · rw [hs.parent z, if_neg hz] at hlook
      rcases hold with hold | hold
      · exact hold hlook.1
      · rw [hold] at hlook
        cases hlook.2

-- ---------------------------------------------------------------------------
-- The end of a process
-- ---------------------------------------------------------------------------

/-- A process becomes a zombie that nobody who sleeps looks for. -/
theorem NoMissedWakeup.zombie (h : NoMissedWakeup s)
    (hp : ∀ q w, (s.proc q).state = .sleeping → (s.pc q).wait = some w → w.looksAt s q p = false) :
    NoMissedWakeup ((s.setState p .zombie).setPc p .dead) := by
  have hkin (k : Slot) : SameKin s ((s.setState p .zombie).setPc p .dead) k := by
    constructor <;> rcases eq_or_ne k p with rfl | hk <;> simp_all [State.setState]
  intro q w z hsleep hw hzombie
  rw [w.looksAt_congr (hkin q) (hkin z)]
  rcases eq_or_ne q p with rfl | hq
  · simp [State.setState] at hsleep
  have hqs : (s.proc q).state = .sleeping := by simpa [State.setState, hq] using hsleep
  have hqw : (s.pc q).wait = some w := by simpa [State.setState, hq] using hw
  rcases eq_or_ne z p with rfl | hz
  · exact hp q w hqs hqw
  · exact h q w z hqs hqw (by simpa [State.setState, hz] using hzombie)

/-- `exit` wakes the parent, and the pass of a thread wakes its siblings. -/
theorem NoMissedWakeup.done {ks : List Slot} (h : NoMissedWakeup s) (hshape : Shape s)
    (hs : Swept s p ks t) (hks : (s.proc p).isThread = true → ∀ q, q ∈ ks) :
    NoMissedWakeup (((wakeup1 t (chanOf (t.proc p).parent)).setState p .zombie).setPc p .dead) := by
  have ht := hshape.swept hs
  have hcalm := wakeup1_calm t (chanOf (t.proc p).parent)
  have hu := ht.calm hcalm
  refine ((h.swept hshape hs).calm hcalm).zombie fun q w hsleep hw => ?_
  have hchan := hu.asleep q w hsleep hw
  have hts : (t.proc q).state = .sleeping := by
    rcases hcalm.sleeping q hsleep with hb | ⟨hts, -⟩
    · rw [hb] at hw
      cases hw
    · exact hts
  -- the parent was woken
  have hparent : (t.proc p).parent ≠ some q := fun e => by
    have := wakeup1_chan hsleep
    rw [hchan, e] at this
    exact this rfl
  by_contra hlook
  have hlook : w.looksAt t q p = true := by
    rw [← w.looksAt_congr (hcalm.sameKin q) (hcalm.sameKin p)]
    simpa using hlook
  have join {pid : Pid} (hj : isJoinable t q pid p = true) : False := by
    simp only [isJoinable, Bool.and_eq_true, Bool.or_eq_true, decide_eq_true_eq] at hj
    obtain ⟨⟨hp, hpar | ⟨hpar, hq⟩⟩, -⟩ := hj
    · exact hparent hpar
    · -- a sibling thread, which the pass woke
      rw [hs.isThread] at hp hq
      refine hs.sibling q (hks hp q) ?_ (by simp [isChild, hp]) q hts ?_
      · simp only [sibling, hq, Bool.true_and, decide_eq_true_eq]
        rw [← hs.parent_thread hq, ← hs.parent_thread hp, hpar]
      · exact hshape.asleep q w (hs.sleeping hts) (hs.pc ▸ hw)
  cases w with
  | thread pid | dying i pid => exact join hlook
  | child =>
    simp only [Wait.looksAt, isChild, Bool.and_eq_true, decide_eq_true_eq] at hlook
    exact hparent hlook.1

-- ---------------------------------------------------------------------------
-- Every step
-- ---------------------------------------------------------------------------

/-- The two facts together, of a state whose threads exit in one go. -/
structure Awake (s : State) : Prop where
  wakeups : NoMissedWakeup s
  exits : MainsExit s

namespace Awake

theorem calm (h : Awake s) (hc : Calm s t) : Awake t where
  wakeups := h.wakeups.calm hc
  exits p hp := by
    rw [hc.read (f := Pc.exiting) rfl] at hp
    exact (hc.isThread p).trans (h.exits p hp)

/-- A running process goes to another point, and what is written to entries is
what no scan reads, or the entry has no process and is no zombie afterwards. -/
theorem goto (h : Awake s) (hshape : Shape s) {c : Pc} (hp : (s.proc p).state = .running)
    (hkin : ∀ k, (t.proc k).state = (s.proc k).state ∧ SameKin s t k ∨
      live (s.proc k).state = false ∧ (t.proc k).state ≠ .sleeping ∧ (t.proc k).state ≠ .zombie)
    (hpc : ∀ k, t.pc k = (if k = p then c else s.pc k) ∨ t.pc k = .user)
    (hexit : c.exiting = true → (s.proc p).isThread = false) : Awake t where
  wakeups := by
    refine h.wakeups.mono (fun q hq hw => ?_) fun z hz => ?_
    · obtain ⟨hstate, hkin⟩ := (hkin q).resolve_right fun hne => hne.2.1 hq
      rw [hstate] at hq
      refine ⟨hq, ?_, hkin⟩
      rcases hpc q with hpcq | hu
      · rw [hpcq, if_neg]
        rintro rfl
        rw [hp] at hq
        cases hq
      · rw [hu] at hw
        exact absurd rfl hw
    · obtain ⟨hstate, hkin⟩ := (hkin z).resolve_right fun hne => hne.2.2 hz
      exact ⟨hstate ▸ hz, hkin⟩
  exits k hk := by
    have hpck : t.pc k = if k = p then c else s.pc k := (hpc k).resolve_right fun hu => by
      rw [hu] at hk
      cases hk
    have hlive : live (s.proc k).state = true := by
      rcases eq_or_ne k p with rfl | hkp
      · rw [hp]
        rfl
      · rw [← Bool.not_eq_false, ← hshape.dead k]
        rintro hd
        rw [hpck, if_neg hkp, hd] at hk
        cases hk
    obtain ⟨-, hkin⟩ := (hkin k).resolve_right fun hne => by
      rw [hlive] at hne
      cases hne.1
    rw [hkin.isThread]
    rw [hpck] at hk
    split at hk
    · next e => exact e ▸ hexit hk
    · exact h.exits k hk

theorem written (h : Awake s) (hshape : Shape s) {np : Slot} (hp : (s.proc p).state = .running)
    (hnp : (s.pc p).target = some np) (hw : Written s t p np) : Awake t := by
  have hembryo := (hshape.embryo np).mpr ⟨p, hnp⟩
  refine h.goto hshape (c := t.pc p) hp (fun k => ?_) (fun k => ?_) fun he => ?_
  · rcases eq_or_ne k np with rfl | hk
    · refine .inr ⟨by rw [hembryo]; rfl, ?_⟩
      rcases hw.state with hs | hs | hs <;> rw [hs] <;> decide
    · rw [hw.proc k hk]
      exact .inl ⟨rfl, by constructor <;> rw [hw.proc k hk]⟩
  · rcases eq_or_ne k p with rfl | hkp
    · simp
    · rw [if_neg hkp]
      rcases eq_or_ne k np with rfl | hk
      · exact hw.pcNew hkp
      · exact .inl (hw.pc k hkp hk)
  · rcases hw.pcOwn with hc | hc
    · rcases Pc.cases_target hc with ⟨next, hc⟩ | ⟨next, hc⟩ <;> rw [hc] at he <;> cases he
    · rw [hc] at he
      cases he

/-- `exit` from one of its critical sections to the next, or to its end. -/
theorem exitFrom (h : Awake s) (hshape : Shape s) {ks : List Slot} (hp : (s.proc p).state = .running)
    (hks : (s.proc p).isThread = true →
      (∀ q, q ∈ ks) ∧ ∀ k, ownThread s p k = false) (ht : Exits s p ks t) : Awake t := by
  have keep {u : State} {pre : List Slot} (hu : Swept s p pre u) : MainsExit u := fun q hq => by
    rw [hu.isThread q]
    exact h.exits q (hu.pc ▸ hq)
  cases ht with
  | @drop u pre post k hu _ hk =>
    have hown : ownThread s p k = true := by
      simp only [ownThread, Bool.and_eq_true, decide_eq_true_eq] at hk ⊢
      rw [hu.isThread k] at hk
      rwa [← hu.parent_thread hk.1]
    have hup : (u.proc p).state = .running := by
      rcases hu.state p with hs | ⟨hs, -⟩
      · rw [hs, hp]
      · rw [hp] at hs
        cases hs
    refine Awake.goto ⟨h.wakeups.swept hshape hu, keep hu⟩ (hshape.swept hu) (c := .exitKill k) hup
      (fun k => .inl ⟨rfl, rfl, rfl, rfl⟩) (fun k => .inl (by simp)) fun _ => ?_
    rw [hu.isThread p, ← Bool.not_eq_true]
    intro hth
    rw [(hks hth).2 k] at hown
    cases hown
  | @done u hu =>
    refine ⟨h.wakeups.done hshape hu fun hth => (hks hth).1, fun q hq => ?_⟩
    rcases eq_or_ne q p with rfl | hqp
    · simp [Pc.exiting] at hq
    · have hq' : (u.pc q).exiting = true := by
        simpa [State.setState, wakeup1, hqp] using hq
      simpa [State.setState, wakeup1, Proc.woken, hqp] using keep hu q hq'

theorem sleep (h : Awake s) {w : Wait} (hp : w.asleep.exiting = true → (s.proc p).isThread = false)
    (hz : ∀ k, w.looksAt s p k = true → (s.proc k).state ≠ .zombie) :
    Awake ((sleep s p (.proc p)).setPc p w.asleep) := by
  have hkin (k : Slot) : SameKin s ((Ptable.sleep s p (.proc p)).setPc p w.asleep) k := by
    constructor <;> rcases eq_or_ne k p with rfl | hk <;> simp_all [Ptable.sleep]
  refine ⟨fun q v z hsleep hv hzombie => ?_, fun q hq => ?_⟩
  · rw [v.looksAt_congr (hkin q) (hkin z)]
    have hzs : (s.proc z).state = .zombie := by
      rcases eq_or_ne z p with rfl | hz
      · simp [Ptable.sleep] at hzombie
      · simpa [Ptable.sleep, hz] using hzombie
    rcases eq_or_ne q p with rfl | hq
    · obtain rfl : v = w := by cases w <;> simpa [Pc.wait, Wait.asleep, eq_comm] using hv
      exact Bool.eq_false_iff.mpr fun hl => hz z hl hzs
    · exact h.wakeups q v z (by simpa [Ptable.sleep, hq] using hsleep)
        (by simpa [Ptable.sleep, hq] using hv) hzs
  · rw [(hkin q).isThread]
    rcases eq_or_ne q p with rfl | hqp
    · exact hp (by simpa using hq)
    · exact h.exits q (by simpa [Ptable.sleep, hqp] using hq)

theorem move {l : Label} (h : Awake s) (hshape : Shape s) (hl : LeafExit s l) (hm : Move s l t) :
    Awake t := by
  cases hm with
  | calm hc => exact h.calm hc
  | @create p np a c hp hpc hnp hc =>
    refine h.goto hshape (c := c) hp (fun k => ?_) (fun k => .inl (by simp)) ?_
    · rcases eq_or_ne k np with rfl | hk
      · exact .inr ⟨by rw [hnp]; rfl, by simp, by simp⟩
      · exact .inl ⟨by simp [hk], by constructor <;> simp [hk]⟩
    · rcases hc with ⟨rfl, -⟩ | rfl <;> exact fun he => Bool.noConfusion he
  | @fork p np pg next _ hp hpc hs =>
    have hnp : (s.pc p).target = some np := by rw [hpc]; rfl
    exact h.written hshape hp hnp (forkStep_written ((hshape.embryo np).mpr ⟨p, hnp⟩) hs)
  | @clone p np pg next _ hp hpc hs =>
    have hnp : (s.pc p).target = some np := by rw [hpc]; rfl
    exact h.written hshape hp hnp (cloneStep_written ((hshape.embryo np).mpr ⟨p, hnp⟩) hs)
  | @turn l p w u _ _ hp hpc _ hcalm hpcs _ ht =>
    have hu := h.calm hcalm
    have hushape := hshape.calm hcalm
    have hexit : w.done.exiting = true ∨ w.asleep.exiting = true → (u.proc p).isThread = false := by
      intro he
      refine hu.exits p ?_
      rw [hpcs]
      cases w with
      | dying i pid => rcases hpc with hpc | hpc <;> rw [hpc] <;> rfl
      | _ => rcases he with he | he <;> cases he
    cases ht with
    | @reap k hk hz =>
      refine hu.goto hushape (c := w.done) hp (fun j => ?_) (fun j => .inl (by simp)) fun he =>
        hexit (.inl he)
      rcases eq_or_ne j k with rfl | hj
      · exact .inr ⟨by rw [hz]; rfl, by simp [Proc.reaped], by simp [Proc.reaped]⟩
      · exact .inl ⟨by simp [hj], by constructor <;> simp [hj]⟩
    | fail =>
      exact hu.goto hushape (c := w.done) hp (fun j => .inl ⟨rfl, rfl, rfl, rfl⟩)
        (fun j => .inl (State.setPc_pc u p j w.done)) fun he => hexit (.inl he)
    | sleep hz => exact hu.sleep (fun he => hexit (.inr he)) hz
  | @advance l p c u hp hpc hcalm hpcs =>
    refine (h.calm hcalm).goto (hshape.calm hcalm) (c := c) hp (fun j => .inl ⟨rfl, rfl, rfl, rfl⟩)
      (fun j => .inl (by simp)) fun _ => ?_
    refine (h.calm hcalm).exits p ?_
    rw [hpcs]
    generalize s.pc p = c' at hpc
    cases hpc <;> rfl
  | exit hp hpc hinit ht =>
    exact h.exitFrom hshape hp (fun hth => ⟨mem_slots, hl hth⟩) ht
  | @resume l p i u _ hp hpc hcalm hpcs ht =>
    refine (h.calm hcalm).exitFrom (hshape.calm hcalm) hp (fun hth => ?_) ht
    rw [hcalm.isThread, h.exits p (by rw [hpc]; rfl)] at hth
    cases hth
  | @commit p pg sz hp hpc =>
    refine h.goto hshape (c := .user) hp (fun k => .inl ?_) (fun k => .inl ?_)
      fun he => Bool.noConfusion he
    · rcases eq_or_ne k p with rfl | hk
      · exact ⟨by simp [Ptable.commit], by constructor <;> simp [Ptable.commit]⟩
      · exact ⟨by simp [Ptable.commit, hk], by constructor <;> simp [Ptable.commit, hk]⟩
    · rcases eq_or_ne k p with rfl | hk
      · simp [Ptable.commit, hpc]
      · simp [Ptable.commit, hk]
  | @resize p n mem hp hpc =>
    refine h.goto hshape (c := .user) hp (fun k => .inl ?_) (fun k => .inl ?_)
      fun he => Bool.noConfusion he
    · have hkept := resize_kept s p k (newSize (s.proc p).sz n mem)
      exact ⟨by rw [hkept], by rw [hkept], by rw [hkept], by rw [hkept]⟩
    · rcases eq_or_ne k p with rfl | hk
      · simp [Ptable.resize, hpc]
      · simp [Ptable.resize, hk]

end Awake

theorem userinit_awake {kstack pgdir : Page} : Awake (userinit kstack pgdir) := by
  have hpc (k : Slot) : (userinit kstack pgdir).pc k = if k = initproc then .user else .dead :=
    Function.update_apply (fun _ => Pc.dead) initproc .user k
  refine ⟨fun q w z _ hw => ?_, fun p hp => ?_⟩
  · rw [hpc q] at hw
    split at hw <;> cases hw
  · rw [hpc p] at hp
    split at hp <;> cases hp

end PerrOS.Ptable
