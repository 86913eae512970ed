import PerrOS.Lib.Exclusive
import PerrOS.Ptable.Shape

/-!
# Pages

Who holds a page of `kalloc`: an entry its kernel stack, and a process that is
not a thread its page directory, from the step of `fork` that assigns it on.
-/

namespace PerrOS.Ptable

open Function (update)
open Lib (Exclusive)
open Xv6 (ProcState Slot slots mem_slots)

variable {s t u : State} {p np k : Slot}

inductive Holder
  | stack (k : Slot)
  | dir (k : Slot)
deriving DecidableEq

/-- The entry `fork` has given a page directory. -/
def Pc.addressed : Pc → Option Slot
  | .forking np .sz | .forking np .parent | .forking np .isThread | .forking np .state => some np
  | _ => none

theorem Pc.target_of_addressed {c : Pc} (h : c.addressed = some np) : c.target = some np := by
  cases c with
  | forking _ next => cases next <;> simp_all [Pc.addressed, Pc.target]
  | _ => cases h

/-- The entry has a page directory of its own. -/
def HasDir (s : State) (k : Slot) : Prop :=
  ((live (s.proc k).state = true ∨ (s.proc k).state = .zombie) ∧ (s.proc k).isThread = false) ∨
    ∃ p, (s.pc p).addressed = some k

def Holds (s : State) : Holder → Page → Prop
  | .stack k, pg => (s.proc k).kstack = pg ∧ pg ≠ 0
  | .dir k, pg => (s.proc k).pgdir = pg ∧ HasDir s k

/-- Every page that is held is in use, and held once. -/
structure Pages (s : State) : Prop where
  exclusive : Exclusive s.used (Holds s)
  dir_ne : ∀ k, HasDir s k → (s.proc k).pgdir ≠ 0

/-- No thread calls `exec`. -/
def MainExec (s : State) : Label → Prop
  | .run p (.exec pg _) => pg ≠ 0 → (s.proc p).isThread = false
  | _ => True

instance (s : State) (l : Label) : Decidable (MainExec s l) :=
  match l with
  | .run _ (.exec _ _) => inferInstanceAs (Decidable (_ → _))
  | .run _ .yield | .run _ (.sleep _) | .run _ .fork | .run _ (.clone _) | .run _ .exit
  | .run _ (.kill _) | .run _ .wait | .run _ (.join _) | .run _ (.growproc _ _)
  | .run _ (.step _) | .dispatch _ | .wakeup _ => inferInstanceAs (Decidable True)

theorem hasDir_congr (hlive : live (t.proc k).state = live (s.proc k).state)
    (hzombie : (t.proc k).state = .zombie ↔ (s.proc k).state = .zombie)
    (hthread : (t.proc k).isThread = (s.proc k).isThread)
    (hpc : ∀ p, (t.pc p).addressed = (s.pc p).addressed) : HasDir t k ↔ HasDir s k := by
  simp only [HasDir, hlive, hzombie, hthread, hpc]

/-- An embryo's page directory is its own where `fork` has assigned it. -/
theorem hasDir_embryo (h : Shape s) (hp : (s.pc p).target = some np) :
    HasDir s np ↔ (s.pc p).addressed = some np := by
  have hnp := (h.embryo np).mpr ⟨p, hp⟩
  constructor
  · rintro (⟨hl, -⟩ | ⟨q, hq⟩)
    · rw [hnp] at hl
      rcases hl with hl | hl <;> cases hl
    · rwa [h.unique p q np hp (Pc.target_of_addressed hq)]
  · exact fun ha => .inr ⟨p, ha⟩

theorem not_hasDir_unused (h : Shape s) (hk : (s.proc k).state = .unused) : ¬HasDir s k := by
  rintro (⟨hl, -⟩ | ⟨q, hq⟩)
  · rw [hk] at hl
    rcases hl with hl | hl <;> cases hl
  · rw [(h.embryo k).mpr ⟨q, Pc.target_of_addressed hq⟩] at hk
    cases hk

/-- A step on a new entry changes no other holder. -/
theorem Written.hasDir (hw : Written s t p np) (hk : k ≠ np) (h : HasDir t k) : HasDir s k := by
  rcases h with h | ⟨q, hq⟩
  · rw [hw.proc k hk] at h
    exact .inl h
  · refine .inr ⟨q, ?_⟩
    rcases hw.pcs q with hpc | hpc | hpc
    · rwa [← hpc]
    · rw [hpc] at hq
      cases hq
    · rw [Pc.target_of_addressed hq] at hpc
      exact absurd (Option.some.inj hpc) hk

theorem addressed_setPc {c : Pc} (hc : c.addressed = none) (q k : Slot)
    (h : ((s.setPc p c).pc q).addressed = some k) : (s.pc q).addressed = some k := by
  rw [State.setPc_pc] at h
  split at h
  · rw [hc] at h
    cases h
  · exact h

theorem used_of_free {pg : Page} (h : s.free pg = true) (hpg : pg ≠ 0) : s.used pg = false := by
  simpa [State.free, hpg] using h

namespace Pages

/-- Entries keep their pages, and no page directory gets a new holder. -/
theorem mono (h : Pages s) (hused : t.used = s.used)
    (hstack : ∀ k, (t.proc k).kstack = (s.proc k).kstack ∨ (t.proc k).kstack = 0)
    (hdir : ∀ k, HasDir t k → HasDir s k ∧ (t.proc k).pgdir = (s.proc k).pgdir) : Pages t := by
  refine ⟨?_, fun k hk => by rw [(hdir k hk).2]; exact h.dir_ne k (hdir k hk).1⟩
  rw [hused]
  refine h.exclusive.mono fun
    | .stack k, pg, hold => ⟨?_, hold.2⟩
    | .dir k, pg, hold => ⟨(hdir k hold.2).2 ▸ hold.1, (hdir k hold.2).1⟩
  rcases hstack k with hk | hk
  · rw [← hk, hold.1]
  · exact absurd (hold.1.symm.trans hk) hold.2

theorem calm (h : Pages s) (hc : Calm s t) : Pages t := by
  refine h.mono hc.used (fun k => .inl (hc.kstack k)) fun k hk => ⟨?_, hc.pgdir k⟩
  refine (hasDir_congr (hc.live_eq k) ⟨fun hz => ?_, fun hz => ?_⟩ (hc.isThread k)
    (hc.read (f := Pc.addressed) rfl)).mp hk
  · rw [← hc.state_eq (by rw [hz]; rfl), hz]
  · rw [hc.state_eq, hz]
    rw [hc.live_eq, hz]
    rfl

/-- A stack is freed that belongs to an entry. -/
theorem ne_kstack (h : Pages s) {holder : Holder} {pg : Page} (hold : Holds s holder pg)
    (hne : holder ≠ .stack k) : pg ≠ (s.proc k).kstack := by
  rintro rfl
  have hpg : (s.proc k).kstack ≠ 0 := by
    cases holder with
    | stack j => exact hold.2
    | dir j =>
      intro e
      exact h.dir_ne j hold.2 (hold.1.trans e)
  exact hne (h.exclusive.unique _ (.stack k) _ hold ⟨rfl, hpg⟩)

theorem ne_pgdir (h : Pages s) (hk : HasDir s k) {holder : Holder} {pg : Page}
    (hold : Holds s holder pg) (hne : holder ≠ .dir k) : pg ≠ (s.proc k).pgdir := by
  rintro rfl
  exact hne (h.exclusive.unique _ (.dir k) _ hold ⟨rfl, hk⟩)

/-- Two entries with page directories of their own have different ones. -/
theorem dir_inj {j : Slot} (h : Pages s) (hj : HasDir s j) (hk : HasDir s k)
    (he : (s.proc j).pgdir = (s.proc k).pgdir) : j = k := by
  have := h.exclusive.unique (.dir j) (.dir k) _ ⟨rfl, hj⟩ ⟨he.symm, hk⟩
  simpa using this

theorem allocStack (h : Pages s) (ht : Shape t) {kind : Kind} {pg : Page} {c : Pc}
    (hnp : (s.proc np).state = .embryo) (hc : c.target = some np) (hca : c.addressed = none)
    (hs : Ptable.allocStack s p kind np pg c = some t) : Pages t := by
  have hw := allocStack_written hnp hc hs
  rcases ite_eq_some.mp hs with ⟨hfree, hs⟩ | ⟨-, hs⟩
  case inr => cases hs
  rcases ite_eq_some.mp hs with ⟨-, hs⟩ | ⟨hpg, hs⟩
  · obtain rfl := Option.some.inj hs
    refine h.mono rfl (fun k => ?_) fun k hk => ?_
    · rcases eq_or_ne k np with rfl | hk
      · exact .inr (by simp)
      · exact .inl (by simp [hk])
    · rcases eq_or_ne k np with rfl | hknp
      · exact absurd hk (not_hasDir_unused ht (by simp))
      · exact ⟨hw.hasDir hknp hk, by simp [hknp]⟩
  · obtain rfl := Option.some.inj hs
    have hnone : ¬HasDir ((((s.take pg).set np { s.proc np with kstack := pg }).emit
        (.created kind (s.proc np).pid pg)).setPc p c) np := by
      rw [hasDir_embryo ht (p := p) (by simp [hc])]
      simp [hca]
    have hdir (k : Slot) (hk : HasDir ((((s.take pg).set np { s.proc np with kstack := pg }).emit
        (.created kind (s.proc np).pid pg)).setPc p c) k) : k ≠ np ∧ HasDir s k := by
      have hknp : k ≠ np := by
        rintro rfl
        exact hnone hk
      exact ⟨hknp, hw.hasDir hknp hk⟩
    refine ⟨h.exclusive.take (h := .stack np) (used_of_free hfree hpg) fun
      | .stack k, r, hold => ?_
      | .dir k, r, hold => ?_, fun k hk => ?_⟩
    · rcases eq_or_ne k np with rfl | hk
      · exact .inr ⟨rfl, by simpa using hold.1.symm⟩
      · exact .inl ⟨by simpa [hk] using hold.1, hold.2⟩
    · obtain ⟨hknp, hk⟩ := hdir k hold.2
      exact .inl ⟨by simpa [hknp] using hold.1, hk⟩
    · obtain ⟨hknp, hk⟩ := hdir k hk
      simpa [hknp] using h.dir_ne k hk

/-- A step on a new entry that neither takes nor frees a page. -/
theorem written (h : Pages s) (hw : Written s t p np) (hused : t.used = s.used)
    (hstack : (t.proc np).kstack = (s.proc np).kstack)
    (hdir : HasDir t np → HasDir s np ∧ (t.proc np).pgdir = (s.proc np).pgdir) : Pages t := by
  refine h.mono hused (fun k => .inl ?_) fun k hk => ?_
  · rcases eq_or_ne k np with rfl | hknp
    · exact hstack
    · rw [hw.proc k hknp]
  · rcases eq_or_ne k np with rfl | hknp
    · exact hdir hk
    · exact ⟨hw.hasDir hknp hk, by rw [hw.proc k hknp]⟩

theorem forkStep (h : Pages s) (hshape : Shape s) (ht : Shape t) {pg : Page} {next : ForkStage}
    (hpc : s.pc p = .forking np next) (hs : Ptable.forkStep s p np pg next = some t) : Pages t := by
  have htgt : (s.pc p).target = some np := by rw [hpc]; rfl
  have hnp := (hshape.embryo np).mpr ⟨p, htgt⟩
  have hw := forkStep_written hnp hs
  have haddr := hasDir_embryo hshape htgt
  rw [hpc] at haddr
  cases next with
  | kstack => exact h.allocStack ht hnp rfl rfl hs
  | pgdir =>
    rcases ite_eq_some.mp hs with ⟨hfree, hs⟩ | ⟨-, hs⟩
    case inr => cases hs
    rcases ite_eq_some.mp hs with ⟨-, hs⟩ | ⟨hpg, hs⟩
    · obtain rfl := Option.some.inj hs
      refine ⟨h.exclusive.drop fun
        | .stack k, r, hold => ?_
        | .dir k, r, hold => ?_, fun k hk => ?_⟩
      · rcases eq_or_ne k np with rfl | hk
        · exact absurd (by simpa using hold.1.symm) hold.2
        · have hold' : Holds s (.stack k) r := ⟨by simpa [hk] using hold.1, hold.2⟩
          exact ⟨hold', h.ne_kstack hold' (by simpa using hk)⟩
      · have hk : k ≠ np := by
          rintro rfl
          exact not_hasDir_unused ht (by simp) hold.2
        have hold' : Holds s (.dir k) r := ⟨by simpa [hk] using hold.1, hw.hasDir hk hold.2⟩
        exact ⟨hold', h.ne_kstack hold' nofun⟩
      · have hknp : k ≠ np := by
          rintro rfl
          exact not_hasDir_unused ht (by simp) hk
        simpa [hknp] using h.dir_ne k (hw.hasDir hknp hk)
    · obtain rfl := Option.some.inj hs
      refine ⟨h.exclusive.take (h := .dir np) (used_of_free hfree hpg) fun
        | .stack k, r, hold => .inl ⟨?_, hold.2⟩
        | .dir k, r, hold => ?_, fun k hk => ?_⟩
      · rcases eq_or_ne k np with rfl | hk
        · simpa using hold.1
        · simpa [hk] using hold.1
      · rcases eq_or_ne k np with rfl | hk
        · exact .inr ⟨rfl, by simpa using hold.1.symm⟩
        · exact .inl ⟨by simpa [hk] using hold.1, hw.hasDir hk hold.2⟩
      · rcases eq_or_ne k np with rfl | hknp
        · simpa using hpg
        · simpa [hknp] using h.dir_ne k (hw.hasDir hknp hk)
  | state =>
    obtain rfl := Option.some.inj hs
    exact h.written hw rfl (by simp [Ptable.publish, State.setState])
      fun _ => ⟨haddr.mpr rfl, by simp [Ptable.publish, State.setState]⟩
  | sz | parent | isThread =>
    obtain rfl := Option.some.inj hs
    exact h.written hw rfl (by simp) fun _ => ⟨haddr.mpr rfl, by simp⟩

theorem cloneStep (h : Pages s) (hshape : Shape s) (ht : Shape t) {pg : Page} {next : CloneStage}
    (hpc : s.pc p = .cloning np next) (hs : Ptable.cloneStep s p np pg next = some t) :
    Pages t := by
  have htgt : (s.pc p).target = some np := by rw [hpc]; rfl
  have hnp := (hshape.embryo np).mpr ⟨p, htgt⟩
  have hw := cloneStep_written hnp hs
  have hnone {u : State} {c : Pc} (hu : Shape u) (hc : u.pc p = c) (htgt : c.target = some np)
      (hca : c.addressed = none) : ¬HasDir u np := by
    rw [hasDir_embryo hu (hc ▸ htgt), hc, hca]
    nofun
  cases next with
  | kstack => exact h.allocStack ht hnp rfl rfl hs
  | state =>
    obtain rfl := Option.some.inj hs
    have hthread := hshape.flag p np true (by rw [hpc]; rfl)
    refine h.written hw rfl (by simp [Ptable.publish, State.setState]) fun hk => ?_
    rcases hk with ⟨-, hk⟩ | ⟨q, hq⟩
    · simp [Ptable.publish, State.setState, hthread] at hk
    · have := (ht.embryo np).mpr ⟨q, Pc.target_of_addressed hq⟩
      simp [Ptable.publish, State.setState] at this
  | parent | sz | pgdir | isThread =>
    obtain rfl := Option.some.inj hs
    exact h.written hw rfl (by simp) fun hk =>
      absurd hk (hnone ht (State.setPc_pc _ p p _ |>.trans (if_pos rfl)) rfl rfl)

/-- `wait` frees the stack and the page directory of a process, `proc_join` the
stack of a thread. -/
theorem reap (h : Pages s) (hshape : Shape s) {call : Reaper} (hz : (s.proc k).state = .zombie)
    (hthread : call = .wait → (s.proc k).isThread = false) : Pages (reap s call k) := by
  have hdir (j : Slot) (hj : HasDir (Ptable.reap s call k) j) : j ≠ k ∧ HasDir s j := by
    have hjk : j ≠ k := by
      rintro rfl
      exact not_hasDir_unused (hshape.reap hz) (by simp [Proc.reaped]) hj
    refine ⟨hjk, (hasDir_congr ?_ ?_ ?_ fun p => by simp).mp hj⟩ <;> simp [hjk]
  have hold (holder : Holder) (r : Page) (hr : Holds (Ptable.reap s call k) holder r) :
      Holds s holder r ∧ holder ≠ .stack k ∧ holder ≠ .dir k := by
    cases holder with
    | stack j =>
      have hjk : j ≠ k := by
        rintro rfl
        exact hr.2 (by simpa [Proc.reaped] using hr.1.symm)
      exact ⟨⟨by simpa [hjk] using hr.1, hr.2⟩, by simpa using hjk, by simp⟩
    | dir j =>
      obtain ⟨hjk, hj⟩ := hdir j hr.2
      exact ⟨⟨by simpa [hjk] using hr.1, hj⟩, by simp, by simpa using hjk⟩
  refine ⟨?_, fun j hj => ?_⟩
  · have hfirst : Exclusive (update s.used (s.proc k).kstack false) fun holder r =>
        Holds s holder r ∧ holder ≠ .stack k :=
      h.exclusive.drop fun holder r hr => ⟨hr.1, h.ne_kstack hr.1 hr.2⟩
    cases call with
    | join => exact hfirst.mono fun holder r hr => ⟨(hold holder r hr).1, (hold holder r hr).2.1⟩
    | wait =>
      refine hfirst.drop fun holder r hr => ⟨⟨(hold holder r hr).1, (hold holder r hr).2.1⟩, ?_⟩
      exact h.ne_pgdir (.inl ⟨.inr hz, hthread rfl⟩) (hold holder r hr).1 (hold holder r hr).2.2
  · obtain ⟨hjk, hj⟩ := hdir j hj
    simpa [hjk] using h.dir_ne j hj

/-- Processes move, and states change within what `HasDir` reads. -/
theorem keep (h : Pages s) (hused : t.used = s.used)
    (hkept : ∀ k, (t.proc k).kstack = (s.proc k).kstack ∧ (t.proc k).pgdir = (s.proc k).pgdir ∧
      (t.proc k).isThread = (s.proc k).isThread)
    (hstate : ∀ k, live (t.proc k).state = true ∨ (t.proc k).state = .zombie →
      live (s.proc k).state = true ∨ (s.proc k).state = .zombie)
    (hpc : ∀ p k, (t.pc p).addressed = some k → (s.pc p).addressed = some k) : Pages t := by
  refine h.mono hused (fun k => .inl (hkept k).1) fun k hk => ⟨?_, (hkept k).2.1⟩
  rcases hk with ⟨hs, hth⟩ | ⟨p, hp⟩
  · exact .inl ⟨hstate k hs, (hkept k).2.2 ▸ hth⟩
  · exact .inr ⟨p, hpc p k hp⟩

theorem goto (h : Pages s) {c : Pc} (hc : c.addressed = none) : Pages (s.setPc p c) :=
  h.keep rfl (fun _ => ⟨rfl, rfl, rfl⟩) (fun _ => id) (addressed_setPc hc)

theorem swept (h : Pages s) {ks : List Slot} (hs : Swept s p ks t) : Pages t := by
  refine h.keep hs.used (fun k => by rw [hs.kept k]; exact ⟨rfl, rfl, rfl⟩) (fun k => ?_)
    fun q k => by rw [hs.pc]; exact id
  rw [hs.live_eq k]
  refine Or.imp_right fun hz => ?_
  rw [← hs.state_eq (by rw [hz]; rfl), hz]

theorem exits (h : Pages s) {ks : List Slot} (hp : live (s.proc p).state = true)
    (ht : Exits s p ks t) : Pages t := by
  cases ht with
  | drop hu => exact (h.swept hu).goto rfl
  | @done u hu =>
    have hv := (h.swept hu).calm (wakeup1_calm u (chanOf (u.proc p).parent))
    refine Pages.keep hv rfl (fun k => ?_) (fun k => ?_) fun q k hq =>
      addressed_setPc (s := u) (c := .dead) rfl q k hq
    · rcases eq_or_ne k p with rfl | hk <;> simp_all [State.setState]
    · rcases eq_or_ne k p with rfl | hk
      · exact fun _ => .inl (by rw [(wakeup1_calm _ _).live_eq, hu.live_eq, hp])
      · simp [State.setState, hk]

/-- `exec` takes a page directory, then frees the old one. -/
theorem commit (h : Pages s) {pg : Page} {sz : BitVec 32} (hp : live (s.proc p).state = true)
    (hthread : (s.proc p).isThread = false) (hpg : pg ≠ 0) (hfree : s.free pg = true) :
    Pages (commit s p pg sz) := by
  have hunused := used_of_free hfree hpg
  have hasp : HasDir s p := .inl ⟨.inl hp, hthread⟩
  have hdir (k : Slot) (hk : HasDir (Ptable.commit s p pg sz) k) : HasDir s k := by
    refine (hasDir_congr (s := s) (t := Ptable.commit s p pg sz) ?_ ?_ ?_ fun q => rfl).mp hk <;>
      rcases eq_or_ne k p with rfl | hkp <;> simp_all [Ptable.commit]
  have hne : pg ≠ (s.proc p).pgdir := by
    rintro rfl
    rw [h.exclusive.used (.dir p) _ ⟨rfl, hasp⟩] at hunused
    cases hunused
  have htake : Exclusive (update s.used pg true) fun holder r =>
      Holds s holder r ∨ holder = .dir p ∧ r = pg :=
    h.exclusive.take hunused fun _ _ => id
  refine ⟨htake.drop fun holder r hold => ?_, fun k hk => ?_⟩
  · cases holder with
    | stack k =>
      have hold' : Holds s (.stack k) r := by
        refine ⟨?_, hold.2⟩
        rcases eq_or_ne k p with rfl | hk
        · simpa [Ptable.commit] using hold.1
        · simpa [Ptable.commit, hk] using hold.1
      exact ⟨.inl hold', h.ne_pgdir hasp hold' (by simp)⟩
    | dir k =>
      rcases eq_or_ne k p with rfl | hk
      · obtain rfl : pg = r := by simpa [Ptable.commit] using hold.1
        exact ⟨.inr ⟨rfl, rfl⟩, hne⟩
      · have hold' : Holds s (.dir k) r :=
          ⟨by simpa [Ptable.commit, hk] using hold.1, hdir k hold.2⟩
        exact ⟨.inl hold', h.ne_pgdir hasp hold' (by simpa using hk)⟩
  · rcases eq_or_ne k p with rfl | hkp
    · simpa [Ptable.commit] using hpg
    · simpa [Ptable.commit, hkp] using h.dir_ne k (hdir k hk)

theorem move {l : Label} (h : Pages s) (hshape : Shape s) (hl : MainExec s l) (hm : Move s l t) :
    Pages t := by
  have ht := hshape.move hm
  cases hm with
  | calm hc => exact h.calm hc
  | @create p np a c hp hpc hnp hc =>
    have hca : c.addressed = none := by rcases hc with ⟨rfl, -⟩ | rfl <;> rfl
    refine h.keep rfl (fun k => ?_) (fun k => ?_) (addressed_setPc (s := s) hca)
    · rcases eq_or_ne k np with rfl | hk <;> simp_all
    · rcases eq_or_ne k np with rfl | hk <;> simp_all
  | fork hp hpc hs => exact h.forkStep hshape ht hpc hs
  | clone hp hpc hs => exact h.cloneStep hshape ht hpc hs
  | @turn l p w u _ _ _ _ _ hcalm _ _ hturn =>
    have hu := h.calm hcalm
    have hdone : w.done.addressed = none := by cases w <;> rfl
    cases hturn with
    | @reap k hk hz =>
      refine (hu.reap (hshape.calm hcalm) hz fun hw => ?_).goto hdone
      cases w with
      | child =>
        simp only [Wait.looksAt, isChild, Bool.and_eq_true, Bool.not_eq_true'] at hk
        exact hk.2
      | _ => cases hw
    | fail => exact hu.goto hdone
    | sleep =>
      have hasleep : w.asleep.addressed = none := by cases w <;> rfl
      refine hu.keep rfl (fun k => ?_) (fun k => ?_) (addressed_setPc hasleep)
      · rcases eq_or_ne k p with rfl | hk <;> simp_all [sleep]
      · rcases eq_or_ne k p with rfl | hk <;> simp_all [sleep]
  | @advance l p c u _ hpc hcalm _ =>
    refine (h.calm hcalm).goto ?_
    generalize s.pc p = c' at hpc
    cases hpc <;> rfl
  | exit hp _ _ hx => exact h.exits (live_of_running hp) hx
  | resume hp _ hcalm _ hx => exact (h.calm hcalm).exits (live_of_running hp) hx
  | commit hp _ hpg hfree => exact h.commit (live_of_running hp) (hl hpg) hpg hfree
  | @resize p n mem =>
    refine h.keep rfl (fun k => ?_) (fun k => ?_) fun _ _ => id
    · rw [resize_kept]
      exact ⟨rfl, rfl, rfl⟩
    · rw [resize_kept]
      exact id

end Pages

theorem userinit_pages {kstack pgdir : Page} (hd : pgdir ≠ 0)
    (hne : kstack ≠ pgdir) : Pages (userinit kstack pgdir) := by
  have hstack (k : Slot) (hs : ((userinit kstack pgdir).proc k).kstack ≠ 0) : k = initproc := by
    by_contra hk
    simp [userinit, hk, bss] at hs
  have hdir (k : Slot) (hh : HasDir (userinit kstack pgdir) k) : k = initproc := by
    by_contra hk
    exact not_hasDir_unused userinit_shape (by simp [userinit, hk, bss]) hh
  -- init's stack and its page directory are all that is held
  have hold_of (holder : Holder) (r : Page) (hold : Holds (userinit kstack pgdir) holder r) :
      holder = .stack initproc ∧ r = kstack ∨ holder = .dir initproc ∧ r = pgdir := by
    cases holder with
    | stack k =>
      obtain rfl := hstack k (hold.1 ▸ hold.2)
      exact .inl ⟨rfl, by simp [← hold.1, userinit]⟩
    | dir k =>
      obtain rfl := hdir k hold.2
      exact .inr ⟨rfl, by simp [← hold.1, userinit]⟩
  refine ⟨⟨fun holder r hold => ?_, fun holder holder' r hold hold' => ?_⟩, fun k hh => ?_⟩
  · rcases hold_of holder r hold with ⟨-, rfl⟩ | ⟨-, rfl⟩ <;> simp [userinit]
  · rcases hold_of holder r hold with ⟨rfl, hr⟩ | ⟨rfl, hr⟩ <;>
      rcases hold_of holder' r hold' with ⟨rfl, hr'⟩ | ⟨rfl, hr'⟩
    · rfl
    · exact absurd (hr.symm.trans hr') hne
    · exact absurd (hr'.symm.trans hr) hne
    · rfl
  · obtain rfl := hdir k hh
    simpa [userinit] using hd

end PerrOS.Ptable
