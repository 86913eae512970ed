import PerrOS.Ptable.Pages

/-!
# Thread groups

The threads of a process share its page directory and are gone before it is:
as long as `exec` is called without threads, `exit` is not cut short by a kill,
and nobody clones a thread into a slot that the pass of `exit` has gone by.
-/

namespace PerrOS.Ptable

open Function (update)
open Xv6 (ProcState Slot slots mem_slots)

variable {s t u : State} {p q m np k : Slot}

/-- The slots that the pass of `exit` is done with. -/
def passed (s : State) (m k : Slot) : Bool :=
  match s.pc m with
  | .exitKill i | .exitKilling i _ | .exitJoin i => k < i
  | .exitJoining i pid | .exitAsleep i pid => k < i || (k = i && (s.proc k).pid ≠ pid)
  | .exitResume i => k ≤ i
  | _ => false

/-- The entry that `proc_clone` is filling in. -/
def Pc.cloned : Pc → Option Slot
  | .cloning np _ => some np
  | _ => none

theorem Pc.target_of_cloned {c : Pc} (h : c.cloned = some np) : c.target = some np := by
  cases c with
  | cloning => exact h
  | _ => cases h

/-- The thread `p` is cloning into a slot that the pass of its parent's `exit`
has gone by. -/
def straysInto (s : State) (p : Slot) : Bool :=
  match (s.pc p).cloned, (s.proc p).isThread, (s.proc p).parent with
  | some np, true, some m => passed s m np
  | _, _, _ => false

def NoStrayClone (s : State) : Prop := ∀ p, straysInto s p = false

instance (s : State) : Decidable (NoStrayClone s) := inferInstanceAs (Decidable (∀ _, _ = _))

theorem NoStrayClone.passed (h : NoStrayClone s) (hp : (s.pc p).cloned = some np)
    (hth : (s.proc p).isThread = true) (hm : (s.proc p).parent = some m) :
    passed s m np = false := by
  have := h p
  rwa [straysInto, hp, hth, hm] at this

/-- The slot and the pid for which `exit` is in `proc_join`. -/
def Pc.joinsFor : Pc → Option (Slot × Pid)
  | .exitJoining i pid | .exitAsleep i pid => some (i, pid)
  | _ => none

/-- `exit` looks for one thread in `proc_join`, and if the caller has been
killed the thread is a zombie already. -/
def JoinsThrough (s : State) (p : Slot) : Prop :=
  ∀ x ∈ (s.pc p).joinsFor, ∀ k, isJoinable s p x.2 k = true →
    k = x.1 ∧ ((s.proc p).killed = true → (s.proc k).state = .zombie)

-- never by enumerating the pids
instance (s : State) (p : Slot) : Decidable (JoinsThrough s p) :=
  Option.decidableForallMem (s.pc p).joinsFor

/-- A process calls `exec` when it is not a thread and the threads it has left
are zombies. -/
def ExecAlone (s : State) (p : Slot) : Prop :=
  (s.proc p).isThread = false ∧ ∀ k, ownThread s p k = true → (s.proc k).state = .zombie

instance (s : State) (p : Slot) : Decidable (ExecAlone s p) := inferInstanceAs (Decidable (_ ∧ _))

/-- What a step that ends in `exec` replacing an image asks for. -/
def ExecsAlone (s : State) : Label → Prop
  | .run p (.exec pg _) => pg ≠ 0 → ExecAlone s p
  | _ => True

instance (s : State) (l : Label) : Decidable (ExecsAlone s l) :=
  match l with
  | .run _ (.exec _ _) => inferInstanceAs (Decidable (_ → _))
  | .run _ .yield | .run _ (.sleep _) | .run _ .fork | .run _ (.clone _) | .run _ .exit
  | .run _ (.kill _) | .run _ .wait | .run _ (.join _) | .run _ (.growproc _ _)
  | .run _ (.step _) | .dispatch _ | .wakeup _ => inferInstanceAs (Decidable True)

def Grouped (s : State) (l : Label) : Prop :=
  (∀ t ∈ next s l, NoStrayClone t) ∧ (∀ p, l.runs p → JoinsThrough s p) ∧ ExecsAlone s l

instance (s : State) (l : Label) : Decidable (Grouped s l) :=
  inferInstanceAs (Decidable (_ ∧ _ ∧ _))

theorem ownThread_iff : ownThread s p k = true ↔
    (s.proc k).isThread = true ∧ (s.proc k).parent = some p := by
  simp [ownThread]

-- ---------------------------------------------------------------------------
-- The invariant
-- ---------------------------------------------------------------------------

/-- The entry of a process, running or exited. -/
def Full (s : State) (k : Slot) : Prop := live (s.proc k).state = true ∨ (s.proc k).state = .zombie

/-- A process that is alive and no thread. -/
structure Main (s : State) (m : Slot) : Prop where
  live : live (s.proc m).state = true
  isThread : (s.proc m).isThread = false

/-- The entry whose parent `fork` has assigned. -/
def Pc.forkedChild : Pc → Option Slot
  | .forking np .isThread | .forking np .state => some np
  | _ => none

/-- The entry whose parent `proc_clone` has assigned. -/
def Pc.clonedChild : Pc → Option Slot
  | .cloning np .sz | .cloning np .pgdir | .cloning np .isThread | .cloning np .state => some np
  | _ => none

/-- The entry to which `proc_clone` has assigned the page directory. -/
def Pc.sharing : Pc → Option Slot
  | .cloning np .isThread | .cloning np .state => some np
  | _ => none

theorem Pc.cases_child {c : Pc} (h : c.target = some np) :
    c.blank = some np ∨ c.forkedChild = some np ∨ c.clonedChild = some np := by
  rcases Pc.cases_target h with ⟨next, rfl⟩ | ⟨next, rfl⟩ <;> cases next <;>
    simp [Pc.blank, Pc.forkedChild, Pc.clonedChild]

theorem Pc.target_of_forkedChild {c : Pc} (h : c.forkedChild = some np) :
    c.target = some np ∧ c.mainOnly = true := by
  cases c with
  | forking _ next => cases next <;> simp_all [Pc.forkedChild, Pc.target, Pc.mainOnly]
  | _ => cases h

theorem Pc.cloned_of_clonedChild {c : Pc} (h : c.clonedChild = some np) : c.cloned = some np := by
  cases c with
  | cloning _ next => cases next <;> simp_all [Pc.clonedChild, Pc.cloned]
  | _ => cases h

theorem Pc.clonedChild_of_sharing {c : Pc} (h : c.sharing = some np) : c.clonedChild = some np := by
  cases c with
  | cloning _ next => cases next <;> simp_all [Pc.clonedChild, Pc.sharing]
  | _ => cases h

structure Groups (s : State) : Prop where
  main : ∀ k, Full s k → (s.proc k).isThread = true →
    ∃ m, (s.proc k).parent = some m ∧ Main s m ∧ passed s m k = false
  space : ∀ k m, live (s.proc k).state = true → (s.proc k).isThread = true →
    (s.proc k).parent = some m → (s.proc k).pgdir = (s.proc m).pgdir
  forked : ∀ p np, (s.pc p).forkedChild = some np → (s.proc np).parent = some p
  cloned : ∀ p np, (s.pc p).clonedChild = some np → (s.proc np).parent = mainOf s p
  sharing : ∀ p np, (s.pc p).sharing = some np → (s.proc np).pgdir = (s.proc p).pgdir
  exits : ∀ p, (s.pc p).exiting = true → (s.proc p).isThread = false

-- ---------------------------------------------------------------------------
-- What decides `passed`
-- ---------------------------------------------------------------------------

theorem passed_congr (hpc : t.pc m = s.pc m) (hpid : (t.proc k).pid = (s.proc k).pid) :
    passed t m k = passed s m k := by
  simp only [passed, hpc, hpid]

/-- The pass has gone by no slot where a process is not in it. -/
theorem passed_eq_false (h : (s.pc m).exiting = false) : passed s m k = false := by
  unfold passed
  generalize s.pc m = c at h
  cases c <;> first | rfl | cases h

theorem Calm.passed (hc : Calm s t) : passed t m k = passed s m k := by
  rcases hc.pc m with hm | ⟨hs, ht⟩
  · exact passed_congr hm (hc.pid k)
  · rw [passed_eq_false, passed_eq_false]
    · rcases Pc.idle_cases hs with e | e <;> rw [e] <;> rfl
    · rcases Pc.idle_cases ht with e | e <;> rw [e] <;> rfl

theorem Calm.full (hc : Calm s t) : Full t k ↔ Full s k := by
  unfold Full
  rw [hc.live_eq k]
  refine or_congr_right ⟨fun hz => ?_, fun hz => ?_⟩
  · rw [← hc.state_eq (by rw [hz]; rfl), hz]
  · rw [hc.state_eq, hz]
    rw [hc.live_eq, hz]
    rfl

theorem Swept.full {ks : List Slot} (hs : Swept s p ks t) (hk : Full t k) : Full s k := by
  rcases hk with hl | hz
  · exact .inl ((hs.live_eq k).symm.trans hl)
  · exact .inr (by rw [← hs.state_eq (by rw [hz]; rfl), hz])

theorem Swept.ownThread {ks : List Slot} (hs : Swept s p ks t) :
    ownThread t m k = ownThread s m k := by
  rw [Bool.eq_iff_iff, ownThread_iff, ownThread_iff, hs.isThread k]
  exact and_congr_right fun hth => by rw [hs.parent_thread hth]

theorem Calm.main (hc : Calm s t) (h : Main s m) : Main t m :=
  ⟨(hc.live_eq m).trans h.live, (hc.isThread m).trans h.isThread⟩

theorem full_congr (h : t.proc k = s.proc k) : Full t k ↔ Full s k := by rw [Full, Full, h]

theorem Main.of_eq (hm : Main s m) (h : t.proc m = s.proc m) : Main t m :=
  ⟨h ▸ hm.live, h ▸ hm.isThread⟩

theorem not_full_embryo (h : (s.proc np).state = .embryo ∨ (s.proc np).state = .unused) :
    ¬Full s np := by
  rcases h with h | h <;> simp [Full, live, h]

theorem Main.ne_of_not_live (hm : Main s m) (hk : Ptable.live (s.proc k).state = false) : m ≠ k := by
  rintro rfl
  rw [hm.live] at hk
  cases hk

/-- With the lock dropped a process stays at the slot of its pass. -/
theorem Advance.passed {c : Pc} (h : Advance s (s.pc p) c) (hc : Calm s t) (hpcs : t.pc = s.pc) :
    passed (t.setPc p c) p k = passed t p k := by
  generalize hpc : s.pc p = c' at h
  rw [← hpcs] at hpc
  cases h with
  | kill i => simp [Ptable.passed, hpc]
  | join i pid => simp [Ptable.passed, hpc]
  | joining i =>
    by_cases e : k = i
    · simp [Ptable.passed, hpc, e, hc.pid i]
    · simp [Ptable.passed, hpc, e]

theorem mainOf_congr (hparent : (t.proc p).parent = (s.proc p).parent)
    (hthread : (t.proc p).isThread = (s.proc p).isThread) : mainOf t p = mainOf s p := by
  simp only [mainOf, hparent, hthread]

-- ---------------------------------------------------------------------------
-- Entries that are filled in
-- ---------------------------------------------------------------------------

/-- The live process `p` writes to the entry `np` and goes on with it, or is
done with it. -/
structure Filled (s t : State) (p np : Slot) : Prop where
  live : live (s.proc p).state = true
  new : (s.proc np).state = .embryo ∨ (s.proc np).state = .unused
  alone : ∀ q, q ≠ p → (s.pc q).target ≠ some np
  proc : ∀ k, k ≠ np → t.proc k = s.proc k
  pcs : ∀ q, q ≠ p → t.pc q = s.pc q ∨ q = np ∧ t.pc q = .user
  pcOwn : (t.pc p).target = some np ∨ t.pc p = .user

theorem Written.filled (hw : Written s t p np) (hshape : Shape s)
    (hp : Ptable.live (s.proc p).state = true) (htarget : (s.pc p).target = some np) :
    Filled s t p np where
  live := hp
  new := .inl ((hshape.embryo np).mpr ⟨p, htarget⟩)
  alone q hq hnp := hq (hshape.unique q p np hnp htarget)
  proc := hw.proc
  pcs q hq := by
    rcases eq_or_ne q np with rfl | hqnp
    · exact (hw.pcNew hq).imp_right fun hu => ⟨rfl, hu⟩
    · exact .inl (hw.pc q hq hqnp)
  pcOwn := hw.pcOwn

/-- The slot that `allocproc` finds is taken. -/
theorem create_filled (hshape : Shape s) {c : Pc} (hp : (s.proc p).state = .running)
    (hnp : (s.proc np).state = .unused) (hc : c.target = some np) :
    Filled s (({ s.set np { s.proc np with state := .embryo, pid := s.nextpid } with
      nextpid := s.nextpid + 1 } : State).setPc p c) p np where
  live := by
    rw [hp]
    rfl
  new := .inr hnp
  alone q _ hq := by
    have := (hshape.embryo np).mpr ⟨q, hq⟩
    rw [hnp] at this
    cases this
  proc k hk := by simp [hk]
  pcs q hq := .inl (by simp [hq])
  pcOwn := .inl (by simpa using hc)

namespace Filled

variable (hf : Filled s t p np)
include hf

theorem not_live : Ptable.live (s.proc np).state = false := by
  rcases hf.new with h | h <;> rw [h] <;> rfl

theorem ne : p ≠ np := by
  rintro rfl
  have := hf.not_live
  rw [hf.live] at this
  cases this

/-- A process that is alive is not filled in. -/
theorem main (hm : Main s m) : t.proc m = s.proc m := hf.proc m (hm.ne_of_not_live hf.not_live)

theorem own {x : Slot} (hx : (t.pc p).target = some x) : x = np := by
  rcases hf.pcOwn with hc | hc
  · exact Option.some.inj (hx.symm.trans hc)
  · rw [hc] at hx
    cases hx

theorem not_exiting : (t.pc p).exiting = false := by
  rcases hf.pcOwn with hc | hc
  · rcases Pc.cases_target hc with ⟨next, hc⟩ | ⟨next, hc⟩ <;> rw [hc] <;> rfl
  · rw [hc]
    rfl

/-- What another process fills in, and that process, stay as they are. -/
theorem other (hshape : Shape s) {x : Slot} (hq : q ≠ p) (hx : (t.pc q).target = some x) :
    t.pc q = s.pc q ∧ t.proc x = s.proc x ∧ t.proc q = s.proc q := by
  have hpc : t.pc q = s.pc q := (hf.pcs q hq).resolve_right fun hu => by
    rw [hu.2] at hx
    cases hx
  rw [hpc] at hx
  refine ⟨hpc, hf.proc x fun e => hf.alone q hq (e ▸ hx), hf.proc q ?_⟩
  rintro rfl
  rw [(hshape.dead q).mpr hf.not_live] at hx
  cases hx

end Filled

-- ---------------------------------------------------------------------------
-- Steps
-- ---------------------------------------------------------------------------

namespace Groups

/-- The parent of a thread is alive, and is no thread. -/
theorem parent (h : Groups s) (hk : Full s k) (hth : (s.proc k).isThread = true)
    (hm : (s.proc k).parent = some m) : Main s m ∧ passed s m k = false := by
  obtain ⟨m', hm', hmain⟩ := h.main k hk hth
  obtain rfl : m = m' := Option.some.inj (hm.symm.trans hm')
  exact hmain

/-- No new thread, and the process of each thread stays where it does not pass
the thread by. -/
theorem keep (h : Groups s)
    (hthread : ∀ k, Full t k → (t.proc k).isThread = true →
      Full s k ∧ (s.proc k).isThread = true ∧ (t.proc k).parent = (s.proc k).parent)
    (hlive : ∀ k, live (t.proc k).state = true → (t.proc k).isThread = true →
      live (s.proc k).state = true ∧ (t.proc k).pgdir = (s.proc k).pgdir)
    (hmain : ∀ k m, Full t k → (t.proc k).isThread = true → (s.proc k).parent = some m →
      Main s m → passed s m k = false → Main t m ∧ passed t m k = false)
    (hspace : ∀ k m, live (t.proc k).state = true → (t.proc k).isThread = true →
      (s.proc k).parent = some m → (t.proc m).pgdir = (s.proc m).pgdir)
    (hforked : ∀ q np, (t.pc q).forkedChild = some np →
      (s.pc q).forkedChild = some np ∧ (t.proc np).parent = (s.proc np).parent)
    (hcloned : ∀ q np, (t.pc q).clonedChild = some np → (s.pc q).clonedChild = some np ∧
      (t.proc np).parent = (s.proc np).parent ∧ mainOf t q = mainOf s q)
    (hsharing : ∀ q np, (t.pc q).sharing = some np → (s.pc q).sharing = some np ∧
      (t.proc np).pgdir = (s.proc np).pgdir ∧ (t.proc q).pgdir = (s.proc q).pgdir)
    (hexits : ∀ q, (t.pc q).exiting = true → (t.proc q).isThread = false) : Groups t where
  main k hk hth := by
    obtain ⟨hks, hths, hpar⟩ := hthread k hk hth
    obtain ⟨m, hm, hmain', hpass⟩ := h.main k hks hths
    obtain ⟨hmt, hpt⟩ := hmain k m hk hth hm hmain' hpass
    exact ⟨m, hpar.trans hm, hmt, hpt⟩
  space k m hk hth hm := by
    obtain ⟨-, hths, hpar⟩ := hthread k (.inl hk) hth
    obtain ⟨hks, hdir⟩ := hlive k hk hth
    rw [hdir, hspace k m hk hth (hpar ▸ hm)]
    exact h.space k m hks hths (hpar ▸ hm)
  forked q np hq := (hforked q np hq).2.trans (h.forked q np (hforked q np hq).1)
  cloned q np hq := by
    obtain ⟨hs, hpar, hmain⟩ := hcloned q np hq
    rw [hpar, hmain]
    exact h.cloned q np hs
  sharing q np hq := by
    obtain ⟨hs, hdir, hdirq⟩ := hsharing q np hq
    rw [hdir, hdirq]
    exact h.sharing q np hs
  exits := hexits

theorem calm (h : Groups s) (hc : Calm s t) : Groups t := by
  refine h.keep (fun k hk hth => ⟨hc.full.mp hk, hc.isThread k ▸ hth, hc.parent k⟩)
    (fun k hk _ => ⟨hc.live_eq k ▸ hk, hc.pgdir k⟩)
    (fun k m _ _ _ hm hp => ⟨hc.main hm, hc.passed.trans hp⟩) (fun k m _ _ _ => hc.pgdir m)
    (fun q np hq => ⟨hc.read (f := Pc.forkedChild) rfl q ▸ hq, hc.parent np⟩)
    (fun q np hq => ⟨hc.read (f := Pc.clonedChild) rfl q ▸ hq, hc.parent np,
      mainOf_congr (hc.parent q) (hc.isThread q)⟩)
    (fun q np hq => ⟨hc.read (f := Pc.sharing) rfl q ▸ hq, hc.pgdir np, hc.pgdir q⟩) fun q hq => ?_
  rw [hc.read (f := Pc.exiting) rfl] at hq
  exact (hc.isThread q).trans (h.exits q hq)

/-- A process that is filling nothing in goes on to `c`. -/
theorem goto (h : Groups s) {c : Pc} (hc : c.target = none)
    (hpass : ∀ k, Full s k → ownThread s p k = true → passed s p k = false →
      passed (s.setPc p c) p k = false)
    (hexit : c.exiting = true → (s.proc p).isThread = false) : Groups (s.setPc p c) := by
  -- what reads the entry that is being filled in finds none at `c`
  have read {f : Pc → Option Slot} (hf : ∀ c np, f c = some np → c.target = some np) (q np : Slot)
      (hq : f ((s.setPc p c).pc q) = some np) : f (s.pc q) = some np := by
    rcases eq_or_ne q p with rfl | hqp
    · rw [State.setPc_pc, if_pos rfl] at hq
      rw [hf _ _ hq] at hc
      cases hc
    · rwa [State.setPc_pc, if_neg hqp] at hq
  refine h.keep (fun k hk hth => ⟨hk, hth, rfl⟩) (fun k hk _ => ⟨hk, rfl⟩)
    (fun k m hk hth hpar hm hp => ⟨hm.of_eq rfl, ?_⟩) (fun _ _ _ _ _ => rfl)
    (fun q np hq => ⟨read (fun c np hc => (Pc.target_of_forkedChild hc).1) q np hq, rfl⟩)
    (fun q np hq => ⟨read (fun c np hc => Pc.target_of_cloned (Pc.cloned_of_clonedChild hc)) q np hq,
      rfl, rfl⟩)
    (fun q np hq => ⟨read (fun c np hc => Pc.target_of_cloned (Pc.cloned_of_clonedChild
      (Pc.clonedChild_of_sharing hc))) q np hq, rfl, rfl⟩) fun q hq => ?_
  · rcases eq_or_ne m p with rfl | hmp
    · exact hpass k hk (ownThread_iff.mpr ⟨hth, hpar⟩) hp
    · rw [← hp]
      exact passed_congr (by simp [hmp]) rfl
  · rcases eq_or_ne q p with rfl | hqp
    · exact hexit (by simpa using hq)
    · exact h.exits q (by simpa [hqp] using hq)

/-- A zombie is taken out of the table. -/
theorem reap (h : Groups s) (hshape : Shape s) (call : Reaper) (hz : (s.proc k).state = .zombie) :
    Groups (reap s call k) := by
  have hother {j : Slot} (hj : j ≠ k) : (Ptable.reap s call k).proc j = s.proc j := by simp [hj]
  have hpc : (Ptable.reap s call k).pc = s.pc := reap_pc ..
  have hne {j : Slot} (hj : Full (Ptable.reap s call k) j) : j ≠ k := by
    rintro rfl
    simp [Full, live, Proc.reaped] at hj
  have hmain {m : Slot} (hm : Main s m) : (Ptable.reap s call k).proc m = s.proc m :=
    hother (hm.ne_of_not_live (by rw [hz]; rfl))
  have hfilled {q np : Slot} (hq : (s.pc q).target = some np) :
      (Ptable.reap s call k).proc np = s.proc np ∧ (Ptable.reap s call k).proc q = s.proc q := by
    refine ⟨hother ?_, hother ?_⟩ <;> rintro rfl
    · have := (hshape.embryo np).mpr ⟨q, hq⟩
      rw [hz] at this
      cases this
    · rw [(hshape.dead q).mpr (by rw [hz]; rfl)] at hq
      cases hq
  refine h.keep (fun j hj hth => ?_) (fun j hj hth => ?_) (fun j m hj hth _ hm hp => ?_)
    (fun j m hj hth hm => ?_) (fun q np hq => ?_) (fun q np hq => ?_) (fun q np hq => ?_)
    fun q hq => ?_
  · have he := hother (hne hj)
    exact ⟨(full_congr he).mp hj, he ▸ hth, by rw [he]⟩
  · have he := hother (hne (.inl hj))
    exact ⟨he ▸ hj, by rw [he]⟩
  · refine ⟨hm.of_eq (hmain hm), (passed_congr (congrFun hpc m) ?_).trans hp⟩
    rw [hother (hne hj)]
  · have he := hother (hne (.inl hj))
    rw [hmain (h.parent (.inl (he ▸ hj)) (he ▸ hth) hm).1]
  · rw [hpc] at hq
    exact ⟨hq, by rw [(hfilled (Pc.target_of_forkedChild hq).1).1]⟩
  · rw [hpc] at hq
    obtain ⟨hnp, hq'⟩ := hfilled (Pc.target_of_cloned (Pc.cloned_of_clonedChild hq))
    exact ⟨hq, by rw [hnp], mainOf_congr (by rw [hq']) (by rw [hq'])⟩
  · rw [hpc] at hq
    obtain ⟨hnp, hq'⟩ :=
      hfilled (Pc.target_of_cloned (Pc.cloned_of_clonedChild (Pc.clonedChild_of_sharing hq)))
    exact ⟨hq, by rw [hnp], by rw [hq']⟩
  · rw [hpc] at hq
    have hqk : q ≠ k := by
      rintro rfl
      rw [(hshape.dead q).mpr (by rw [hz]; rfl)] at hq
      cases hq
    rw [hother hqk]
    exact h.exits q hq

theorem filled (h : Groups s) (hshape : Shape s) (hf : Filled s t p np)
    (hthread : Full t np → (t.proc np).isThread = true → ∃ m, (t.proc np).parent = some m ∧
      Main s m ∧ passed t m np = false ∧ (t.proc np).pgdir = (s.proc m).pgdir)
    (hforked : (t.pc p).forkedChild = some np → (t.proc np).parent = some p)
    (hcloned : (t.pc p).clonedChild = some np → (t.proc np).parent = mainOf s p)
    (hsharing : (t.pc p).sharing = some np → (t.proc np).pgdir = (s.proc p).pgdir) :
    Groups t := by
  have hpass {m k : Slot} (hm : Main s m) (hk : k ≠ np) (h : passed s m k = false) :
      passed t m k = false := by
    rcases eq_or_ne m p with rfl | hmp
    · exact passed_eq_false hf.not_exiting
    · have hpc := (hf.pcs m hmp).resolve_right fun hu => hm.ne_of_not_live hf.not_live hu.1
      rw [← h]
      exact passed_congr hpc (by rw [hf.proc k hk])
  refine ⟨fun k hk hth => ?_, fun k m hk hth hm => ?_, fun q x hq => ?_, fun q x hq => ?_,
    fun q x hq => ?_, fun q hq => ?_⟩
  · rcases eq_or_ne k np with rfl | hknp
    · obtain ⟨m, hm, hmm, hmp, -⟩ := hthread hk hth
      exact ⟨m, hm, hmm.of_eq (hf.main hmm), hmp⟩
    · have he := hf.proc k hknp
      obtain ⟨m, hm, hmm, hmp⟩ := h.main k ((full_congr he).mp hk) (he ▸ hth)
      exact ⟨m, by rw [he, hm], hmm.of_eq (hf.main hmm), hpass hmm hknp hmp⟩
  · rcases eq_or_ne k np with rfl | hknp
    · obtain ⟨m', hm', hmm, -, hdir⟩ := hthread (.inl hk) hth
      obtain rfl : m = m' := Option.some.inj (hm.symm.trans hm')
      rw [hdir, hf.main hmm]
    · have he := hf.proc k hknp
      rw [he] at hk hth hm
      rw [he, hf.main (h.parent (.inl hk) hth hm).1]
      exact h.space k m hk hth hm
  · have htarget := (Pc.target_of_forkedChild hq).1
    rcases eq_or_ne q p with rfl | hqp
    · obtain rfl := hf.own htarget
      exact hforked hq
    · obtain ⟨hpc, hx, -⟩ := hf.other hshape hqp htarget
      rw [hx]
      exact h.forked q x (hpc ▸ hq)
  · have htarget := Pc.target_of_cloned (Pc.cloned_of_clonedChild hq)
    rcases eq_or_ne q p with rfl | hqp
    · obtain rfl := hf.own htarget
      rw [hcloned hq, mainOf_congr] <;> rw [hf.proc q hf.ne]
    · obtain ⟨hpc, hx, hq'⟩ := hf.other hshape hqp htarget
      rw [hx, mainOf_congr (s := s) (by rw [hq']) (by rw [hq'])]
      exact h.cloned q x (hpc ▸ hq)
  · have htarget := Pc.target_of_cloned (Pc.cloned_of_clonedChild (Pc.clonedChild_of_sharing hq))
    rcases eq_or_ne q p with rfl | hqp
    · obtain rfl := hf.own htarget
      rw [hsharing hq, hf.proc q hf.ne]
    · obtain ⟨hpc, hx, hq'⟩ := hf.other hshape hqp htarget
      rw [hx, hq']
      exact h.sharing q x (hpc ▸ hq)
  · rcases eq_or_ne q p with rfl | hqp
    · rw [hf.not_exiting] at hq
      cases hq
    · have hpc : t.pc q = s.pc q := (hf.pcs q hqp).resolve_right fun hu => by
        rw [hu.2] at hq
        cases hq
      rw [hpc] at hq
      rw [hf.proc q fun e => ?_]
      · exact h.exits q hq
      · rw [e, (hshape.dead np).mpr hf.not_live] at hq
        cases hq

/-- The entry is not published yet. -/
theorem blank (h : Groups s) (hshape : Shape s) (hw : Filled s t p np)
    (hnp : ¬Full t np) (hpc : (t.pc p).blank = some np ∨ t.pc p = .user) : Groups t := by
  have hnone {f : Pc → Option Slot} (huser : f .user = none)
      (hblank : ∀ c, c.blank = some np → f c = none) : f (t.pc p) ≠ some np := by
    rcases hpc with hc | hc
    · rw [hblank _ hc]
      nofun
    · rw [hc, huser]
      nofun
  refine h.filled hshape hw (fun hf => absurd hf hnp) (fun hf => absurd hf (hnone rfl ?_))
    (fun hf => absurd hf (hnone rfl ?_)) fun hf => absurd hf (hnone rfl ?_)
  all_goals
    intro c hc
    cases c with
    | forking _ next | cloning _ next => cases next <;> first | rfl | cases hc
    | _ => rfl

theorem allocStack (h : Groups s) (hshape : Shape s) (hp : live (s.proc p).state = true)
    (htarget : (s.pc p).target = some np) {kind : Kind} {pg : Page} {c : Pc} (hc : c.blank = some np)
    (hs : Ptable.allocStack s p kind np pg c = some t) : Groups t := by
  have hembryo := (hshape.embryo np).mpr ⟨p, htarget⟩
  have hw := (allocStack_written hembryo (Pc.target_of_blank hc) hs).filled hshape hp htarget
  rcases ite_eq_some.mp hs with ⟨-, hs⟩ | ⟨-, hs⟩
  case inr => cases hs
  rcases ite_eq_some.mp hs with ⟨-, hs⟩ | ⟨-, hs⟩
  · obtain rfl := Option.some.inj hs
    exact h.blank hshape hw (not_full_embryo (.inr (by simp))) (.inr (by simp))
  · obtain rfl := Option.some.inj hs
    exact h.blank hshape hw (not_full_embryo (.inl (by simp [hembryo])))
      (.inl (by simp [hc]))

theorem forkStep (h : Groups s) (hshape : Shape s) {pg : Page} {next : ForkStage}
    (hp : live (s.proc p).state = true) (hpc : s.pc p = .forking np next)
    (hs : Ptable.forkStep s p np pg next = some t) : Groups t := by
  have htarget : (s.pc p).target = some np := by rw [hpc]; rfl
  have hembryo := (hshape.embryo np).mpr ⟨p, htarget⟩
  have hw := (forkStep_written hembryo hs).filled hshape hp htarget
  cases next with
  | kstack => exact h.allocStack hshape hp htarget rfl hs
  | pgdir =>
    rcases ite_eq_some.mp hs with ⟨-, hs⟩ | ⟨-, hs⟩
    case inr => cases hs
    rcases ite_eq_some.mp hs with ⟨-, hs⟩ | ⟨-, hs⟩
    · obtain rfl := Option.some.inj hs
      exact h.blank hshape hw (not_full_embryo (.inr (by simp))) (.inr (by simp))
    · obtain rfl := Option.some.inj hs
      exact h.blank hshape hw (not_full_embryo (.inl (by simp [hembryo])))
        (.inl (by simp [Pc.blank]))
  | sz =>
    obtain rfl := Option.some.inj hs
    exact h.blank hshape hw (not_full_embryo (.inl (by simp [hembryo])))
      (.inl (by simp [Pc.blank]))
  | parent | isThread =>
    obtain rfl := Option.some.inj hs
    refine h.filled hshape hw
      (fun hf => absurd hf (not_full_embryo (.inl (by simp [hembryo])))) (fun _ => ?_)
      (by simp [Pc.clonedChild]) (by simp [Pc.sharing])
    simp [h.forked p np, hpc, Pc.forkedChild]
  | state =>
    obtain rfl := Option.some.inj hs
    have hthread := hshape.flag p np false (by rw [hpc]; rfl)
    refine h.filled hshape hw (fun _ hth => ?_) (by simp [Ptable.publish, Pc.forkedChild])
      (by simp [Ptable.publish, Pc.clonedChild]) (by simp [Ptable.publish, Pc.sharing])
    simp [Ptable.publish, State.setState, hthread] at hth

theorem cloneStep (h : Groups s) (hshape : Shape s) {pg : Page} {next : CloneStage}
    (hp : live (s.proc p).state = true) (hpc : s.pc p = .cloning np next)
    (hstray : NoStrayClone s) (hs : Ptable.cloneStep s p np pg next = some t) : Groups t := by
  have htarget : (s.pc p).target = some np := by rw [hpc]; rfl
  have hembryo := (hshape.embryo np).mpr ⟨p, htarget⟩
  have hw := (cloneStep_written hembryo hs).filled hshape hp htarget
  cases next with
  | kstack => exact h.allocStack hshape hp htarget rfl hs
  | parent | sz | pgdir | isThread =>
    obtain rfl := Option.some.inj hs
    refine h.filled hshape hw
      (fun hf => absurd hf (not_full_embryo (.inl (by simp [hembryo])))) (by simp [Pc.forkedChild])
      (fun _ => ?_) fun hf => ?_
    · simp [h.cloned p np, hpc, Pc.clonedChild]
    · simp_all [h.sharing p np, Pc.sharing]
  | state =>
    obtain rfl := Option.some.inj hs
    refine h.filled hshape hw (fun _ _ => ?_) (by simp [Ptable.publish, Pc.forkedChild])
      (by simp [Ptable.publish, Pc.clonedChild]) (by simp [Ptable.publish, Pc.sharing])
    have hnew : ((publish s p np).proc np) = { s.proc np with state := .runnable } := by
      simp [Ptable.publish, State.setState]
    rw [hnew]
    dsimp only
    rw [h.cloned p np (by rw [hpc]; rfl), h.sharing p np (by rw [hpc]; rfl), mainOf]
    by_cases hth : (s.proc p).isThread = true
    · obtain ⟨m, hm, hmain, -⟩ := h.main p (.inl hp) hth
      have hmp : m ≠ p := by
        rintro rfl
        rw [hmain.isThread] at hth
        cases hth
      have hmnp : m ≠ np := hmain.ne_of_not_live (by rw [hembryo]; rfl)
      refine ⟨m, by rw [if_pos hth, hm], hmain, ?_, h.space p m hp hth hm⟩
      rw [← hstray.passed (by rw [hpc]; rfl) hth hm]
      exact passed_congr (by simp [Ptable.publish, State.setState, hmp, hmnp]) (by rw [hnew])
    · have hth : (s.proc p).isThread = false := by simpa using hth
      refine ⟨p, by simp [hth], ⟨hp, hth⟩, passed_eq_false ?_, rfl⟩
      simp [Ptable.publish, Pc.exiting]

-- ---------------------------------------------------------------------------
-- The end of a process
-- ---------------------------------------------------------------------------

/-- Who clones a thread for another process is a thread of it. -/
theorem cloner (h : Groups s) (hshape : Shape s) (hq : (s.pc q).clonedChild = some np)
    (hpar : (s.proc np).parent = some p) (hqp : q ≠ p) :
    Full s q ∧ ownThread s p q = true := by
  have htarget := Pc.target_of_cloned (Pc.cloned_of_clonedChild hq)
  have hlive : live (s.proc q).state = true := by
    rw [← Bool.not_eq_false, ← hshape.dead q]
    intro hd
    rw [hd] at htarget
    cases htarget
  have hmain := (h.cloned q np hq).symm.trans hpar
  by_cases hth : (s.proc q).isThread = true
  · rw [mainOf, if_pos hth] at hmain
    exact ⟨.inl hlive, ownThread_iff.mpr ⟨hth, hmain⟩⟩
  · rw [mainOf, if_neg hth] at hmain
    exact absurd (Option.some.inj hmain) hqp

/-- Only a process that is alive and no thread has threads. -/
theorem ownThread_eq_false (h : Groups s) (hshape : Shape s) (hpc : (s.pc p).target = none)
    (hp : ¬Main s p) : ownThread s p k = false := by
  have hnot {j : Slot} (hj : Full s j) (hown : ownThread s p j = true) : False := by
    obtain ⟨hth, hpar⟩ := ownThread_iff.mp hown
    exact hp (h.parent hj hth hpar).1
  rw [← Bool.not_eq_true]
  intro hown
  have hpar := (ownThread_iff.mp hown).2
  cases hstate : (s.proc k).state with
  | unused =>
    rw [hshape.unused k hstate] at hpar
    cases hpar
  | embryo =>
    obtain ⟨q, hq⟩ := (hshape.embryo k).mp hstate
    have hqp : q ≠ p := by
      rintro rfl
      rw [hpc] at hq
      cases hq
    rcases Pc.cases_child hq with hc | hc | hc
    · rw [hshape.blank q k hc] at hpar
      cases hpar
    · exact hqp (Option.some.inj ((h.forked q k hc).symm.trans hpar))
    · obtain ⟨hfull, hown⟩ := h.cloner hshape hc hpar hqp
      exact hnot hfull hown
  | _ => exact hnot (by simp [Full, live, hstate]) hown

/-- The pass of `exit` changes no thread's parent and none's that is being
cloned. -/
theorem swept (h : Groups s) {ks : List Slot} (hs : Swept s p ks t) (hpc : (s.pc p).target = none)
    (hclone : ∀ q np, (s.pc q).clonedChild = some np → isChild s p np = true → np ∉ ks) :
    Groups t := by
  have hdir (k : Slot) : (t.proc k).pgdir = (s.proc k).pgdir := by rw [hs.kept k]
  have hmainOf (q : Slot) : mainOf t q = mainOf s q := by
    rw [mainOf, mainOf, hs.isThread q]
    split
    · next hth => exact hs.parent_thread hth
    · rfl
  refine h.keep (fun k hk hth => ?_) (fun k hk _ => ⟨hs.live_eq k ▸ hk, hdir k⟩)
    (fun k m _ _ _ hm hp => ⟨⟨(hs.live_eq m).trans hm.live, (hs.isThread m).trans hm.isThread⟩, ?_⟩)
    (fun _ m _ _ _ => hdir m) (fun q np hq => ?_) (fun q np hq => ?_) (fun q np hq => ?_)
    fun q hq => ?_
  · rw [hs.isThread k] at hth
    exact ⟨hs.full hk, hth, hs.parent_thread hth⟩
  · rw [← hp]
    exact passed_congr (by rw [hs.pc]) (hs.pid k)
  · rw [hs.pc] at hq
    refine ⟨hq, ?_⟩
    rw [hs.parent np, if_neg]
    rintro ⟨-, hc⟩
    obtain rfl : q = p := by
      simp only [isChild, Bool.and_eq_true, decide_eq_true_eq] at hc
      exact Option.some.inj ((h.forked q np hq).symm.trans hc.1)
    rw [(Pc.target_of_forkedChild hq).1] at hpc
    cases hpc
  · rw [hs.pc] at hq
    refine ⟨hq, ?_, hmainOf q⟩
    rw [hs.parent np, if_neg]
    rintro ⟨hmem, hc⟩
    exact hclone q np hq hc hmem
  · rw [hs.pc] at hq
    exact ⟨hq, hdir np, hdir q⟩
  · rw [hs.pc] at hq
    exact (hs.isThread q).trans (h.exits q hq)

/-- Entries change, and every process with threads stays alive in its address
space. -/
theorem entries (h : Groups s) (hpc : t.pc = s.pc)
    (hkept : ∀ k, (t.proc k).pid = (s.proc k).pid ∧ (t.proc k).parent = (s.proc k).parent ∧
      (t.proc k).isThread = (s.proc k).isThread)
    (hlive : ∀ k, live (t.proc k).state = true → live (s.proc k).state = true)
    (hfull : ∀ k, Full t k → Full s k)
    (hmain : ∀ k m, Full t k → ownThread s m k = true → live (s.proc m).state = true →
      live (t.proc m).state = true)
    (hdir : ∀ k m, live (t.proc k).state = true → ownThread s m k = true →
      (t.proc k).pgdir = (s.proc k).pgdir ∧ (t.proc m).pgdir = (s.proc m).pgdir)
    (hsharing : ∀ q np, (s.pc q).sharing = some np →
      (t.proc np).pgdir = (s.proc np).pgdir ∧ (t.proc q).pgdir = (s.proc q).pgdir) : Groups t := by
  have hthread {k : Slot} : (t.proc k).isThread = (s.proc k).isThread := (hkept k).2.2
  have hparent {k : Slot} : (t.proc k).parent = (s.proc k).parent := (hkept k).2.1
  refine h.keep (fun k hk hth => ⟨hfull k hk, hthread ▸ hth, hparent⟩) (fun k hk hth => ?_)
    (fun k m hk hth hpar hm hp => ⟨⟨?_, hthread.trans hm.isThread⟩, ?_⟩)
    (fun k m hk hth hpar => (hdir k m hk (ownThread_iff.mpr ⟨hthread ▸ hth, hpar⟩)).2)
    (fun q np hq => ⟨hpc ▸ hq, hparent⟩)
    (fun q np hq => ⟨hpc ▸ hq, hparent, mainOf_congr hparent hthread⟩)
    (fun q np hq => ⟨hpc ▸ hq, hsharing q np (hpc ▸ hq)⟩) fun q hq => ?_
  · obtain ⟨m, hm, -⟩ := h.main k (.inl (hlive k hk)) (hthread ▸ hth)
    exact ⟨hlive k hk, (hdir k m hk (ownThread_iff.mpr ⟨hthread ▸ hth, hm⟩)).1⟩
  · exact hmain k m hk (ownThread_iff.mpr ⟨hthread ▸ hth, hpar⟩) hm.live
  · rw [← hp]
    exact passed_congr (by rw [hpc]) (hkept k).1
  · exact hthread.trans (h.exits q (hpc ▸ hq))

/-- A process with no thread left becomes a zombie. -/
theorem zombie (h : Groups s) (hp : live (s.proc p).state = true)
    (hnone : ∀ k, Full s k → ownThread s p k = false) :
    Groups ((s.setState p .zombie).setPc p .dead) := by
  have hkept (k : Slot) : (s.setState p .zombie).proc k =
      { s.proc k with state := if k = p then .zombie else (s.proc k).state } := by
    rcases eq_or_ne k p with rfl | hk
    · simp [State.setState]
    · simp [State.setState, hk]
  have hother {k : Slot} (hk : k ≠ p) : (s.setState p .zombie).proc k = s.proc k := by
    simp [State.setState, hk]
  have hfull {k : Slot} (hk : Full (s.setState p .zombie) k) : Full s k := by
    rcases eq_or_ne k p with rfl | hkp
    · exact .inl hp
    · exact (full_congr (hother hkp)).mp hk
  have hu : Groups (s.setState p .zombie) := by
    refine h.entries rfl (fun k => by rw [hkept k]; exact ⟨rfl, rfl, rfl⟩) (fun k hk => ?_)
      (fun k => hfull) (fun k m hk hown hm => ?_)
      (fun k m _ _ => by rw [hkept k, hkept m]; exact ⟨rfl, rfl⟩)
      fun q np _ => by rw [hkept q, hkept np]; exact ⟨rfl, rfl⟩
    · rcases eq_or_ne k p with rfl | hkp
      · exact hp
      · rwa [hother hkp] at hk
    · rw [hother, hm]
      rintro rfl
      rw [hnone k (hfull hk)] at hown
      cases hown
  exact hu.goto rfl (fun _ _ _ _ => passed_eq_false (by simp [Pc.exiting]))
    fun he => Bool.noConfusion he

/-- The rest of the pass of `exit`. -/
theorem exitFrom (h : Groups s) (hshape : Shape s) {ks : List Slot}
    (hp : (s.proc p).state = .running) (hpc : (s.pc p).target = none)
    (hsorted : ks.Pairwise (· < ·)) (hks : ∀ k, Full s k → ownThread s p k = true → k ∈ ks)
    (ht : Exits s p ks t) (hstray : NoStrayClone t) : Groups t := by
  -- a thread that clones an entry which the pass would take for a child
  have hcloner {q np : Slot} (hq : (s.pc q).clonedChild = some np) (hc : isChild s p np = true) :
      q ≠ p ∧ Full s q ∧ ownThread s p q = true := by
    have hqp : q ≠ p := by
      rintro rfl
      rw [Pc.target_of_cloned (Pc.cloned_of_clonedChild hq)] at hpc
      cases hpc
    have hpar : (s.proc np).parent = some p := by
      simp only [isChild, Bool.and_eq_true, decide_eq_true_eq] at hc
      exact hc.1
    exact ⟨hqp, h.cloner hshape hq hpar hqp⟩
  cases ht with
  | @drop u pre post k hu hsplit hk =>
    rw [hsplit] at hsorted hks
    obtain ⟨-, hpost, hpre⟩ := List.pairwise_append.mp hsorted
    have hgu : Groups u := by
      refine h.swept hu hpc fun q np hq hc hmem => ?_
      obtain ⟨hqp, -, hown⟩ := hcloner hq hc
      obtain ⟨hth, hpar⟩ := ownThread_iff.mp hown
      have hpassed : passed (u.setPc p (.exitKill k)) p np = false :=
        hstray.passed (p := q) (by simp [hqp, hu.pc, Pc.cloned_of_clonedChild hq])
          ((hu.isThread q).trans hth) ((hu.parent_thread hth).trans hpar)
      simp [passed, hpre np hmem k List.mem_cons_self] at hpassed
    refine hgu.goto rfl (fun j hj hown _ => ?_) fun _ => ?_
    · have hmem := hks j (hu.full hj) (hu.ownThread ▸ hown)
      have hle : k ≤ j := by
        rcases List.mem_append.mp hmem with hj | hj
        · have := hu.own j hj
          rw [← hu.ownThread, hown] at this
          cases this
        · rcases List.mem_cons.mp hj with rfl | hj
          · exact le_refl j
          · exact le_of_lt ((List.pairwise_cons.mp hpost).1 j hj)
      simpa [passed] using hle
    · rw [hu.isThread p, ← Bool.not_eq_true]
      intro hth
      have hnot : ¬Main s p := fun hm => by
        rw [hm.isThread] at hth
        cases hth
      rw [hu.ownThread, h.ownThread_eq_false hshape hpc hnot] at hk
      cases hk
  | @done u hu =>
    have hgu : Groups u := h.swept hu hpc fun q np hq hc _ => by
      obtain ⟨-, hfull, hown⟩ := hcloner hq hc
      rw [hu.own q (hks q hfull hown)] at hown
      cases hown
    have hcalm := wakeup1_calm u (chanOf (u.proc p).parent)
    refine (hgu.calm hcalm).zombie ?_ fun k hk => ?_
    · rw [hcalm.live_eq, hu.live_eq, hp]
      rfl
    · rw [hcalm.ownThread, hu.ownThread, ← Bool.not_eq_true]
      intro hown
      rw [hu.own k (hks k (hu.full (hcalm.full.mp hk)) hown)] at hown
      cases hown

-- ---------------------------------------------------------------------------
-- Waiting
-- ---------------------------------------------------------------------------

theorem sleep (h : Groups s) {chan : Chan} (hp : live (s.proc p).state = true) :
    Groups (sleep s p chan) := by
  have hkept (k : Slot) : (Ptable.sleep s p chan).proc k = { s.proc k with
      state := ((Ptable.sleep s p chan).proc k).state
      chan := ((Ptable.sleep s p chan).proc k).chan } := by
    rcases eq_or_ne k p with rfl | hk
    · simp [Ptable.sleep]
    · simp [Ptable.sleep, hk]
  have hlive (k : Slot) : live ((Ptable.sleep s p chan).proc k).state = live (s.proc k).state := by
    rcases eq_or_ne k p with rfl | hk
    · rw [hp]
      simp [Ptable.sleep, live]
    · simp [Ptable.sleep, hk]
  refine h.entries rfl (fun k => ?_) (fun k hk => hlive k ▸ hk) (fun k hk => ?_)
    (fun k m _ _ hm => (hlive m).trans hm) (fun k m _ _ => ?_) fun q np _ => ?_
  · rw [hkept k]
    exact ⟨rfl, rfl, rfl⟩
  · refine hk.imp (fun hl => hlive k ▸ hl) fun hz => ?_
    rcases eq_or_ne k p with rfl | hk
    · simp [Ptable.sleep] at hz
    · simpa [Ptable.sleep, hk] using hz
  · rw [hkept k, hkept m]
    exact ⟨rfl, rfl⟩
  · rw [hkept q, hkept np]
    exact ⟨rfl, rfl⟩

/-- In `exit` a turn of `proc_join` takes the pass on when the thread in its
slot has been reaped. -/
theorem turned (h : Groups s) (hshape : Shape s) {w : Wait} (hp : (s.proc p).state = .running)
    (hpc : s.pc p = w.start ∨ s.pc p = w.asleep) (hjoin : JoinsThrough s p) (ht : Turned s p w t) :
    Groups t := by
  have hexit {c : Pc} (hc : c = w.done ∨ c = w.asleep) (he : c.exiting = true) :
      (s.proc p).isThread = false := by
    refine h.exits p ?_
    cases w with
    | dying i pid => rcases hpc with hpc | hpc <;> rw [hpc] <;> rfl
    | _ => rcases hc with rfl | rfl <;> cases he
  -- after a turn that does not sleep, what the pass has gone by besides
  have hpassed {u : State} (hu : Groups u) (hupc : u.pc = s.pc)
      (hlooks : ∀ i pid, w = .dying i pid → ∀ k, Full u k → ownThread u p k = true →
        (u.proc k).pid = pid → k ≠ i) (k : Slot) (hk : Full u k) (hown : ownThread u p k = true)
      (hpass : passed u p k = false) : passed (u.setPc p w.done) p k = false := by
    cases w with
    | dying i pid =>
      have hpass : (k < i || k = i && (u.proc k).pid ≠ pid) = false := by
        rw [← hupc] at hpc
        rcases hpc with hpc | hpc <;> simpa [passed, hpc, Wait.start, Wait.asleep] using hpass
      simp only [Bool.or_eq_false_iff, decide_eq_false_iff_not, Bool.and_eq_false_iff,
        not_not] at hpass
      have hne : k ≠ i := hpass.2.elim id fun hpid => hlooks i pid rfl k hk hown hpid
      have hlt : i < k := lt_of_le_of_ne (not_lt.mp hpass.1) hne.symm
      simpa [passed, Wait.done] using hlt
    | _ => exact passed_eq_false (by simp [Wait.done, Pc.exiting])
  have hjoins {i : Slot} {pid : Pid} (hw : w = .dying i pid) :
      (i, pid) ∈ (s.pc p).joinsFor := by
    subst hw
    rcases hpc with hpc | hpc <;> rw [hpc] <;> rfl
  cases ht with
  | @reap k hk hz =>
    have hu := h.reap hshape w.call hz
    refine hu.goto w.target_done (hpassed hu (reap_pc ..) fun i pid hw j hj _ _ => ?_) fun he => ?_
    · subst hw
      obtain ⟨rfl, -⟩ := hjoin _ (hjoins rfl) k hk
      rintro rfl
      simp [Full, live, Proc.reaped] at hj
    · have hpk : p ≠ k := by
        rintro rfl
        rw [hp] at hz
        cases hz
      simpa [hpk] using hexit (.inl rfl) he
  | fail hz hf =>
    refine h.goto w.target_done (hpassed h rfl fun i pid hw k _ hown hpid => ?_) fun he =>
      hexit (.inl rfl) he
    subst hw
    obtain ⟨hth, hpar⟩ := ownThread_iff.mp hown
    have hlook : isJoinable s p pid k = true := by simp [isJoinable, hth, hpar, hpid]
    rcases hf with hf | hkilled
    · have := hf k
      rw [Wait.looksAt, hlook] at this
      cases this
    · exact absurd ((hjoin _ (hjoins rfl) k hlook).2 hkilled) (hz k hlook)
  | sleep =>
    refine (h.sleep (live_of_running hp)).goto w.target_asleep (fun k _ _ hpass => ?_) fun he => ?_
    · cases w with
      | dying i pid =>
        have hpcs : (Ptable.sleep s p (.proc p)).pc = s.pc := rfl
        rcases hpc with hpc | hpc <;>
          simp only [passed, hpcs, hpc, Wait.asleep, Wait.start, State.setPc_pc, State.setPc_proc,
            if_true] at hpass ⊢ <;>
          exact hpass
      | _ => exact passed_eq_false (by simp [Wait.asleep, Pc.exiting])
    · simpa [Ptable.sleep] using hexit (.inr rfl) he

-- ---------------------------------------------------------------------------
-- Every step
-- ---------------------------------------------------------------------------

theorem create (h : Groups s) (hshape : Shape s) {c : Pc} (hp : (s.proc p).state = .running)
    (hnp : (s.proc np).state = .unused) (hc : c = .forking np .kstack ∨ c = .cloning np .kstack) :
    Groups (({ s.set np { s.proc np with state := .embryo, pid := s.nextpid } with
      nextpid := s.nextpid + 1 } : State).setPc p c) := by
  have hblank : c.blank = some np := by rcases hc with rfl | rfl <;> rfl
  exact h.blank hshape (create_filled hshape hp hnp (Pc.target_of_blank hblank))
    (not_full_embryo (.inl (by simp))) (.inl (by simpa using hblank))

/-- `exec` by a process whose threads are zombies. -/
theorem commit (h : Groups s) (hshape : Shape s) {pg : Page} {sz : BitVec 32}
    (hp : (s.proc p).state = .running) (hpc : s.pc p = .user) (halone : ExecAlone s p) :
    Groups (commit s p pg sz) := by
  have hkept (k : Slot) : (Ptable.commit s p pg sz).proc k = { s.proc k with
      pgdir := ((Ptable.commit s p pg sz).proc k).pgdir
      sz := ((Ptable.commit s p pg sz).proc k).sz } := by
    rcases eq_or_ne k p with rfl | hk
    · simp [Ptable.commit]
    · simp [Ptable.commit, hk]
  have hother {k : Slot} (hk : k ≠ p) :
      ((Ptable.commit s p pg sz).proc k).pgdir = (s.proc k).pgdir := by simp [Ptable.commit, hk]
  refine h.entries rfl (fun k => by rw [hkept k]; exact ⟨rfl, rfl, rfl⟩)
    (fun k hk => by rwa [hkept k] at hk) (fun k hk => by rwa [Full, hkept k] at hk)
    (fun k m _ _ hm => by rwa [hkept m]) (fun k m hk hown => ?_) fun q np hq => ?_
  · rw [hkept k] at hk
    have hkp : k ≠ p := by
      rintro rfl
      rw [ownThread_iff, halone.1] at hown
      cases hown.1
    refine ⟨hother hkp, hother ?_⟩
    rintro rfl
    rw [halone.2 k hown] at hk
    cases hk
  · have htarget := Pc.target_of_cloned (Pc.cloned_of_clonedChild (Pc.clonedChild_of_sharing hq))
    refine ⟨hother ?_, hother ?_⟩ <;> rintro rfl
    · have := (hshape.embryo np).mpr ⟨q, htarget⟩
      rw [hp] at this
      cases this
    · rw [hpc] at hq
      cases hq

theorem resize (h : Groups s) {sz : BitVec 32} : Groups (resize s p sz) := by
  have hkept (k : Slot) := resize_kept s p k sz
  refine h.entries rfl (fun k => by rw [hkept k]; exact ⟨rfl, rfl, rfl⟩)
    (fun k hk => by rwa [hkept k] at hk) (fun k hk => by rwa [Full, hkept k] at hk)
    (fun k m _ _ hm => by rwa [hkept m]) (fun k m _ _ => by rw [hkept k, hkept m]; exact ⟨rfl, rfl⟩)
    fun q np _ => by rw [hkept q, hkept np]; exact ⟨rfl, rfl⟩

theorem move {l : Label} (h : Groups s) (hshape : Shape s) (hst : NoStrayClone s)
    (ht : NoStrayClone t) (hjoins : ∀ p, l.runs p → JoinsThrough s p) (hexec : ExecsAlone s l)
    (hm : Move s l t) : Groups t := by
  cases hm with
  | calm hc => exact h.calm hc
  | create hp _ hnp hc => exact h.create hshape hp hnp (hc.imp_left And.left)
  | fork hp hpc hs => exact h.forkStep hshape (live_of_running hp) hpc hs
  | clone hp hpc hs => exact h.cloneStep hshape (live_of_running hp) hpc hst hs
  | @turn l p w u _ hruns hp hpc _ hcalm hpcs hkilled hturn =>
    refine (h.calm hcalm).turned (hshape.calm hcalm) hp (by rwa [hpcs]) (fun x hx k hk => ?_) hturn
    rw [hpcs] at hx
    obtain ⟨hkx, hz⟩ := hjoins p hruns x hx k (hcalm.isJoinable ▸ hk)
    refine ⟨hkx, fun hd => ?_⟩
    rw [hcalm.state_eq, hz (hkilled ▸ hd)]
    rw [hcalm.live_eq, hz (hkilled ▸ hd)]
    rfl
  | @advance l p c u hp hpc hcalm hpcs =>
    have hexiting : (s.pc p).exiting = true ∧ c.target = none := by
      generalize s.pc p = c' at hpc
      cases hpc <;> exact ⟨rfl, rfl⟩
    refine (h.calm hcalm).goto hexiting.2 (fun k _ _ hpass => ?_) fun _ =>
      (hcalm.isThread p).trans (h.exits p hexiting.1)
    rw [hpc.passed hcalm hpcs, hpass]
  | exit hp hpc hinit hx =>
    refine h.exitFrom hshape hp (by rw [hpc]; rfl) (List.pairwise_lt_finRange _)
      (fun k _ _ => mem_slots k) hx ht
  | @resume l p i u _ hp hpc hcalm hpcs hx =>
    refine (h.calm hcalm).exitFrom (hshape.calm hcalm) hp (by rw [hpcs, hpc]; rfl)
      ((List.pairwise_lt_finRange _).filter _) (fun k hk hown => ?_) hx ht
    obtain ⟨hth, hpar⟩ := ownThread_iff.mp hown
    have hpass := ((h.calm hcalm).parent hk hth hpar).2
    simpa [passed, hpcs, hpc] using hpass
  | @commit p pg sz hp hpc hpg => exact h.commit hshape hp hpc (hexec hpg)
  | resize => exact h.resize

end Groups

theorem userinit_groups {kstack pgdir : Page} :
    NoStrayClone (userinit kstack pgdir) ∧ Groups (userinit kstack pgdir) := by
  have hpc (k : Slot) : (userinit kstack pgdir).pc k = .user ∨ (userinit kstack pgdir).pc k = .dead := by
    rcases eq_or_ne k initproc with rfl | hk
    · exact .inl (by simp [userinit])
    · exact .inr (by simp [userinit, hk])
  have hth (k : Slot) : ((userinit kstack pgdir).proc k).isThread = false := by
    rcases eq_or_ne k initproc with rfl | hk
    · simp [userinit]
    · simp [userinit, hk, bss]
  have hnot {k : Slot} {P : Prop} (h : ((userinit kstack pgdir).proc k).isThread = true) : P := by
    rw [hth k] at h
    cases h
  have hnone {f : Pc → Option Slot} (hu : f .user = none) (hd : f .dead = none) {k np : Slot}
      {P : Prop} (h : f ((userinit kstack pgdir).pc k) = some np) : P := by
    rcases hpc k with e | e
    · rw [e, hu] at h
      cases h
    · rw [e, hd] at h
      cases h
  exact ⟨fun k => by rw [straysInto, hth k]; split <;> trivial, fun k _ h => hnot h, fun k m _ h => hnot h,
    fun k np h => hnone rfl rfl h, fun k np h => hnone rfl rfl h, fun k np h => hnone rfl rfl h,
    fun k _ => hth k⟩

/-- Under the conditions the groups are in order in every state reached. -/
theorem reachable_groups (h : (kernel.restrict Grouped).Reachable s) :
    Pages s ∧ NoStrayClone s ∧ Groups s := by
  refine h.invariant (P := fun s => Pages s ∧ NoStrayClone s ∧ Groups s) (fun s hs => ?_)
    fun s l t hr hs hst => ?_
  · obtain ⟨kstack, pgdir, -, hpgdir, hne, rfl⟩ := hs
    exact ⟨userinit_pages hpgdir hne, userinit_groups⟩
  · obtain ⟨hst, hstray, hjoins, hexec⟩ := hst
    obtain ⟨hpages, hs, hgroups⟩ := hs
    have hshape := reachable_shape hr.of_restrict
    have hm := next_move hst
    have hmain : MainExec s l := by
      cases l with
      | run p a =>
        cases a with
        | exec pg sz => exact fun hpg => (hexec hpg).1
        | _ => trivial
      | _ => trivial
    exact ⟨hpages.move hshape hmain hm, hstray t hst,
      hgroups.move hshape hs (hstray t hst) hjoins hexec hm⟩

end PerrOS.Ptable
