import PerrOS.Ptable.Lifetime

/-!
# The size of a thread group

`growproc` knows the group of its caller from the parents and the `isThread`
flags of the table. It is right about the group unless the caller is no thread
and its parent has threads, which the third comparison takes for the caller's
siblings, or an entry of the group is being filled in.
-/

namespace PerrOS.Ptable

open Lib (System)
open Xv6 (Slot slots mem_slots)

variable {s t u : State} {p q np k m : Slot} {l : Label}

/-- A process fills in an entry whose parent it has assigned, but not
`isThread`. -/
def Pc.untagged : Pc → Bool
  | .forking _ .isThread | .cloning _ .sz | .cloning _ .pgdir | .cloning _ .isThread => true
  | _ => false

theorem Pc.eq_of_forkedChild {c : Pc} (h : c.forkedChild = some np) (htag : c.untagged = false) :
    c = .forking np .state := by
  cases c with
  | forking _ next => cases next <;> simp_all [Pc.forkedChild, Pc.untagged]
  | _ => cases h

theorem Pc.eq_of_clonedChild {c : Pc} (h : c.clonedChild = some np) (htag : c.untagged = false) :
    c = .cloning np .state := by
  cases c with
  | cloning _ next => cases next <;> simp_all [Pc.clonedChild, Pc.untagged]
  | _ => cases h

/-- The third comparison of `growproc` finds nothing unless the caller is a
thread, and no process of the group is filling in an entry that it takes for
what the entry was before. -/
def GrowsOwn (s : State) (p : Slot) : Prop :=
  ((s.proc p).isThread = false → ∀ k, sibling s p k = false) ∧
    ∀ q, mainOf s q = mainOf s p → (s.pc q).untagged = false

instance (s : State) (p : Slot) : Decidable (GrowsOwn s p) := inferInstanceAs (Decidable (_ ∧ _))

/-- `exec` is left to processes without threads. -/
def Sized (s : State) (l : Label) : Prop :=
  Grouped s l ∧ match l with
    | .run p (.growproc _ _) => GrowsOwn s p
    | .run p (.exec pg _) => pg ≠ 0 → ∀ k, ownThread s p k = false
    | _ => True

instance (s : State) (l : Label) : Decidable (Sized s l) :=
  match l with
  | .run _ (.growproc _ _) => inferInstanceAs (Decidable (_ ∧ _))
  | .run _ (.exec _ _) => inferInstanceAs (Decidable (_ ∧ (_ → _)))
  | .run _ .yield | .run _ (.sleep _) | .run _ .fork | .run _ (.clone _) | .run _ .exit
  | .run _ (.kill _) | .run _ .wait | .run _ (.join _) | .run _ (.step _) | .dispatch _
  | .wakeup _ => inferInstanceAs (Decidable (_ ∧ True))

/-- Processes that share a page directory have one size, and `growproc` sets it
for them only. -/
structure SizesAgree (sys : System State Label) (s : State) : Prop where
  same : ∀ j k, Full s j → Full s k → (s.proc j).pgdir = (s.proc k).pgdir →
    (s.proc j).sz = (s.proc k).sz
  growproc : ∀ p n mem t, sys.step s (.run p (.growproc n mem)) t →
    ∀ k, (t.proc k).sz ≠ (s.proc k).sz → (s.proc k).pgdir = (s.proc p).pgdir

-- ---------------------------------------------------------------------------
-- The invariant
-- ---------------------------------------------------------------------------

/-- The entry to which `proc_clone` has assigned the size. -/
def Pc.sized : Pc → Option Slot
  | .cloning np .pgdir | .cloning np .isThread | .cloning np .state => some np
  | _ => none

theorem Pc.clonedChild_of_sized {c : Pc} (h : c.sized = some np) : c.clonedChild = some np := by
  cases c with
  | cloning _ next => cases next <;> simp_all [Pc.clonedChild, Pc.sized]
  | _ => cases h

theorem Pc.sized_of_blank {c : Pc} (h : c.blank = some np) : c.sized = none := by
  cases c with
  | cloning _ next =>
    cases next with
    | kstack | parent => rfl
    | _ => cases h
  | _ => rfl

theorem Pc.target_of_sized {c : Pc} (h : c.sized = some np) : c.target = some np :=
  Pc.target_of_cloned (Pc.cloned_of_clonedChild (Pc.clonedChild_of_sized h))

structure Sizes (s : State) : Prop where
  thread : ∀ k m, Full s k → ownThread s m k = true →
    (s.proc k).sz = (s.proc m).sz ∧ (s.proc k).pgdir = (s.proc m).pgdir
  sized : ∀ p np, (s.pc p).sized = some np → (s.proc np).sz = (s.proc p).sz

namespace Sizes

/-- No size and no page directory changes, and no thread appears. -/
theorem idle (h : Sizes s)
    (hkept : ∀ k, (t.proc k).sz = (s.proc k).sz ∧ (t.proc k).pgdir = (s.proc k).pgdir)
    (hthread : ∀ k m, Full t k → ownThread t m k = true → Full s k ∧ ownThread s m k = true)
    (hsized : ∀ q np, (t.pc q).sized = some np → (s.pc q).sized = some np) : Sizes t where
  thread k m hk hown := by
    obtain ⟨hks, howns⟩ := hthread k m hk hown
    rw [(hkept k).1, (hkept k).2, (hkept m).1, (hkept m).2]
    exact h.thread k m hks howns
  sized q np hq := by
    rw [(hkept np).1, (hkept q).1]
    exact h.sized q np (hsized q np hq)

theorem calm (h : Sizes s) (hc : Calm s t) : Sizes t :=
  h.idle (fun k => ⟨hc.sz k, hc.pgdir k⟩)
    (fun _ _ hk hown => ⟨hc.full.mp hk, hc.ownThread ▸ hown⟩)
    fun q _ hq => hc.read (f := Pc.sized) rfl q ▸ hq

theorem goto (h : Sizes s) {c : Pc} (hc : c.target = none) : Sizes (s.setPc p c) := by
  refine h.idle (fun _ => ⟨rfl, rfl⟩) (fun k m hk hown => ⟨hk, hown⟩) fun q np hq => ?_
  rcases eq_or_ne q p with rfl | hqp
  · rw [State.setPc_pc, if_pos rfl] at hq
    rw [Pc.target_of_sized hq] at hc
    cases hc
  · rwa [State.setPc_pc, if_neg hqp] at hq

theorem reap (h : Sizes s) {call : Reaper} : Sizes (reap s call k) := by
  refine h.idle (fun j => ?_) (fun j m hj hown => ?_) fun q np hq => by rwa [reap_pc] at hq
  · rcases eq_or_ne j k with rfl | hjk
    · simp [Proc.reaped]
    · simp [hjk]
  · have hjk : j ≠ k := by
      rintro rfl
      simp [Full, live, Proc.reaped] at hj
    have he : (Ptable.reap s call k).proc j = s.proc j := by simp [hjk]
    exact ⟨(full_congr he).mp hj, by simpa [ownThread, hjk] using hown⟩

theorem sleep (h : Sizes s) {chan : Chan} (hp : live (s.proc p).state = true) :
    Sizes (sleep s p chan) := by
  refine h.idle (fun k => ?_) (fun k m hk hown => ?_) fun _ _ hq => hq
  · rcases eq_or_ne k p with rfl | hkp
    · simp [Ptable.sleep]
    · simp [Ptable.sleep, hkp]
  · rcases eq_or_ne k p with rfl | hkp
    · exact ⟨.inl hp, by simpa [ownThread, Ptable.sleep] using hown⟩
    · have he : (Ptable.sleep s p chan).proc k = s.proc k := by simp [Ptable.sleep, hkp]
      exact ⟨(full_congr he).mp hk, by rwa [ownThread, he] at hown⟩

theorem exits (h : Sizes s) {ks : List Slot} (hp : (s.proc p).state = .running)
    (ht : Exits s p ks t) : Sizes t := by
  have swept {ks : List Slot} {u : State} (hs : Swept s p ks u) : Sizes u :=
    h.idle (fun k => by rw [hs.kept k]; exact ⟨rfl, rfl⟩)
      (fun _ _ hk hown => ⟨hs.full hk, hs.ownThread ▸ hown⟩) fun _ _ hq => hs.pc ▸ hq
  cases ht with
  | drop hu => exact (swept hu).goto rfl
  | @done u hu =>
    have hcalm := wakeup1_calm u (chanOf (u.proc p).parent)
    have hlive : live ((wakeup1 u (chanOf (u.proc p).parent)).proc p).state = true := by
      rw [hcalm.live_eq, hu.live_eq, hp]
      rfl
    have hz : Sizes ((wakeup1 u (chanOf (u.proc p).parent)).setState p .zombie) := by
      refine ((swept hu).calm hcalm).idle (fun k => ?_) (fun k m hk hown => ?_) fun _ _ hq => hq
      · rcases eq_or_ne k p with rfl | hkp
        · simp [State.setState]
        · simp [State.setState, hkp]
      · rcases eq_or_ne k p with rfl | hkp
        · exact ⟨.inl hlive, by simpa [ownThread, State.setState] using hown⟩
        · exact ⟨(full_congr (by simp [State.setState, hkp])).mp hk,
            by simpa [ownThread, State.setState, hkp] using hown⟩
    exact hz.goto rfl

theorem turned (h : Sizes s) {w : Wait} (hp : (s.proc p).state = .running)
    (ht : Turned s p w t) : Sizes t := by
  cases ht with
  | reap => exact h.reap.goto w.target_done
  | fail => exact h.goto w.target_done
  | sleep => exact (h.sleep (live_of_running hp)).goto w.target_asleep

theorem filled (h : Sizes s) (hg : Groups s) (hshape : Shape s) (hf : Filled s t p np)
    (hthread : Full t np → ∀ m, ownThread t m np = true → Main s m ∧
      (t.proc np).sz = (s.proc m).sz ∧ (t.proc np).pgdir = (s.proc m).pgdir)
    (hsized : (t.pc p).sized = some np → (t.proc np).sz = (s.proc p).sz) : Sizes t := by
  refine ⟨fun k m hk hown => ?_, fun q x hq => ?_⟩
  · rcases eq_or_ne k np with rfl | hknp
    · obtain ⟨hm, hsame⟩ := hthread hk m hown
      rwa [hf.main hm]
    · have he := hf.proc k hknp
      have hks := (full_congr he).mp hk
      have howns : ownThread s m k = true := by rwa [ownThread, he] at hown
      obtain ⟨hth, hpar⟩ := ownThread_iff.mp howns
      rw [he, hf.main (hg.parent hks hth hpar).1]
      exact h.thread k m hks howns
  · have htarget := Pc.target_of_sized hq
    rcases eq_or_ne q p with rfl | hqp
    · obtain rfl := hf.own htarget
      rw [hsized hq, hf.proc q hf.ne]
    · obtain ⟨hpc, hx, hq'⟩ := hf.other hshape hqp htarget
      rw [hx, hq']
      exact h.sized q x (hpc ▸ hq)

section
variable (h : Sizes s) (hg : Groups s) (hshape : Shape s)
include h hg hshape

theorem allocStack (hp : live (s.proc p).state = true) (htarget : (s.pc p).target = some np)
    {kind : Kind} {pg : Page} {c : Pc} (hc : c.blank = some np)
    (hs : Ptable.allocStack s p kind np pg c = some t) : Sizes t := by
  have hembryo := (hshape.embryo np).mpr ⟨p, htarget⟩
  have hf := (allocStack_written hembryo (Pc.target_of_blank hc) hs).filled hshape hp htarget
  rcases ite_eq_some.mp hs with ⟨-, hs⟩ | ⟨-, hs⟩
  case inr => cases hs
  rcases ite_eq_some.mp hs with ⟨-, hs⟩ | ⟨-, hs⟩
  · obtain rfl := Option.some.inj hs
    exact h.filled hg hshape hf (fun hfull => absurd hfull (not_full_embryo (.inr (by simp))))
      (by simp [Pc.sized])
  · obtain rfl := Option.some.inj hs
    exact h.filled hg hshape hf (fun hfull => absurd hfull (not_full_embryo (.inl (by simp [hembryo]))))
      (by simp [Pc.sized_of_blank hc])

theorem forkStep {pg : Page} {next : ForkStage} (hp : live (s.proc p).state = true)
    (hpc : s.pc p = .forking np next) (hs : Ptable.forkStep s p np pg next = some t) : Sizes t := by
  have htarget : (s.pc p).target = some np := by rw [hpc]; rfl
  have hembryo := (hshape.embryo np).mpr ⟨p, htarget⟩
  have hf := (forkStep_written hembryo hs).filled hshape hp htarget
  cases next with
  | kstack => exact h.allocStack hg hshape hp htarget rfl hs
  | pgdir =>
    rcases ite_eq_some.mp hs with ⟨-, hs⟩ | ⟨-, hs⟩
    case inr => cases hs
    rcases ite_eq_some.mp hs with ⟨-, hs⟩ | ⟨-, hs⟩
    · obtain rfl := Option.some.inj hs
      exact h.filled hg hshape hf (fun hfull => absurd hfull (not_full_embryo (.inr (by simp))))
        (by simp [Pc.sized])
    · obtain rfl := Option.some.inj hs
      exact h.filled hg hshape hf
        (fun hfull => absurd hfull (not_full_embryo (.inl (by simp [hembryo])))) (by simp [Pc.sized])
  | sz | parent | isThread =>
    obtain rfl := Option.some.inj hs
    exact h.filled hg hshape hf
      (fun hfull => absurd hfull (not_full_embryo (.inl (by simp [hembryo])))) (by simp [Pc.sized])
  | state =>
    obtain rfl := Option.some.inj hs
    have hth := hshape.flag p np false (by rw [hpc]; rfl)
    refine h.filled hg hshape hf (fun _ m hown => ?_) (by simp [publish, Pc.sized])
    simp [ownThread, publish, State.setState, hth] at hown

theorem cloneStep {pg : Page} {next : CloneStage} (hp : live (s.proc p).state = true)
    (hpc : s.pc p = .cloning np next) (hs : Ptable.cloneStep s p np pg next = some t) :
    Sizes t := by
  have htarget : (s.pc p).target = some np := by rw [hpc]; rfl
  have hembryo := (hshape.embryo np).mpr ⟨p, htarget⟩
  have hf := (cloneStep_written hembryo hs).filled hshape hp htarget
  cases next with
  | kstack => exact h.allocStack hg hshape hp htarget rfl hs
  | parent | sz | pgdir | isThread =>
    obtain rfl := Option.some.inj hs
    refine h.filled hg hshape hf
      (fun hfull => absurd hfull (not_full_embryo (.inl (by simp [hembryo])))) fun hq => ?_
    simp_all [h.sized p np, Pc.sized]
  | state =>
    obtain rfl := Option.some.inj hs
    refine h.filled hg hshape hf (fun _ m hown => ?_) (by simp [publish, Pc.sized])
    have hnew : (publish s p np).proc np = { s.proc np with state := .runnable } := by
      simp [publish, State.setState]
    have hpar : mainOf s p = some m := by
      rw [← hg.cloned p np (by rw [hpc]; rfl)]
      simpa [hnew] using (ownThread_iff.mp hown).2
    rw [hnew]
    dsimp only
    rw [h.sized p np (by rw [hpc]; rfl), hg.sharing p np (by rw [hpc]; rfl)]
    rw [mainOf] at hpar
    split at hpar
    · next hth =>
      exact ⟨(hg.parent (.inl hp) hth hpar).1, h.thread p m (.inl hp) (ownThread_iff.mpr ⟨hth, hpar⟩)⟩
    · next hth =>
      obtain rfl := Option.some.inj hpar
      exact ⟨⟨hp, by simpa using hth⟩, rfl, rfl⟩

end

/-- `exec` by a process without threads. -/
theorem commit (h : Sizes s) (hshape : Shape s) {pg : Page} {sz : BitVec 32}
    (hp : (s.proc p).state = .running) (hpc : s.pc p = .user)
    (hth : (s.proc p).isThread = false) (hnone : ∀ k, ownThread s p k = false) :
    Sizes (commit s p pg sz) := by
  have hother {k : Slot} (hk : k ≠ p) : (Ptable.commit s p pg sz).proc k = s.proc k := by
    simp [Ptable.commit, hk]
  refine ⟨fun k m hk hown => ?_, fun q np hq => ?_⟩
  · have hkp : k ≠ p := by
      rintro rfl
      simp [ownThread, Ptable.commit, hth] at hown
    have howns : ownThread s m k = true := by rwa [ownThread, hother hkp] at hown
    have hmp : m ≠ p := by
      rintro rfl
      rw [hnone k] at howns
      cases howns
    rw [hother hkp, hother hmp]
    exact h.thread k m ((full_congr (hother hkp)).mp hk) howns
  · have hnp : np ≠ p := by
      rintro rfl
      have := (hshape.embryo np).mpr ⟨q, Pc.target_of_sized hq⟩
      rw [hp] at this
      cases this
    have hqp : q ≠ p := by
      rintro rfl
      have : (s.pc q).sized = some np := hq
      rw [hpc] at this
      cases this
    rw [hother hnp, hother hqp]
    exact h.sized q np hq

end Sizes

-- ---------------------------------------------------------------------------
-- The group that `growproc` takes for its caller's
-- ---------------------------------------------------------------------------

theorem mainOf_thread (hk : (s.proc k).isThread = true) : mainOf s k = (s.proc k).parent :=
  if_pos hk

theorem mainOf_main (hk : (s.proc k).isThread = false) : mainOf s k = some k := by
  simp [mainOf, hk]

/-- What the comparisons of `growproc` find is a thread of the caller's process,
or that process. -/
theorem inGroup_cases (hgrow : GrowsOwn s p) (hk : inGroup s p k = true) :
    ((s.proc k).isThread = true ∧ (s.proc k).parent = some p) ∨
    ((s.proc p).isThread = true ∧ (s.proc p).parent = some k) ∨
    ((s.proc k).isThread = true ∧ (s.proc p).isThread = true ∧
      (s.proc k).parent = (s.proc p).parent) := by
  simp only [inGroup, Bool.or_eq_true, ownThread_iff, Bool.and_eq_true, decide_eq_true_eq] at hk
  rcases hk with (hown | ⟨hpar, hth⟩) | hsib
  · exact .inl hown
  · exact .inr (.inl ⟨hth, hpar⟩)
  · have hth : (s.proc p).isThread = true := by
      rw [← Bool.not_eq_false]
      intro hth
      rw [hgrow.1 hth k] at hsib
      cases hsib
    simp only [sibling, Bool.and_eq_true, decide_eq_true_eq] at hsib
    exact .inr (.inr ⟨hsib.1, hth, hsib.2⟩)

namespace Groups

/-- Of the processes, `growproc` finds the group of the caller. -/
theorem inGroup_iff (h : Groups s) (hp : live (s.proc p).state = true) (hgrow : GrowsOwn s p)
    (hk : Full s k) : k = p ∨ inGroup s p k = true ↔ mainOf s k = mainOf s p := by
  constructor
  · rintro (rfl | hgroup)
    · rfl
    · rcases inGroup_cases hgrow hgroup with ⟨hth, hpar⟩ | ⟨hth, hpar⟩ | ⟨hk, hth, hpar⟩
      · rw [mainOf_thread hth, hpar, mainOf_main (h.parent hk hth hpar).1.isThread]
      · rw [mainOf_thread hth, hpar, mainOf_main (h.parent (.inl hp) hth hpar).1.isThread]
      · rw [mainOf_thread hk, mainOf_thread hth, hpar]
  · intro he
    by_cases hth : (s.proc p).isThread = true <;> by_cases hkth : (s.proc k).isThread = true
    · rw [mainOf_thread hkth, mainOf_thread hth] at he
      simp [inGroup, sibling, hkth, he]
    · rw [mainOf_main (by simpa using hkth), mainOf_thread hth] at he
      simp [inGroup, hth, he]
    · rw [mainOf_thread hkth, mainOf_main (by simpa using hth)] at he
      simp [inGroup, ownThread, hkth, he]
    · rw [mainOf_main (by simpa using hkth), mainOf_main (by simpa using hth)] at he
      exact .inl (Option.some.inj he)

end Groups

/-- A process has the page directory of its group. -/
theorem Sizes.pgdir (h : Sizes s) (hk : Full s k) (hm : mainOf s k = some m) :
    (s.proc k).sz = (s.proc m).sz ∧ (s.proc k).pgdir = (s.proc m).pgdir := by
  rw [mainOf] at hm
  split at hm
  · next hth => exact h.thread k m hk (ownThread_iff.mpr ⟨hth, hm⟩)
  · obtain rfl := Option.some.inj hm
    exact ⟨rfl, rfl⟩

/-- An entry without a process is found where a process of the group is about to
publish it. -/
theorem inGroup_embryo (h : Groups s) (hshape : Shape s) (hp : live (s.proc p).state = true)
    (hpc : s.pc p = .user) (hgrow : GrowsOwn s p) (hnp : ¬Full s np)
    (hgroup : inGroup s p np = true) :
    ∃ q, s.pc q = .cloning np .state ∧ mainOf s q = mainOf s p := by
  have hpar : (s.proc np).isThread = true ∧
      ((s.proc np).parent = some p ∨ (s.proc p).isThread = true ∧
        (s.proc np).parent = (s.proc p).parent) := by
    rcases inGroup_cases hgrow hgroup with ⟨hth, hpar⟩ | ⟨hth, hpar⟩ | ⟨hk, hth, hpar⟩
    · exact ⟨hth, .inl hpar⟩
    · exact absurd (.inl (h.parent (.inl hp) hth hpar).1.live) hnp
    · exact ⟨hk, .inr ⟨hth, hpar⟩⟩
  obtain ⟨hth, hpar⟩ := hpar
  have hnone : (s.proc np).parent ≠ none := by
    rcases hpar with hpar | ⟨hpth, hpar⟩
    · rw [hpar]
      nofun
    · obtain ⟨m, hm, -⟩ := h.main p (.inl hp) hpth
      rw [hpar, hm]
      nofun
  cases hstate : (s.proc np).state with
  | unused => exact absurd (hshape.unused np hstate) hnone
  | embryo =>
    obtain ⟨q, hq⟩ := (hshape.embryo np).mp hstate
    rcases Pc.cases_child hq with hc | hc | hc
    · exact absurd (hshape.blank q np hc) hnone
    · have hmain := hshape.mainOnly q (Pc.target_of_forkedChild hc).2
      have hforked := h.forked q np hc
      have hqp : mainOf s q = mainOf s p := by
        rcases hpar with hpar | ⟨hpth, hpar⟩
        · obtain rfl := Option.some.inj (hforked.symm.trans hpar)
          rfl
        · rw [mainOf_main hmain, mainOf_thread hpth, ← hpar, hforked]
      have hstate := Pc.eq_of_forkedChild hc (hgrow.2 q hqp)
      rw [hshape.flag q np false (by rw [hstate]; rfl)] at hth
      cases hth
    · have hcloned := h.cloned q np hc
      have hqp : mainOf s q = mainOf s p := by
        rcases hpar with hpar | ⟨hpth, hpar⟩
        · have hne : q ≠ p := by
            rintro rfl
            rw [hpc] at hc
            cases hc
          obtain ⟨hq, hown⟩ := h.cloner hshape hc hpar hne
          obtain ⟨hqth, hqpar⟩ := ownThread_iff.mp hown
          rw [← hcloned, hpar, mainOf_main (h.parent hq hqth hqpar).1.isThread]
        · rw [← hcloned, hpar, mainOf_thread hpth]
      exact ⟨q, Pc.eq_of_clonedChild hc (hgrow.2 q hqp), hqp⟩
  | _ => exact absurd (by simp [Full, live, hstate]) hnp

theorem resize_sz {sz : BitVec 32} : ((resize s p sz).proc k).sz =
    if k = p ∨ inGroup s p k = true then sz else (s.proc k).sz := by
  simp only [resize, Bool.or_eq_true, decide_eq_true_eq]
  split <;> rfl

theorem resize_pgdir {sz : BitVec 32} : ((resize s p sz).proc k).pgdir = (s.proc k).pgdir := by
  rw [resize_kept]

/-- `growproc` sets one size for a group. -/
theorem Sizes.resize (h : Sizes s) (hg : Groups s) (hshape : Shape s) {sz : BitVec 32}
    (hp : live (s.proc p).state = true) (hpc : s.pc p = .user) (hgrow : GrowsOwn s p) :
    Sizes (resize s p sz) := by
  refine ⟨fun k m hk hown => ?_, fun q np hq => ?_⟩
  · rw [Full, resize_kept] at hk
    rw [ownThread, resize_kept] at hown
    obtain ⟨hth, hpar⟩ := ownThread_iff.mp hown
    have hm := (hg.parent hk hth hpar).1
    have hgroup : mainOf s k = mainOf s m := by
      rw [mainOf_thread hth, hpar, mainOf_main hm.isThread]
    simp only [resize_sz, resize_pgdir, hg.inGroup_iff hp hgrow hk,
      hg.inGroup_iff hp hgrow (.inl hm.live), hgroup]
    obtain ⟨hsz, hdir⟩ := h.thread k m hk hown
    exact ⟨by rw [hsz], hdir⟩
  · have hq : (s.pc q).sized = some np := hq
    have htarget := Pc.target_of_sized hq
    have hfull : Full s q := .inl <| by
      rw [← Bool.not_eq_false, ← hshape.dead q]
      intro hd
      rw [hd] at htarget
      cases htarget
    have hembryo := (hshape.embryo np).mpr ⟨q, htarget⟩
    have hgroup : np = p ∨ inGroup s p np = true ↔ mainOf s q = mainOf s p := by
      constructor
      · rintro (rfl | hnp)
        · rw [hembryo] at hp
          cases hp
        · obtain ⟨q', hq', hmain⟩ :=
            inGroup_embryo hg hshape hp hpc hgrow (not_full_embryo (.inl hembryo)) hnp
          rwa [hshape.unique q q' np htarget (by rw [hq']; rfl)]
      · intro hmain
        have hstate := Pc.eq_of_clonedChild (Pc.clonedChild_of_sized hq) (hgrow.2 q hmain)
        have hth := hshape.flag q np true (by rw [hstate]; rfl)
        have hpar := (hg.cloned q np (Pc.clonedChild_of_sized hq)).trans hmain
        rw [mainOf] at hpar
        split at hpar
        · simp [inGroup, sibling, hth, hpar]
        · simp [inGroup, ownThread, hth, hpar]
    simp only [resize_sz, hg.inGroup_iff hp hgrow hfull, hgroup, h.sized q np hq]

/-- `growproc` changes the size of entries with the caller's page directory
only. -/
theorem Sizes.resize_only (h : Sizes s) (hg : Groups s) (hshape : Shape s)
    (hp : live (s.proc p).state = true) (hpc : s.pc p = .user) (hgrow : GrowsOwn s p)
    (hk : k = p ∨ inGroup s p k = true) : (s.proc k).pgdir = (s.proc p).pgdir := by
  have hmain : ∃ m, mainOf s p = some m := by
    by_cases hth : (s.proc p).isThread = true
    · obtain ⟨m, hm, -⟩ := hg.main p (.inl hp) hth
      exact ⟨m, by rw [mainOf_thread hth, hm]⟩
    · exact ⟨p, mainOf_main (by simpa using hth)⟩
  obtain ⟨m, hm⟩ := hmain
  have same {j : Slot} (hj : Full s j) (he : mainOf s j = mainOf s p) :
      (s.proc j).pgdir = (s.proc p).pgdir := by
    rw [(h.pgdir hj (he.trans hm)).2, (h.pgdir (.inl hp) hm).2]
  by_cases hfull : Full s k
  · exact same hfull ((hg.inGroup_iff hp hgrow hfull).mp hk)
  · have hgroup := hk.resolve_left fun e => hfull (e ▸ .inl hp)
    obtain ⟨q, hq, hqp⟩ := inGroup_embryo hg hshape hp hpc hgrow hfull hgroup
    rw [hg.sharing q k (by rw [hq]; rfl)]
    refine same (.inl ?_) hqp
    rw [← Bool.not_eq_false, ← hshape.dead q, hq]
    nofun

-- ---------------------------------------------------------------------------
-- Every step
-- ---------------------------------------------------------------------------

theorem Sizes.move (h : Sizes s) (hg : Groups s) (hshape : Shape s) (hl : Sized s l)
    (hm : Move s l t) : Sizes t := by
  cases hm with
  | calm hc => exact h.calm hc
  | @create p np a c hp _ hnp hc =>
    have hblank : c.blank = some np := by rcases hc with ⟨rfl, -⟩ | rfl <;> rfl
    refine h.filled hg hshape (create_filled hshape hp hnp (Pc.target_of_blank hblank))
      (fun hf => absurd hf (not_full_embryo (.inl (by simp)))) fun hq => ?_
    rcases hc with ⟨rfl, -⟩ | rfl <;> simp [Pc.sized] at hq
  | fork hp hpc hs => exact h.forkStep hg hshape (live_of_running hp) hpc hs
  | clone hp hpc hs => exact h.cloneStep hg hshape (live_of_running hp) hpc hs
  | turn _ hp _ _ hcalm _ _ hturn => exact (h.calm hcalm).turned hp hturn
  | @advance l p c u _ hpc hcalm _ =>
    refine (h.calm hcalm).goto ?_
    generalize s.pc p = c' at hpc
    cases hpc <;> rfl
  | exit hp _ _ hx => exact h.exits hp hx
  | resume hp _ hcalm _ hx => exact (h.calm hcalm).exits hp hx
  | commit hp hpc hpg => exact h.commit hshape hp hpc (hl.1.2.2 hpg).1 (hl.2 hpg)
  | resize hp hpc => exact h.resize hg hshape (live_of_running hp) hpc hl.2

theorem userinit_sizes {kstack pgdir : Page} : Sizes (userinit kstack pgdir) where
  thread k m _ hown := by
    rcases eq_or_ne k initproc with rfl | hk
    · simp [ownThread, userinit] at hown
    · simp [ownThread, userinit, hk, bss] at hown
  sized p np hp := by
    rcases eq_or_ne p initproc with rfl | hne
    · simp [userinit, Pc.sized] at hp
    · simp [userinit, hne, Pc.sized] at hp

/-- Two processes with one page directory are of one group. -/
theorem Sizes.same (h : Sizes s) (hg : Groups s) (hpages : Pages s) {j : Slot} (hj : Full s j)
    (hk : Full s k) (he : (s.proc j).pgdir = (s.proc k).pgdir) : (s.proc j).sz = (s.proc k).sz := by
  have main {i : Slot} (hi : Full s i) : ∃ m, mainOf s i = some m ∧ HasDir s m := by
    by_cases hth : (s.proc i).isThread = true
    · obtain ⟨m, hm, hmain, -⟩ := hg.main i hi hth
      exact ⟨m, by rw [mainOf_thread hth, hm], .inl ⟨.inl hmain.live, hmain.isThread⟩⟩
    · have hth : (s.proc i).isThread = false := by simpa using hth
      exact ⟨i, mainOf_main hth, .inl ⟨hi, hth⟩⟩
  obtain ⟨m, hm, hmdir⟩ := main hj
  obtain ⟨n, hn, hndir⟩ := main hk
  obtain ⟨hjsz, hjdir⟩ := h.pgdir hj hm
  obtain ⟨hksz, hkdir⟩ := h.pgdir hk hn
  obtain rfl := hpages.dir_inj hmdir hndir (by rw [← hjdir, ← hkdir, he])
  rw [hjsz, hksz]

theorem next_growproc {n : BitVec 32} {mem : Bool}
    (h : next s (.run p (.growproc n mem)) = some t) :
    (s.proc p).state = .running ∧ s.pc p = .user ∧ t = growproc s p n mem := by
  obtain ⟨hp, h⟩ := Option.ite_none_right_eq_some.mp h
  cases hpc : s.pc p with
  | user =>
    rw [hpc] at h
    exact ⟨hp, rfl, (locked_eq_some.mp h).2.symm⟩
  | _ =>
    rw [hpc] at h
    cases h

theorem sizes_agree (h : (kernel.restrict Sized).Reachable s) :
    SizesAgree (kernel.restrict Sized) s := by
  have grouped {s : State} (h : (kernel.restrict Sized).Reachable s) :
      Shape s ∧ Pages s ∧ Groups s := by
    obtain ⟨ls, hrun⟩ := h
    obtain ⟨hpages, -, hg⟩ :=
      reachable_groups ⟨ls, hrun.restrict_mono  fun _ _ hl => hl.1⟩
    exact ⟨reachable_shape ⟨ls, hrun.of_restrict⟩, hpages, hg⟩
  have hsizes : Sizes s := by
    refine h.invariant (fun s hs => ?_) fun s l t hr hs hst => ?_
    · obtain ⟨kstack, pgdir, -, -, -, rfl⟩ := hs
      exact userinit_sizes
    · obtain ⟨hshape, -, hg⟩ := grouped hr
      exact hs.move hg hshape hst.2 (next_move hst.1)
  obtain ⟨hshape, hpages, hg⟩ := grouped h
  refine ⟨fun j k hj hk => hsizes.same hg hpages hj hk, fun p n mem t hst k hk => ?_⟩
  obtain ⟨hp, hpc, rfl⟩ := next_growproc hst.1
  unfold growproc at hk
  split at hk
  · exact absurd rfl hk
  · rw [resize_sz] at hk
    refine hsizes.resize_only hg hshape (live_of_running hp) hpc hst.2.2 ?_
    by_contra hnot
    exact hk (if_neg hnot)

/-- Init has grown to hold the stack of a thread. -/
def grownRun : List Label := .dispatch 0 :: .run 0 (.growproc 0x4000 true) :: cloneRun 0 0x4000 4

/-- Init's thread grows the address space. -/
theorem sizes_agree_thread : ∃ s, (s.proc 0).sz = 0x6000 ∧ SizesAgree (kernel.restrict Sized) s := by
  obtain ⟨s, hrun, hs⟩ := exists_run Sized (grownRun ++ [.dispatch 1, .run 1 (.growproc 0x1000 true)])
    (fun s => (s.proc 0).sz = 0x6000) (by decide +kernel)
  exact ⟨s, hs, sizes_agree ⟨_, hrun⟩⟩

/-- Init's child grows, and so does the size of init's thread. -/
theorem sizes_disagree : ¬∀ s, kernel.Reachable s → SizesAgree kernel s := by
  intro h
  obtain ⟨s, hrun, h0, h1, hdir, hsz⟩ := exists_run (fun _ _ => True)
    (grownRun ++ forkRun 0 5 6 ++ [.dispatch 2, .run 2 (.growproc 0x1000 true)])
    (fun s => (s.proc 0).state = .running ∧ (s.proc 1).state = .runnable ∧
      (s.proc 0).pgdir = (s.proc 1).pgdir ∧ (s.proc 0).sz ≠ (s.proc 1).sz) (by decide +kernel)
  exact hsz ((h s ⟨_, hrun.of_restrict⟩).same 0 1 (.inl (by rw [h0]; rfl)) (.inl (by rw [h1]; rfl))
    hdir)

end PerrOS.Ptable
