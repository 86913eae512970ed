import PerrOS.Ptable.Groups

/-!
# The life of a shared address space

The page directory that `wait` or `exec` frees belongs to no other process that
is alive, and a process that has exited leaves no thread behind, where threads
stay in the groups of their processes.
-/

namespace PerrOS.Ptable

open Lib (System)
open Xv6 (Slot slots mem_slots)

variable {s t u : State} {owner p k m : Slot} {pgdir : Page} {l : Label}

/-- The step from `s` to `t` applies `freevm` to the page directory of
`owner`. -/
def Frees (s t : State) (owner : Slot) (pgdir : Page) : Prop :=
  .freevm owner pgdir ∈ t.log.drop s.log.length

instance (s t : State) (owner : Slot) (pgdir : Page) : Decidable (Frees s t owner pgdir) :=
  inferInstanceAs (Decidable (_ ∈ _))

/-- No other process that is alive has a page directory that is freed. -/
def FreesAlone (s t : State) : Prop :=
  ∀ owner pgdir, Frees s t owner pgdir →
    ∀ k, k ≠ owner → live (t.proc k).state = true → (t.proc k).pgdir ≠ pgdir

/-- What holds in a state of a kernel that allows the steps of `sys`. -/
structure Lifetime (sys : System State Label) (s : State) : Prop where
  freevm : ∀ l t, sys.step s l t → FreesAlone s t
  /-- A process that is no thread has no threads once it is a zombie. -/
  zombie : ∀ m k, (s.proc m).state = .zombie → (s.proc m).isThread = false →
    ownThread s m k = true → (s.proc k).state = .unused

-- ---------------------------------------------------------------------------
-- What a step frees
-- ---------------------------------------------------------------------------

theorem frees_append (es : List Event) (hlog : t.log = s.log ++ es) :
    Frees s t owner pgdir ↔ .freevm owner pgdir ∈ es := by
  rw [Frees, hlog, List.drop_left]

theorem not_frees (hlog : t.log = s.log) : ¬Frees s t owner pgdir := by
  rw [frees_append [] (by rw [hlog, List.append_nil])]
  exact List.not_mem_nil

section
variable {np : Slot} {pg : Page}

theorem allocStack_not_frees {kind : Kind} {c : Pc} (h : allocStack s p kind np pg c = some t) :
    ¬Frees s t owner pgdir := by
  rcases ite_eq_some.mp h with ⟨-, h⟩ | ⟨-, h⟩
  case inr => cases h
  rcases ite_eq_some.mp h with ⟨-, h⟩ | ⟨-, h⟩
  · obtain rfl := Option.some.inj h
    exact not_frees rfl
  · obtain rfl := Option.some.inj h
    rw [frees_append [.created kind (s.proc np).pid pg] rfl]
    simp

theorem forkStep_not_frees {next : ForkStage} (h : forkStep s p np pg next = some t) :
    ¬Frees s t owner pgdir := by
  cases next with
  | kstack => exact allocStack_not_frees h
  | pgdir =>
    rcases ite_eq_some.mp h with ⟨-, h⟩ | ⟨-, h⟩
    case inr => cases h
    rcases ite_eq_some.mp h with ⟨-, h⟩ | ⟨-, h⟩
    · obtain rfl := Option.some.inj h
      rw [frees_append [.unwound (s.proc np).pid (s.proc np).kstack] rfl]
      simp
    · obtain rfl := Option.some.inj h
      exact not_frees rfl
  | _ =>
    obtain rfl := Option.some.inj h
    exact not_frees rfl

theorem cloneStep_not_frees {next : CloneStage} (h : cloneStep s p np pg next = some t) :
    ¬Frees s t owner pgdir := by
  cases next with
  | kstack => exact allocStack_not_frees h
  | _ =>
    obtain rfl := Option.some.inj h
    exact not_frees rfl

end

theorem exits_not_frees {ks : List Slot} (h : Exits s p ks t) : ¬Frees s t owner pgdir := by
  cases h with
  | drop h => exact not_frees h.log
  | done h => exact not_frees h.log

/-- A page directory is freed where `wait` reaps a child, and where `exec`
replaces an image. -/
theorem Move.frees (hm : Move s l t) (hf : Frees s t owner pgdir) :
    (∃ u p, Calm s u ∧ isChild u p owner = true ∧ (u.proc owner).state = .zombie ∧
      pgdir = (u.proc owner).pgdir ∧ ∀ k, k ≠ owner → t.proc k = u.proc k) ∨
    (∃ pg sz, l = .run owner (.exec pg sz) ∧ pg ≠ 0 ∧ (s.proc owner).state = .running ∧
      pgdir = (s.proc owner).pgdir ∧ ∀ k, k ≠ owner → t.proc k = s.proc k) := by
  cases hm with
  | calm hc => exact absurd hf (not_frees hc.log)
  | create => exact absurd hf (not_frees rfl)
  | fork _ _ hs => exact absurd hf (forkStep_not_frees hs)
  | clone _ _ hs => exact absurd hf (cloneStep_not_frees hs)
  | @turn l p w u _ _ _ _ _ hcalm _ _ hturn =>
    cases hturn with
    | @reap k hk hz =>
      rw [frees_append (reapEvents u w.call k) (by simp [hcalm.log])] at hf
      cases w with
      | child =>
        obtain ⟨rfl, rfl⟩ : owner = k ∧ pgdir = (u.proc k).pgdir := by
          simpa [reapEvents, Wait.call] using hf
        exact .inl ⟨u, p, hcalm, hk, hz, rfl, fun j hj => by simp [hj]⟩
      | _ => simp [reapEvents, Wait.call] at hf
    | fail => exact absurd hf (not_frees hcalm.log)
    | sleep => exact absurd hf (not_frees hcalm.log)
  | advance _ _ hcalm => exact absurd hf (not_frees hcalm.log)
  | exit _ _ _ hx => exact absurd hf (exits_not_frees hx)
  | @resume l p i u _ _ _ hcalm _ hx =>
    have hf : Frees u t owner pgdir := by rwa [Frees, hcalm.log]
    exact absurd hf (exits_not_frees hx)
  | @commit p pg sz hp _ hpg =>
    rw [frees_append [.freevm p (s.proc p).pgdir] rfl] at hf
    obtain ⟨rfl, rfl⟩ : owner = p ∧ pgdir = (s.proc p).pgdir := by simpa using hf
    exact .inr ⟨pg, sz, rfl, hpg, hp, rfl, fun k hk => by simp [Ptable.commit, hk]⟩
  | resize => exact absurd hf (not_frees rfl)

-- ---------------------------------------------------------------------------
-- Groups
-- ---------------------------------------------------------------------------

namespace Groups

/-- A process shares its page directory with its threads only. -/
theorem shares_iff (h : Groups s) (hpages : Pages s) (hk : live (s.proc k).state = true)
    (hm : Full s m) (hth : (s.proc m).isThread = false) (hkm : k ≠ m) :
    (s.proc k).pgdir = (s.proc m).pgdir ↔ ownThread s m k = true := by
  have hasDir {j : Slot} (hj : Full s j) (hth : (s.proc j).isThread = false) : HasDir s j :=
    .inl ⟨hj, hth⟩
  rw [ownThread_iff]
  constructor
  · intro he
    by_cases hthread : (s.proc k).isThread = true
    · obtain ⟨m', hm', hmain, -⟩ := h.main k (.inl hk) hthread
      rw [h.space k m' hk hthread hm'] at he
      have := hpages.dir_inj (hasDir (.inl hmain.live) hmain.isThread) (hasDir hm hth) he
      exact ⟨hthread, this ▸ hm'⟩
    · exact absurd (hpages.dir_inj (hasDir (.inl hk) (by simpa using hthread)) (hasDir hm hth) he) hkm
  · rintro ⟨hthread, hpar⟩
    exact h.space k m hk hthread hpar

/-- A zombie has no threads. -/
theorem ownThread_zombie (h : Groups s) (hshape : Shape s) (hz : (s.proc m).state = .zombie) :
    ownThread s m k = false := by
  have hdead : live (s.proc m).state = false := by
    rw [hz]
    rfl
  refine h.ownThread_eq_false hshape ?_ fun hm => hm.ne_of_not_live hdead rfl
  rw [(hshape.dead m).mpr hdead]
  rfl

end Groups

/-- A process exits with its threads reaped, and its page directory is freed
when no other uses it, in every run where threads stay with their processes. -/
theorem lifetime (h : (kernel.restrict Grouped).Reachable s) :
    Lifetime (kernel.restrict Grouped) s := by
  obtain ⟨hpages, -, hgroups⟩ := reachable_groups h
  have hshape := reachable_shape h.of_restrict
  constructor
  · intro l t hst owner pgdir hf k hk hlive he
    rcases (next_move hst.1).frees hf with ⟨u, p, hcalm, hchild, hz, rfl, hkept⟩ |
      ⟨pg, sz, rfl, hpg, hrun, rfl, hkept⟩
    · rw [hkept k hk] at hlive he
      have hth : (u.proc owner).isThread = false := by
        simp only [isChild, Bool.and_eq_true, Bool.not_eq_true'] at hchild
        exact hchild.2
      have hown := ((hgroups.calm hcalm).shares_iff (hpages.calm hcalm) hlive (.inr hz) hth hk).mp he
      rw [(hgroups.calm hcalm).ownThread_zombie (hshape.calm hcalm) hz] at hown
      cases hown
    · obtain ⟨hth, halone⟩ := hst.2.2.2 hpg
      rw [hkept k hk] at hlive he
      have hown := (hgroups.shares_iff hpages hlive (.inl (by rw [hrun]; rfl)) hth hk).mp he
      rw [halone k hown] at hlive
      cases hlive
  · intro m k hz _ hown
    rw [hgroups.ownThread_zombie hshape hz] at hown
    cases hown

/-- Init's child clones a thread and exits: it kills the thread, joins it and
is reaped. -/
def groupRun : List Label :=
  bootRun ++ forkRun 0 4 5 ++ .dispatch 1 :: cloneRun 1 0x4000 6 ++ .run 1 .exit :: steps 1 4 ++
    [.dispatch 2, .run 2 .exit, .dispatch 1] ++ steps 1 1 ++ [.run 0 .wait]

theorem lifetime_group : ∃ s, s.log.getLast? = some (.freevm 1 5) ∧
    Lifetime (kernel.restrict Grouped) s := by
  obtain ⟨s, hrun, hs⟩ := exists_run Grouped groupRun (fun s => s.log.getLast? = some (.freevm 1 5))
    (by decide +kernel)
  exact ⟨s, hs, lifetime ⟨_, hrun⟩⟩

/-- The child has been killed when it exits: `proc_join` returns at once, and
init frees the page directory that the thread goes on to use. -/
def orphanedRun : List Label :=
  bootRun ++ forkRun 0 4 5 ++ .dispatch 1 :: cloneRun 1 0x4000 6 ++
    [.run 0 (.kill 2), .run 1 .exit] ++ steps 1 5

theorem lifetime_orphaned : ¬∀ s, kernel.Reachable s → Lifetime kernel s := by
  intro h
  obtain ⟨s, hrun, hs⟩ := exists_run (fun _ _ => True) orphanedRun
    (fun s => (next s (.run 0 .wait)).any fun t =>
      Frees s t 1 5 ∧ live (t.proc 2).state = true ∧ (t.proc 2).pgdir = 5) (by decide +kernel)
  obtain ⟨t, ht, hf⟩ := (Option.any_eq_true _ _).mp hs
  obtain ⟨hf, hlive, hdir⟩ := of_decide_eq_true hf
  exact (h s ⟨_, hrun.of_restrict⟩).freevm _ t ht 1 5 hf 2 (by decide) hlive hdir

end PerrOS.Ptable
